import VaeDb.Schemes.Siblings

/-! The document tree of a feed, and libxml2 as far as the program uses it.

    `xmlReadMemory` yields a `Document`: its top-level nodes, each an element with attributes and
    children, a text, or something else (a comment, a CDATA section, ...). A parsed node is named by
    its path, the index among its siblings first: `i :: p` is child `i` of the node at `p`, and `[]`
    is the document itself. The program changes the tree in place, so it works on a heap of nodes
    (`Document.store`); nodes it adds later are `pointer` nodes. `properties` of a node is a pointer
    to a list of attributes, and two nodes may share one: `AttrLists` knows which list each node has,
    and which lists have been freed. No list is ever changed, so a node can hold a copy.

    Parsing and XPath evaluation are libxml2's (`Libxml`), and stay parameters. -/

namespace VaeDb.Xml
open Schemes

/-- The identity of a node. -/
inductive NodeId where
  | parsed (path : List ℕ)
  | pointer (k : ℕ)
  deriving DecidableEq

inductive NodeType where
  | element
  | text
  | other
  deriving DecidableEq

/-- Attributes by name; the value is the content of the attribute's first child, if it has one. -/
abbrev Properties := List (String × Option String)

/-- What a node holds besides its links. `priv` is `_private`: the Context made for that node. -/
structure Info where
  type : NodeType
  name : String
  content : String
  properties : Properties
  priv : Option NodeId

abbrev Store := Heap NodeId Info

/-! ### Lists of attributes -/

/-- Whose list `properties` of a node leads to, and the nodes whose lists have been freed. -/
structure AttrLists where
  of : NodeId → NodeId
  freed : List NodeId

namespace AttrLists

/-- After parsing, every node has a list of its own. -/
def parsed : AttrLists := ⟨id, []⟩

/-- Follow `properties`; it is NULL where there are no attributes. -/
def read (lists : AttrLists) (n : NodeId) (properties : Properties) : Option Properties :=
  if properties ≠ [] && lists.of n ∈ lists.freed then none else some properties

/-- `xmlFreePropList(node->properties)`. -/
def xmlFreePropList (lists : AttrLists) (n : NodeId) (properties : Properties) :
    Option AttrLists :=
  if properties = [] then some lists
  else if lists.of n ∈ lists.freed then none
  else some { lists with freed := lists.of n :: lists.freed }

/-- `node->properties = m->properties`. -/
def share (lists : AttrLists) (node : NodeId) : Option NodeId → AttrLists
  | none => lists
  | some m => { lists with of := Function.update lists.of node (lists.of m) }

end AttrLists

/-- What a node takes along when it is freed. -/
def freeProps (lists : AttrLists) (n : NodeId) (cell : Cell NodeId Info) : Option AttrLists :=
  lists.xmlFreePropList n cell.data.properties

def xmlFreeNodeList : ℕ → Store → AttrLists → Option NodeId → Option (Store × AttrLists) :=
  Heap.freeListEach freeProps

def xmlFreeNode : ℕ → Store → AttrLists → NodeId → Option (Store × AttrLists) :=
  Heap.freeEach freeProps

/-! ### Documents -/

inductive Tree where
  | element (name : String) (properties : Properties) (children : List Tree)
  | text (content : String)
  | other (content : String)

abbrev Document := List Tree

namespace Tree

def children : Tree → List Tree
  | .element _ _ ts => ts
  | .text _ | .other _ => []

def info : Tree → Info
  | .element name properties _ => ⟨.element, name, "", properties, none⟩
  | .text content => ⟨.text, "text", content, [], none⟩
  | .other content => ⟨.other, "", content, [], none⟩

mutual

/-- The number of nodes. -/
def size : Tree → ℕ
  | .element _ _ ts => sizes ts + 1
  | .text _ | .other _ => 1

def sizes : List Tree → ℕ
  | [] => 0
  | t :: ts => t.size + sizes ts

end

end Tree

namespace Document

variable (doc : Document)

/-- The children of the node at a path. -/
def kids : List ℕ → List Tree
  | [] => doc
  | i :: p => match (kids p)[i]? with
    | some t => t.children
    | none => []

/-- The node at a path. -/
def at? : List ℕ → Option Tree
  | [] => none
  | i :: p => (doc.kids p)[i]?

/-- The names of the children, in order. -/
def kidIds (p : List ℕ) : List NodeId :=
  (List.range (doc.kids p).length).map fun i => .parsed (i :: p)

/-- The tree as libxml2 lays it out after parsing. -/
def store : Store
  | .pointer _ => none
  | .parsed [] => some {
      parent := none, children := (doc.kidIds []).head?, last := (doc.kidIds []).getLast?
      next := none, prev := none, data := ⟨.other, "", "", [], none⟩ }
  | .parsed (i :: p) =>
    match doc.at? (i :: p) with
    | none => none
    | some t => some {
        parent := some (.parsed p)
        children := (doc.kidIds (i :: p)).head?, last := (doc.kidIds (i :: p)).getLast?
        next := (doc.kidIds p)[i + 1]?, prev := ((doc.kidIds p).take i).getLast?
        data := t.info }

variable {doc}

theorem at?_eq_some_iff {i : ℕ} {p : List ℕ} :
    (∃ t, doc.at? (i :: p) = some t) ↔ i < (doc.kids p).length := by
  rw [at?, ← Option.isSome_iff_exists, isSome_getElem?]

theorem mem_kidIds {n : NodeId} {p : List ℕ} :
    n ∈ doc.kidIds p ↔ ∃ i t, doc.at? (i :: p) = some t ∧ n = .parsed (i :: p) := by
  simp only [kidIds, List.mem_map, List.mem_range, ← at?_eq_some_iff]
  constructor
  · rintro ⟨i, ⟨t, ht⟩, rfl⟩
    exact ⟨i, t, ht, rfl⟩
  · rintro ⟨i, t, ht, rfl⟩
    exact ⟨i, ⟨t, ht⟩, rfl⟩

theorem nodup_kidIds (p : List ℕ) : (doc.kidIds p).Nodup :=
  List.nodup_range.map fun i j h => by simpa using h

theorem store_ends {p : List ℕ} (hp : p = [] ∨ ∃ t, doc.at? p = some t) :
    ∃ c, doc.store (.parsed p) = some c ∧ c.children = (doc.kidIds p).head? ∧
      c.last = (doc.kidIds p).getLast? := by
  cases p with
  | nil => exact ⟨_, rfl, rfl, rfl⟩
  | cons i p =>
    rcases hp with hp | ⟨t, ht⟩
    · cases hp
    · exact ⟨_, by rw [store, ht], rfl, rfl⟩

/-- After parsing, the children of a node are linked in the order of the document. -/
theorem store_linked {p : List ℕ} (hp : p = [] ∨ ∃ t, doc.at? p = some t) :
    Linked doc.store (.parsed p) (doc.kidIds p) := by
  refine ⟨nodup_kidIds p, store_ends hp, fun A n B hsplit => ?_⟩
  have hget : (doc.kidIds p)[A.length]? = some n := by rw [hsplit]; simp
  obtain ⟨i, t, ht, rfl⟩ := mem_kidIds.mp (List.mem_of_getElem? hget)
  -- the index of the member is its position in the list
  obtain rfl : A.length = i := by
    have hlt : A.length < (doc.kids p).length := by
      have := List.getElem?_eq_some_iff.mp hget
      simpa [kidIds] using this.1
    simpa [kidIds, hlt] using hget
  refine ⟨_, by rw [store, ht], rfl, ?_, ?_⟩
  · rw [hsplit]
    simp
  · rw [hsplit]
    cases B <;> simp

end Document

/-- A member of an XPath node set: a node of the tree, or an attribute with its value. -/
inductive XmlNode where
  | node (n : NodeId)
  | attr (value : Option String)
  deriving DecidableEq

/-- What `xmlXPathEvalExpression` answers: NULL, a node set, or an object of another type. -/
inductive XPathObject where
  | null
  | nodeset (nodes : List XmlNode)
  | other

structure Libxml where
  xmlReadMemory : String → Option Document
  xmlXPathEvalExpression : Store → Option NodeId → String → XPathObject

end VaeDb.Xml
