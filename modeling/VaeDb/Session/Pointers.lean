import VaeDb.Schemes.Calls
import VaeDb.Session.CreateInfo
import VaeDb.Session.FilterMatch
import VaeDb.Session.Paging

/-! The pointers that a request follows.

    `get` and `createInfo` take nodes from node sets by index, Contexts from the `_private` of nodes,
    structures from Contexts. A `Use` is one such index or pointer, where the source dereferences it;
    the uses of a request are listed as far as the request gets. Some uses are checked before, and
    some are not:

        get         node i of the set          bounds of the loop
                    what is there of it        ✗  (a query for an id finds freed items)
                    what the filter walks      ✗
                    Context to keep            if (ctxt)
                    Context for unique         ✗
        createInfo  node 0 of the main query   getSize() > 0
                    what is there of it        ✗
                    Context                    if (context)
                    its structure              ✗
                    node 0 of its design       ✗
                    text of its id attribute   ✗

    What `fetch_query`, `getData` and `getCount` follow while they look something up is not listed:
    they belong to `Query` and `Context`, and come in as `Lookups`. -/

namespace VaeDb
open Schemes Xml Cpp

/-- A pointer that is dereferenced, or an index into a node set. -/
inductive Use where
  | xmlNode (node : XmlNode)
  | properties (node : XmlNode)
  | content (ptr : Option String)
  | context (ptr : Option NodeId)
  | struct (ptr : Option VaeDbStructure)
  | node (query : Query) (i : ℕ)

/-- The node is there. What a node set has of an attribute is copied when it is made. -/
def There (site : Site) : XmlNode → Prop
  | .attr _ => True
  | .node n => ∃ cell, site.doc n = some cell

/-- The pointer leads to something that is there, and the index is less than `getSize()`. Only
    nodes have attributes. -/
def Use.Present (site : Site) : Use → Prop
  | .xmlNode x => There site x
  | .properties x => ∃ n properties, x = .node n ∧ site.properties n = .ok properties
  | .content ptr => ∃ value, ptr = some value
  | .context ptr => ∃ c ctxt, ptr = some c ∧ site.contexts c = some ctxt
  | .struct ptr => ∃ s, ptr = some s
  | .node query i => (i : ℤ) < query.getSize

/-- A null pointer. -/
def Use.null : Use → Bool
  | .context ptr => ptr.isNone
  | .struct ptr => ptr.isNone
  | .content ptr => ptr.isNone
  | .xmlNode _ | .properties _ | .node _ _ => false

/-- What is used once a part has returned. -/
def andThen {α : Type} (r : Result α) (uses : α → List Use) : List Use :=
  match r with
  | .ok a => uses a
  | .error _ => []

/-- The comparisons that `std::sort` makes. -/
def Cpp.SortTree.asked {n : ℕ} (comp : Fin n → Fin n → Result Bool) :
    SortTree n → List (Fin n × Fin n)
  | .less i j yes no => (i, j) :: match comp i j with
    | .ok true => yes.asked comp
    | .ok false => no.asked comp
    | .error _ => []
  | .done _ | .overrun => []

namespace Response
open Request

section Uses

variable (ops : Lookups Result) (rt : Runtime) (site : Site)

/-! ### The uses of a get -/

/-- The nodes that a loop over siblings comes to, each with those that its body does. -/
def siblingNodes (body : Cell NodeId Info → List NodeId) : ℕ → Option NodeId → List NodeId
  | _, none => []
  | 0, some n => [n]
  | fuel + 1, some n => n :: match site.doc n with
    | none => []
    | some cell => body cell ++ siblingNodes body fuel cell.next

/-- The nodes that `filterMatchRecursive` comes to. -/
def filterNodes : ℕ → Option NodeId → List NodeId
  | 0, first => siblingNodes site (fun _ => []) site.allocated first
  | levels + 1, first =>
    siblingNodes site (fun child => match child.data.type with
      | .element => filterNodes levels child.children
      | .text | .other => [])
      site.allocated first

/-- The nodes that `filterMatch` comes to. -/
def filterWalk : XmlNode → List XmlNode
  | .attr value => [.attr value]
  | .node n => .node n :: match site.doc n with
    | none => []
    | some cell => (filterNodes site 1 cell.children).map .node

def uniqueMatchUses (node : XmlNode) : List Use :=
  .xmlNode node :: andThen (Query.privateOf site node) fun ptr => [.context ptr]

/-- `!filter || filterMatch(node)`. -/
def passes (o : Request) (node : XmlNode) : Result Bool :=
  if o.filter then filterMatch site o.filterTerms node else pure true

def nodeMatchUses (o : Request) (node : XmlNode) : List Use :=
  (if o.filter then (filterWalk site node).map .xmlNode else []) ++
    andThen (passes site o node) fun matched =>
      if matched && o.unique then uniqueMatchUses site node else []

/-- A node that counts is asked for its Context if it is in the window. -/
def tallyUses (o : Request) (w : Window) (t : Tally) (node : XmlNode) : List Use :=
  nodeMatchUses site o node ++
    andThen (nodeMatch ops site o t.uniqueFound node) fun result =>
      if result.1 && !(t.skipped < w.start) && t.included + t.skipped < w.stop then [.xmlNode node]
      else []

/-- The two loops over the node set. -/
def collectUses (o : Request) (w : Window) (nodes : Query) : List Use :=
  if o.filter || o.unique then
    (calls (tallyNode ops site o w) {} nodes).zipIdx.flatMap fun call =>
      .node nodes call.2 :: tallyUses ops site o w call.1.1 call.1.2
  else
    (calls (pushNode site nodes) [] (List.range' w.start.toNat (w.stop - w.start).toNat)).flatMap
      fun call => .node nodes call.2 :: andThen (Query.getNode nodes call.2) fun node =>
        [.xmlNode node]

/-- What `sortCallback` asks of one of its Contexts first. -/
def fieldLookup (context : NodeId) (f : SortField) : Result Unit :=
  if f.field = "id" then do
    let _ ← getId site context
    pure ()
  else if f.count then do
    let _ ← ops.getCount context f.field
    pure ()
  else do
    let _ ← ops.getData context f.field
    pure ()

def sortCallbackUses (lhs rhs : NodeId) : List SortField → List Use
  | [] => []
  | f :: _ => .context (some lhs) ::
    andThen (fieldLookup ops site lhs f) fun _ => [.context (some rhs)]

def orderUses (o : Request) (contexts : List NodeId) : List Use :=
  if o.sortType = .specific then
    ((rt.sort contexts.length).asked fun i j =>
      sortCallback ops site (contexts.get i) (contexts.get j) o.sortFields).flatMap fun ij =>
        sortCallbackUses ops site (contexts.get ij.1) (contexts.get ij.2) o.sortFields
  else []

def queryUses (o : Request) (context : Option NodeId) (q : String) : List Use :=
  andThen (ops.fetch_query context q) fun nodes =>
    andThen (o.window rt.float nodes.getSize) fun w =>
      collectUses ops site o w nodes ++
        andThen (collect ops site o w nodes) fun found => orderUses ops rt site o found.contexts

def getUses (shuffle : ℕ → List NodeId → List NodeId) (parent : Option Response) (q : String)
    (options : Options) : List Use :=
  (visited (fun c : Option NodeId × ℕ => query ops rt site (shuffle c.2) (parse options) c.1 q)
    (parents parent).zipIdx).flatMap fun c => queryUses ops rt site (parse options) c.1 q

/-! ### The uses of a createInfo -/

def mainContextUses (context : Option NodeId) (queryParts : List String) : List Use :=
  if join queryParts "/" = "" then []
  else andThen (ops.fetch_query context (join queryParts "/")) fun nodes => match nodes with
    | [] => []
    | node :: _ => [.node nodes 0, .xmlNode node]

def runDesignQueryUses : Option NodeId → List Use
  | none => []
  | some c => .context (some c) :: andThen (deref (site.contexts c)) fun ctxt =>
    .struct ctxt.struct :: andThen (deref ctxt.struct) fun s =>
      andThen (Query.runRawQuery rt.lib site none (designPath s.id) (designPath s.id)) fun nodes =>
        [.node nodes 0]

/-- `context->getId()`, where there is a context. -/
def rowUses : Option NodeId → List Use
  | none => []
  | some c => [.context (some c)]

/-- `ci.row_id`. -/
def rowId : Option NodeId → Result ℤ
  | none => pure 0
  | some c => getId site c

/-- The loop over the attributes, which reads those that are called `id`. -/
def structureIdUses (node : XmlNode) : List Use :=
  .properties node :: andThen (XmlNode.toNode node >>= site.properties) fun properties =>
    (calls readId 0 properties).flatMap fun call =>
      if call.2.1 = "id" then [.content call.2.2] else []

def createInfoUses (query : String) (context : Option NodeId) : List Use :=
  let queryParts := split ['/'] query
  let lastPart := queryParts.getLastD ""
  mainContextUses ops context queryParts.dropLast ++
    andThen (mainContext ops site context queryParts.dropLast lastPart) fun context =>
      rowUses context ++ andThen (rowId site context) fun _ =>
        if atoi lastPart ≠ 0 then []
        else runDesignQueryUses rt site context ++
          andThen (Query.runDesignQuery rt.lib site context lastPart) fun nodes => match nodes with
            | [] => []
            | node :: _ => .node nodes 0 :: structureIdUses site node

def createInfosUses (parent : Option Response) (query : String) : List Use :=
  (visited (createInfo ops rt site query) (parents parent)).flatMap
    (createInfoUses ops rt site query)

end Uses

/-! ### When they are present -/

/-- The node is there, and its `_private` leads to a Context that is there. -/
def HasContext (site : Site) (node : XmlNode) : Prop :=
  ∃ c ctxt, Query.privateOf site node = .ok (some c) ∧ site.contexts c = some ctxt

/-- A `get` for one context. Without `filter` and `unique` the nodes in the window are there. With
    `filter`, so are those that the filter walks over, from every node that the loop comes to; with
    `unique`, every node that passes the filter and that the loop comes to has a Context. With an order
    by fields, the Contexts that a comparison gets to are there. -/
structure GetSafe (ops : Lookups Result) (rt : Runtime) (site : Site) (o : Request)
    (context : Option NodeId) (q : String) : Prop where
  plain : o.filter = false → o.unique = false → ∀ nodes w (i : ℕ) node,
    ops.fetch_query context q = .ok nodes → o.window rt.float nodes.getSize = .ok w →
    nodes[i]? = some node → w.start ≤ i → i < w.stop → There site node
  filter : o.filter → ∀ nodes w before node behind t, ops.fetch_query context q = .ok nodes →
    o.window rt.float nodes.getSize = .ok w → nodes = before ++ node :: behind →
    before.foldlM (tallyNode ops site o w) {} = .ok t → ∀ n ∈ filterWalk site node, There site n
  unique : o.unique → ∀ nodes w before node behind t, ops.fetch_query context q = .ok nodes →
    o.window rt.float nodes.getSize = .ok w → nodes = before ++ node :: behind →
    before.foldlM (tallyNode ops site o w) {} = .ok t → passes site o node = .ok true →
    HasContext site node
  order : o.sortType = .specific → ∀ nodes w found i j f fields,
    ops.fetch_query context q = .ok nodes → o.window rt.float nodes.getSize = .ok w →
    collect ops site o w nodes = .ok found →
    (i, j) ∈ (rt.sort found.contexts.length).asked (fun i j =>
      sortCallback ops site (found.contexts.get i) (found.contexts.get j) o.sortFields) →
    o.sortFields = f :: fields →
    (∃ ctxt, site.contexts (found.contexts.get i) = some ctxt) ∧
      (fieldLookup ops site (found.contexts.get i) f = .ok () →
        ∃ ctxt, site.contexts (found.contexts.get j) = some ctxt)

/-- The attributes of the node are there, and those called `id` have a text. -/
def HasIds (site : Site) (node : XmlNode) : Prop :=
  ∃ n properties, node = .node n ∧ site.properties n = .ok properties ∧
    ∀ p ∈ properties, p.1 = "id" → p.2 ≠ none

/-- A `createInfo` for one context. The node that the main part of the query finds first is there. The
    Context it ends up with, if any, is there; unless the last part is a number, it has a structure,
    the design has a place for that, and what the last part finds there has its attributes. -/
structure CreateSafe (ops : Lookups Result) (rt : Runtime) (site : Site) (query : String)
    (context : Option NodeId) : Prop where
  main : join (split ['/'] query).dropLast "/" ≠ "" → ∀ node rest,
    ops.fetch_query context (join (split ['/'] query).dropLast "/") = .ok (node :: rest) →
    There site node
  held : ∀ c, mainContext ops site context (split ['/'] query).dropLast
      ((split ['/'] query).getLastD "") = .ok (some c) →
    ∃ ctxt, site.contexts c = some ctxt ∧ (atoi ((split ['/'] query).getLastD "") = 0 →
      ∃ s, ctxt.struct = some s ∧
        Query.runRawQuery rt.lib site none (designPath s.id) (designPath s.id) ≠ .ok [])
  design : atoi ((split ['/'] query).getLastD "") = 0 → ∀ c node rest,
    mainContext ops site context (split ['/'] query).dropLast
      ((split ['/'] query).getLastD "") = .ok c →
    Query.runDesignQuery rt.lib site c ((split ['/'] query).getLastD "") = .ok (node :: rest) →
    HasIds site node

variable {ops : Lookups Result} {rt : Runtime} {site : Site} {o : Request}
  {context : Option NodeId} {q query : String} {nodes : Query} {w : Window}

theorem forall_andThen {α : Type} {r : Result α} {uses : α → List Use} {P : Use → Prop} :
    (∀ u ∈ andThen r uses, P u) ↔ ∀ a, r = .ok a → ∀ u ∈ uses a, P u := by
  cases r with
  | ok a => simp [andThen]
  | error e => simp [andThen]

theorem present_node {i : ℕ} : (Use.node nodes i).Present site ↔ i < nodes.length := by
  rw [Use.Present, Query.getSize]
  exact Int.ofNat_lt

/-- `node->_private` can be read if the node is there. -/
theorem there_iff {node : XmlNode} :
    There site node ↔ ∃ ptr, Query.privateOf site node = .ok ptr := by
  cases node with
  | attr value => exact iff_of_true trivial ⟨none, rfl⟩
  | node n =>
    rw [There, Query.privateOf]
    cases site.doc n with
    | none => exact iff_of_false (by simp) (by rintro ⟨ptr, ⟨⟩⟩)
    | some cell => exact iff_of_true ⟨cell, rfl⟩ ⟨_, rfl⟩

theorem uniqueMatchUses_present {node : XmlNode} :
    (∀ u ∈ uniqueMatchUses site node, u.Present site) ↔ HasContext site node := by
  rw [uniqueMatchUses, List.forall_mem_cons, forall_andThen]
  simp only [Use.Present, List.forall_mem_singleton, there_iff]
  constructor
  · rintro ⟨⟨ptr, hptr⟩, h⟩
    obtain ⟨c, ctxt, rfl, hctxt⟩ := h ptr hptr
    exact ⟨c, ctxt, hptr, hctxt⟩
  · rintro ⟨c, ctxt, hptr, hctxt⟩
    refine ⟨⟨_, hptr⟩, fun ptr hptr' => ⟨c, ctxt, ?_, hctxt⟩⟩
    exact (Except.ok.inj (hptr.symm.trans hptr')).symm

/-- What `filter` and `unique` need of a node. -/
theorem nodeMatchUses_present {node : XmlNode} :
    (∀ u ∈ nodeMatchUses site o node, u.Present site) ↔
      (o.filter → ∀ n ∈ filterWalk site node, There site n) ∧
      (o.unique → passes site o node = .ok true → HasContext site node) := by
  rw [nodeMatchUses, List.forall_mem_append, forall_andThen]
  refine and_congr ?_ ⟨fun h hunique hpass => ?_, fun h matched hpass => ?_⟩
  · split
    · next hfilter => simp [hfilter, Use.Present]
    · next hfilter => simp [hfilter]
  · have huses := h true hpass
    rw [hunique] at huses
    exact uniqueMatchUses_present.mp huses
  · cases matched with
    | false => simp
    | true =>
      cases hunique : o.unique with
      | false => simp
      | true => exact uniqueMatchUses_present.mpr (h hunique hpass)

theorem mem_filterWalk (node : XmlNode) : node ∈ filterWalk site node := by
  cases node with
  | attr value => exact List.mem_singleton_self _
  | node n => exact List.mem_cons_self

/-- The Context of a node that counts is read once more, when the node is known to be there. -/
theorem tallyUses_present {node : XmlNode} {t : Tally} (h : o.filter || o.unique) :
    (∀ u ∈ tallyUses ops site o w t node, u.Present site) ↔
      (o.filter → ∀ n ∈ filterWalk site node, There site n) ∧
      (o.unique → passes site o node = .ok true → HasContext site node) := by
  rw [tallyUses, List.forall_mem_append, nodeMatchUses_present]
  refine and_iff_left_of_imp fun ⟨hfilter, hunique⟩ => forall_andThen.mpr fun result hmatch => ?_
  split
  · next hcounts =>
    rw [Bool.and_eq_true, Bool.and_eq_true] at hcounts
    refine List.forall_mem_singleton.mpr ?_
    cases hfiltered : o.filter with
    | true => exact hfilter hfiltered _ (mem_filterWalk node)
    | false =>
      rw [hfiltered, Bool.false_or] at h
      rw [nodeMatch] at hmatch
      obtain ⟨matched, hpass, hmatch⟩ := bind_eq_ok.mp hmatch
      cases matched with
      | false =>
        cases pure_eq_ok.mp hmatch
        exact absurd hcounts.1.1 (by simp)
      | true =>
        obtain ⟨c, ctxt, hptr, -⟩ := hunique h hpass
        exact there_iff.mpr ⟨_, hptr⟩
  · simp

/-- One index of the loop that does not filter. -/
theorem pushNode_present {i : ℕ} :
    (∀ u ∈ Use.node nodes i :: andThen (Query.getNode nodes i) fun node => [.xmlNode node],
      u.Present site) ↔ ∃ node, nodes[i]? = some node ∧ There site node := by
  rw [List.forall_mem_cons, forall_andThen, present_node]
  simp only [List.forall_mem_singleton]
  constructor
  · rintro ⟨hi, h⟩
    have hget : nodes[i]? = some nodes[i] := List.getElem?_eq_getElem hi
    exact ⟨_, hget, h _ (by rw [Query.getNode, hget]; rfl)⟩
  · rintro ⟨node, hnode, hthere⟩
    refine ⟨(List.getElem?_eq_some_iff.mp hnode).1, fun node' hnode' => ?_⟩
    rw [Query.getNode, hnode] at hnode'
    cases hnode'
    exact hthere

theorem pushNode_returns {i : ℕ} {node : XmlNode} (hnode : nodes[i]? = some node)
    (hthere : There site node) (contexts : List NodeId) :
    ∃ contexts', pushNode site nodes contexts i = .ok contexts' := by
  obtain ⟨ptr, hptr⟩ := there_iff.mp hthere
  rw [pushNode, Query.getNode, hnode]
  change ∃ contexts', (Query.privateOf site node >>= _) = _
  rw [hptr]
  cases ptr <;> exact ⟨_, rfl⟩

/-- The loops stay within the node set. -/
theorem collectUses_present (hw : o.window rt.float nodes.getSize = .ok w) :
    (∀ u ∈ collectUses ops site o w nodes, u.Present site) ↔
      (o.filter = false → o.unique = false → ∀ (i : ℕ) node, nodes[i]? = some node →
        w.start ≤ i → i < w.stop → There site node) ∧
      (o.filter → ∀ before node behind t, nodes = before ++ node :: behind →
        before.foldlM (tallyNode ops site o w) {} = .ok t → ∀ n ∈ filterWalk site node,
        There site n) ∧
      (o.unique → ∀ before node behind t, nodes = before ++ node :: behind →
        before.foldlM (tallyNode ops site o w) {} = .ok t → passes site o node = .ok true →
        HasContext site node) := by
  rw [collectUses]
  split
  · next hloop =>
    have hcalls : (∀ u ∈ (calls (tallyNode ops site o w) {} nodes).zipIdx.flatMap fun call =>
        .node nodes call.2 :: tallyUses ops site o w call.1.1 call.1.2, u.Present site) ↔
        ∀ call ∈ calls (tallyNode ops site o w) {} nodes,
          ∀ u ∈ tallyUses ops site o w call.1 call.2, u.Present site := by
      simp only [List.forall_mem_flatMap, List.forall_mem_cons]
      constructor
      · intro h call hcall
        obtain ⟨i, hi, hget⟩ := List.getElem_of_mem hcall
        exact (h (call, i) (List.mk_mem_zipIdx_iff_getElem?.mpr (by simp [hi, hget]))).2
      · intro h call hcall
        have hget := List.mem_zipIdx_iff_getElem?.mp hcall
        obtain ⟨hi, -⟩ := List.getElem?_eq_some_iff.mp hget
        refine ⟨present_node.mpr (hi.trans_le (length_calls_le _ _ _)), h _ ?_⟩
        exact List.mem_of_getElem? hget
    rw [hcalls]
    simp only [tallyUses_present hloop]
    constructor
    · intro h
      refine ⟨fun hfilter hunique => by simp [hfilter, hunique] at hloop,
        fun hfilter before node behind t hsplit ht => ?_,
        fun hunique before node behind t hsplit ht => ?_⟩
      · exact (h (t, node) (mem_calls.mpr ⟨before, behind, hsplit, ht⟩)).1 hfilter
      · exact (h (t, node) (mem_calls.mpr ⟨before, behind, hsplit, ht⟩)).2 hunique
    · rintro ⟨-, hfilter, hunique⟩ call hcall
      obtain ⟨before, behind, hsplit, ht⟩ := mem_calls.mp hcall
      exact ⟨fun h => hfilter h before call.2 behind call.1 hsplit ht,
        fun h => hunique h before call.2 behind call.1 hsplit ht⟩
  · next hplain =>
    rw [Bool.or_eq_true, not_or, Bool.not_eq_true, Bool.not_eq_true] at hplain
    obtain ⟨hfilter, hunique⟩ := hplain
    obtain ⟨page, -, hof⟩ := window_eq_ok hw
    have hstart : 0 ≤ w.start := by
      rw [hof.start, hof.skip]
      split <;> omega
    have hstop : w.stop ≤ nodes.length := by
      rw [hof.stop, Query.getSize]
      split <;> omega
    simp only [hfilter, hunique, List.forall_mem_flatMap, true_imp_iff, Bool.false_eq_true,
      false_imp_iff, and_true, pushNode_present]
    rw [forall_calls_iff (P := fun i => ∃ node, nodes[i]? = some node ∧ There site node)
      fun contexts i ⟨node, hnode, hthere⟩ => pushNode_returns hnode hthere contexts]
    constructor
    · intro h i node hnode hlow hhigh
      obtain ⟨node', hnode', hthere⟩ := h i (by rw [List.mem_range'_1]; omega)
      obtain rfl := Option.some.inj (hnode.symm.trans hnode')
      exact hthere
    · intro h i hi
      rw [List.mem_range'_1] at hi
      have hnode : nodes[i]? = some nodes[i] := List.getElem?_eq_getElem (by omega)
      exact ⟨_, hnode, h i _ hnode (by omega) (by omega)⟩

theorem sortCallbackUses_present {lhs rhs : NodeId} {fields : List SortField} :
    (∀ u ∈ sortCallbackUses ops site lhs rhs fields, u.Present site) ↔
      ∀ f rest, fields = f :: rest → (∃ ctxt, site.contexts lhs = some ctxt) ∧
        (fieldLookup ops site lhs f = .ok () → ∃ ctxt, site.contexts rhs = some ctxt) := by
  cases fields with
  | nil => simp [sortCallbackUses]
  | cons f rest =>
    have hcontext : ∀ c, (Use.context (some c)).Present site ↔
        ∃ ctxt, site.contexts c = some ctxt := fun c => by simp [Use.Present]
    rw [sortCallbackUses, List.forall_mem_cons, forall_andThen, hcontext]
    simp only [List.forall_mem_singleton, hcontext]
    constructor
    · rintro ⟨hlhs, hrhs⟩ f' rest' heq
      cases heq
      exact ⟨hlhs, hrhs ()⟩
    · intro h
      exact ⟨(h f rest rfl).1, fun _ hlookup => (h f rest rfl).2 hlookup⟩

/-- Only the comparisons use Contexts; none of those kept is null. -/
theorem orderUses_present {contexts : List NodeId} :
    (∀ u ∈ orderUses ops rt site o contexts, u.Present site) ↔
      (o.sortType = .specific → ∀ i j f fields,
        (i, j) ∈ (rt.sort contexts.length).asked (fun i j =>
          sortCallback ops site (contexts.get i) (contexts.get j) o.sortFields) →
        o.sortFields = f :: fields → (∃ ctxt, site.contexts (contexts.get i) = some ctxt) ∧
          (fieldLookup ops site (contexts.get i) f = .ok () →
            ∃ ctxt, site.contexts (contexts.get j) = some ctxt)) := by
  rw [orderUses]
  split
  · next hsort =>
    simp only [List.forall_mem_flatMap, sortCallbackUses_present, hsort, true_imp_iff, Prod.forall]
    exact ⟨fun h i j f fields hij hfields => h i j hij f fields hfields,
      fun h i j hij f fields hfields => h i j f fields hij hfields⟩
  · next hsort => simp [hsort]

theorem queryUses_present :
    (∀ u ∈ queryUses ops rt site o context q, u.Present site) ↔ GetSafe ops rt site o context q := by
  rw [queryUses]
  simp only [forall_andThen, List.forall_mem_append]
  constructor
  · intro h
    have hcollect := fun nodes hnodes w hw => (collectUses_present hw).mp (h nodes hnodes w hw).1
    refine ⟨fun hfilter hunique nodes w i node hnodes hw => ?_, fun hfilter nodes w before node behind t
      hnodes hw => ?_, fun hunique nodes w before node behind t hnodes hw => ?_,
      fun hsort nodes w found i j f fields hnodes hw hfound hij hfields => ?_⟩
    · exact (hcollect nodes hnodes w hw).1 hfilter hunique i node
    · exact (hcollect nodes hnodes w hw).2.1 hfilter before node behind t
    · exact (hcollect nodes hnodes w hw).2.2 hunique before node behind t
    · exact orderUses_present.mp ((h nodes hnodes w hw).2 found hfound) hsort i j f fields hij hfields
  · intro h nodes hnodes w hw
    refine ⟨(collectUses_present hw).mpr ⟨fun hfilter hunique i node => ?_,
      fun hfilter before node behind t => ?_, fun hunique before node behind t => ?_⟩,
      fun found hfound => orderUses_present.mpr fun hsort i j f fields hij hfields => ?_⟩
    · exact h.plain hfilter hunique nodes w i node hnodes hw
    · exact h.filter hfilter nodes w before node behind t hnodes hw
    · exact h.unique hunique nodes w before node behind t hnodes hw
    · exact h.order hsort nodes w found i j f fields hnodes hw hfound hij hfields

theorem mainContextUses_present (queryParts : List String) :
    (∀ u ∈ mainContextUses ops context queryParts, u.Present site) ↔
      (join queryParts "/" ≠ "" → ∀ node rest,
        ops.fetch_query context (join queryParts "/") = .ok (node :: rest) → There site node) := by
  rw [mainContextUses]
  split
  · next hmain => simp [hmain]
  · next hmain =>
    rw [forall_andThen]
    constructor
    · intro h _ node rest hnodes
      exact (List.forall_mem_cons.mp (h _ hnodes)).2 _ (List.mem_singleton_self _)
    · intro h nodes hnodes
      cases nodes with
      | nil => simp
      | cons node rest =>
        refine List.forall_mem_cons.mpr ⟨present_node.mpr (by simp), ?_⟩
        exact List.forall_mem_singleton.mpr (h hmain node rest hnodes)

theorem runDesignQueryUses_present {c : NodeId} {ctxt : Context}
    (hctxt : site.contexts c = some ctxt) :
    (∀ u ∈ runDesignQueryUses rt site (some c), u.Present site) ↔ ∃ s, ctxt.struct = some s ∧
      Query.runRawQuery rt.lib site none (designPath s.id) (designPath s.id) ≠ .ok [] := by
  have hptr : (Use.context (some c)).Present site := ⟨c, ctxt, rfl, hctxt⟩
  rw [runDesignQueryUses, List.forall_mem_cons, and_iff_right hptr, forall_andThen]
  simp only [deref_eq_ok, hctxt, Option.some.injEq, forall_eq', List.forall_mem_cons,
    forall_andThen, present_node]
  constructor
  · rintro ⟨⟨s, hs⟩, hnodes⟩
    refine ⟨s, hs, fun hnil => ?_⟩
    exact absurd (hnodes s hs [] hnil).1 (by simp)
  · rintro ⟨s, hs, hne⟩
    refine ⟨⟨s, hs⟩, fun s' hs' nodes hnodes => ⟨List.length_pos_of_ne_nil ?_, by simp⟩⟩
    rintro rfl
    rw [hs, Option.some.injEq] at hs'
    exact hne (hs' ▸ hnodes)

/-- The loop over the attributes reads the text of each `id`. -/
theorem structureIdUses_present {node : XmlNode} :
    (∀ u ∈ structureIdUses site node, u.Present site) ↔ HasIds site node := by
  have hread : ∀ (properties : Properties), (∀ u ∈ (calls readId 0 properties).flatMap fun call =>
      if call.2.1 = "id" then [Use.content call.2.2] else [], u.Present site) ↔
      ∀ p ∈ properties, p.1 = "id" → p.2 ≠ none := by
    intro properties
    have hreturns : ∀ (id : ℤ) (p : String × Option String), (p.1 = "id" → p.2 ≠ none) →
        ∃ id', readId id p = .ok id' := by
      rintro id ⟨name, value⟩ hp
      rw [readId]
      split
      · next hname =>
        obtain ⟨text, rfl⟩ := Option.ne_none_iff_exists'.mp (hp hname)
        exact ⟨_, rfl⟩
      · exact ⟨_, rfl⟩
    rw [← forall_calls_iff hreturns, List.forall_mem_flatMap]
    refine forall₂_congr fun call _ => ?_
    split
    · next hname => simp [hname, Use.Present, Option.ne_none_iff_exists']
    · next hname => simp [hname]
  rw [structureIdUses, List.forall_mem_cons, forall_andThen]
  simp only [hread]
  simp only [Use.Present]
  constructor
  · rintro ⟨⟨n, properties, rfl, hproperties⟩, h⟩
    exact ⟨n, properties, rfl, hproperties, h properties hproperties⟩
  · rintro ⟨n, properties, rfl, hproperties, h⟩
    refine ⟨⟨n, properties, rfl, hproperties⟩, fun properties' hproperties' => ?_⟩
    obtain rfl := Except.ok.inj (hproperties.symm.trans hproperties')
    exact h

theorem createInfoUses_present :
    (∀ u ∈ createInfoUses ops rt site query context, u.Present site) ↔
      CreateSafe ops rt site query context := by
  rw [createInfoUses]
  simp only [List.forall_mem_append, forall_andThen, mainContextUses_present]
  constructor
  · rintro ⟨hmain, h⟩
    have hheld : ∀ c, mainContext ops site context (split ['/'] query).dropLast
        ((split ['/'] query).getLastD "") = .ok (some c) → ∃ ctxt, site.contexts c = some ctxt := by
      intro c hc
      obtain ⟨c', ctxt, hc', hctxt⟩ : (Use.context (some c)).Present site :=
        (h (some c) hc).1 _ (List.mem_singleton_self _)
      cases hc'
      exact ⟨ctxt, hctxt⟩
    -- the row can be read, so the rest is come to
    have hrest : ∀ c, mainContext ops site context (split ['/'] query).dropLast
        ((split ['/'] query).getLastD "") = .ok c → atoi ((split ['/'] query).getLastD "") = 0 →
        (∀ u ∈ runDesignQueryUses rt site c, u.Present site) ∧ ∀ node rest,
          Query.runDesignQuery rt.lib site c ((split ['/'] query).getLastD "") = .ok (node :: rest) →
          HasIds site node := by
      intro c hc hlast
      obtain ⟨id, hid⟩ : ∃ id, rowId site c = .ok id := by
        cases c with
        | none => exact ⟨0, rfl⟩
        | some c =>
          obtain ⟨ctxt, hctxt⟩ := hheld c hc
          exact ⟨ctxt.id, by rw [rowId, getId, hctxt]; rfl⟩
      have huses := (h c hc).2 id hid
      rw [if_neg (not_not.mpr hlast), List.forall_mem_append, forall_andThen] at huses
      refine ⟨huses.1, fun node rest hnodes => structureIdUses_present.mp ?_⟩
      exact (List.forall_mem_cons.mp (huses.2 _ hnodes)).2
    refine ⟨hmain, fun c hc => ?_, fun hlast c node rest hc => (hrest c hc hlast).2 node rest⟩
    obtain ⟨ctxt, hctxt⟩ := hheld c hc
    exact ⟨ctxt, hctxt, fun hlast =>
      (runDesignQueryUses_present hctxt).mp (hrest (some c) hc hlast).1⟩
  · intro h
    refine ⟨h.main, fun c hc => ?_⟩
    have hlastUses : ∀ u ∈ andThen (Query.runDesignQuery rt.lib site c
        ((split ['/'] query).getLastD "")) fun nodes => match nodes with
          | [] => []
          | node :: _ => .node nodes 0 :: structureIdUses site node,
        atoi ((split ['/'] query).getLastD "") = 0 → u.Present site := by
      refine forall_andThen.mpr fun nodes hnodes u hu hlast => ?_
      cases nodes with
      | nil => cases hu
      | cons node rest =>
        rcases List.mem_cons.mp hu with rfl | hu
        · exact present_node.mpr (by simp)
        · exact structureIdUses_present.mpr (h.design hlast c node rest hc hnodes) u hu
    cases c with
    | none =>
      refine ⟨by simp [rowUses], fun _ _ => ?_⟩
      split
      · simp
      · next hlast =>
        rw [List.forall_mem_append]
        exact ⟨by simp [runDesignQueryUses], fun u hu => hlastUses u hu (not_not.mp hlast)⟩
    | some c =>
      obtain ⟨ctxt, hctxt, hdesign⟩ := h.held c hc
      refine ⟨List.forall_mem_singleton.mpr ⟨c, ctxt, rfl, hctxt⟩, fun _ _ => ?_⟩
      split
      · simp
      · next hlast =>
        rw [List.forall_mem_append]
        exact ⟨(runDesignQueryUses_present hctxt).mpr (hdesign (not_not.mp hlast)),
          fun u hu => hlastUses u hu (not_not.mp hlast)⟩

theorem runDesignQuery_undefined {c : NodeId} {ctxt : Context} (hctxt : site.contexts c = some ctxt)
    (h : ¬ ∃ s, ctxt.struct = some s ∧
      Query.runRawQuery rt.lib site none (designPath s.id) (designPath s.id) ≠ .ok []) :
    Query.runDesignQuery rt.lib site (some c) q = .error .undefined := by
  rw [Query.runDesignQuery, Query.getStructureId]
  cases hs : ctxt.struct with
  | none =>
    refine bind_of_error ?_
    rw [bind_of_ok (by rw [hctxt]; rfl), hs]
    rfl
  | some s =>
    have hnone : Query.runRawQuery rt.lib site none (designPath s.id) (designPath s.id) = .ok [] :=
      not_not.mp fun hne => h ⟨s, hs, hne⟩
    rw [bind_of_ok (a := s.id) (by rw [bind_of_ok (by rw [hctxt]; rfl), hs]; rfl)]
    refine (bind_of_ok hnone).trans ?_
    rfl

/-- What is not there cannot be read. -/
theorem privateOf_undefined {node : XmlNode} (h : ¬ There site node) :
    Query.privateOf site node = .error .undefined := by
  cases node with
  | attr value => exact absurd trivial h
  | node n =>
    refine bind_of_error ?_
    cases hn : site.doc n with
    | none => rfl
    | some cell => exact absurd ⟨cell, hn⟩ h

theorem structureId_undefined {node : XmlNode} (h : ¬ HasIds site node) :
    structureId site node = .error .undefined := by
  cases hid : structureId site node with
  | error e => exact congrArg _ (noThrow_structureId node e hid)
  | ok id =>
    obtain ⟨n, hn, hid⟩ := bind_eq_ok.mp hid
    obtain ⟨properties, hproperties, hid⟩ := bind_eq_ok.mp hid
    cases node with
    | attr value => cases hn
    | node m =>
      cases pure_eq_ok.mp hn
      refine absurd ⟨n, properties, rfl, hproperties, fun p hp hname hnone => ?_⟩ h
      -- the loop would have read the text
      obtain ⟨name, value⟩ := p
      dsimp only at hname hnone
      subst hname hnone
      obtain ⟨before, behind, rfl⟩ := List.append_of_mem hp
      rw [List.foldlM_append] at hid
      obtain ⟨id', -, hid⟩ := bind_eq_ok.mp hid
      rw [List.foldlM_cons] at hid
      obtain ⟨_, hread, -⟩ := bind_eq_ok.mp hid
      cases hread

theorem createInfo_undefined (h : ¬ CreateSafe ops rt site query context) :
    createInfo ops rt site query context = .error .undefined := by
  by_contra hne
  have hheld : ∀ c, mainContext ops site context (split ['/'] query).dropLast
      ((split ['/'] query).getLastD "") = .ok c →
      ∃ id, rowId site c = .ok id := by
    intro c hc
    cases hid : rowId site c with
    | ok id => exact ⟨id, rfl⟩
    | error e =>
      have hnone : e = .undefined := by
        cases c with
        | none => cases hid
        | some c => exact (NoThrow.bind (.deref _) fun ctxt => .pure _) e hid
      refine absurd ?_ hne
      rw [createInfo, bind_of_ok hc]
      cases c with
      | none => cases hid
      | some c => exact bind_of_error (hnone ▸ hid)
  refine h ⟨fun hmain node rest hnodes => ?_, fun c hc => ?_, fun hlast c node rest hc hnodes => ?_⟩
  · by_contra hthere
    refine hne (bind_of_error ?_)
    rw [mainContext]
    simp only [hmain, decide_false, Bool.false_and, if_neg Bool.false_ne_true, ne_eq,
      not_false_eq_true, if_true]
    rw [bind_of_ok hnodes]
    exact privateOf_undefined hthere
  · obtain ⟨id, hid⟩ := hheld _ hc
    obtain ⟨ctxt, hctxt, -⟩ := bind_eq_ok.mp hid
    rw [deref_eq_ok] at hctxt
    refine ⟨ctxt, hctxt, fun hlast => ?_⟩
    by_contra hdesign
    refine hne ?_
    rw [createInfo, bind_of_ok hc]
    refine (bind_of_ok (a := id) hid).trans ?_
    rw [if_neg (not_not.mpr hlast)]
    exact bind_of_error (runDesignQuery_undefined hctxt hdesign)
  · by_contra hids
    obtain ⟨id, hid⟩ := hheld _ hc
    refine hne ?_
    rw [createInfo, bind_of_ok hc]
    have hundefined := structureId_undefined hids
    cases c with
    | none =>
      refine (bind_of_ok (a := id) hid).trans ?_
      rw [if_neg (not_not.mpr hlast)]
      exact (bind_of_ok hnodes).trans (bind_of_error hundefined)
    | some c =>
      refine (bind_of_ok (a := id) hid).trans ?_
      rw [if_neg (not_not.mpr hlast)]
      exact (bind_of_ok hnodes).trans (bind_of_error hundefined)

/-- A lookup in a Context that is not there. -/
structure Strict (ops : Lookups Result) (site : Site) : Prop where
  data : ∀ c, site.contexts c = none → ∀ f, ops.getData c f = .error .undefined
  count : ∀ c, site.contexts c = none → ∀ f, ops.getCount c f = .error .undefined

theorem strict_fresh (lib : Libxml) (site : Site) : Strict (.fresh lib site) site := by
  refine ⟨fun c hc f => bind_of_error (bind_of_error ?_), fun c hc f => bind_of_error ?_⟩
  · rw [hc]
    rfl
  · rw [hc]
    rfl

theorem uniqueMatch_undefined (hops : Strict ops site) {fields found : List String}
    (hfields : fields ≠ []) {node : XmlNode} (h : ¬ HasContext site node) :
    uniqueMatch ops site fields found node = .error .undefined := by
  by_cases hthere : There site node
  · obtain ⟨ptr, hptr⟩ := there_iff.mp hthere
    rw [uniqueMatch]
    refine (bind_of_ok hptr).trans ?_
    cases ptr with
    | none => rfl
    | some c =>
      have hnone : site.contexts c = none := by
        cases hc : site.contexts c with
        | none => rfl
        | some ctxt => exact (h ⟨c, ctxt, hptr, hc⟩).elim
      obtain ⟨field, rest, rfl⟩ := List.exists_cons_of_ne_nil hfields
      refine (bind_of_ok (a := c) rfl).trans (bind_of_error ?_)
      exact foldlM_cons_error (bind_of_error (hops.data c hnone field))
  · exact bind_of_error (privateOf_undefined hthere)

/-! ### The walk of the filter -/

theorem forSiblings_undefined {β : Type} {f : β → Cell NodeId Info → Result β}
    {body : Cell NodeId Info → List NodeId} (hthrow : ∀ b cell, NoThrow (f b cell))
    (hbody : ∀ b cell, (∃ n ∈ body cell, site.doc n = none) → f b cell = .error .undefined) :
    ∀ {fuel : ℕ} {first : Option NodeId} {b : β},
      (∃ n ∈ siblingNodes site body fuel first, site.doc n = none) →
      site.forSiblings f fuel first b = .error .undefined
  | _, none, _, ⟨n, hn, _⟩ => by
      rw [siblingNodes] at hn
      cases hn
  | 0, some _, _, _ => rfl
  | fuel + 1, some child, b, ⟨n, hn, hnone⟩ => by
      rw [siblingNodes] at hn
      rw [Site.forSiblings]
      cases hcell : site.doc child with
      | none => rfl
      | some cell =>
        rw [hcell] at hn
        change (f b cell >>= fun b => site.forSiblings f fuel cell.next b) = _
        rcases List.mem_cons.mp hn with rfl | hn
        · rw [hcell] at hnone
          cases hnone
        rcases List.mem_append.mp hn with hn | hn
        · exact bind_of_error (hbody b cell ⟨n, hn, hnone⟩)
        · cases hb : f b cell with
          | error e =>
            obtain rfl := hthrow b cell e hb
            rfl
          | ok b' => exact forSiblings_undefined hthrow hbody ⟨n, hn, hnone⟩

theorem noThrow_filterMatchRecursive : ∀ (levels : ℕ) (first : Option NodeId) (terms : List String),
    NoThrow (filterMatchRecursive site levels first terms)
  | 0, first, terms => noThrow_forSiblings (fun _ _ => .pure _) _ _ _
  | levels + 1, first, terms => by
      refine noThrow_forSiblings (fun remaining child => ?_) _ _ _
      cases child.data.type with
      | element => exact noThrow_filterMatchRecursive levels child.children remaining
      | text => exact .pure _
      | other => exact .pure _

theorem filterMatchRecursive_undefined : ∀ {levels : ℕ} {first : Option NodeId}
    {terms : List String}, (∃ n ∈ filterNodes site levels first, site.doc n = none) →
    filterMatchRecursive site levels first terms = .error .undefined
  | 0, _, _, h => forSiblings_undefined (fun _ _ => .pure _) (by simp) h
  | levels + 1, _, _, h => by
      refine forSiblings_undefined (fun remaining child => ?_) (fun remaining child hbody => ?_) h
      · cases child.data.type with
        | element => exact noThrow_filterMatchRecursive levels child.children remaining
        | text => exact .pure _
        | other => exact .pure _
      · cases htype : child.data.type with
        | element =>
          rw [htype] at hbody
          exact filterMatchRecursive_undefined hbody
        | text => simp [htype] at hbody
        | other => simp [htype] at hbody

theorem filterMatch_undefined {terms : List String} {node : XmlNode}
    (h : ∃ n ∈ filterWalk site node, ¬ There site n) :
    filterMatch site terms node = .error .undefined := by
  obtain ⟨n, hn, hmissing⟩ := h
  cases node with
  | attr value =>
    obtain rfl := List.mem_singleton.mp hn
    exact absurd trivial hmissing
  | node m =>
    rw [filterWalk] at hn
    rw [filterMatch]
    cases hm : site.doc m with
    | none => rfl
    | some cell =>
      rw [hm] at hn
      rcases List.mem_cons.mp hn with rfl | hn
      · exact absurd ⟨cell, hm⟩ hmissing
      · obtain ⟨k, hk, rfl⟩ := List.mem_map.mp hn
        have hnone : site.doc k = none := by
          cases hcell : site.doc k with
          | none => rfl
          | some d => exact absurd ⟨d, hcell⟩ hmissing
        refine (bind_of_ok (a := cell) rfl).trans (bind_of_error ?_)
        exact filterMatchRecursive_undefined ⟨k, hk, hnone⟩

theorem tallyNode_undefined (hops : Strict ops site) (hfields : o.unique → o.uniqueFields ≠ [])
    {t : Tally} {node : XmlNode} (h : ¬ ((o.filter → ∀ n ∈ filterWalk site node, There site n) ∧
      (o.unique → passes site o node = .ok true → HasContext site node))) :
    tallyNode ops site o w t node = .error .undefined := by
  refine bind_of_error ?_
  rw [nodeMatch]
  by_cases hfilter : o.filter → ∀ n ∈ filterWalk site node, There site n
  · obtain ⟨hunique, hnone⟩ := Classical.not_imp.mp (not_and.mp h hfilter)
    obtain ⟨hpass, hnone⟩ := Classical.not_imp.mp hnone
    refine (bind_of_ok hpass).trans ?_
    rw [if_neg (by decide), if_pos hunique]
    exact uniqueMatch_undefined hops (hfields hunique) hnone
  · simp only [Classical.not_imp, not_forall] at hfilter
    obtain ⟨hfilter, n, hn, hmissing⟩ := hfilter
    refine bind_of_error ?_
    rw [if_pos hfilter]
    exact filterMatch_undefined ⟨n, hn, hmissing⟩

theorem pushNode_undefined {i : ℕ} {node : XmlNode} (hnode : nodes[i]? = some node)
    (h : ¬ There site node) (contexts : List NodeId) :
    pushNode site nodes contexts i = .error .undefined := by
  rw [pushNode, Query.getNode, hnode]
  exact (bind_of_ok (a := node) rfl).trans (bind_of_error (privateOf_undefined h))

theorem run_of_asked {n : ℕ} {comp : Fin n → Fin n → Result Bool} {i j : Fin n}
    {e : Failure} : ∀ {tree : SortTree n}, (i, j) ∈ tree.asked comp → comp i j = .error e →
      tree.run comp = .error e
  | .done _, h, _ => by cases h
  | .overrun, h, _ => by cases h
  | .less k l yes no, h, he => by
      rw [SortTree.asked] at h
      rw [SortTree.run]
      rcases List.mem_cons.mp h with heq | h
      · cases heq
        rw [he]
        rfl
      · cases hcomp : comp k l with
        | error e' => simp [hcomp] at h
        | ok b =>
          rw [hcomp] at h
          cases b with
          | true => exact run_of_asked h he
          | false => exact run_of_asked h he

theorem missing {c : NodeId} (h : ¬ ∃ ctxt, site.contexts c = some ctxt) : site.contexts c = none := by
  cases hc : site.contexts c with
  | none => rfl
  | some ctxt => exact (h ⟨ctxt, hc⟩).elim

theorem getId_undefined {c : NodeId} (h : site.contexts c = none) :
    getId site c = .error .undefined := by
  rw [getId, h]
  rfl

theorem sortCallback_undefined (hops : Strict ops site) {lhs rhs : NodeId} {f : SortField}
    {fields : List SortField} (h : ¬ ((∃ ctxt, site.contexts lhs = some ctxt) ∧
      (fieldLookup ops site lhs f = .ok () → ∃ ctxt, site.contexts rhs = some ctxt))) :
    sortCallback ops site lhs rhs (f :: fields) = .error .undefined := by
  rw [sortCallback]
  rw [not_and_or, Classical.not_imp, fieldLookup] at h
  by_cases hid : f.field = "id"
  · rw [if_pos hid] at h ⊢
    rcases h with hlhs | ⟨hlookup, hrhs⟩
    · exact bind_of_error (getId_undefined (missing hlhs))
    · obtain ⟨lid, hlid, -⟩ := bind_eq_ok.mp hlookup
      exact (bind_of_ok hlid).trans (bind_of_error (getId_undefined (missing hrhs)))
  · rw [if_neg hid] at h ⊢
    by_cases hcount : f.count
    · rw [if_pos hcount] at h ⊢
      rcases h with hlhs | ⟨hlookup, hrhs⟩
      · exact bind_of_error (hops.count lhs (missing hlhs) _)
      · obtain ⟨lcount, hlcount, -⟩ := bind_eq_ok.mp hlookup
        rw [bind_of_ok hlcount]
        exact bind_of_error (hops.count rhs (missing hrhs) _)
    · rw [if_neg hcount] at h ⊢
      rcases h with hlhs | ⟨hlookup, hrhs⟩
      · exact bind_of_error (hops.data lhs (missing hlhs) _)
      · obtain ⟨ldata, hldata, -⟩ := bind_eq_ok.mp hlookup
        rw [bind_of_ok hldata]
        exact bind_of_error (hops.data rhs (missing hrhs) _)

theorem collect_undefined (hops : Strict ops site) (hfields : o.unique → o.uniqueFields ≠ [])
    (hw : o.window rt.float nodes.getSize = .ok w)
    (h : ¬ ∀ u ∈ collectUses ops site o w nodes, u.Present site) :
    collect ops site o w nodes = .error .undefined := by
  by_contra hne
  rw [collect] at hne
  refine h ((collectUses_present hw).mpr ?_)
  by_cases hloop : o.filter || o.unique
  · rw [if_pos hloop] at hne
    have hsafe : ∀ before node behind t, nodes = before ++ node :: behind →
        before.foldlM (tallyNode ops site o w) {} = .ok t →
        (o.filter → ∀ n ∈ filterWalk site node, There site n) ∧
        (o.unique → passes site o node = .ok true → HasContext site node) := by
      intro before node behind t hsplit ht
      by_contra hnot
      refine hne (bind_of_error ?_)
      exact foldlM_of_call (mem_calls.mpr ⟨before, behind, hsplit, ht⟩)
        (tallyNode_undefined hops hfields hnot)
    refine ⟨fun hfilter hunique => by simp [hfilter, hunique] at hloop,
      fun hfilter before node behind t hsplit ht => (hsafe before node behind t hsplit ht).1 hfilter,
      fun hunique before node behind t hsplit ht => (hsafe before node behind t hsplit ht).2 hunique⟩
  · rw [if_neg hloop] at hne
    rw [Bool.or_eq_true, not_or, Bool.not_eq_true, Bool.not_eq_true] at hloop
    refine ⟨fun _ _ i node hnode hlow hhigh => ?_, by simp [hloop.1], by simp [hloop.2]⟩
    by_contra hthere
    -- all indices that are come to before return
    refine hne (bind_of_error ?_)
    have hmissing : ¬ ∀ call ∈ calls (pushNode site nodes) []
        (List.range' w.start.toNat (w.stop - w.start).toNat),
        ∃ node, nodes[call.2]? = some node ∧ There site node := by
      have hreturns : ∀ contexts i, (∃ node, nodes[i]? = some node ∧ There site node) →
          ∃ contexts', pushNode site nodes contexts i = .ok contexts' := by
        rintro contexts i ⟨node, hnode, hthere⟩
        exact pushNode_returns hnode hthere contexts
      rw [forall_calls_iff (P := fun i => ∃ node, nodes[i]? = some node ∧ There site node) hreturns]
      intro hall
      obtain ⟨node', hnode', hthere'⟩ := hall i (by rw [List.mem_range'_1]; omega)
      obtain rfl := Option.some.inj (hnode.symm.trans hnode')
      exact hthere hthere'
    simp only [not_forall] at hmissing
    obtain ⟨⟨contexts, j⟩, hcall, hj⟩ := hmissing
    refine foldlM_of_call hcall ?_
    cases hget : nodes[j]? with
    | none =>
      rw [pushNode, Query.getNode, hget]
      rfl
    | some node' =>
      exact pushNode_undefined hget (fun hthere' => hj ⟨node', hget, hthere'⟩) contexts

theorem query_undefined (hops : Strict ops site) (hfields : o.unique → o.uniqueFields ≠ [])
    {shuffle : List NodeId → List NodeId} (h : ¬ GetSafe ops rt site o context q) :
    Response.query ops rt site shuffle o context q = .error .undefined := by
  by_contra hne
  refine h (queryUses_present.mp ?_)
  rw [queryUses]
  simp only [forall_andThen, List.forall_mem_append]
  intro nodes hnodes w hw
  have hcollect : ∀ u ∈ collectUses ops site o w nodes, u.Present site := by
    by_contra hmissing
    refine hne ?_
    rw [Response.query, bind_of_ok hnodes]
    refine (bind_of_ok (a := w) hw).trans (bind_of_error ?_)
    exact collect_undefined hops hfields hw hmissing
  refine ⟨hcollect, fun found hfound => orderUses_present.mpr fun hsort i j f fields hij hfields => ?_⟩
  by_contra hnone
  refine hne ?_
  rw [Response.query, bind_of_ok hnodes]
  refine (bind_of_ok (a := w) hw).trans ?_
  rw [bind_of_ok hfound]
  refine bind_of_error ?_
  rw [orderContexts, hsort]
  dsimp only
  refine bind_of_error (run_of_asked hij ?_)
  rw [hfields]
  exact sortCallback_undefined hops hnone

/-- `unique` comes with fields. -/
theorem parse_uniqueFields (options : Options) :
    (parse options).unique → (parse options).uniqueFields ≠ [] := by
  have hdefault : ({} : Request).unique → ({} : Request).uniqueFields ≠ [] := by simp
  refine readAll (P := fun o => o.unique → o.uniqueFields ≠ []) ?_ hdefault
  simp only [List.forall_mem_cons, List.not_mem_nil, false_implies, implies_true, and_true]
  refine ⟨?_, ?_, ?_, ?_, ?_, ?_, ?_, ?_⟩ <;> intro o value ho
  · exact ho
  · exact ho
  · exact ho
  · exact ho
  · intro _
    exact mt List.map_eq_nil_iff.mp (List.splitOnP_ne_nil _ _)
  · unfold readPage
    split_ifs <;> exact ho
  · exact ho
  · unfold readOrder
    dsimp only
    split_ifs
    · exact ho
    · exact ho
    · exact ho
    · exact ho

/-- A request with a use that is not present is undefined. -/
theorem request_undefined {shuffle : ℕ → List NodeId → List NodeId} {parent : Option Response}
    {options : Options} (hops : Strict ops site) :
    ((∃ u ∈ getUses ops rt site shuffle parent q options, ¬ u.Present site) →
      Response.new ops rt site shuffle parent q options = .error .undefined) ∧
    ((∃ u ∈ createInfosUses ops rt site parent query, ¬ u.Present site) →
      createInfos ops rt site parent query = .error .undefined) := by
  constructor
  · rintro ⟨u, hu, hnot⟩
    obtain ⟨c, hc, huses⟩ := List.mem_flatMap.mp hu
    refine bind_of_error (mapM_of_visited hc ?_)
    exact query_undefined hops (parse_uniqueFields options) fun hsafe =>
      hnot (queryUses_present.mpr hsafe u huses)
  · rintro ⟨u, hu, hnot⟩
    obtain ⟨c, hc, huses⟩ := List.mem_flatMap.mp hu
    refine mapM_of_visited hc (createInfo_undefined fun hsafe => ?_)
    exact hnot (createInfoUses_present.mpr hsafe u huses)

/-! ### A feed where some are missing -/

/-- The sample feed, and the ids of its pages as attributes. -/
def pointerLib : Libxml := { sampleLib with
  xmlXPathEvalExpression := fun doc node q =>
    if q = "page[@id!='']/@id" then .nodeset [.attr (some "1"), .attr (some "3")]
    else sampleLib.xmlXPathEvalExpression doc node q }

def pointerSite : Site :=
  ((Site.blank "shop" false []).loadXmlDoc pointerLib "feed").toOption.getD (Site.blank "shop" false [])

def pointerRuntime : Runtime := { sampleRuntime with lib := pointerLib }

theorem pointerSite_loaded :
    (Site.blank "shop" false []).loadXmlDoc pointerLib "feed" = .ok pointerSite :=
  ok_getD (by decide +kernel)

theorem not_present_of_null {u : Use} (h : u.null) : ¬ u.Present site := by
  cases u with
  | context ptr =>
    rintro ⟨c, ctxt, rfl, -⟩
    cases h
  | struct ptr =>
    rintro ⟨s, rfl⟩
    cases h
  | content ptr =>
    rintro ⟨value, rfl⟩
    cases h
  | xmlNode x => cases h
  | properties x => cases h
  | node query i => cases h

end Response

end VaeDb
