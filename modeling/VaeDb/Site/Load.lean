import VaeDb.Cpp
import VaeDb.S3
import VaeDb.Xml

/-! Building a Site from a feed: `Site::Site`, `Site::loadXmlDoc`, `Context::Context`.

    Loading walks the elements below /website/content and makes a Context for each, filling the two
    indexes `nodes` and `permalinks` on the way. An element with a `staging` attribute is taken out
    of a production site. Association items are not walked; once the walk is over, each is grafted
    onto the item its text names, or taken out when there is none.

        content ─┬─ item ─┬─ field
                 │        └─ field staging ✂
                 └─ item ─── association "7" ┈┈▶ children of item 7, and back

    A pointer into the tree is a `NodeId`; a `Context *` is the `NodeId` of the node the Context was
    made for. Undefined behaviour of the source (a null or dangling pointer, an index past the end)
    is the failure `undefined`. -/

namespace VaeDb
open Schemes Xml Cpp

/-- How a call fails: by one of the two exceptions, or by undefined behaviour. -/
inductive Failure where
  | internalError (message : String)
  | queryError (message : String)
  | undefined
  deriving DecidableEq

abbrev Result := Except Failure

/-- Follow a pointer. -/
def deref {α : Type} : Option α → Result α
  | some a => .ok a
  | none => .error .undefined

@[simp] theorem deref_eq_ok {α : Type} {x : Option α} {a : α} : deref x = .ok a ↔ x = some a := by
  cases x <;> simp [deref]

@[simp] theorem bind_eq_ok {α β : Type} {x : Result α} {f : α → Result β} {b : β} :
    (x >>= f) = .ok b ↔ ∃ a, x = .ok a ∧ f a = .ok b := by
  cases x <;> simp [bind, Except.bind]

theorem bind_eq_error {α β : Type} {x : Result α} {f : α → Result β} {e : Failure} :
    (x >>= f) = .error e ↔ x = .error e ∨ ∃ a, x = .ok a ∧ f a = .error e := by
  cases x <;> simp [bind, Except.bind]

theorem ok_bind {α β : Type} (a : α) (f : α → Result β) : (Except.ok a >>= f) = f a := rfl

theorem bind_of_ok {α β : Type} {x : Result α} {f : α → Result β} {a : α} (h : x = .ok a) :
    (x >>= f) = f a := by
  rw [h, ok_bind]

theorem bind_of_error {α β : Type} {x : Result α} {f : α → Result β} {e : Failure}
    (h : x = .error e) : (x >>= f) = .error e := by
  rw [h]
  rfl

/-- The result of a computation that was seen to return. -/
theorem ok_getD {α : Type} {x : Result α} {a : α} (h : x.toOption.isSome = true) :
    x = .ok (x.toOption.getD a) := by
  cases x with
  | error e => cases h
  | ok a => rfl

theorem toOption_bind_eq_some {α β : Type} {x : Result α} {f : α → Option β} {b : β} :
    x.toOption.bind f = some b ↔ ∃ a, x = .ok a ∧ f a = some b := by
  cases x <;> simp [Except.toOption]

theorem toOption_map_eq_some {α β : Type} {x : Result α} {f : α → β} {b : β} :
    x.toOption.map f = some b ↔ ∃ a, x = .ok a ∧ f a = b := by
  cases x <;> simp [Except.toOption]

@[simp] theorem pure_eq_ok {α : Type} {a b : α} : (pure a : Result α) = .ok b ↔ a = b := by
  simp [pure, Except.pure]

@[simp] theorem throw_ne_ok {α : Type} {e : Failure} {b : α} : (throw e : Result α) ≠ .ok b := by
  simp [throw, throwThe, MonadExceptOf.throw]

/-- A loop that collects: the results belong to the items one by one. -/
theorem mapM_eq_ok {α β : Type} {f : α → Result β} : ∀ {l : List α} {bs : List β},
    l.mapM f = .ok bs ↔ List.Forall₂ (fun a b => f a = .ok b) l bs
  | [], bs => by
      rw [List.mapM_nil, pure_eq_ok, List.forall₂_nil_left_iff, eq_comm]
  | a :: l, bs => by
      simp only [List.mapM_cons, bind_eq_ok, pure_eq_ok, mapM_eq_ok, List.forall₂_cons_left_iff]
      constructor
      · rintro ⟨b, hb, rest, hrest, rfl⟩
        exact ⟨b, rest, hb, hrest, rfl⟩
      · rintro ⟨b, rest, hb, hrest, rfl⟩
        exact ⟨b, hb, rest, hrest, rfl⟩

theorem forall₂_mem_left {α β : Type} {R : α → β → Prop} {l : List α} {l' : List β}
    (h : List.Forall₂ R l l') {a : α} (ha : a ∈ l) : ∃ b ∈ l', R a b := by
  induction h with
  | nil => cases ha
  | cons hab _ ih =>
    rcases List.mem_cons.mp ha with rfl | ha
    · exact ⟨_, List.mem_cons_self, hab⟩
    · obtain ⟨b, hb, hR⟩ := ih ha
      exact ⟨b, List.mem_cons_of_mem _ hb, hR⟩

structure VaeDbStructure where
  id : ℤ
  name : String
  type : String
  permalink : String
  deriving DecidableEq

structure VaeDbContext where
  id : ℤ
  structure_id : ℤ
  type : String
  permalink : String
  data : String
  deriving DecidableEq

/-- A Context, less its caches. -/
structure Context where
  node : NodeId
  id : ℤ
  struct : Option VaeDbStructure
  vaeDbContext : VaeDbContext
  pointerNodes : List NodeId

/-- A Site, less its query cache. `doc` and `lists` are its document, and `allocated` counts the nodes
    ever allocated in it. -/
structure Site where
  subdomain : String
  stagingMode : Bool
  secretKeys : List String
  generation : ℤ
  structures : ℤ → Option VaeDbStructure
  associationsToInitialize : List NodeId
  doc : Store
  lists : AttrLists
  allocated : ℕ
  contexts : NodeId → Option Context
  nodes : ℤ → Option NodeId
  permalinks : String → Option NodeId
  rootNode : Option NodeId
  rootDesignNode : Option NodeId

/-- The content of the first child, if that is a text. -/
def Site.firstText (site : Site) (n : NodeId) : Result String := do
  let cell ← deref (site.doc n)
  match cell.children with
  | none => pure ""
  | some child => do
    let child ← deref (site.doc child)
    pure (if child.data.type = .text then child.data.content else "")

/-- `node->properties`, to be read. -/
def Site.properties (site : Site) (n : NodeId) : Result Properties := do
  let cell ← deref (site.doc n)
  deref (site.lists.read n cell.data.properties)

/-! ### Query, as far as loading uses it -/

/-- The node set of a Query. -/
abbrev Query := List XmlNode

namespace Query

def result : Option NodeId → Query
  | none => []
  | some n => [.node n]

def find (site : Site) (id : ℤ) : Query := result (site.nodes id)

def getNode (query : Query) (i : ℕ) : Result XmlNode := deref query[i]?

def getSingleData (site : Site) : Query → Result String
  | [] => pure ""
  | .attr value :: _ => pure (value.getD "")
  | .node n :: _ => site.firstText n

/-- A result that starts with the root node counts as empty. -/
def runRawQuery (lib : Libxml) (site : Site) (node : Option NodeId) (q displayQuery : String) :
    Result Query :=
  match lib.xmlXPathEvalExpression site.doc node (cStr q) with
  | .null => .error (.queryError
      (cStr ("could not evaluate XPath expression: '" ++ displayQuery ++ "'")))
  | .other => .error (.internalError "libxml2 returned something other than a nodeset?!")
  | .nodeset query => .ok (if query.head? = site.rootNode.map .node then result none else query)

end Query

/-! ### Contexts -/

/-- The attributes of a structure element. -/
def VaeDbStructure.readAttr (s : VaeDbStructure) : String × Option String → Result VaeDbStructure
  | (name, value) =>
    if name = "name" then do pure { s with name := ← deref value }
    else if name = "permalink" then do pure { s with permalink := ← deref value }
    else if name = "type" then do pure { s with type := ← deref value }
    else pure s

/-- The place of a structure in the design. -/
def designPath (id : ℤ) : String := "/website/design//*[@id=" ++ toString id ++ "]"

/-- A structure is looked up once in the design part of the feed and remembered. -/
def Site.structureFromStructureId (lib : Libxml) (site : Site) (structureId : ℤ) :
    Result (Site × VaeDbStructure) :=
  match site.structures structureId with
  | some s => pure (site, s)
  | none => do
    let q := "/website/design//*[@id=" ++ toString structureId ++ "]"
    let query ← Query.runRawQuery lib site none q q
    match ← Query.getNode query 0 with
    | .attr _ => throw .undefined
    | .node n => do
      let properties ← site.properties n
      let s ← properties.foldlM VaeDbStructure.readAttr ⟨structureId, "", "", ""⟩
      pure ({ site with structures := Function.update site.structures structureId (some s) }, s)

/-- What `populateAttrs` reads off the attributes of an element. -/
structure Attrs where
  id : ℤ := 0
  structureId : ℤ := 0
  permalink : Option String := none

/-- The attribute loop of `populateAttrs`: `none` where it finds `staging` outside staging mode. -/
def Attrs.read (stagingMode : Bool) (a : Attrs) : Properties → Result (Option Attrs)
  | [] => pure (some a)
  | (name, value) :: rest =>
    if name = "id" then do
      read stagingMode { a with id := atoi (← deref value) } rest
    else if name = "type" then do
      read stagingMode { a with structureId := atoi (← deref value) } rest
    else if name = "permalink" then do
      read stagingMode { a with permalink := some (← deref value) } rest
    else if !stagingMode && name = "staging" then pure none
    else read stagingMode a rest

/-- The site with the structures it has learnt, and the attributes with the element's structure;
    `none` where the element is to be killed. -/
def populateAttrs (lib : Libxml) (site : Site) (properties : Properties) :
    Result (Site × Option (Attrs × Option VaeDbStructure)) := do
  match ← Attrs.read site.stagingMode {} properties with
  | none => pure (site, none)
  | some a =>
    if 0 < a.structureId then do
      let (site, s) ← site.structureFromStructureId lib a.structureId
      pure (site, some (a, some s))
    else pure (site, some (a, none))

/-- `type == "AssociationItem" || type == "SingleAssociationItem"`. -/
def isAssociation (s : Option VaeDbStructure) : Bool :=
  match s with
  | none => false
  | some s => s.type = "AssociationItem" || s.type = "SingleAssociationItem"

/-- `xmlUnlinkNode` and `xmlFreeNode`. -/
def Site.removeNode (site : Site) (n : NodeId) : Result Site := do
  let doc ← deref (site.doc.unlink? n)
  let (doc, lists) ← deref (xmlFreeNode site.allocated doc site.lists n)
  pure { site with doc := doc, lists := lists }

theorem removeNode_eq_ok {site site' : Site} {n : NodeId} (h : site.removeNode n = .ok site') :
    ∃ σ lists, xmlFreeNode site.allocated (site.doc.unlink n) site.lists n = some (σ, lists) ∧
      Heap.free site.allocated (site.doc.unlink n) n = some σ ∧
      site' = { site with doc := σ, lists := lists } := by
  obtain ⟨σ₁, hunlink, h₁⟩ := bind_eq_ok.mp h
  obtain ⟨-, rfl⟩ := unlink?_eq_some.mp (deref_eq_ok.mp hunlink)
  obtain ⟨⟨σ, lists⟩, hfree, h₂⟩ := bind_eq_ok.mp h₁
  cases h₂
  exact ⟨σ, lists, deref_eq_ok.mp hfree, free_of_each (deref_eq_ok.mp hfree), rfl⟩

/-- The last part of the constructor: the two indexes and the answer for clients. -/
def Site.enter (site : Site) (n : NodeId) (a : Attrs) (s : Option VaeDbStructure) :
    Result (Site × Context) := do
  let data ← (if a.id = 0 then site.firstText n else pure "")
  pure ({ site with
      nodes := Function.update site.nodes a.id (some n)
      permalinks := match a.permalink with
        | none => site.permalinks
        | some permalink => Function.update site.permalinks permalink (some n) },
    { node := n, id := a.id, struct := s, pointerNodes := []
      vaeDbContext := ⟨a.id, (s.map VaeDbStructure.id).getD 0, (s.map VaeDbStructure.type).getD "",
        a.permalink.getD "", data⟩ })

/-- `child->_private = ctxt`. -/
def Site.setPrivate (site : Site) (n : NodeId) (ctxt : Context) : Site :=
  { site with
    doc := site.doc.modify n fun cell => { cell with data := { cell.data with priv := some n } }
    contexts := Function.update site.contexts n (some ctxt) }

/-- `site->associationsToInitialize.push_back(this)`. -/
def Site.defer (site : Site) (n : NodeId) : Site :=
  { site with associationsToInitialize := site.associationsToInitialize ++ [n] }

/-- What becomes of a child once its Context is made: out of the tree, or into its Context. -/
def Site.keepOrKill (site : Site) (n : NodeId) : Option Context → Result Site
  | none => site.removeNode n
  | some ctxt => pure (site.setPrivate n ctxt)

mutual

/-- `Context::Context` on the element at path `p`; `none` is `killMe`. Only elements get a Context. -/
def newContext (lib : Libxml) (p : List ℕ) : Tree → Site → Result (Site × Option Context)
  | .text _, _ | .other _, _ => throw .undefined
  | .element _ properties children, site => do
    match ← populateAttrs lib site properties with
    | (site, none) => pure (site, none)
    | (site, some (a, s)) => do
      let site ← (if isAssociation s then pure (site.defer (.parsed p))
        else newContexts lib p 0 children site)
      let entered ← site.enter (.parsed p) a s
      pure (entered.1, some entered.2)

/-- The loop over the children of the node at `p`, from child `i` on. `_private` is NULL everywhere
    in a fresh document and the loop comes by every child once, so that the constructor's test of
    `child->_private` always passes. -/
def newContexts (lib : Libxml) (p : List ℕ) (i : ℕ) : List Tree → Site → Result Site
  | [], site => pure site
  | .element name properties children :: ts, site => do
    let (site, ctxt) ← newContext lib (i :: p) (.element name properties children) site
    let site ← site.keepOrKill (.parsed (i :: p)) ctxt
    newContexts lib p (i + 1) ts site
  | .text _ :: ts, site | .other _ :: ts, site => newContexts lib p (i + 1) ts site

end

/-! ### Associations -/

/-- The forward half of an association: the attributes of `node` and what follows its text are freed,
    and those of `associatedNode` and its children take their place. -/
def Site.graft (site : Site) (node associatedNode : NodeId) : Result (Store × AttrLists) := do
  let cell ← deref (site.doc node)
  let lists ← deref (site.lists.xmlFreePropList node cell.data.properties)
  let first ← deref cell.children
  let firstCell ← deref (site.doc first)
  let (doc, lists) ← deref (xmlFreeNodeList site.allocated site.doc lists firstCell.next)
  -- links that lead back may have freed the item and its text, too
  let _ ← deref (doc node)
  let target ← deref (doc associatedNode)
  let _ ← deref (doc first)
  let doc := doc.modify first fun c => { c with next := target.children }
  pure (doc.modify node fun c => { c with
    last := target.last
    data := { c.data with
      properties := target.data.properties, priv := target.data.priv } },
    lists.share node (some associatedNode))

/-- The node that `xmlCopyNode` copies. -/
def xmlCopyNode (doc : Store) : Option NodeId → Result (Cell NodeId Info)
  | none => throw (.internalError "xmlCopyNode returned NULL")
  | some n => deref (doc n)

/-- The pointer node of the reverse half: a copy of the parent that shares its children and attributes. -/
def pointerCell (parent : Cell NodeId Info) : Cell NodeId Info where
  parent := none
  children := parent.children
  last := parent.last
  next := none
  prev := none
  data := { parent.data with content := "" }

/-- `(*it)->last = associatedNode->last` for every pointer node already placed. -/
def setLast (doc : Store) (pointerNodes : List NodeId) (last : Option NodeId) : Store :=
  pointerNodes.foldl (fun doc n => doc.modify n fun c => { c with last := last }) doc

/-- `setLast`, unless one of the pointer nodes is not there. -/
def setLast? (doc : Store) (pointerNodes : List NodeId) (last : Option NodeId) : Option Store :=
  if pointerNodes.all fun n => (doc n).isSome then some (setLast doc pointerNodes last) else none

theorem setLast?_eq_some {doc doc' : Store} {pointerNodes : List NodeId} {last : Option NodeId} :
    setLast? doc pointerNodes last = some doc' ↔
      (∀ n ∈ pointerNodes, ∃ cell, doc n = some cell) ∧ doc' = setLast doc pointerNodes last := by
  rw [setLast?]
  split
  · next h =>
    rw [List.all_eq_true] at h
    rw [Option.some.injEq, eq_comm, and_iff_right fun n hn => Option.isSome_iff_exists.mp (h n hn)]
  · next h =>
    refine iff_of_false (by simp) fun hall => h ?_
    exact List.all_eq_true.mpr fun n hn => Option.isSome_iff_exists.mpr (hall.1 n hn)

/-- An association whose text names a known item: both halves. -/
def Site.associate (site : Site) (node associatedNode : NodeId) : Result Site := do
  let (doc, lists) ← site.graft node associatedNode
  let cell ← deref (doc node)
  let parent ← xmlCopyNode doc cell.parent
  let pointerNode := .pointer site.allocated
  let doc : Store := Function.update doc pointerNode (some (pointerCell parent))
  let doc ← deref (doc.addChild? associatedNode pointerNode)
  -- both Contexts are dereferenced, the second one after the first was changed
  let parentPtr ← deref parent.data.priv
  let parentContext ← deref (site.contexts parentPtr)
  let contexts := Function.update site.contexts parentPtr
    (some { parentContext with pointerNodes := parentContext.pointerNodes ++ [pointerNode] })
  let associated ← deref (doc associatedNode)
  let associatedPtr ← deref associated.data.priv
  let associatedContext ← deref (contexts associatedPtr)
  let doc ← deref (setLast? doc associatedContext.pointerNodes associated.last)
  pure { site with
    doc := doc
    lists := lists.share pointerNode cell.parent
    allocated := site.allocated + 1
    contexts := Function.update contexts node none }

/-- `Context::initializeAssociation`. -/
def Site.initializeAssociation (site : Site) (node : NodeId) : Result Site := do
  let id := atoi (← site.firstText node)
  match if 0 < id then site.nodes id else none with
  | some associatedNode => site.associate node associatedNode
  | none => do
    let site ← site.removeNode node
    pure { site with contexts := Function.update site.contexts node none }

/-! ### Loading -/

/-- A query that has to select exactly one node. -/
def Query.single (query : Query) (message : String) : Result XmlNode :=
  match query with
  | [x] => pure x
  | _ => throw (.internalError message)

def XmlNode.toNode : XmlNode → Result NodeId
  | .node n => pure n
  | .attr _ => throw .undefined

/-- The loop over the children of the root node. -/
def Site.loadContent (lib : Libxml) (doc : Document) (site : Site) : NodeId → Result Site
  | .pointer _ => throw .undefined
  | .parsed p => do
    let _ ← deref (site.doc (.parsed p))
    newContexts lib p 0 (doc.kids p) site

def Site.loadXmlDoc (lib : Libxml) (site : Site) (rawxml : String) : Result Site :=
  match lib.xmlReadMemory rawxml with
  | none => throw (.internalError "Could not open/parse XML file")
  | some doc => do
    let site := { site with
      doc := doc.store, lists := .parsed, allocated := Tree.sizes doc + 1
      rootNode := none, rootDesignNode := none }
    let query ← Query.runRawQuery lib site none "/website/content" "website root node"
    let root ← query.single "Could not find root content node in XML file"
    let root ← XmlNode.toNode root
    let site := { site with rootNode := some root }
    let query ← Query.runRawQuery lib site none "/website/design" "website design node"
    let design ← query.single "Could not find root design node in XML file"
    let design ← XmlNode.toNode design
    let site := { site with rootDesignNode := some design }
    let site ← site.loadContent lib doc root
    let site ← site.associationsToInitialize.foldlM Site.initializeAssociation site
    let site := { site with associationsToInitialize := [] }
    let query ← Query.runRawQuery lib site none "/website/generation" "website generation node"
    let generation ← query.single "Could not find feed generation node in XML file"
    pure { site with generation := atoi (← Query.getSingleData site [generation]) }

/-- A Site before anything is loaded into it. -/
def Site.blank (su : String) (stagingMode : Bool) (secretKeys : List String) : Site where
  subdomain := su
  stagingMode := stagingMode
  secretKeys := secretKeys
  generation := -1
  structures := fun _ => none
  associationsToInitialize := []
  doc := fun _ => none
  lists := .parsed
  allocated := 0
  contexts := fun _ => none
  nodes := fun _ => none
  permalinks := fun _ => none
  rootNode := none
  rootDesignNode := none

/-- `Site::Site` outside test mode. -/
def Site.new (lib : Libxml) (cache : S3.CacheDir) (secret : S3.Fetch) (su : String)
    (stagingMode : Bool) (rawxml : String) : S3.CacheDir × Result Site :=
  let (cache, keys) := S3.read_s3 cache secret (su ++ "-secret")
  (cache, (Site.blank su stagingMode (split [',', ';', '\n'] keys)).loadXmlDoc lib rawxml)

/-- `Site::validateSecretKey` outside test mode. -/
def Site.validateSecretKey (site : Site) (secretKey : String) : Result Unit :=
  if secretKey ∈ site.secretKeys then pure () else throw (.internalError "Secret Key Mismatch")

/-! ### A sample feed -/

/-- A feed with a page, a staged page, and a page with an association item that names the first. -/
def sampleFeed : Document :=
  [.element "website" [] [
    .element "content" [] [
      .element "page" [("id", some "1")] [],
      .element "page" [("id", some "2"), ("staging", some "1")] [],
      .element "page" [("id", some "3")] [
        .element "link" [("id", some "4"), ("type", some "9")] [.text "1"]]],
    .element "design" [] [.element "link" [("id", some "9"), ("type", some "AssociationItem")] []],
    .element "generation" [] [.text "7"]]]

/-- libxml2 on the sample feed: an empty text does not parse, and the XPath expressions are those of
    loading a production site and of a query for its pages. -/
def sampleLib : Libxml where
  xmlReadMemory rawxml := if rawxml = "" then none else some sampleFeed
  xmlXPathEvalExpression _ _ q :=
    if q = "/website/content" then .nodeset [.node (.parsed [0, 0])]
    else if q = "/website/design" then .nodeset [.node (.parsed [1, 0])]
    else if q = "/website/design//*[@id=9]" then .nodeset [.node (.parsed [0, 1, 0])]
    else if q = "/website/generation" then .nodeset [.node (.parsed [2, 0])]
    else if q = "page" then .nodeset [.node (.parsed [0, 0, 0]), .node (.parsed [2, 0, 0])]
    else .nodeset []

end VaeDb
