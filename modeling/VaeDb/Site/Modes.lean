import VaeDb.Site.Load

/-! The two modes of a site: a staging site loads as a production site would, if the feed had no
    staging marks.

    `staging` is only looked for in production mode. `unstaged` renames the attributes that loading
    does not ask for, `staging` among them, and loses nothing. A staging site of a feed and a
    production site of the unstaged feed then go through the same steps.

        feed ───────── staging site ──────────▶ site
          │ unstaged                              │ unstaged
          ▼                                       ▼
        feed ──────── production site ────────▶ site -/

namespace VaeDb
open Schemes Xml

/-! ### Computations that go alike -/

/-- Both fail in the same way, or both return and the values are related. -/
inductive Alike {α β : Type} (R : α → β → Prop) : Result α → Result β → Prop
  | error (e : Failure) : Alike R (.error e) (.error e)
  | ok {a : α} {b : β} : R a b → Alike R (.ok a) (.ok b)

namespace Alike

variable {α β α' β' : Type} {R : α → β → Prop} {Q : α' → β' → Prop}

theorem pure {a : α} {b : β} (h : R a b) : Alike R (Pure.pure a) (Pure.pure b) := .ok h

theorem bind {x : Result α} {y : Result β} {f : α → Result α'} {g : β → Result β'}
    (h : Alike R x y) (hf : ∀ a b, R a b → Alike Q (f a) (g b)) : Alike Q (x >>= f) (y >>= g) := by
  cases h with
  | error e => exact .error e
  | ok hab => exact hf _ _ hab

/-- The same computation on both sides. -/
theorem same (x : Result α) : Alike Eq x x := by
  cases x with
  | error e => exact .error e
  | ok a => exact .ok rfl

theorem bind_same {x : Result α} {f : α → Result α'} {g : α → Result β'}
    (hf : ∀ a, Alike Q (f a) (g a)) : Alike Q (x >>= f) (x >>= g) :=
  (same x).bind fun a _ h => h ▸ hf a

theorem eq {x y : Result α} (h : Alike Eq x y) : x = y := by
  cases h with
  | error e => rfl
  | ok hab => rw [hab]

/-- If one of them returns, so does the other. -/
theorem right {a : α} {y : Result β} (h : Alike R (.ok a) y) : ∃ b, y = .ok b ∧ R a b := by
  cases h with
  | ok hab => exact ⟨_, rfl, hab⟩

theorem left {x : Result α} {b : β} (h : Alike R x (.ok b)) : ∃ a, x = .ok a ∧ R a b := by
  cases h with
  | ok hab => exact ⟨_, rfl, hab⟩

/-- A pointer that is followed in two heaps. -/
theorem deref {x : Option α} {g : α → β} : Alike (fun a b => b = g a) (deref x) (deref (x.map g)) := by
  cases x with
  | none => exact .error _
  | some a => exact .ok rfl

theorem foldlM {ι ι' : Type} {f : α → ι → Result α} {g : β → ι' → Result β} (k : ι → ι')
    (h : ∀ a b i, R a b → Alike R (f a i) (g b (k i))) :
    ∀ (l : List ι) (a : α) (b : β), R a b → Alike R (l.foldlM f a) ((l.map k).foldlM g b)
  | [], a, b, hab => .ok hab
  | i :: l, a, b, hab => by
      rw [List.map_cons, List.foldlM_cons, List.foldlM_cons]
      exact (h a b i hab).bind fun a b hab => foldlM k h l a b hab

end Alike

/-! ### Without staging marks -/

/-- The attributes that loading asks for keep their names, the others are renamed. -/
def unstagedName (name : String) : String :=
  if name ∈ ["id", "type", "permalink", "name"] then name else name ++ "!"

def restoredName (name : String) : String :=
  if name ∈ ["id", "type", "permalink", "name"] then name else String.ofList name.toList.dropLast

theorem concat_ne {name k : String} (hk : k.toList.getLast? ≠ some '!') : name ++ "!" ≠ k := by
  rintro rfl
  simp at hk

theorem restoredName_unstagedName (name : String) : restoredName (unstagedName name) = name := by
  rw [unstagedName]
  split
  · next h => rw [restoredName, if_pos h]
  · rw [restoredName, if_neg]
    · simp
    · simp only [List.mem_cons, List.not_mem_nil, or_false, not_or]
      exact ⟨concat_ne (by decide), concat_ne (by decide), concat_ne (by decide),
        concat_ne (by decide)⟩

theorem unstagedName_eq_iff {name k : String} (hk : k ∈ ["id", "type", "permalink", "name"]) :
    unstagedName name = k ↔ name = k := by
  have hlast : ∀ k ∈ ["id", "type", "permalink", "name"], k.toList.getLast? ≠ some '!' := by
    decide
  rw [unstagedName]
  split
  · rfl
  · next h =>
    refine iff_of_false (concat_ne (hlast k hk)) ?_
    rintro rfl
    exact h hk

theorem unstagedName_ne_staging (name : String) : unstagedName name ≠ "staging" := by
  rw [unstagedName]
  split
  · next h =>
    rintro rfl
    exact absurd h (by decide)
  · exact concat_ne (by decide)

def renamed (f : String → String) (properties : Properties) : Properties :=
  properties.map fun (name, value) => (f name, value)

namespace Xml

def Info.renamed (f : String → String) (i : Info) : Info :=
  { i with properties := VaeDb.renamed f i.properties }

mutual

def Tree.unstaged : Tree → Tree
  | .element name properties children =>
    .element name (renamed unstagedName properties) (Tree.unstagedAll children)
  | .text content => .text content
  | .other content => .other content

def Tree.unstagedAll : List Tree → List Tree
  | [] => []
  | t :: ts => t.unstaged :: Tree.unstagedAll ts

end

/-- The feed without staging marks. -/
def Document.unstaged (doc : Document) : Document := Tree.unstagedAll doc

theorem Tree.unstagedAll_eq_map : ∀ ts : List Tree, Tree.unstagedAll ts = ts.map Tree.unstaged
  | [] => rfl
  | t :: ts => by rw [Tree.unstagedAll, Tree.unstagedAll_eq_map ts, List.map_cons]

theorem Tree.children_unstaged (t : Tree) : t.unstaged.children = t.children.map Tree.unstaged := by
  cases t with
  | element name properties children =>
    rw [Tree.unstaged, Tree.children, Tree.children, Tree.unstagedAll_eq_map]
  | text content => rfl
  | other content => rfl

theorem Tree.info_unstaged (t : Tree) : t.unstaged.info = t.info.renamed unstagedName := by
  cases t <;> rfl

mutual

theorem Tree.size_unstaged : ∀ t : Tree, t.unstaged.size = t.size
  | .element name properties children => by
      rw [Tree.unstaged, Tree.size, Tree.size, Tree.sizes_unstaged children]
  | .text _ => rfl
  | .other _ => rfl

theorem Tree.sizes_unstaged : ∀ ts : List Tree, Tree.sizes (Tree.unstagedAll ts) = Tree.sizes ts
  | [] => rfl
  | t :: ts => by
      rw [Tree.unstagedAll, Tree.sizes, Tree.sizes, Tree.size_unstaged t, Tree.sizes_unstaged ts]

end

namespace Document

variable (doc : Document)

theorem kids_unstaged : ∀ p : List ℕ, doc.unstaged.kids p = (doc.kids p).map Tree.unstaged
  | [] => Tree.unstagedAll_eq_map doc
  | i :: p => by
      rw [kids, kids, kids_unstaged p, List.getElem?_map]
      cases (doc.kids p)[i]? with
      | none => rfl
      | some t => exact Tree.children_unstaged t

theorem at?_unstaged (p : List ℕ) : doc.unstaged.at? p = (doc.at? p).map Tree.unstaged := by
  cases p with
  | nil => rfl
  | cons i p => rw [at?, at?, kids_unstaged, List.getElem?_map]

theorem kidIds_unstaged (p : List ℕ) : doc.unstaged.kidIds p = doc.kidIds p := by
  rw [kidIds, kidIds, kids_unstaged, List.length_map]

theorem store_unstaged : doc.unstaged.store = Heap.map (Info.renamed unstagedName) doc.store := by
  funext n
  cases n with
  | pointer k => rfl
  | parsed p =>
    cases p with
    | nil =>
      rw [Heap.map, store, store, kidIds_unstaged]
      rfl
    | cons i p =>
      rw [Heap.map, store, store, at?_unstaged]
      cases doc.at? (i :: p) with
      | none => rfl
      | some t =>
        rw [Option.map_some, kidIds_unstaged, kidIds_unstaged]
        dsimp only
        rw [Tree.info_unstaged]
        rfl

end Document

/-- libxml2 on the unstaged feed: it answers as on the feed itself. -/
def Libxml.unstaged (lib : Libxml) : Libxml where
  xmlReadMemory rawxml := (lib.xmlReadMemory rawxml).map Document.unstaged
  xmlXPathEvalExpression σ n q :=
    lib.xmlXPathEvalExpression (Heap.map (Info.renamed restoredName) σ) n q

theorem renamed_restored (σ : Store) :
    Heap.map (Info.renamed restoredName) (Heap.map (Info.renamed unstagedName) σ) = σ := by
  have hcell : ∀ cell : Cell NodeId Info,
      (cell.map (Info.renamed unstagedName)).map (Info.renamed restoredName) = cell := by
    rintro ⟨parent, children, last, next, prev, ⟨type, name, content, properties, priv⟩⟩
    have hprops : VaeDb.renamed restoredName (VaeDb.renamed unstagedName properties) =
        properties := by
      rw [VaeDb.renamed, VaeDb.renamed, List.map_map]
      refine (List.map_congr_left fun (name, value) _ => ?_).trans (List.map_id _)
      exact Prod.ext (restoredName_unstagedName name) rfl
    simp only [Cell.map, Info.renamed, hprops]
  funext n
  cases hn : σ n with
  | none => rw [Heap.map_of_none (Heap.map_of_none hn)]
  | some cell => rw [Heap.map_of_some (Heap.map_of_some hn), hcell]

end Xml

/-- The site without staging marks, in production mode. -/
def Site.unstaged (site : Site) : Site :=
  { site with stagingMode := false, doc := Heap.map (Info.renamed unstagedName) site.doc }

/-- A staging site, and the production site that goes along with it. -/
def Seen (site site' : Site) : Prop := site.stagingMode = true ∧ site' = site.unstaged

/-! ### Reading -/

variable {lib : Libxml}

theorem firstText_unstaged (site : Site) (n : NodeId) :
    site.firstText n = site.unstaged.firstText n := by
  refine Alike.eq ((Alike.deref (g := Cell.map (Info.renamed unstagedName))).bind ?_)
  rintro ⟨parent, children, last, next, prev, data⟩ _ rfl
  cases children with
  | none => exact .ok rfl
  | some child =>
    refine (Alike.deref (g := Cell.map (Info.renamed unstagedName))).bind ?_
    rintro cell _ rfl
    exact .ok rfl

theorem runRawQuery_unstaged (site : Site) (node : Option NodeId) (q displayQuery : String) :
    Query.runRawQuery lib.unstaged site.unstaged node q displayQuery =
      Query.runRawQuery lib site node q displayQuery := by
  have heval : lib.unstaged.xmlXPathEvalExpression site.unstaged.doc node (Cpp.cStr q) =
      lib.xmlXPathEvalExpression site.doc node (Cpp.cStr q) := by
    rw [Libxml.unstaged, Site.unstaged]
    dsimp only
    rw [renamed_restored]
  rw [Query.runRawQuery, Query.runRawQuery, heval]
  rfl

theorem getSingleData_unstaged (site : Site) (query : Query) :
    Query.getSingleData site.unstaged query = Query.getSingleData site query := by
  cases query with
  | nil => rfl
  | cons x xs =>
    cases x with
    | attr value => rfl
    | node n => exact (firstText_unstaged site n).symm

theorem readAttr_unstaged (s : VaeDbStructure) (name : String) (value : Option String) :
    s.readAttr (unstagedName name, value) = s.readAttr (name, value) := by
  simp only [VaeDbStructure.readAttr, unstagedName_eq_iff (k := "name") (by decide),
    unstagedName_eq_iff (k := "permalink") (by decide),
    unstagedName_eq_iff (k := "type") (by decide)]

/-- Production mode on the renamed attributes reads what staging mode reads. -/
theorem read_unstaged : ∀ (properties : Properties) (a : Attrs),
    Attrs.read false a (renamed unstagedName properties) = Attrs.read true a properties
  | [], a => rfl
  | (name, value) :: rest, a => by
      have hrest : renamed unstagedName ((name, value) :: rest) =
        (unstagedName name, value) :: renamed unstagedName rest := rfl
      rw [hrest, Attrs.read, Attrs.read]
      simp only [unstagedName_eq_iff (k := "id") (by decide),
        unstagedName_eq_iff (k := "type") (by decide),
        unstagedName_eq_iff (k := "permalink") (by decide), read_unstaged rest,
        unstagedName_ne_staging name]
      simp

theorem renamed_eq_nil {f : String → String} {properties : Properties} :
    renamed f properties = [] ↔ properties = [] := List.map_eq_nil_iff

theorem properties_unstaged (site : Site) (n : NodeId) :
    Alike (fun properties properties' => properties' = renamed unstagedName properties)
      (site.properties n) (site.unstaged.properties n) := by
  refine (Alike.deref (g := Cell.map (Info.renamed unstagedName))).bind ?_
  rintro cell _ rfl
  have hread : site.lists.read n (renamed unstagedName cell.data.properties) =
      (site.lists.read n cell.data.properties).map (renamed unstagedName) := by
    have hnil : (renamed unstagedName cell.data.properties ≠ []) =
        (cell.data.properties ≠ []) := propext renamed_eq_nil.not
    simp only [AttrLists.read, hnil]
    split <;> rfl
  change Alike _ _ (deref (site.lists.read n (renamed unstagedName cell.data.properties)))
  rw [hread]
  exact Alike.deref

/-- What is freed with a node does not depend on staging marks. -/
theorem freeProps_unstaged (lists : AttrLists) (n : NodeId) (cell : Cell NodeId Info) :
    freeProps lists n (cell.map (Info.renamed unstagedName)) = freeProps lists n cell := by
  rw [freeProps, freeProps, AttrLists.xmlFreePropList, AttrLists.xmlFreePropList]
  change (if renamed unstagedName cell.data.properties = [] then _ else _) = _
  rw [if_congr renamed_eq_nil rfl rfl]

/-- A store and the store without staging marks, with the lists of attributes of both. -/
def unstagedStore (freed : Store × AttrLists) : Store × AttrLists :=
  (Heap.map (Info.renamed unstagedName) freed.1, freed.2)

/-! ### Constructing -/

/-- Both sites, each with what else was computed. -/
inductive SeenWith {α : Type} : Site × α → Site × α → Prop
  | mk (site site' : Site) (a : α) (h : Seen site site') : SeenWith (site, a) (site', a)

theorem structureFromStructureId_seen {site site' : Site} (h : Seen site site') (N : ℤ) :
    Alike SeenWith (site.structureFromStructureId lib N)
      (site'.structureFromStructureId lib.unstaged N) := by
  obtain ⟨hmode, rfl⟩ := h
  have hstructures : site.unstaged.structures = site.structures := rfl
  rw [Site.structureFromStructureId, Site.structureFromStructureId, hstructures]
  cases site.structures N with
  | some s => exact .ok ⟨_, _, _, hmode, rfl⟩
  | none =>
    dsimp only
    rw [runRawQuery_unstaged]
    refine Alike.bind_same fun query => Alike.bind_same fun node => ?_
    cases node with
    | attr value => exact .error _
    | node n =>
      refine (properties_unstaged site n).bind ?_
      rintro properties _ rfl
      have hfold := Alike.foldlM (R := Eq) (f := VaeDbStructure.readAttr)
        (g := VaeDbStructure.readAttr) (fun (name, value) => (unstagedName name, value))
        (fun s _ (name, value) hs => by rw [← hs, readAttr_unstaged]; exact Alike.same _)
        properties ⟨N, "", "", ""⟩ _ rfl
      refine hfold.bind fun s _ hs => ?_
      subst hs
      exact .ok ⟨_, _, _, hmode, rfl⟩

theorem populateAttrs_seen {site site' : Site} (h : Seen site site') (properties : Properties) :
    Alike SeenWith (populateAttrs lib site properties)
      (populateAttrs lib.unstaged site' (renamed unstagedName properties)) := by
  obtain ⟨hmode, rfl⟩ := h
  have hmode' : site.unstaged.stagingMode = false := rfl
  rw [populateAttrs, populateAttrs, hmode, hmode', read_unstaged]
  refine Alike.bind_same fun a => ?_
  cases a with
  | none => exact .ok ⟨_, _, _, hmode, rfl⟩
  | some a =>
    dsimp only
    split
    · refine (structureFromStructureId_seen ⟨hmode, rfl⟩ _).bind ?_
      rintro _ _ ⟨site, site', s, hseen⟩
      exact .ok ⟨_, _, _, hseen⟩
    · exact .ok ⟨_, _, _, hmode, rfl⟩

theorem removeNode_seen {site site' : Site} (h : Seen site site') (n : NodeId) :
    Alike Seen (site.removeNode n) (site'.removeNode n) := by
  obtain ⟨hmode, rfl⟩ := h
  have hunlink : Heap.unlink? site.unstaged.doc n =
      (Heap.unlink? site.doc n).map (Heap.map (Info.renamed unstagedName)) := Heap.map_unlink? n
  rw [Site.removeNode, Site.removeNode, hunlink]
  refine Alike.deref.bind ?_
  rintro σ _ rfl
  have hfree : xmlFreeNode site.allocated (Heap.map (Info.renamed unstagedName) σ) site.lists n =
      (xmlFreeNode site.allocated σ site.lists n).map unstagedStore :=
    Heap.map_freeEach freeProps_unstaged ..
  change Alike Seen _ (deref (xmlFreeNode site.allocated (Heap.map (Info.renamed unstagedName) σ)
    site.lists n) >>= _)
  rw [hfree]
  refine Alike.deref.bind ?_
  rintro ⟨σ, lists⟩ _ rfl
  exact .ok ⟨hmode, rfl⟩

theorem enter_seen {site site' : Site} (h : Seen site site') (n : NodeId) (a : Attrs)
    (s : Option VaeDbStructure) : Alike SeenWith (site.enter n a s) (site'.enter n a s) := by
  obtain ⟨hmode, rfl⟩ := h
  rw [Site.enter, Site.enter, ← firstText_unstaged]
  refine Alike.bind_same fun data => ?_
  exact .ok ⟨_, _, _, hmode, rfl⟩

theorem keepOrKill_seen {site site' : Site} (h : Seen site site') (n : NodeId)
    (ctxt : Option Context) : Alike Seen (site.keepOrKill n ctxt) (site'.keepOrKill n ctxt) := by
  cases ctxt with
  | none => exact removeNode_seen h n
  | some ctxt =>
    obtain ⟨hmode, rfl⟩ := h
    refine .ok ⟨hmode, ?_⟩
    rw [Site.setPrivate, Site.setPrivate, Site.unstaged, Site.unstaged]
    dsimp only
    rw [Heap.map_modify (h := fun cell => { cell with data := { cell.data with priv := some n } })
      fun _ => rfl]

mutual

theorem newContext_seen : ∀ (p : List ℕ) (t : Tree) {site site' : Site}, Seen site site' →
    Alike SeenWith (newContext lib p t site) (newContext lib.unstaged p t.unstaged site')
  | p, .text _, site, site', _ | p, .other _, site, site', _ => .error _
  | p, .element name properties children, site, site', h => by
      rw [Tree.unstaged, newContext, newContext]
      refine (populateAttrs_seen h properties).bind ?_
      rintro _ _ ⟨site, site', r, hseen⟩
      rcases r with _ | ⟨a, s⟩
      · exact .ok ⟨_, _, _, hseen⟩
      · have hkids : Alike Seen
            (if isAssociation s then pure (site.defer (.parsed p))
              else newContexts lib p 0 children site)
            (if isAssociation s then pure (site'.defer (.parsed p))
              else newContexts lib.unstaged p 0 (Tree.unstagedAll children) site') := by
          split
          · obtain ⟨hmode, rfl⟩ := hseen
            exact .ok ⟨hmode, rfl⟩
          · exact newContexts_seen p 0 children hseen
        refine hkids.bind fun site site' hseen => (enter_seen hseen _ a s).bind ?_
        rintro _ _ ⟨site, site', ctxt, hseen⟩
        exact .ok ⟨_, _, _, hseen⟩

theorem newContexts_seen : ∀ (p : List ℕ) (i : ℕ) (ts : List Tree) {site site' : Site},
    Seen site site' → Alike Seen (newContexts lib p i ts site)
      (newContexts lib.unstaged p i (Tree.unstagedAll ts) site')
  | p, i, [], site, site', h => by
      rw [Tree.unstagedAll, newContexts, newContexts]
      exact .ok h
  | p, i, .text _ :: ts, site, site', h | p, i, .other _ :: ts, site, site', h => by
      rw [Tree.unstagedAll, Tree.unstaged, newContexts, newContexts]
      exact newContexts_seen p (i + 1) ts h
  | p, i, .element name properties children :: ts, site, site', h => by
      have hnode := newContext_seen (i :: p) (.element name properties children) h
      rw [Tree.unstaged] at hnode
      rw [Tree.unstagedAll, Tree.unstaged, newContexts, newContexts]
      refine hnode.bind ?_
      rintro _ _ ⟨site, site', ctxt, hseen⟩
      exact (keepOrKill_seen hseen _ ctxt).bind fun site site' hseen =>
        newContexts_seen p (i + 1) ts hseen

end

/-! ### Associating -/

theorem graft_seen {site site' : Site} (h : Seen site site') (node associatedNode : NodeId) :
    Alike (fun grafted grafted' => grafted' = unstagedStore grafted)
      (site.graft node associatedNode) (site'.graft node associatedNode) := by
  obtain ⟨-, rfl⟩ := h
  rw [Site.graft, Site.graft]
  refine (Alike.deref (g := Cell.map (Info.renamed unstagedName))).bind ?_
  rintro cell _ rfl
  have hprops : site.unstaged.lists.xmlFreePropList node
      (cell.map (Info.renamed unstagedName)).data.properties =
        site.lists.xmlFreePropList node cell.data.properties := freeProps_unstaged _ _ cell
  rw [hprops]
  refine Alike.bind_same fun lists => Alike.bind_same fun first => ?_
  refine (Alike.deref (g := Cell.map (Info.renamed unstagedName))).bind ?_
  rintro firstCell _ rfl
  have hfree : xmlFreeNodeList site.unstaged.allocated site.unstaged.doc lists firstCell.next =
      (xmlFreeNodeList site.allocated site.doc lists firstCell.next).map unstagedStore :=
    Heap.map_freeListEach freeProps_unstaged ..
  change Alike _ _ (deref (xmlFreeNodeList site.unstaged.allocated site.unstaged.doc lists
    firstCell.next) >>= _)
  rw [hfree]
  refine Alike.deref.bind ?_
  rintro ⟨σ, lists⟩ _ rfl
  refine (Alike.deref (g := Cell.map (Info.renamed unstagedName))).bind ?_
  rintro _ _ rfl
  refine (Alike.deref (g := Cell.map (Info.renamed unstagedName))).bind ?_
  rintro target _ rfl
  refine (Alike.deref (g := Cell.map (Info.renamed unstagedName))).bind ?_
  rintro _ _ rfl
  refine .ok (Prod.ext ?_ rfl)
  rw [unstagedStore]
  dsimp only
  rw [Heap.map_modify (h := fun c => { c with
      last := target.last
      data := { c.data with
        properties := renamed unstagedName target.data.properties
        priv := target.data.priv } }) fun _ => rfl,
    Heap.map_modify (h := fun c => { c with next := target.children }) fun _ => rfl]
  rfl

theorem setLast_unstaged (last : Option NodeId) : ∀ (ns : List NodeId) (σ : Store),
    Heap.map (Info.renamed unstagedName) (setLast σ ns last) =
      setLast (Heap.map (Info.renamed unstagedName) σ) ns last
  | [], σ => rfl
  | n :: ns, σ => by
      have hstep := Heap.map_modify (σ := σ) (g := Info.renamed unstagedName)
        (f := fun c => { c with last := last }) (h := fun c => { c with last := last })
        (fun _ => rfl) n
      rw [setLast, setLast, List.foldl_cons, List.foldl_cons, ← hstep]
      exact setLast_unstaged last ns _

theorem setLast?_unstaged (last : Option NodeId) (ns : List NodeId) (σ : Store) :
    Alike (fun σ σ' => σ' = Heap.map (Info.renamed unstagedName) σ) (deref (setLast? σ ns last))
      (deref (setLast? (Heap.map (Info.renamed unstagedName) σ) ns last)) := by
  have hset : setLast? (Heap.map (Info.renamed unstagedName) σ) ns last =
      (setLast? σ ns last).map (Heap.map (Info.renamed unstagedName)) := by
    rw [setLast?, setLast?, ← setLast_unstaged]
    simp only [Heap.map, Option.isSome_map]
    split <;> rfl
  rw [hset]
  exact Alike.deref

theorem associate_seen {site site' : Site} (h : Seen site site') (node associatedNode : NodeId) :
    Alike Seen (site.associate node associatedNode) (site'.associate node associatedNode) := by
  rw [Site.associate, Site.associate]
  refine (graft_seen h node associatedNode).bind ?_
  obtain ⟨hmode, rfl⟩ := h
  rintro ⟨σ, lists⟩ _ rfl
  refine (Alike.deref (g := Cell.map (Info.renamed unstagedName))).bind ?_
  rintro cell _ rfl
  have hcopy : Alike (fun c c' => c' = Cell.map (Info.renamed unstagedName) c)
      (xmlCopyNode σ cell.parent)
      (xmlCopyNode (Heap.map (Info.renamed unstagedName) σ) cell.parent) := by
    cases cell.parent with
    | none => exact .error _
    | some p => exact Alike.deref
  refine hcopy.bind ?_
  rintro parent _ rfl
  have hadd : Heap.addChild? (Function.update (Heap.map (Info.renamed unstagedName) σ)
      (.pointer site.allocated) (some (pointerCell (Cell.map (Info.renamed unstagedName) parent))))
        associatedNode (.pointer site.allocated) =
      (Heap.addChild? (Function.update σ (.pointer site.allocated) (some (pointerCell parent)))
        associatedNode (.pointer site.allocated)).map (Heap.map (Info.renamed unstagedName)) := by
    rw [← Heap.map_addChild?, Heap.map_update]
    rfl
  change Alike Seen _ (deref (Heap.addChild? (Function.update
    (Heap.map (Info.renamed unstagedName) σ) (.pointer site.allocated)
    (some (pointerCell (Cell.map (Info.renamed unstagedName) parent)))) associatedNode
      (.pointer site.allocated)) >>= _)
  rw [hadd]
  refine Alike.deref.bind ?_
  rintro σ _ rfl
  refine Alike.bind_same fun parentPtr => Alike.bind_same fun parentContext => ?_
  refine (Alike.deref (g := Cell.map (Info.renamed unstagedName))).bind ?_
  rintro associated _ rfl
  refine Alike.bind_same fun associatedPtr => Alike.bind_same fun associatedContext => ?_
  refine (setLast?_unstaged associated.last associatedContext.pointerNodes σ).bind ?_
  rintro σ _ rfl
  exact .ok ⟨hmode, rfl⟩

theorem initializeAssociation_seen {site site' : Site} (h : Seen site site') (node : NodeId) :
    Alike Seen (site.initializeAssociation node) (site'.initializeAssociation node) := by
  have hnodes : site'.nodes = site.nodes := by rw [h.2]; rfl
  have htext : site'.firstText node = site.firstText node := by
    rw [h.2, ← firstText_unstaged]
  rw [Site.initializeAssociation, Site.initializeAssociation, htext]
  refine Alike.bind_same fun text => ?_
  dsimp only
  rw [hnodes]
  cases if 0 < Cpp.atoi text then site.nodes (Cpp.atoi text) else none with
  | some associatedNode => exact associate_seen h node associatedNode
  | none =>
    refine (removeNode_seen h node).bind ?_
    rintro site _ ⟨hmode, rfl⟩
    exact .ok ⟨hmode, rfl⟩

/-! ### Loading -/

theorem loadContent_seen (doc : Document) {site site' : Site} (h : Seen site site')
    (root : NodeId) : Alike Seen (site.loadContent lib doc root)
      (site'.loadContent lib.unstaged doc.unstaged root) := by
  cases root with
  | pointer k => exact .error _
  | parsed p =>
    obtain ⟨hmode, rfl⟩ := h
    rw [Site.loadContent, Site.loadContent]
    refine (Alike.deref (g := Cell.map (Info.renamed unstagedName))).bind ?_
    rintro cell _ rfl
    rw [Document.kids_unstaged, ← Tree.unstagedAll_eq_map]
    exact newContexts_seen p 0 (doc.kids p) ⟨hmode, rfl⟩

/-- CORRECT: a staging site loads as the production site of the feed without staging marks. -/
theorem loadXmlDoc_unstaged {site site' : Site} (h : Seen site site') (rawxml : String) :
    Alike Seen (site.loadXmlDoc lib rawxml) (site'.loadXmlDoc lib.unstaged rawxml) := by
  obtain ⟨hmode, rfl⟩ := h
  have hread : lib.unstaged.xmlReadMemory rawxml =
    (lib.xmlReadMemory rawxml).map Document.unstaged := rfl
  rw [Site.loadXmlDoc, Site.loadXmlDoc, hread]
  cases lib.xmlReadMemory rawxml with
  | none => exact .error _
  | some doc =>
    dsimp only [Option.map_some]
    have hsizes : Tree.sizes doc.unstaged = Tree.sizes doc := Tree.sizes_unstaged doc
    have hstart : ∀ rootNode rootDesignNode, ({ site.unstaged with
          doc := doc.unstaged.store, lists := .parsed, allocated := Tree.sizes doc.unstaged + 1
          rootNode := rootNode, rootDesignNode := rootDesignNode } : Site) =
        Site.unstaged { site with
          doc := doc.store, lists := .parsed, allocated := Tree.sizes doc + 1
          rootNode := rootNode, rootDesignNode := rootDesignNode } := by
      intro rootNode rootDesignNode
      rw [Document.store_unstaged, hsizes]
      rfl
    have hquery : ∀ rootNode rootDesignNode q d, Query.runRawQuery lib.unstaged
          ({ site.unstaged with
            doc := doc.unstaged.store, lists := .parsed, allocated := Tree.sizes doc.unstaged + 1
            rootNode := rootNode, rootDesignNode := rootDesignNode } : Site) none q d =
        Query.runRawQuery lib ({ site with
            doc := doc.store, lists := .parsed, allocated := Tree.sizes doc + 1
            rootNode := rootNode, rootDesignNode := rootDesignNode } : Site) none q d := by
      intro rootNode rootDesignNode q d
      rw [hstart, runRawQuery_unstaged]
    rw [hquery none none]
    refine Alike.bind_same fun query₁ => Alike.bind_same fun x => Alike.bind_same fun root => ?_
    rw [hquery (some root) none]
    refine Alike.bind_same fun query₂ => Alike.bind_same fun y => Alike.bind_same fun design => ?_
    rw [hstart (some root) (some design)]
    have hcontent := @loadContent_seen lib doc { site with
      doc := doc.store, lists := .parsed, allocated := Tree.sizes doc + 1
      rootNode := some root, rootDesignNode := some design } _ ⟨hmode, rfl⟩ root
    refine hcontent.bind fun site site' hseen => ?_
    have hassociations : site'.associationsToInitialize = site.associationsToInitialize := by
      rw [hseen.2]
      rfl
    have hphase := Alike.foldlM (R := Seen) id (fun s s' n hs => initializeAssociation_seen hs n)
      site.associationsToInitialize site site' hseen
    rw [List.map_id, ← hassociations] at hphase
    rw [← hassociations]
    refine hphase.bind ?_
    rintro site _ ⟨hmode, rfl⟩
    have hgeneration := @runRawQuery_unstaged lib { site with associationsToInitialize := [] } none
      "/website/generation" "website generation node"
    refine Alike.bind (R := Eq) ?_ fun query₃ _ h₃ => ?_
    · rw [← hgeneration]
      exact Alike.same _
    · subst h₃
      refine Alike.bind_same fun z => ?_
      have hdata := getSingleData_unstaged { site with associationsToInitialize := [] } [z]
      refine Alike.bind (R := Eq) ?_ fun text _ htext => ?_
      · rw [← hdata]
        exact Alike.same _
      · subst htext
        exact .ok ⟨hmode, rfl⟩

end VaeDb
