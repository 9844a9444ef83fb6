import VaeDb.Schemes.Hierarchy
import VaeDb.Site.Accounting

/-! Closing a Site gives everything back, once.

    When all items have had their turns, the nodes of a Site are one tree again as soon as the pointer
    nodes and the linked items have let go of what they share. So the destructor comes by every node
    and by every Context, and by none of them twice.

        (document) ─┬─ (root) ──▶ walked nodes ─┬─ pointer        lets go of its children
                    │                           ├─ linked item ── text ✂
                    │                           └─ text
                    └─ the rest, as parsed                                                      -/

namespace VaeDb.Teardown
open Schemes Xml Walk Staging PointerNodes

variable {doc : Document} {S : Structures} {r : List ℕ} {ps ls : List NodeId} {site : Site}
  {σ : Store}

/-! ### The destructor on a tree -/

/-- The store once what is shared has been taken back. -/
def cleaned (ps ls : List NodeId) (σ : Store) : Store := itemsCleaned ls (pointersCleaned ps σ)

/-- A Site that can be closed: what was noted down is there, what it shares apart the nodes are one
    tree, and the elements below the root have the Contexts, each its own. -/
structure Disposable (ps ls : List NodeId) (root : NodeId) (kids : NodeId → List NodeId)
    (depth : NodeId → ℕ) (bound : ℕ) (site : Site) : Prop where
  pointers : ∀ n ∈ ps, ∃ c, site.doc n = some c
  items : ∀ a ∈ ls, ∃ c, pointersCleaned ps site.doc a = some c ∧
    ∀ f ∈ c.children, ∃ d, pointersCleaned ps site.doc f = some d
  rootNode : site.rootNode = some root
  rootThere : ∃ c, cleaned ps ls site.doc root = some c
  topThere : ∃ c, cleaned ps ls site.doc (.parsed []) = some c
  tree : Hierarchy (cleaned ps ls site.doc) (.parsed []) kids depth bound
  own : ∀ n, Under kids n root → OwnContext (cleaned ps ls site.doc) site.contexts n
  held : ∀ n ctxt, site.contexts n = some ctxt → Under kids n root ∧
    ∃ c, cleaned ps ls site.doc n = some c ∧ c.data.type = .element ∧ c.data.priv = some n
  counted : site.Counted
  lists : ∀ n c, cleaned ps ls site.doc n = some c → c.data.properties = [] ∨ Has site.lists n

theorem cleaned_isSome (n : NodeId) : (cleaned ps ls σ n).isSome = (σ n).isSome := by
  rw [cleaned, itemsCleaned, Option.isSome_map, pointersCleaned]
  split
  · rw [Option.isSome_map]
  · rfl

/-- A node that has no attributes, or a list of its own, can be freed with it. -/
theorem freeProps_bare_or_own {τ : Store} (lists : AttrLists) (n : NodeId) (cell : Cell NodeId Info)
    (hcell : τ n = some cell)
    (h : ∀ c, τ n = some c → c.data.properties = [] ∨ Has lists n) :
    ∃ lists', freeProps lists n cell = some lists' ∧ ∀ m, m ≠ n →
      (∀ c, τ m = some c → c.data.properties = [] ∨ Has lists m) →
      ∀ c, τ m = some c → c.data.properties = [] ∨ Has lists' m := by
  rcases h cell hcell with hbare | hown
  · exact ⟨lists, by rw [freeProps, AttrLists.xmlFreePropList, if_pos hbare], fun _ _ hm => hm⟩
  · obtain ⟨lists', hfree, hkept⟩ := freeProps_own lists n cell hown
    exact ⟨lists', hfree, fun m hm hother c hc => (hother c hc).imp_right (hkept m hm)⟩

/-- The destructor comes to its end, and leaves no node and no Context. -/
theorem Disposable.destroy {root : NodeId} {kids : NodeId → List NodeId} {depth : NodeId → ℕ}
    {bound : ℕ} (h : Disposable ps ls root kids depth bound site) :
    ∃ site', site.destroy ps ls = .ok site' ∧ (∀ n, site'.doc n = none) ∧
      ∀ n, site'.contexts n = none := by
  obtain ⟨nodes, hlength, hnodes⟩ := h.counted
  have hlisted : ∀ n c, cleaned ps ls site.doc n = some c → n ∈ nodes := by
    intro n c hc
    have hsome := @cleaned_isSome ps ls site.doc n
    rw [hc] at hsome
    obtain ⟨d, hd⟩ := Option.isSome_iff_exists.mp hsome.symm
    exact hnodes n d hd
  obtain ⟨rootCell, hroot⟩ := h.rootThere
  obtain ⟨top, htop⟩ := h.topThere
  -- the Contexts lie along the tree below the root
  obtain ⟨ns, hforest, hnodup, hmem⟩ := h.tree.forest hroot
  have hlength' : ns.length ≤ site.allocated := by
    rw [← hlength]
    refine (hnodup.subperm fun n hn => ?_).length_le
    obtain ⟨c, hc⟩ := hforest.there n hn
    exact hlisted n c hc
  obtain ⟨contexts, hcontexts, hgone, hkeep⟩ := freeContexts_eq hforest hnodup hlength'
    fun n hn => h.own n ((hmem n).mp hn)
  obtain ⟨σ, lists, hfree, hnone⟩ := h.tree.freeListEach freeProps_bare_or_own
    (fun n _ _ c hc => h.lists n c hc) htop hlisted (Nat.le_of_eq hlength)
  refine ⟨{ site with
    doc := σ.erase (.parsed []), lists := lists, contexts := contexts
    structures := fun _ => none, nodes := fun _ => none }, ?_, fun n => ?_, fun n => ?_⟩
  · rw [Site.destroy, cleanPointers_eq h.pointers, ok_bind, cleanItems_eq h.items, ok_bind, h.rootNode]
    change (deref (cleaned ps ls site.doc root) >>= _) = _
    rw [hroot]
    change (freeContexts (cleaned ps ls site.doc) site.allocated rootCell.children site.contexts >>= _) = _
    rw [hcontexts, ok_bind]
    change (deref (cleaned ps ls site.doc (.parsed [])) >>= _) = _
    rw [htop]
    change (deref (xmlFreeNodeList site.allocated (cleaned ps ls site.doc) site.lists top.children) >>=
      _) = _
    rw [xmlFreeNodeList, hfree]
    rfl
  · rcases eq_or_ne n (.parsed []) with rfl | hn
    · exact Heap.erase_self σ (.parsed [])
    · exact (Heap.erase_of_ne σ hn).trans (hnone n hn)
  · cases hctxt : site.contexts n with
    | none => exact (hkeep n).2 hctxt
    | some ctxt =>
      obtain ⟨hunder, c, hc, htype, hpriv⟩ := h.held n ctxt hctxt
      exact hgone n ((hmem n).mpr hunder) c hc htype hpriv

/-! ### Where the nodes of a settled site are -/

theorem exists_parent {i : ℕ} {p : List ℕ} {t : Tree} (h : doc.at? (i :: p) = some t) :
    p = [] ∨ ∃ u, doc.at? p = some u := by
  cases p with
  | nil => exact .inl rfl
  | cons j q =>
    rw [Document.at?, Document.kids] at h
    cases hu : (doc.kids q)[j]? with
    | none =>
      rw [hu] at h
      simp at h
    | some u => exact .inr ⟨u, hu⟩

/-- From the root down a path is walked, up to a child that is not. -/
theorem walked_or_below {p : List ℕ} (hp : r <:+ p) (hat : p = r ∨ ∃ t, doc.at? p = some t) :
    Walked doc S r p ∨ ∃ c, Child doc S r c ∧ ¬ Walked doc S r c ∧ c <:+ p := by
  induction p with
  | nil => exact .inl (List.suffix_nil.mp hp ▸ .root)
  | cons i p ih =>
    rcases List.suffix_cons_iff.mp hp with rfl | hp
    · exact .inl .root
    rcases hat with rfl | ⟨t, hat⟩
    · exact .inl .root
    have hparent : p = r ∨ ∃ u, doc.at? p = some u := by
      refine (exists_parent hat).imp_left ?_
      rintro rfl
      exact (List.suffix_nil.mp hp).symm
    rcases ih hp hparent with hw | ⟨c, hc, hcw, hcp⟩
    · by_cases hwalked : Walked doc S r (i :: p)
      · exact .inl hwalked
      · exact .inr ⟨i :: p, ⟨i, p, t, rfl, hw, hat⟩, hwalked, List.suffix_rfl⟩
    · exact .inr ⟨c, hc, hcw, hcp.trans (List.suffix_cons _ _)⟩

/-- A node with nothing below it: a text, a comment and the like. -/
structure Leaf (doc : Document) (p : List ℕ) (cell : Cell NodeId Info) : Prop where
  kids : doc.kids p = []
  children : cell.children = none
  type : cell.data.type ≠ .element

/-- Where a node of the content can be: it is walked, or a linked item, or a leaf below one of these. -/
def Place (doc : Document) (S : Structures) (r : List ℕ) (ls : List NodeId) (p : List ℕ)
    (cell : Cell NodeId Info) : Prop :=
  Walked doc S r p ∨ .parsed p ∈ ls ∨ Leaf doc p cell ∧
    ∃ i q, p = i :: q ∧ (Walked doc S r q ∨ i = 0 ∧ .parsed q ∈ ls)

namespace Settled

variable {p a : List ℕ} {cell : Cell NodeId Info}

theorem item (h : Settled doc S r ps ls site) (ha : .parsed a ∈ ls) : ∃ content, Item doc S r a ∧
    ¬ Walked doc S r a ∧ doc.at? (0 :: a) = some (.text content) ∧ Emptied site.doc a := by
  obtain ⟨b, content, heq, hb, -, htext, hempty⟩ := h.accounted.linked _ ha
  cases heq
  exact ⟨content, hb, not_walked_of_association (ElementWith.child hb) hb.associationAt.2, htext,
    hempty⟩

theorem not_item (h : Settled doc S r ps ls site) (hp : Walked doc S r p) : .parsed p ∉ ls := by
  intro hmem
  obtain ⟨-, -, hnot, -⟩ := h.item hmem
  exact hnot hp

theorem element_at (h : Settled doc S r ps ls site) {i : ℕ}
    (hcell : site.doc (.parsed (i :: p)) = some cell) {name : String} {properties : Properties}
    {children : List Tree} (hat : doc.at? (i :: p) = some (.element name properties children)) :
    cell.data.type = .element := by
  obtain ⟨t, hat', htype⟩ := (h.fromDoc _ cell hcell).resolve_left (by simp)
  obtain rfl := Option.some.inj (hat.symm.trans hat')
  exact htype

/-- A walked node below the root is an element. -/
theorem element_walked (h : Settled doc S r ps ls site) (hp : Walked doc S r p) (hpr : p ≠ r)
    (hcell : site.doc (.parsed p) = some cell) : cell.data.type = .element := by
  cases hp with
  | root => exact absurd rfl hpr
  | child _ hat _ _ => exact h.element_at hcell hat

theorem alive_walked (h : Settled doc S r ps ls site) (hp : Walked doc S r p) :
    ∃ cell, site.doc (.parsed p) = some cell := by
  obtain ⟨ptrs, hlists, -⟩ := h.linking.inv.lists
  obtain ⟨cell, hcell, -⟩ := (hlists.linked p hp).ends
  exact ⟨cell, hcell⟩

/-- What is there of an element that is not walked, or below it. -/
theorem place_element (h : Settled doc S r ps ls site) (hcell : site.doc (.parsed p) = some cell)
    (htype : ∀ u, doc.at? p = some u → cell.data.type = u.info.type) {i : ℕ} {q : List ℕ}
    {name : String} {properties : Properties} {children : List Tree} (hq : Walked doc S r q)
    (hat : doc.at? (i :: q) = some (.element name properties children))
    (hcw : ¬ Walked doc S r (i :: q)) (hcp : i :: q <:+ p) : Place doc S r ls p cell := by
  have hc : Child doc S r (i :: q) := ⟨i, q, _, rfl, hq, hat⟩
  have hthere : ¬ Gone site.doc (i :: q) := fun hgone =>
    absurd (hcell.symm.trans (hgone p hcp)) (by simp)
  by_cases hstaged : Staged properties
  · exact absurd (h.accounted.staged _ hc ⟨name, properties, children, hat, hstaged⟩) hthere
  by_cases hassoc : Association S properties
  · have hitem : Item doc S r (i :: q) :=
      ⟨i, q, name, properties, children, rfl, hq, hat, hstaged, hassoc⟩
    have hlinked := ((h.accounted.items _ hitem).resolve_left (by simp)).resolve_left hthere
    obtain ⟨content, -, -, htext, hempty⟩ := h.item hlinked
    rcases eq_or_ne p (i :: q) with rfl | hpc
    · exact .inr (.inl hlinked)
    rcases eq_or_ne p (0 :: i :: q) with rfl | hp0
    · refine .inr (.inr ⟨⟨kids_of_at? htext, ?_, ?_⟩, 0, i :: q, rfl, .inr ⟨rfl, hlinked⟩⟩)
      · obtain ⟨cell', hcell', hnone⟩ := hempty.text
        rw [hcell, Option.some.injEq] at hcell'
        exact hcell' ▸ hnone
      · rw [htype _ htext]
        simp [Tree.info]
    · exact absurd (hcell.symm.trans (hempty.rest p hcp hpc hp0)) (by simp)
  · exact absurd (.child hq hat hstaged hassoc) hcw

/-- What is there of a text, a comment and the like. -/
theorem place_leaf (h : Settled doc S r ps ls site) (hcell : site.doc (.parsed p) = some cell)
    (hdoc : ∃ u, doc.at? p = some u ∧ cell.data.type = u.info.type) {i : ℕ} {q : List ℕ} {t : Tree}
    (hq : Walked doc S r q) (hat : doc.at? (i :: q) = some t) (hchildren : t.children = [])
    (ht : t.info.type ≠ .element) (hcw : ¬ Walked doc S r (i :: q)) (hcp : i :: q <:+ p) :
    Place doc S r ls p cell := by
  have hkids : doc.kids (i :: q) = [] := (kids_of_at? hat).trans hchildren
  obtain ⟨u, hu, htype⟩ := hdoc
  obtain rfl : p = i :: q := by
    by_contra hne
    have hmem := mem_below hu hcp hne
    rw [hkids] at hmem
    cases hmem
  obtain rfl := Option.some.inj (hat.symm.trans hu)
  refine .inr (.inr ⟨⟨hkids, ?_, htype ▸ ht⟩, i, q, rfl, .inl hq⟩)
  have hintact := h.linking.inv.intact _ ⟨i, q, t, rfl, hq, hat⟩ hcw ?_ cell hcell
  · rw [hintact.children cell hcell, Document.kidIds, hkids]
    rfl
  · rintro ⟨name, properties, children, hat', -⟩
    rw [hat, Option.some.injEq] at hat'
    exact absurd (hat' ▸ rfl) ht

theorem place (h : Settled doc S r ps ls site) (hcell : site.doc (.parsed p) = some cell)
    (hp : r <:+ p) : Place doc S r ls p cell := by
  rcases h.fromDoc p cell hcell with rfl | ⟨u, hu, htype⟩
  · exact .inl (List.suffix_nil.mp hp ▸ .root)
  rcases walked_or_below hp (.inr ⟨u, hu⟩) with hw | ⟨c, hc, hcw, hcp⟩
  · exact .inl hw
  obtain ⟨i, q, t, rfl, hq, hat⟩ := hc
  cases t with
  | element name properties children =>
    refine h.place_element hcell (fun u' hu' => ?_) hq hat hcw hcp
    rw [hu, Option.some.injEq] at hu'
    exact hu' ▸ htype
  | text content => exact h.place_leaf hcell ⟨u, hu, htype⟩ hq hat rfl (by simp [Tree.info]) hcw hcp
  | other content => exact h.place_leaf hcell ⟨u, hu, htype⟩ hq hat rfl (by simp [Tree.info]) hcw hcp

/-! ### What the two loops of the destructor do -/

theorem pointer (h : Settled doc S r ps ls site) {n : NodeId} (hn : n ∈ ps) : ∃ k, n = .pointer k := by
  obtain ⟨k, -, rfl, -⟩ := h.accounted.pointers n hn
  exact ⟨k, rfl⟩

theorem pointersCleaned_parsed (h : Settled doc S r ps ls site) (p : List ℕ) :
    pointersCleaned ps site.doc (.parsed p) = site.doc (.parsed p) := by
  refine if_neg fun hmem => ?_
  obtain ⟨k, hk⟩ := h.pointer hmem
  cases hk

/-- The nodes behind which a list is cut are the texts of the linked items. -/
theorem mem_firsts (h : Settled doc S r ps ls site) (n : NodeId) :
    some n ∈ ls.map (firstOf (pointersCleaned ps site.doc)) ↔
      ∃ a, .parsed a ∈ ls ∧ n = .parsed (0 :: a) := by
  have hfirst : ∀ a, .parsed a ∈ ls →
      firstOf (pointersCleaned ps site.doc) (.parsed a) = some (.parsed (0 :: a)) := by
    intro a ha
    obtain ⟨-, -, -, -, hempty⟩ := h.item ha
    obtain ⟨cell, hcell, hchildren⟩ := hempty.item
    rw [firstOf, h.pointersCleaned_parsed, hcell]
    exact hchildren
  rw [List.mem_map]
  constructor
  · rintro ⟨m, hm, heq⟩
    obtain ⟨a, -, rfl, -⟩ := h.accounted.linked m hm
    rw [hfirst a hm, Option.some.injEq] at heq
    exact ⟨a, hm, heq.symm⟩
  · rintro ⟨a, ha, rfl⟩
    exact ⟨_, ha, hfirst a ha⟩

/-- What becomes of a node of the document. -/
structure Cleaned (ls : List NodeId) (p : List ℕ) (c c' : Cell NodeId Info) : Prop where
  children : c'.children = c.children
  type : c'.data.type = c.data.type
  kept : .parsed p ∉ ls → c'.data.priv = c.data.priv
  bare : .parsed p ∈ ls → c'.data.priv = none ∧ c'.data.properties = []
  next : (∀ a, p = 0 :: a → .parsed a ∉ ls) → c'.next = c.next
  cut : ∀ a, p = 0 :: a → .parsed a ∈ ls → c'.next = none

theorem cleaned_parsed (h : Settled doc S r ps ls site) (hcell : site.doc (.parsed p) = some cell) :
    ∃ c', cleaned ps ls site.doc (.parsed p) = some c' ∧ Cleaned ls p cell c' := by
  rw [cleaned, itemsCleaned, h.pointersCleaned_parsed, hcell]
  refine ⟨_, rfl, rfl, ?_, fun hnot => ?_, fun hmem => ?_, fun hnot => ?_, fun a ha hmem => ?_⟩
  · dsimp only
    split <;> rfl
  · dsimp only
    rw [if_neg hnot]
  · dsimp only
    rw [if_pos hmem]
    exact ⟨rfl, rfl⟩
  · refine if_neg fun hfirst => ?_
    obtain ⟨a, ha, heq⟩ := (h.mem_firsts _).mp hfirst
    cases heq
    exact hnot a rfl ha
  · exact if_pos ((h.mem_firsts _).mpr ⟨a, hmem, by rw [ha]⟩)

theorem cleaned_pointer (h : Settled doc S r ps ls site) {k : ℕ}
    (hcell : site.doc (.pointer k) = some cell) : ∃ c', cleaned ps ls site.doc (.pointer k) = some c' ∧
      c'.children = none ∧ (c'.data.priv = none ∧ c'.data.properties = []) ∧
      c'.next = cell.next := by
  have hnot : NodeId.pointer k ∉ ls := by
    intro hmem
    obtain ⟨a, -, heq, -⟩ := h.accounted.linked _ hmem
    cases heq
  rw [cleaned, itemsCleaned, pointersCleaned, if_pos (h.accounted.made k cell hcell), hcell]
  refine ⟨_, rfl, rfl, ?_, if_neg fun hfirst => ?_⟩
  · dsimp only
    rw [if_neg hnot]
    exact ⟨rfl, rfl⟩
  · obtain ⟨a, -, heq⟩ := (h.mem_firsts _).mp hfirst
    cases heq

/-- Going back from a cell of the cleaned store. -/
theorem of_cleaned {n : NodeId} {c' : Cell NodeId Info} (hc' : cleaned ps ls site.doc n = some c') :
    ∃ c, site.doc n = some c := by
  have hsome := @cleaned_isSome ps ls site.doc n
  rw [hc'] at hsome
  exact Option.isSome_iff_exists.mp hsome.symm

/-! ### The tree -/

open Classical in
/-- The children of a node, once each node is in one list only. -/
noncomputable def kidsOf (doc : Document) (S : Structures) (r : List ℕ) (ls : List NodeId) (σ : Store)
    (ptrs : List ℕ → List NodeId) : NodeId → List NodeId
  | .pointer _ => []
  | .parsed p =>
    if Walked doc S r p then liveKids doc σ p ++ ptrs p
    else if .parsed p ∈ ls then [.parsed (0 :: p)]
    else doc.kidIds p

/-- Pointer nodes have nothing below them. -/
def depthOf (lowest : ℕ) : NodeId → ℕ
  | .pointer _ => lowest
  | .parsed p => p.length

variable {ptrs : List ℕ → List NodeId} {n m : NodeId}

theorem kidsOf_walked (hp : Walked doc S r p) :
    kidsOf doc S r ls σ ptrs (.parsed p) = liveKids doc σ p ++ ptrs p := if_pos hp

theorem kidsOf_item (h : Settled doc S r ps ls site) (ha : .parsed a ∈ ls) :
    kidsOf doc S r ls σ ptrs (.parsed a) = [.parsed (0 :: a)] := by
  obtain ⟨-, -, hnot, -⟩ := h.item ha
  rw [kidsOf, if_neg hnot, if_pos ha]

theorem kidsOf_other (hp : ¬ Walked doc S r p) (hnot : .parsed p ∉ ls) :
    kidsOf doc S r ls σ ptrs (.parsed p) = doc.kidIds p := by
  rw [kidsOf, if_neg hp, if_neg hnot]

/-- Outside of the content there are neither walked nodes nor items. -/
theorem kidsOf_outside (h : Settled doc S r ps ls site) (hp : ¬ r <:+ p) :
    kidsOf doc S r ls σ ptrs (.parsed p) = doc.kidIds p := by
  refine kidsOf_other (fun hw => hp (walked_suffix hw)) fun hmem => ?_
  obtain ⟨-, hitem, -⟩ := h.item hmem
  exact hp (child_suffix (ElementWith.child hitem))

/-- A child is a pointer node of a walked parent, or one step below its parent. -/
theorem mem_kidsOf (hlists : Lists doc S r σ ptrs) (hn : n ∈ kidsOf doc S r ls σ ptrs m) :
    ∃ p, m = .parsed p ∧
      ((∃ k, n = .pointer k ∧ Walked doc S r p ∧ n ∈ ptrs p) ∨ ∃ i, n = .parsed (i :: p)) := by
  cases m with
  | pointer k => cases hn
  | parsed p =>
    refine ⟨p, rfl, ?_⟩
    rw [kidsOf] at hn
    split at hn
    · next hp =>
      rcases List.mem_append.mp hn with hn | hn
      · obtain ⟨i, -, -, rfl⟩ := Document.mem_kidIds.mp (List.mem_filter.mp hn).1
        exact .inr ⟨i, rfl⟩
      · obtain ⟨k, rfl⟩ := hlists.pointers p n hn
        exact .inl ⟨k, rfl, hp, hn⟩
    split at hn
    · exact .inr ⟨0, List.mem_singleton.mp hn⟩
    · obtain ⟨i, -, -, rfl⟩ := Document.mem_kidIds.mp hn
      exact .inr ⟨i, rfl⟩

theorem nodup_kidsOf (hlists : Lists doc S r σ ptrs) (m : NodeId) :
    (kidsOf doc S r ls σ ptrs m).Nodup := by
  cases m with
  | pointer k => exact List.nodup_nil
  | parsed p =>
    rw [kidsOf]
    split
    · next hp => exact (hlists.linked p hp).nodup
    split
    · exact List.nodup_singleton _
    · exact Document.nodup_kidIds p

/-- The parent of a child is the only one. -/
theorem single_kidsOf (hlists : Lists doc S r σ ptrs) {m' : NodeId}
    (hn : n ∈ kidsOf doc S r ls σ ptrs m) (hn' : n ∈ kidsOf doc S r ls σ ptrs m') : m = m' := by
  obtain ⟨p, rfl, ⟨k, rfl, hp, hmem⟩ | ⟨i, rfl⟩⟩ := mem_kidsOf hlists hn
  · obtain ⟨q, rfl, ⟨k', -, hq, hmem'⟩ | ⟨j, heq⟩⟩ := mem_kidsOf hlists hn'
    · by_contra hne
      exact (hlists.linked p hp).not_mem_of_ne (hlists.linked q hq) (Ne.symm hne)
        (List.mem_append_right _ hmem') (List.mem_append_right _ hmem)
    · cases heq
  · obtain ⟨q, rfl, ⟨k', heq, -⟩ | ⟨j, heq⟩⟩ := mem_kidsOf hlists hn'
    · cases heq
    · cases heq
      rfl

/-- A list in which no text of a linked item stands is not cut. -/
theorem cleaned_spells (h : Settled doc S r ps ls site) {l : Option NodeId} {L : List NodeId}
    (hspells : site.doc.Spells l L) (hL : ∀ a, .parsed a ∈ ls → .parsed (0 :: a) ∉ L) :
    (cleaned ps ls site.doc).Spells l L := by
  refine hspells.congr fun n hn c hc => ?_
  cases n with
  | pointer k =>
    obtain ⟨c', hc', -, -, hnext⟩ := h.cleaned_pointer hc
    exact ⟨c', hc', hnext⟩
  | parsed q =>
    obtain ⟨c', hc', hcleaned⟩ := h.cleaned_parsed hc
    refine ⟨c', hc', hcleaned.next ?_⟩
    rintro a rfl hmem
    exact hL a hmem hn

/-- Outside of the content, lists are as parsed. -/
theorem spells_outside (h : Settled doc S r ps ls site) (hp : ¬ r <:+ p)
    (hcell : site.doc (.parsed p) = some cell) : site.doc.Spells cell.children (doc.kidIds p) := by
  have hstore := (h.parsed.outside p hp).symm.trans hcell
  have hexists : p = [] ∨ ∃ t, doc.at? p = some t :=
    (h.fromDoc p cell hcell).imp_right fun ⟨t, hat, _⟩ => ⟨t, hat⟩
  have hlinked := Document.store_linked hexists
  obtain ⟨c, hc, hchildren, -⟩ := hlinked.ends
  obtain rfl := Option.some.inj (hstore.symm.trans hc)
  rw [hchildren]
  refine hlinked.spells.congr fun n hn c hc => ?_
  obtain ⟨i, t, -, rfl⟩ := Document.mem_kidIds.mp hn
  by_cases hroot : r <:+ i :: p
  · obtain rfl := (List.suffix_cons_iff.mp hroot).resolve_right hp
    obtain ⟨c', hc', hsame⟩ := h.parsed.root c hc
    exact ⟨c', hc', hsame.next⟩
  · exact ⟨c, (h.parsed.outside _ hroot).trans hc, rfl⟩

/-- The children of each node, in the cleaned store. -/
theorem spells_kidsOf (h : Settled doc S r ps ls site) (hlists : Lists doc S r site.doc ptrs)
    {c' : Cell NodeId Info} (hc' : cleaned ps ls site.doc m = some c') :
    (cleaned ps ls site.doc).Spells c'.children (kidsOf doc S r ls site.doc ptrs m) := by
  obtain ⟨cell, hcell⟩ := of_cleaned hc'
  cases m with
  | pointer k =>
    obtain ⟨d, hd, hnone, -⟩ := h.cleaned_pointer hcell
    obtain rfl := Option.some.inj (hc'.symm.trans hd)
    exact hnone
  | parsed p =>
    obtain ⟨d, hd, hcleaned⟩ := h.cleaned_parsed hcell
    obtain rfl := Option.some.inj (hc'.symm.trans hd)
    rw [hcleaned.children]
    by_cases hp : r <:+ p
    · by_cases hw : Walked doc S r p
      · have hlinked := hlists.linked p hw
        obtain ⟨c, hc, hchildren, -⟩ := hlinked.ends
        obtain rfl := Option.some.inj (hcell.symm.trans hc)
        rw [kidsOf_walked hw, hchildren]
        refine h.cleaned_spells hlinked.spells fun a ha hin => ?_
        -- a text in the list would have a walked parent
        obtain ⟨-, -, hnot, -⟩ := h.item ha
        rcases hlists.mem hin with ⟨k, heq⟩ | ⟨i, t, heq, -⟩
        · cases heq
        · cases heq
          exact hnot hw
      by_cases hmem : .parsed p ∈ ls
      · obtain ⟨-, -, -, -, hempty⟩ := h.item hmem
        obtain ⟨c, hc, hchildren⟩ := hempty.item
        obtain rfl := Option.some.inj (hcell.symm.trans hc)
        obtain ⟨text, htext, -⟩ := hempty.text
        obtain ⟨text', htext', hcut⟩ := h.cleaned_parsed htext
        rw [h.kidsOf_item hmem]
        exact ⟨hchildren, text', htext', hcut.cut p rfl hmem⟩
      · obtain ⟨hleaf, -⟩ := ((h.place hcell hp).resolve_left hw).resolve_left hmem
        rw [kidsOf_other hw hmem, Document.kidIds, hleaf.kids]
        exact hleaf.children
    · rw [h.kidsOf_outside hp]
      refine h.cleaned_spells (h.spells_outside hp hcell) fun a ha hin => ?_
      obtain ⟨i, t, -, heq⟩ := Document.mem_kidIds.mp hin
      cases heq
      obtain ⟨-, hitem, -⟩ := h.item ha
      exact hp (child_suffix (ElementWith.child hitem))

/-- The parent of a node of the document: it is walked, or a linked item, or outside of the content. -/
theorem parent_place (h : Settled doc S r ps ls site) {i : ℕ}
    (hcell : site.doc (.parsed (i :: p)) = some cell) :
    Walked doc S r p ∨ (i = 0 ∧ .parsed p ∈ ls) ∨ ¬ r <:+ p := by
  by_cases hp : r <:+ p
  · have hin := hp.trans (List.suffix_cons i p)
    have hwalked : Walked doc S r (i :: p) → Walked doc S r p := by
      intro hw
      exact walked_of_suffix hw (List.suffix_cons i p) hp
    rcases h.place hcell hin with hw | hmem | ⟨-, j, q, heq, hq⟩
    · exact .inl (hwalked hw)
    · obtain ⟨-, ⟨j, q, _, _, _, heq, hq, -⟩, -⟩ := h.item hmem
      cases heq
      exact .inl hq
    · cases heq
      exact hq.imp_right .inl
  · exact .inr (.inr hp)

/-- Every node but the document is the child of a node that is there. -/
theorem owned_kidsOf (h : Settled doc S r ps ls site) (hlisted : Listed doc S r site.doc ptrs)
    (hcell : site.doc n = some cell) (hn : n ≠ .parsed []) :
    ∃ p d, site.doc (.parsed p) = some d ∧ n ∈ kidsOf doc S r ls site.doc ptrs (.parsed p) := by
  cases n with
  | pointer k =>
    obtain ⟨p, hp, hmem⟩ := hlisted k cell hcell
    obtain ⟨d, hd⟩ := h.alive_walked hp
    exact ⟨p, d, hd, kidsOf_walked hp ▸ List.mem_append_right _ hmem⟩
  | parsed q =>
    cases q with
    | nil => exact absurd rfl hn
    | cons i p =>
      obtain ⟨t, hat, -⟩ := (h.fromDoc _ cell hcell).resolve_left (by simp)
      have hkid : .parsed (i :: p) ∈ doc.kidIds p := Document.mem_kidIds.mpr ⟨i, t, hat, rfl⟩
      rcases h.parent_place hcell with hp | ⟨rfl, hmem⟩ | hp
      · obtain ⟨d, hd⟩ := h.alive_walked hp
        refine ⟨p, d, hd, kidsOf_walked hp ▸ List.mem_append_left _ (List.mem_filter.mpr ⟨hkid, ?_⟩)⟩
        rw [hcell]
        rfl
      · obtain ⟨-, -, -, -, hempty⟩ := h.item hmem
        obtain ⟨d, hd, -⟩ := hempty.item
        exact ⟨p, d, hd, h.kidsOf_item hmem ▸ List.mem_singleton_self _⟩
      · obtain ⟨d, hd, -⟩ := Document.store_ends (exists_parent hat)
        exact ⟨p, d, (h.parsed.outside p hp).trans hd, h.kidsOf_outside hp ▸ hkid⟩

/-- What the destructor has cleaned is one tree. -/
theorem hierarchy (h : Settled doc S r ps ls site) (hlists : Lists doc S r site.doc ptrs)
    (hlisted : Listed doc S r site.doc ptrs) : ∃ lowest,
      Hierarchy (cleaned ps ls site.doc) (.parsed []) (kidsOf doc S r ls site.doc ptrs)
        (depthOf (lowest + 1)) (lowest + 1) := by
  obtain ⟨nodes, -, hnodes⟩ := h.counted
  have hdeep : ∀ p c, site.doc (.parsed p) = some c →
      p.length ≤ (nodes.map (depthOf 0)).max?.getD 0 := fun p c hc =>
    List.le_max?_getD_of_mem (List.mem_map_of_mem (hnodes _ c hc))
  refine ⟨(nodes.map (depthOf 0)).max?.getD 0, fun m c hc => h.spells_kidsOf hlists hc,
    nodup_kidsOf hlists, fun m n hn => ?_, fun m m' n hn hn' => single_kidsOf hlists hn hn',
    fun n c hc hn => ?_, fun n c hc => ?_⟩
  · obtain ⟨p, rfl, ⟨k, rfl, hp, -⟩ | ⟨i, rfl⟩⟩ := mem_kidsOf hlists hn
    · obtain ⟨d, hd⟩ := h.alive_walked hp
      exact Nat.lt_succ_of_le (hdeep p d hd)
    · exact Nat.lt_succ_self _
  · obtain ⟨cell, hcell⟩ := of_cleaned hc
    obtain ⟨p, d, hd, hmem⟩ := h.owned_kidsOf hlisted hcell hn
    obtain ⟨d', hd', -⟩ := h.cleaned_parsed hd
    exact ⟨_, d', hd', hmem⟩
  · obtain ⟨cell, hcell⟩ := of_cleaned hc
    cases n with
    | pointer k => exact le_rfl
    | parsed p => exact Nat.le_succ_of_le (hdeep p cell hcell)

/-! ### The Contexts -/

/-- What lies under the root is a pointer node, or a node of the content. -/
theorem under_root (hlists : Lists doc S r site.doc ptrs)
    (hn : Under (kidsOf doc S r ls site.doc ptrs) n (.parsed r)) : Inner r n := by
  -- a child of the root, or of a node below it, is below it
  have hkid : ∀ m p, (m = .parsed r ∨ Inner r m) → p ∈ kidsOf doc S r ls site.doc ptrs m →
      Inner r p := by
    intro m p hm hp
    obtain ⟨q, rfl, ⟨k, rfl, -⟩ | ⟨i, rfl⟩⟩ := mem_kidsOf hlists hp
    · exact inner_pointer r k
    · rcases hm with heq | ⟨k, heq⟩ | ⟨q', heq, hq, -⟩
      · cases heq
        exact .inr (inside_cons List.suffix_rfl)
      · cases heq
      · cases heq
        exact .inr (inside_cons hq)
  induction hn using Relation.TransGen.head_induction_on with
  | single hp => exact hkid _ _ (.inl rfl) hp
  | head hp _ ih => exact hkid _ _ (.inr ih) hp

theorem ownContext (h : Settled doc S r ps ls site) (hn : Inner r n) :
    OwnContext (cleaned ps ls site.doc) site.contexts n := by
  intro c' hc'
  obtain ⟨cell, hcell⟩ := of_cleaned hc'
  rcases hn with ⟨k, rfl⟩ | ⟨p, rfl, hp, hpr⟩
  · obtain ⟨d, hd, hchildren, hpriv, -⟩ := h.cleaned_pointer hcell
    obtain rfl := Option.some.inj (hc'.symm.trans hd)
    refine ⟨fun _ => hchildren, fun _ q hq => ?_⟩
    rw [hpriv.1] at hq
    cases hq
  · obtain ⟨d, hd, hcleaned⟩ := h.cleaned_parsed hcell
    obtain rfl := Option.some.inj (hc'.symm.trans hd)
    rw [hcleaned.type, hcleaned.children]
    rcases h.place hcell hp with hw | hmem | ⟨hleaf, -⟩
    · obtain ⟨hctxt, hpriv⟩ := h.linking.held p hw hpr
      refine ⟨fun hne => absurd (h.element_walked hw hpr hcell) hne, fun _ q hq => ?_⟩
      rw [hcleaned.kept (h.not_item hw), hpriv cell hcell] at hq
      cases hq
      exact ⟨rfl, hctxt⟩
    · obtain ⟨-, ⟨i, q, _, _, _, rfl, -, hat, -⟩, -⟩ := h.item hmem
      refine ⟨fun hne => absurd (h.element_at hcell hat) hne, fun _ q hq => ?_⟩
      rw [(hcleaned.bare hmem).1] at hq
      cases hq
    · exact ⟨fun _ => hleaf.children, fun htype => absurd htype hleaf.type⟩

/-- A walked node below the root lies under it. -/
theorem under_walked (h : Settled doc S r ps ls site) (hp : Walked doc S r p) (hpr : p ≠ r) :
    Under (kidsOf doc S r ls site.doc ptrs) (.parsed p) (.parsed r) := by
  induction hp with
  | root => exact absurd rfl hpr
  | @child p i name properties children hp hat hstaged hassoc ih =>
    obtain ⟨cell, hcell⟩ := h.alive_walked (.child hp hat hstaged hassoc)
    have hkid : .parsed (i :: p) ∈ kidsOf doc S r ls site.doc ptrs (.parsed p) := by
      rw [kidsOf_walked hp]
      refine List.mem_append_left _ (List.mem_filter.mpr
        ⟨Document.mem_kidIds.mpr ⟨i, _, hat, rfl⟩, ?_⟩)
      rw [hcell]
      rfl
    rcases eq_or_ne p r with rfl | hne
    · exact .single hkid
    · exact .head hkid (ih hne)

theorem held (h : Settled doc S r ps ls site) {ctxt : Context} (hctxt : site.contexts n = some ctxt) :
    Under (kidsOf doc S r ls site.doc ptrs) n (.parsed r) ∧ ∃ c, cleaned ps ls site.doc n = some c ∧
      c.data.type = .element ∧ c.data.priv = some n := by
  obtain ⟨p, rfl, hp⟩ := h.accounted.contexts n ctxt hctxt
  obtain ⟨hw, hpr⟩ := hp.resolve_right (by simp)
  refine ⟨h.under_walked hw hpr, ?_⟩
  obtain ⟨cell, hcell⟩ := h.alive_walked hw
  obtain ⟨c, hc, hcleaned⟩ := h.cleaned_parsed hcell
  refine ⟨c, hc, ?_, ?_⟩
  · rw [hcleaned.type]
    exact h.element_walked hw hpr hcell
  · rw [hcleaned.kept (h.not_item hw)]
    exact (h.linking.held p hw hpr).2 cell hcell

/-- Nodes that share their attributes have let go of them. -/
theorem attributes (h : Settled doc S r ps ls site) {c' : Cell NodeId Info}
    (hc' : cleaned ps ls site.doc n = some c') : c'.data.properties = [] ∨ Has site.lists n := by
  obtain ⟨cell, hcell⟩ := of_cleaned hc'
  cases n with
  | pointer k =>
    obtain ⟨d, hd, -, ⟨-, hbare⟩, -⟩ := h.cleaned_pointer hcell
    obtain rfl := Option.some.inj (hc'.symm.trans hd)
    exact .inl hbare
  | parsed p =>
    by_cases hmem : .parsed p ∈ ls
    · obtain ⟨d, hd, hcleaned⟩ := h.cleaned_parsed hcell
      obtain rfl := Option.some.inj (hc'.symm.trans hd)
      exact .inl (hcleaned.bare hmem).2
    · refine .inr ((h.own p fun hitem => ?_).has hcell)
      rcases h.accounted.items p hitem with hpend | hgone | hlinked
      · exact hpend
      · rw [hgone p List.suffix_rfl] at hcell
        cases hcell
      · exact absurd hlinked hmem

/-- A settled site can be closed. -/
theorem disposable (h : Settled doc S r ps ls site) :
    ∃ kids depth bound, Disposable ps ls (.parsed r) kids depth bound site := by
  obtain ⟨ptrs, hlists, hlisted⟩ := h.linking.inv.lists
  obtain ⟨lowest, htree⟩ := h.hierarchy hlists hlisted
  have hthere : ∀ {p : List ℕ}, (∃ cell, site.doc (.parsed p) = some cell) →
      ∃ c, cleaned ps ls site.doc (.parsed p) = some c := by
    rintro p ⟨cell, hcell⟩
    obtain ⟨c, hc, -⟩ := h.cleaned_parsed hcell
    exact ⟨c, hc⟩
  refine ⟨_, _, _, fun n hn => ?_, fun n hn => ?_, h.root, hthere (h.alive_walked .root), hthere ?_,
    htree, fun n hn => h.ownContext (under_root hlists hn), fun n ctxt hctxt => h.held hctxt,
    h.counted, fun n c hc => h.attributes hc⟩
  · obtain ⟨k, cell, -, hcell⟩ := h.accounted.pointers n hn
    exact ⟨cell, hcell⟩
  · obtain ⟨a, content, rfl, -, -, -, hempty⟩ := h.accounted.linked n hn
    obtain ⟨cell, hcell, hchildren⟩ := hempty.item
    obtain ⟨text, htext, -⟩ := hempty.text
    refine ⟨cell, (h.pointersCleaned_parsed a).trans hcell, fun f hf => ?_⟩
    rw [hchildren] at hf
    cases hf
    exact ⟨text, (h.pointersCleaned_parsed _).trans htext⟩
  · by_cases hr : r = []
    · exact hr ▸ h.alive_walked .root
    · exact ⟨_, (h.parsed.outside [] fun hs => hr (List.suffix_nil.mp hs)).trans rfl⟩

end Settled

/-! ### Either kind of site -/

section Staging

variable {f : String → String}

theorem pointersCleaned_map : pointersCleaned ps (Heap.map (Info.renamed f) σ) =
    Heap.map (Info.renamed f) (pointersCleaned ps σ) := by
  funext n
  simp only [pointersCleaned, Heap.map]
  split
  · rw [Option.map_map, Option.map_map]
    rfl
  · rfl

/-- Renaming the attributes is no matter for the destructor. -/
theorem cleaned_map : cleaned ps ls (Heap.map (Info.renamed f) σ) =
    Heap.map (Info.renamed f) (cleaned ps ls σ) := by
  have hfirst : ∀ τ : Store, firstOf (Heap.map (Info.renamed f) τ) = firstOf τ := by
    intro τ
    funext n
    rw [firstOf, firstOf, Heap.map]
    cases τ n <;> rfl
  funext n
  rw [cleaned, cleaned, pointersCleaned_map, itemsCleaned, hfirst, Heap.map, Heap.map, itemsCleaned,
    Option.map_map, Option.map_map]
  refine congrArg (fun g => (pointersCleaned ps σ n).map g) (funext fun c => ?_)
  by_cases hn : n ∈ ls
  · simp only [Function.comp_apply, if_pos hn]
    rfl
  · simp only [Function.comp_apply, if_neg hn]
    rfl

/-- A staging site can be closed if the production site that goes along with it can. -/
theorem Disposable.of_unstaged {root : NodeId} {kids : NodeId → List NodeId} {depth : NodeId → ℕ}
    {bound : ℕ} (h : Disposable ps ls root kids depth bound site.unstaged) :
    Disposable ps ls root kids depth bound site := by
  have hcleaned : cleaned ps ls site.unstaged.doc =
      Heap.map (Info.renamed unstagedName) (cleaned ps ls site.doc) := cleaned_map
  have hback : ∀ {τ : Store} {n : NodeId}, (∃ c, Heap.map (Info.renamed unstagedName) τ n = some c) →
      ∃ c, τ n = some c := by
    rintro τ n ⟨c, hc⟩
    obtain ⟨d, hd, -⟩ := Option.map_eq_some_iff.mp hc
    exact ⟨d, hd⟩
  refine ⟨fun n hn => hback (h.pointers n hn), fun a ha => ?_, h.rootNode, hback (hcleaned ▸ h.rootThere),
    hback (hcleaned ▸ h.topThere), .of_map (hcleaned ▸ h.tree), fun n hn c hc => ?_,
    fun n ctxt hctxt => ?_, ?_, fun n c hc => ?_⟩
  · obtain ⟨c, hc, hfirst⟩ := h.items a ha
    change pointersCleaned ps (Heap.map (Info.renamed unstagedName) site.doc) a = _ at hc
    rw [pointersCleaned_map] at hc
    obtain ⟨d, hd, rfl⟩ := Option.map_eq_some_iff.mp hc
    refine ⟨d, hd, fun f hf => hback ?_⟩
    rw [← pointersCleaned_map]
    exact hfirst f hf
  · exact h.own n hn (c.map (Info.renamed unstagedName)) (hcleaned ▸ Heap.map_of_some hc)
  · obtain ⟨hunder, c, hc, htype, hpriv⟩ := h.held n ctxt hctxt
    rw [hcleaned] at hc
    obtain ⟨d, hd, rfl⟩ := Option.map_eq_some_iff.mp hc
    exact ⟨hunder, d, hd, htype, hpriv⟩
  · obtain ⟨nodes, hlength, hnodes⟩ := h.counted
    exact ⟨nodes, hlength, fun n c hc => hnodes n _ (Heap.map_of_some hc)⟩
  · refine (h.lists n (c.map (Info.renamed unstagedName)) ?_).imp_left List.map_eq_nil_iff.mp
    rw [hcleaned, Heap.map_of_some hc]

end Staging

/-- What is noted down is the same for both sites. -/
theorem Alongside.written {γ : Type} {note : Site → NodeId → Option γ}
    (hnote : ∀ {site site₀ : Site}, Alongside site site₀ → ∀ n, note site₀ n = note site n)
    {site₀ site' : Site} (h : Alongside site site₀) {nodes : List NodeId}
    (hok : nodes.foldlM Site.initializeAssociation site = .ok site') :
    ∃ site₀', nodes.foldlM Site.initializeAssociation site₀ = .ok site₀' ∧ Alongside site' site₀' ∧
      written Site.initializeAssociation note site₀ nodes =
        written Site.initializeAssociation note site nodes := by
  induction nodes generalizing site site₀ with
  | nil =>
    cases hok
    exact ⟨site₀, rfl, h, rfl⟩
  | cons n nodes ih =>
    obtain ⟨site₁, hfirst, hrest⟩ := bind_eq_ok.mp hok
    obtain ⟨site₂, hfirst₀, hnext⟩ := h.step hfirst
    obtain ⟨site₀', hrest₀, hlast, hsame⟩ := ih hnext hrest
    refine ⟨site₀', (foldlM_cons_ok hfirst₀).trans hrest₀, hlast, ?_⟩
    rw [written_cons_ok hfirst₀, written_cons_ok hfirst, hsame, hnote h]

theorem Alongside.itemLinked {site₀ : Site} (h : Alongside site site₀) (node : NodeId) :
    itemLinked site₀ node = VaeDb.itemLinked site node := by
  rcases h with rfl | ⟨-, rfl⟩
  · rfl
  · rw [VaeDb.itemLinked, VaeDb.itemLinked, ← firstText_unstaged]
    rfl

variable {lib : Libxml} {d : List ℕ} {su : String} {keys : List String} {loaded : Site}

/-- A loaded site of either kind can be closed. -/
theorem loaded_disposable {stagingMode : Bool} {site' : Site}
    (hcontent : (LoadSafety.begin (Site.blank su stagingMode keys) doc r d).loadContent lib doc
      (.parsed r) = .ok site)
    (hord : TargetsOrdinary (Indexes.seenBy stagingMode doc) site.structures r)
    (hok : site.associationsToInitialize.foldlM Site.initializeAssociation site = .ok site') :
    ∃ kids depth bound, Disposable
      ((pointersMade site site.associationsToInitialize).map Prod.snd)
      (itemsLinked site site.associationsToInitialize) (.parsed r) kids depth bound site' := by
  cases stagingMode with
  | false => exact (settled_production hcontent hord hok).disposable
  | true =>
    have halike := @loadContent_seen lib doc _ _ (@LoadSafety.begin_seen doc r d su keys) (.parsed r)
    rw [hcontent] at halike
    obtain ⟨site₀, hok₀, hmode, rfl⟩ := halike.right
    have halong : Alongside site site.unstaged := .inr ⟨hmode, rfl⟩
    obtain ⟨site₁, hloop, hlast, hpointers⟩ :=
      Alongside.written (fun h => h.pointerMade) halong hok
    obtain ⟨-, -, -, hitems⟩ := Alongside.written (fun h => Alongside.itemLinked h) halong hok
    obtain ⟨kids, depth, bound, h⟩ := (settled_production hok₀ hord hloop).disposable
    refine ⟨kids, depth, bound, ?_⟩
    rw [pointersMade, itemsLinked, ← hpointers, ← hitems]
    rcases hlast with rfl | ⟨-, rfl⟩
    · exact h
    · exact h.of_unstaged

/-- Had nothing been taken back, the text of the page would be freed twice. -/
example : (linkSite "99" "1").toOption.bind (fun site =>
    (LoadSafety.complete sampleLib site).toOption.map fun loaded =>
      (loaded.destroy [] []).toOption.isSome) = some false := by
  decide +kernel

end VaeDb.Teardown
