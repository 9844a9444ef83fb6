import VaeDb.Site.Shape

/-! The invariant of loading, and the walk.

    `Inv` says of a document: walked nodes have proper lists of children, what is below the pending
    children is as parsed, and every child link leads to a safe node: a pointer node, a child of a
    walked node that is not staged, or the text of an association item. The walk starts from the
    parsed document and takes out every staged child it comes by.

        parsed ──visit──▶ · ──kill──▶ · ──enter──▶ · ──…──▶ every staged child is gone -/

namespace VaeDb.Staging
open Schemes Xml Walk

variable {doc : Document} {S : Structures} {r : List ℕ}

/-! ### The invariant of loading -/

/-- A node that child links may reach: a pointer, a child of a walked node that is not staged, or the
    text an association item starts with. -/
def Safe (doc : Document) (S : Structures) (r : List ℕ) (n : NodeId) : Prop :=
  (∃ k, n = .pointer k) ∨ (∃ c, n = .parsed c ∧ Child doc S r c ∧ ¬ StagedAt doc c) ∨
    ∃ a content, n = .parsed (0 :: a) ∧ Child doc S r a ∧ ¬ StagedAt doc a ∧
      AssociationAt doc S a ∧ doc.at? (0 :: a) = some (.text content)

/-- Every pointer node is in the list of a walked node. -/
def Listed (doc : Document) (S : Structures) (r : List ℕ) (σ : Store)
    (ptrs : List ℕ → List NodeId) : Prop :=
  ∀ k cell, σ (.pointer k) = some cell → ∃ p, Walked doc S r p ∧ .pointer k ∈ ptrs p

/-- The store while loading. `Pend` are the association items that have yet to be dealt with. -/
structure Inv (doc : Document) (S : Structures) (r : List ℕ) (Pend : List ℕ → Prop) (σ : Store) :
    Prop where
  lists : ∃ ptrs, Lists doc S r σ ptrs ∧ Listed doc S r σ ptrs
  alive : ∀ c, Child doc S r c → ¬ StagedAt doc c → (AssociationAt doc S c → Pend c) →
    ∃ cell, σ (.parsed c) = some cell
  intact : ∀ c, Child doc S r c → ¬ Walked doc S r c → (AssociationAt doc S c → Pend c) →
    ∀ cell, σ (.parsed c) = some cell → Intact doc σ c
  grafted : ∀ a, Child doc S r a → ¬ StagedAt doc a → AssociationAt doc S a → ¬ Pend a →
    (∀ cell, σ (.parsed a) = some cell → ∀ m ∈ cell.children, Safe doc S r m) ∧
      ∀ cell, σ (.parsed (0 :: a)) = some cell →
        (∀ m ∈ cell.children, Safe doc S r m) ∧ ∀ m ∈ cell.next, Safe doc S r m
  pointers : ∀ k cell, σ (.pointer k) = some cell → ∀ m ∈ cell.children, Safe doc S r m

/-- Two children of walked nodes that are not walked have nothing in common. -/
theorem not_inside_both {c d q : List ℕ} (hc : Child doc S r c) (hcw : ¬ Walked doc S r c)
    (hd : Child doc S r d) (hdw : ¬ Walked doc S r d) (hne : d ≠ c) (hq : d <:+ q) :
    ¬ c <:+ q := by
  intro hcq
  rcases List.suffix_or_suffix_of_suffix hcq hq with h | h
  · exact hne (eq_of_suffix_child hc hcw hd h).symm
  · exact hne (eq_of_suffix_child hd hdw hc h)

/-- What lies inside a child that is not walked stays as it is when another such child goes. -/
theorem Removed.same_inside {ptrs : List ℕ → List NodeId} {c d q : List ℕ} {σ σ' : Store}
    (h : Removed doc S r ptrs c σ σ') (hlists : Lists doc S r σ ptrs)
    (hc : Child doc S r c) (hcw : ¬ Walked doc S r c)
    (hd : Child doc S r d) (hdw : ¬ Walked doc S r d) (hne : d ≠ c) (hq : d <:+ q) (hqd : q ≠ d) :
    σ' (.parsed q) = σ (.parsed q) := by
  have hcq := not_inside_both hc hcw hd hdw hne hq
  refine h.same _ ?_ ?_ fun p hp => ⟨?_, fun hin => ?_⟩
  · rintro ⟨⟩
    exact hcq List.suffix_rfl
  · rintro ⟨q', ⟨⟩, hcq', -⟩
    exact hcq hcq'
  · rintro ⟨⟩
    exact not_suffix_walked hd hdw hp hq
  · exact hlists.not_inside hd hdw hp (Or.inr hin) ⟨q, rfl, hq, hqd⟩

theorem inv_remove {Pend Pend' : List ℕ → Prop} {σ σ' : Store} {c : List ℕ} {fuel : ℕ}
    (hσ : Inv doc S r Pend σ) (hc : Child doc S r c) (hcw : ¬ Walked doc S r c)
    (hpend : AssociationAt doc S c → Pend c) (hne : ∀ a, a ≠ c → (Pend' a ↔ Pend a))
    (hgone : StagedAt doc c ∨ (AssociationAt doc S c ∧ ¬ Pend' c))
    (h : Heap.free fuel (σ.unlink (.parsed c)) (.parsed c) = some σ') :
    Inv doc S r Pend' σ' := by
  obtain ⟨ptrs, hlists, hlisted⟩ := hσ.lists
  obtain ⟨cell', hcell', -⟩ := free_eq_some h
  obtain ⟨cell, hcell, -⟩ := unlink_eq_some hcell'
  have hintact := hσ.intact c hc hcw hpend cell hcell
  have hrem := free_removed hlists hc hcw hintact h
  have hout : ∀ d, Child doc S r d → ¬ Inside c (.parsed d) :=
    fun d hd => child_not_inside hd c hc hcw
  have hnw : ∀ d, ¬ Walked doc S r d → ∀ p, Walked doc S r p → NodeId.parsed d ≠ .parsed p := by
    rintro d hd p hp ⟨⟩
    exact hd hp
  refine ⟨⟨ptrs, hrem.lists, fun k pcell hpcell => ?_⟩, fun d hd hstaged hassoc => ?_,
    fun d hd hdw hassoc dcell hdcell => ?_, fun a ha hstaged hassoc hnot => ?_,
    fun k pcell hpcell => ?_⟩
  · obtain ⟨pcell₀, hpcell₀, -⟩ := hrem.sub _ _ hpcell
    exact hlisted k pcell₀ hpcell₀
  · have hdc : d ≠ c := by
      rintro rfl
      rcases hgone with hs | ⟨ha, hnot⟩
      · exact hstaged hs
      · exact hnot (hassoc ha)
    obtain ⟨dcell, hdcell⟩ := hσ.alive d hd hstaged fun ha => (hne d hdc).mp (hassoc ha)
    obtain ⟨dcell', hdcell', -⟩ := hrem.keeps _ dcell (by simpa using hdc) (hout d hd) hdcell
    exact ⟨dcell', hdcell'⟩
  · have hdc : d ≠ c := by
      rintro rfl
      rw [hrem.gone] at hdcell
      cases hdcell
    obtain ⟨dcell₀, hdcell₀, -, hchildren⟩ := hrem.back (hout d hd) hdcell
    have hd₀ := hσ.intact d hd hdw (fun ha => (hne d hdc).mp (hassoc ha)) dcell₀ hdcell₀
    refine ⟨fun q hq hqd => ?_, fun dcell' hdcell' => ?_⟩
    · rw [hrem.same_inside hlists hc hcw hd hdw hdc hq hqd, hd₀.below q hq hqd]
    · rw [hdcell, Option.some.injEq] at hdcell'
      rw [← hdcell', hchildren (hnw d hdw), hd₀.children dcell₀ hdcell₀]
  · rcases eq_or_ne a c with rfl | hac
    · -- the item itself is gone, and so is its first child
      refine ⟨fun acell hacell => ?_, fun fcell hfcell => ?_⟩
      · rw [hrem.gone] at hacell
        cases hacell
      · rw [hrem.first_gone hintact] at hfcell
        cases hfcell
    · have haw := not_walked_of_association ha hassoc
      obtain ⟨hitem, hfirst⟩ := hσ.grafted a ha hstaged hassoc fun h => hnot ((hne a hac).mpr h)
      refine ⟨fun acell hacell => ?_, fun fcell hfcell => ?_⟩
      · obtain ⟨acell₀, hacell₀, -, hchildren⟩ := hrem.back (hout a ha) hacell
        rw [hchildren (hnw a haw)]
        exact hitem acell₀ hacell₀
      · rw [hrem.same_inside hlists hc hcw ha haw hac (List.suffix_cons _ _) (by simp)] at hfcell
        exact hfirst fcell hfcell
  · obtain ⟨pcell₀, hpcell₀, -, hchildren⟩ := hrem.back (by rintro ⟨q, ⟨⟩, -⟩) hpcell
    rw [hchildren (by rintro p hp ⟨⟩)]
    exact hσ.pointers k pcell₀ hpcell₀

/-! ### The first phase: the walk -/

theorem liveKids_congr {σ σ' : Store} {p : List ℕ}
    (h : ∀ n ∈ doc.kidIds p, (σ' n).isSome = (σ n).isSome) :
    liveKids doc σ' p = liveKids doc σ p := List.filter_congr fun n hn => h n hn

/-- Two cells with the same links, apart from `last`. -/
structure SameLinks (cell cell' : Cell NodeId Info) : Prop where
  parent : cell'.parent = cell.parent
  children : cell'.children = cell.children
  prev : cell'.prev = cell.prev
  next : cell'.next = cell.next

/-- A change of data, and of `last` outside the walked nodes, is no change of the tree. -/
theorem inv_sameLinks {Pend : List ℕ → Prop} {σ σ' : Store} (hσ : Inv doc S r Pend σ)
    (hnone : ∀ n, σ n = none → σ' n = none)
    (hsome : ∀ n cell, σ n = some cell → ∃ cell', σ' n = some cell' ∧ SameLinks cell cell' ∧
      ∀ p, Walked doc S r p → n = .parsed p → cell'.last = cell.last)
    (hinside : ∀ c, Child doc S r c → ¬ Walked doc S r c → ∀ n, Inside c n → σ' n = σ n) :
    Inv doc S r Pend σ' := by
  obtain ⟨ptrs, hlists, hlisted⟩ := hσ.lists
  have hback : ∀ n cell', σ' n = some cell' → ∃ cell, σ n = some cell ∧ SameLinks cell cell' := by
    intro n cell' hcell'
    cases hn : σ n with
    | none =>
      rw [hnone n hn] at hcell'
      cases hcell'
    | some cell =>
      obtain ⟨cell'', hcell'', hlinks, -⟩ := hsome n cell hn
      rw [hcell', Option.some.injEq] at hcell''
      exact ⟨cell, rfl, hcell'' ▸ hlinks⟩
  have hlive : ∀ n, (σ' n).isSome = (σ n).isSome := by
    intro n
    cases hn : σ n with
    | none => rw [hnone n hn]
    | some cell =>
      obtain ⟨cell', hcell', -⟩ := hsome n cell hn
      rw [hcell']
      rfl
  refine ⟨⟨ptrs, ⟨fun p hp => ?_, hlists.pointers⟩, fun k cell hcell => ?_⟩,
    fun d hd hstaged hassoc => ?_, fun d hd hdw hassoc cell hcell => ?_,
    fun a ha hstaged hassoc hnot => ?_, fun k cell hcell => ?_⟩
  · rw [liveKids_congr fun n _ => hlive n]
    refine (hlists.linked p hp).congr (fun cell hcell => ?_) fun n _ cell hcell => ?_
    · obtain ⟨cell', hcell', hlinks, hlast⟩ := hsome _ cell hcell
      exact ⟨cell', hcell', hlinks.children, hlast p hp rfl⟩
    · obtain ⟨cell', hcell', hlinks, -⟩ := hsome n cell hcell
      exact ⟨cell', hcell', hlinks.parent, hlinks.prev, hlinks.next⟩
  · obtain ⟨cell₀, hcell₀, -⟩ := hback _ cell hcell
    exact hlisted k cell₀ hcell₀
  · obtain ⟨cell, hcell⟩ := hσ.alive d hd hstaged hassoc
    obtain ⟨cell', hcell', -⟩ := hsome _ cell hcell
    exact ⟨cell', hcell'⟩
  · obtain ⟨cell₀, hcell₀, -⟩ := hback _ cell hcell
    have hd₀ := hσ.intact d hd hdw hassoc cell₀ hcell₀
    refine ⟨fun q hq hqd => ?_, fun cell' hcell' => ?_⟩
    · rw [hinside d hd hdw _ ⟨q, rfl, hq, hqd⟩, hd₀.below q hq hqd]
    · obtain ⟨cell₁, hcell₁, hlinks⟩ := hback _ cell' hcell'
      rw [hlinks.children, hd₀.children cell₁ hcell₁]
  · obtain ⟨hitem, hfirst⟩ := hσ.grafted a ha hstaged hassoc hnot
    refine ⟨fun cell hcell => ?_, fun cell hcell => ?_⟩
    · obtain ⟨cell₀, hcell₀, hlinks⟩ := hback _ cell hcell
      rw [hlinks.children]
      exact hitem cell₀ hcell₀
    · obtain ⟨cell₀, hcell₀, hlinks⟩ := hback _ cell hcell
      rw [hlinks.children, hlinks.next]
      exact hfirst cell₀ hcell₀
  · obtain ⟨cell₀, hcell₀, hlinks⟩ := hback _ cell hcell
    rw [hlinks.children]
    exact hσ.pointers k cell₀ hcell₀

/-- One cell changes its data or its `last`: a child that is not walked, or any child if only the
    data change. -/
theorem inv_modify {Pend : List ℕ → Prop} {σ : Store} {u : NodeId}
    {f : Cell NodeId Info → Cell NodeId Info} (hσ : Inv doc S r Pend σ)
    (hf : ∀ cell, SameLinks cell (f cell))
    (hlast : ∀ p, Walked doc S r p → u = .parsed p → ∀ cell, (f cell).last = cell.last)
    (hu : ∀ c, Child doc S r c → ¬ Walked doc S r c → ¬ Inside c u) :
    Inv doc S r Pend (σ.modify u f) := by
  refine inv_sameLinks hσ (fun n hn => ?_) (fun n cell hcell => ?_) fun c hc hcw n hn => ?_
  · rw [Heap.modify, hn]
    simp
  · rcases eq_or_ne n u with rfl | hne
    · exact ⟨f cell, by rw [Heap.modify_self, hcell]; rfl, hf cell,
        fun p hp heq => hlast p hp heq cell⟩
    · exact ⟨cell, by rw [Heap.modify_of_ne _ _ hne, hcell], ⟨rfl, rfl, rfl, rfl⟩, fun _ _ _ => rfl⟩
  · refine Heap.modify_of_ne _ _ fun heq => ?_
    exact hu c hc hcw (heq ▸ hn)

theorem walked_exists (hr : r = [] ∨ ∃ t, doc.at? r = some t) {p : List ℕ}
    (hp : Walked doc S r p) : p = [] ∨ ∃ t, doc.at? p = some t := by
  cases hp with
  | root => exact hr
  | child _ hat _ _ => exact Or.inr ⟨_, hat⟩

theorem store_live {i : ℕ} {p : List ℕ} {t : Tree} (ht : doc.at? (i :: p) = some t) :
    ∃ cell, doc.store (.parsed (i :: p)) = some cell := by
  rw [Document.store, ht]
  exact ⟨_, rfl⟩

theorem inv_store (hr : r = [] ∨ ∃ t, doc.at? r = some t) :
    Inv doc S r (fun _ => True) doc.store := by
  refine ⟨⟨fun _ => [], ⟨fun p hp => ?_, fun _ _ h => by cases h⟩, fun _ _ h => by cases h⟩, ?_, ?_,
    fun _ _ _ _ hnot => absurd trivial hnot, fun _ _ h => by cases h⟩
  · have hkids : liveKids doc doc.store p = doc.kidIds p := by
      refine List.filter_eq_self.mpr fun n hn => ?_
      obtain ⟨i, t, ht, rfl⟩ := Document.mem_kidIds.mp hn
      obtain ⟨cell, hcell⟩ := store_live ht
      rw [hcell]
      rfl
    rw [hkids, List.append_nil]
    exact Document.store_linked (walked_exists hr hp)
  · rintro c ⟨i, p, t, rfl, -, ht⟩ - -
    exact store_live ht
  · rintro c ⟨i, p, t, rfl, -, ht⟩ - - cell hcell
    refine ⟨fun _ _ _ => rfl, fun cell' hcell' => ?_⟩
    obtain ⟨cell'', hcell'', hchildren, -⟩ := @Document.store_ends doc _ (Or.inr ⟨t, ht⟩)
    rw [hcell', Option.some.injEq] at hcell''
    rw [hcell'', hchildren]

/-- Where both indexes point. -/
structure Indexed (doc : Document) (S : Structures) (r : List ℕ) (site : Site) : Prop where
  nodes : ∀ id n, site.nodes id = some n → ∃ c a, n = .parsed c ∧
    ElementWith doc S r (fun ps => ¬ Staged ps) c ∧ attrsAt doc c = some a ∧ a.id = id
  permalinks : ∀ s n, site.permalinks s = some n → ∃ c, n = .parsed c ∧
    ElementWith doc S r (fun ps => ¬ Staged ps) c

/-- The site during the walk. -/
structure Walking (doc : Document) (S : Structures) (r : List ℕ) (site : Site) : Prop where
  inv : Inv doc S r (fun _ => True) site.doc
  noPointer : ∀ k, site.doc (.pointer k) = none
  indexed : Indexed doc S r site
  ctxs : ∀ n ctxt, site.contexts n = some ctxt → ctxt.pointerNodes = []

theorem walking_enter {site site' : Site} {c : List ℕ} {a : Attrs} {s : Option VaeDbStructure}
    {ctxt : Context} (h : Walking doc S r site)
    (hc : ElementWith doc S r (fun ps => ¬ Staged ps) c) (ha : attrsAt doc c = some a)
    (henter : site.enter (.parsed c) a s = .ok (site', ctxt)) :
    Walking doc S r (site'.setPrivate (.parsed c) ctxt) := by
  obtain ⟨⟨permalinks, rfl, hpermalinks⟩, hpointers⟩ := enter_eq_ok henter
  refine ⟨?_, fun k => ?_, ⟨fun id n hn => ?_, fun permalink n hn => ?_⟩, fun n ctxt' hn => ?_⟩
  · exact inv_modify h.inv (fun _ => ⟨rfl, rfl, rfl, rfl⟩) (fun _ _ _ _ => rfl)
      (child_not_inside (ElementWith.child hc))
  · simp only [Site.setPrivate]
    rw [Heap.modify_of_ne _ _ (by simp)]
    exact h.noPointer k
  · simp only [Site.setPrivate, Function.update_apply] at hn
    split at hn
    · next hid =>
      cases hn
      exact ⟨c, a, rfl, hc, ha, hid.symm⟩
    · exact h.indexed.nodes id n hn
  · rcases hpermalinks permalink n hn with hn | rfl
    · exact h.indexed.permalinks permalink n hn
    · exact ⟨c, rfl, hc⟩
  · simp only [Site.setPrivate, Function.update_apply] at hn
    split at hn
    · cases hn
      exact hpointers
    · exact h.ctxs n ctxt' hn

theorem walking_step (site : Site) (m : Move) (site' : Site) (hm : Placed doc S r m)
    (h : Walking doc S r site) (hstep : Step doc site m site') : Walking doc S r site' := by
  cases hstep with
  | visit _ => exact ⟨h.inv, h.noPointer, ⟨h.indexed.nodes, h.indexed.permalinks⟩, h.ctxs⟩
  | defer => exact ⟨h.inv, h.noPointer, ⟨h.indexed.nodes, h.indexed.permalinks⟩, h.ctxs⟩
  | enter ha henter => exact walking_enter h hm ha henter
  | @kill _ p hremove =>
    obtain ⟨σ, lists, -, hσ, rfl⟩ := removeNode_eq_ok hremove
    obtain ⟨i, q, name, ps, children, -, -, hat, hstaged⟩ := id hm
    have hc := ElementWith.child hm
    have hs : StagedAt doc p := ⟨name, ps, children, hat, hstaged⟩
    refine ⟨inv_remove h.inv hc (not_walked_of_staged hc hs) (fun _ => trivial) (fun _ _ => Iff.rfl)
      (Or.inl hs) hσ, fun k => ?_, ⟨h.indexed.nodes, h.indexed.permalinks⟩, h.ctxs⟩
    cases hk : σ (.pointer k) with
    | none => exact hk
    | some cell =>
      obtain ⟨-, -, -, -, hsub, -⟩ := free_eq_some hσ
      obtain ⟨cell₀, hcell₀, -⟩ := unlink_eq_some (hsub _ _ hk)
      rw [h.noPointer k] at hcell₀
      cases hcell₀

/-- What each move leaves behind for good. -/
def Effect : Move → Site → Prop
  | .visit _, _ | .defer _, _ => True
  | .enter c, site => (∃ ctxt, site.contexts (.parsed c) = some ctxt) ∧
      ∀ cell, site.doc (.parsed c) = some cell → cell.data.priv = some (.parsed c)
  | .kill c, site => site.doc (.parsed c) = none

/-- A move only changes the data of cells to set `_private`, and makes no cell. -/
theorem step_data {site site' : Site} {m : Move} (h : Step doc site m site') (n : NodeId)
    (cell' : Cell NodeId Info) (hcell' : site'.doc n = some cell') :
    ∃ cell, site.doc n = some cell ∧
      (cell'.data.priv = cell.data.priv ∨ cell'.data.priv = some n) := by
  cases h with
  | visit _ => exact ⟨cell', hcell', Or.inl rfl⟩
  | defer => exact ⟨cell', hcell', Or.inl rfl⟩
  | @enter _ p _ _ _ _ henter =>
    obtain ⟨⟨permalinks, rfl, -⟩, -⟩ := enter_eq_ok henter
    simp only [Site.setPrivate] at hcell'
    rcases eq_or_ne n (.parsed p) with rfl | hne
    · rw [Heap.modify_self] at hcell'
      obtain ⟨cell, hcell, rfl⟩ := Option.map_eq_some_iff.mp hcell'
      exact ⟨cell, hcell, Or.inr rfl⟩
    · rw [Heap.modify_of_ne _ _ hne] at hcell'
      exact ⟨cell', hcell', Or.inl rfl⟩
  | kill hremove =>
    obtain ⟨σ, lists, -, hσ, rfl⟩ := removeNode_eq_ok hremove
    obtain ⟨-, -, -, -, hsub, -⟩ := free_eq_some hσ
    obtain ⟨cell, hcell, hdata⟩ := unlink_eq_some (hsub _ _ hcell')
    exact ⟨cell, hcell, Or.inl (by rw [hdata])⟩

theorem step_contexts {site site' : Site} {m : Move} (h : Step doc site m site') (n : NodeId)
    (hn : ∃ ctxt, site.contexts n = some ctxt) : ∃ ctxt, site'.contexts n = some ctxt := by
  cases h with
  | visit _ => exact hn
  | defer => exact hn
  | enter _ henter =>
    obtain ⟨⟨permalinks, rfl, -⟩, -⟩ := enter_eq_ok henter
    simp only [Site.setPrivate, Function.update_apply]
    split
    · exact ⟨_, rfl⟩
    · exact hn
  | kill hremove =>
    obtain ⟨σ, lists, -, -, rfl⟩ := removeNode_eq_ok hremove
    exact hn

theorem effect_step (site : Site) (m : Move) (site' : Site) (h : Step doc site m site') :
    Effect m site' := by
  cases h with
  | visit _ => trivial
  | defer => trivial
  | enter _ henter =>
    refine ⟨⟨_, Function.update_self ..⟩, fun cell hcell => ?_⟩
    simp only [Site.setPrivate] at hcell
    rw [Heap.modify_self] at hcell
    obtain ⟨cell₀, -, rfl⟩ := Option.map_eq_some_iff.mp hcell
    rfl
  | kill hremove =>
    obtain ⟨σ, lists, -, hσ, rfl⟩ := removeNode_eq_ok hremove
    obtain ⟨-, -, hgone, -⟩ := free_eq_some hσ
    exact hgone

theorem effect_keep (site : Site) (m m' : Move) (site' : Site) (hm : Effect m site)
    (h : Step doc site m' site') : Effect m site' := by
  cases m with
  | visit c => trivial
  | defer c => trivial
  | enter c =>
    refine ⟨step_contexts h _ hm.1, fun cell hcell => ?_⟩
    obtain ⟨cell₀, hcell₀, hpriv | hpriv⟩ := step_data h _ cell hcell
    · rw [hpriv, hm.2 cell₀ hcell₀]
    · exact hpriv
  | kill c =>
    cases hcell : site'.doc (.parsed c) with
    | none => exact hcell
    | some cell =>
      obtain ⟨cell₀, hcell₀, -⟩ := step_data h _ cell hcell
      rw [hm] at hcell₀
      cases hcell₀

/-- The walk leaves everything but the parts it is about alone, and defers what the moves say. -/
theorem step_frame {site site' : Site} {m : Move} (h : Step doc site m site') :
    site'.rootNode = site.rootNode ∧ site'.allocated = site.allocated ∧
      site'.associationsToInitialize =
        site.associationsToInitialize ++ (deferred [m]).map .parsed := by
  cases h with
  | visit _ => exact ⟨rfl, rfl, (List.append_nil _).symm⟩
  | defer => exact ⟨rfl, rfl, rfl⟩
  | enter _ henter =>
    obtain ⟨⟨permalinks, rfl, -⟩, -⟩ := enter_eq_ok henter
    exact ⟨rfl, rfl, (List.append_nil _).symm⟩
  | kill hremove =>
    obtain ⟨σ, lists, -, -, rfl⟩ := removeNode_eq_ok hremove
    exact ⟨rfl, rfl, (List.append_nil _).symm⟩

theorem trace_frame {site site' : Site} {ms : List Move} (h : Trace (Step doc) site ms site') :
    site'.rootNode = site.rootNode ∧ site'.allocated = site.allocated ∧
      site'.associationsToInitialize =
        site.associationsToInitialize ++ (deferred ms).map .parsed := by
  induction h with
  | nil => exact ⟨rfl, rfl, (List.append_nil _).symm⟩
  | @cons _ _ _ m ms hstep _ ih =>
    obtain ⟨hroot, halloc, hassoc⟩ := step_frame hstep
    obtain ⟨hroot', halloc', hassoc'⟩ := ih
    refine ⟨hroot'.trans hroot, halloc'.trans halloc, ?_⟩
    rw [hassoc', hassoc, List.append_assoc, ← List.map_append, ← deferred_append]
    rfl

end VaeDb.Staging
