import VaeDb.Site.Walk

/-! The shape of a document under loading: which nodes keep their lists, which stay as parsed.

    The nodes fall into three groups. Walked nodes (the root and the ordinary elements the walk goes
    through) keep a proper list of children throughout: their live children of the document, then
    the pointer nodes added to them. Below any other child of a walked node (a staged element, an
    association item, a text) the tree is as parsed until that child is removed or grafted, so
    removing it touches nothing else.

        root ── ordinary ── ordinary ── staged ✂
                    │           └────── association ── text
                    └── pointer -/

namespace VaeDb.Staging
open Schemes Xml Walk

variable {doc : Document} {S : Structures} {r : List ℕ}

/-! ### The shape of the walked part -/

theorem walked_suffix {q : List ℕ} (h : Walked doc S r q) : r <:+ q := by
  induction h with
  | root => exact List.suffix_rfl
  | child _ _ _ _ ih => exact ih.trans (List.suffix_cons _ _)

/-- What lies between the root and a walked node is walked. -/
theorem walked_of_suffix {q c : List ℕ} (h : Walked doc S r q) (hc : c <:+ q) (hr : r <:+ c) :
    Walked doc S r c := by
  induction h with
  | root =>
    rw [hc.eq_of_length_le hr.length_le]
    exact .root
  | child hp hat hstaged hassoc ih =>
    rcases List.suffix_cons_iff.mp hc with rfl | hc
    · exact .child hp hat hstaged hassoc
    · exact ih hc

/-- A node of the document whose parent is walked. -/
def Child (doc : Document) (S : Structures) (r c : List ℕ) : Prop :=
  ∃ i p t, c = i :: p ∧ Walked doc S r p ∧ doc.at? c = some t

theorem child_suffix {c : List ℕ} (h : Child doc S r c) : r <:+ c := by
  obtain ⟨i, p, t, rfl, hp, -⟩ := h
  exact (walked_suffix hp).trans (List.suffix_cons _ _)

theorem ElementWith.child {Q : Properties → Prop} {c : List ℕ} (h : ElementWith doc S r Q c) :
    Child doc S r c := by
  obtain ⟨i, p, name, properties, children, hc, hp, hat, -⟩ := h
  exact ⟨i, p, _, hc, hp, hat⟩

/-- Below a child that is not walked there is no walked node. -/
theorem not_suffix_walked {c q : List ℕ} (hc : Child doc S r c) (hnot : ¬ Walked doc S r c)
    (hq : Walked doc S r q) : ¬ c <:+ q :=
  fun h => hnot (walked_of_suffix hq h (child_suffix hc))

/-- Below a child that is not walked there is no other child of a walked node. -/
theorem eq_of_suffix_child {c d : List ℕ} (hc : Child doc S r c) (hnot : ¬ Walked doc S r c)
    (hd : Child doc S r d) (h : c <:+ d) : c = d := by
  obtain ⟨j, q, t, rfl, hq, -⟩ := hd
  rcases List.suffix_cons_iff.mp h with rfl | h
  · rfl
  · exact absurd h (not_suffix_walked hc hnot hq)

/-- The element at a path carries a `staging` attribute. -/
def StagedAt (doc : Document) (c : List ℕ) : Prop :=
  ∃ name properties children,
    doc.at? c = some (.element name properties children) ∧ Staged properties

/-- The element at a path is an association item. -/
def AssociationAt (doc : Document) (S : Structures) (c : List ℕ) : Prop :=
  ∃ name properties children,
    doc.at? c = some (.element name properties children) ∧ Association S properties

theorem walked_not_staged {c : List ℕ} (h : Walked doc S r c) (hr : c ≠ r) : ¬ StagedAt doc c := by
  rintro ⟨name, properties, children, hat, hstaged⟩
  cases h with
  | root => exact hr rfl
  | child _ hat' hnot _ =>
    rw [hat] at hat'
    cases hat'
    exact hnot hstaged

theorem child_ne_root {c : List ℕ} (h : Child doc S r c) : c ≠ r := by
  obtain ⟨i, p, t, rfl, hp, -⟩ := h
  intro heq
  have := (walked_suffix hp).length_le
  rw [← heq, List.length_cons] at this
  omega

/-- A child that is staged or an association item is not walked. -/
theorem not_walked_of_staged {c : List ℕ} (hc : Child doc S r c) (h : StagedAt doc c) :
    ¬ Walked doc S r c := fun hw => walked_not_staged hw (child_ne_root hc) h

theorem not_walked_of_association {c : List ℕ} (hc : Child doc S r c)
    (h : AssociationAt doc S c) : ¬ Walked doc S r c := by
  rintro hw
  obtain ⟨name, properties, children, hat, hassoc⟩ := h
  cases hw with
  | root => exact child_ne_root hc rfl
  | child _ hat' _ hnot =>
    rw [hat] at hat'
    cases hat'
    exact hnot hassoc

/-! ### Lists of children, and what is still as parsed -/

/-- The children of the document that are still there. -/
def liveKids (doc : Document) (σ : Store) (p : List ℕ) : List NodeId :=
  (doc.kidIds p).filter fun n => (σ n).isSome

/-- Every walked node has a proper list of children: live ones of the document, then pointers. -/
structure Lists (doc : Document) (S : Structures) (r : List ℕ) (σ : Store)
    (ptrs : List ℕ → List NodeId) : Prop where
  linked : ∀ p, Walked doc S r p → Linked σ (.parsed p) (liveKids doc σ p ++ ptrs p)
  pointers : ∀ p, ∀ n ∈ ptrs p, ∃ k, n = .pointer k

/-- Below `c` the tree is as parsed. -/
structure Intact (doc : Document) (σ : Store) (c : List ℕ) : Prop where
  below : ∀ q, c <:+ q → q ≠ c → σ (.parsed q) = doc.store (.parsed q)
  children : ∀ cell, σ (.parsed c) = some cell → cell.children = (doc.kidIds c).head?

/-- The nodes strictly below `c`. -/
def Inside (c : List ℕ) (n : NodeId) : Prop := ∃ q, n = .parsed q ∧ c <:+ q ∧ q ≠ c

theorem inside_cons {c q : List ℕ} {i : ℕ} (h : c <:+ q) : Inside c (.parsed (i :: q)) := by
  refine ⟨i :: q, rfl, h.trans (List.suffix_cons _ _), ?_⟩
  rintro rfl
  have := h.length_le
  rw [List.length_cons] at this
  omega

theorem inside_of_kid {c q : List ℕ} {n : NodeId} (h : c <:+ q) (hn : n ∈ doc.kidIds q) :
    Inside c n := by
  obtain ⟨i, t, -, rfl⟩ := Document.mem_kidIds.mp hn
  exact inside_cons h

/-- In the parsed tree, child links do not lead out of a subtree. -/
theorem store_closed (c : List ℕ) : ClosedUnder doc.store (Inside c) := by
  rintro n cell ⟨q, rfl, hq, hne⟩ hcell
  cases q with
  | nil =>
    rw [List.suffix_nil] at hq
    exact absurd hq.symm hne
  | cons i q =>
    have hcq : c <:+ q := by
      rcases List.suffix_cons_iff.mp hq with heq | hq
      · exact absurd heq.symm hne
      · exact hq
    rw [Document.store] at hcell
    split at hcell
    · cases hcell
    · cases hcell
      refine ⟨fun m hm => ?_, fun m hm => ?_⟩
      · exact inside_of_kid hq (List.mem_of_mem_head? hm)
      · exact inside_of_kid hcq (List.mem_of_getElem? hm)

/-- A store that agrees with the parsed tree below `c` is closed there too. -/
theorem Intact.closed {σ : Store} {c : List ℕ} (h : Intact doc σ c) :
    ClosedUnder σ (Inside c) := by
  refine (@store_closed doc c).mono fun n cell hn hcell => ?_
  obtain ⟨q, rfl, hq, hne⟩ := hn
  rw [← h.below q hq hne]
  exact hcell

theorem Intact.first_inside {σ : Store} {c : List ℕ} (h : Intact doc σ c)
    {cell : Cell NodeId Info} (hcell : σ (.parsed c) = some cell) :
    ∀ m ∈ cell.children, Inside c m := by
  intro m hm
  rw [h.children cell hcell] at hm
  exact inside_of_kid List.suffix_rfl (List.mem_of_mem_head? hm)

/-- A member of a list of children is a pointer, or a live child of the document. -/
theorem Lists.mem {σ : Store} {ptrs : List ℕ → List NodeId} (h : Lists doc S r σ ptrs)
    {p : List ℕ} {n : NodeId} (hn : n ∈ liveKids doc σ p ++ ptrs p) :
    (∃ k, n = .pointer k) ∨ ∃ i t, n = .parsed (i :: p) ∧ doc.at? (i :: p) = some t := by
  rcases List.mem_append.mp hn with hn | hn
  · obtain ⟨i, t, ht, rfl⟩ := Document.mem_kidIds.mp (List.mem_filter.mp hn).1
    exact Or.inr ⟨i, t, rfl, ht⟩
  · exact Or.inl (h.pointers p n hn)

theorem kid_not_inside {c p : List ℕ} (hc : Child doc S r c) (hnot : ¬ Walked doc S r c)
    (hp : Walked doc S r p) {n : NodeId} (hn : n ∈ doc.kidIds p) : ¬ Inside c n := by
  rintro ⟨q, rfl, hq, hne⟩
  obtain ⟨i, t, ht, heq⟩ := Document.mem_kidIds.mp hn
  cases heq
  exact hne (eq_of_suffix_child hc hnot ⟨i, p, t, rfl, hp, ht⟩ hq).symm

/-- Neither a walked node nor a member of its list lies inside a child that is not walked. -/
theorem Lists.not_inside {σ : Store} {ptrs : List ℕ → List NodeId} (h : Lists doc S r σ ptrs)
    {c p : List ℕ} (hc : Child doc S r c) (hnot : ¬ Walked doc S r c) (hp : Walked doc S r p)
    {n : NodeId} (hn : n = .parsed p ∨ n ∈ liveKids doc σ p ++ ptrs p) : ¬ Inside c n := by
  rintro ⟨q, rfl, hq, hne⟩
  rcases hn with hn | hn
  · cases hn
    exact not_suffix_walked hc hnot hp hq
  · rcases List.mem_append.mp hn with hn | hn
    · exact kid_not_inside hc hnot hp (List.mem_filter.mp hn).1 ⟨q, rfl, hq, hne⟩
    · obtain ⟨k, hk⟩ := h.pointers p _ hn
      cases hk

theorem child_not_inside {d : List ℕ} (hd : Child doc S r d) (c : List ℕ) (hc : Child doc S r c)
    (hcw : ¬ Walked doc S r c) : ¬ Inside c (.parsed d) := by
  rintro ⟨q, ⟨⟩, hq, hqc⟩
  exact hqc (eq_of_suffix_child hc hcw hd hq).symm

/-! ### Removing a child of a walked node -/

/-- What removing the child `c` does to the store. -/
structure Removed (doc : Document) (S : Structures) (r : List ℕ) (ptrs : List ℕ → List NodeId)
    (c : List ℕ) (σ σ' : Store) : Prop where
  lists : Lists doc S r σ' ptrs
  gone : σ' (.parsed c) = none
  first : ∀ m ∈ (doc.kidIds c).head?, σ' m = none
  sub : ∀ n d', σ' n = some d' → ∃ d, σ n = some d ∧ d'.data = d.data
  keeps : ∀ n d, n ≠ .parsed c → ¬ Inside c n → σ n = some d →
    ∃ d', σ' n = some d' ∧ d'.data = d.data ∧
      ((∀ p, Walked doc S r p → n ≠ .parsed p) → d'.children = d.children)
  same : ∀ n, n ≠ .parsed c → ¬ Inside c n →
    (∀ p, Walked doc S r p → n ≠ .parsed p ∧ n ∉ liveKids doc σ p ++ ptrs p) → σ' n = σ n

/-- The live children after one of them is gone. -/
theorem liveKids_remove {σ σ' : Store} {p : List ℕ} {u : NodeId} {A B L : List NodeId}
    (hL : liveKids doc σ p ++ L = A ++ u :: B) (hnodup : (liveKids doc σ p ++ L).Nodup)
    (hu : u ∈ liveKids doc σ p) (hgone : σ' u = none)
    (hkeep : ∀ n ∈ doc.kidIds p, n ≠ u → (σ' n).isSome = (σ n).isSome) :
    liveKids doc σ' p ++ L = A ++ B := by
  have hfilter : (liveKids doc σ p ++ L).filter (· ≠ u) = A ++ B := by
    rw [hL] at hnodup ⊢
    have hA : ∀ a ∈ A, a ≠ u := by
      rintro a ha rfl
      exact List.disjoint_of_nodup_append hnodup ha List.mem_cons_self
    have hB : ∀ b ∈ B, b ≠ u := by
      rintro b hb rfl
      exact (List.nodup_cons.mp hnodup.of_append_right).1 hb
    rw [List.filter_append, List.filter_cons_of_neg (by simp),
      List.filter_eq_self.mpr (by simpa using hA), List.filter_eq_self.mpr (by simpa using hB)]
  have hL' : L.filter (· ≠ u) = L := by
    refine List.filter_eq_self.mpr fun a ha => ?_
    rw [decide_eq_true_iff]
    rintro rfl
    exact List.disjoint_of_nodup_append hnodup hu ha
  rw [← hfilter, List.filter_append, hL', liveKids, liveKids, List.filter_filter]
  congr 1
  refine List.filter_congr fun n hn => ?_
  rcases eq_or_ne n u with rfl | hne
  · simp [hgone]
  · simp [hne, hkeep n hn hne]

/-- The walked node that has a live child, and where the child stands in its list. -/
theorem Lists.parent_split {σ : Store} {ptrs : List ℕ → List NodeId} (h : Lists doc S r σ ptrs)
    {c : List ℕ} (hc : Child doc S r c) {cell : Cell NodeId Info} (hcell : σ (.parsed c) = some cell) :
    ∃ p A B, Walked doc S r p ∧ p ≠ c ∧ .parsed c ∈ liveKids doc σ p ∧
      liveKids doc σ p ++ ptrs p = A ++ .parsed c :: B ∧ Linked σ (.parsed p) (A ++ .parsed c :: B) ∧
      ∀ q, q ≠ p → .parsed c ∉ doc.kidIds q := by
  obtain ⟨i, p, t, rfl, hp, ht⟩ := hc
  have hmem : .parsed (i :: p) ∈ liveKids doc σ p :=
    List.mem_filter.mpr ⟨Document.mem_kidIds.mpr ⟨i, t, ht, rfl⟩, by simp [hcell]⟩
  obtain ⟨A, B, hsplit⟩ := List.append_of_mem (List.mem_append_left (ptrs p) hmem)
  refine ⟨p, A, B, hp, by simp, hmem, hsplit, hsplit ▸ h.linked p hp, fun q hq hkid => ?_⟩
  obtain ⟨j, t', -, heq⟩ := Document.mem_kidIds.mp hkid
  cases heq
  exact hq rfl

/-- Freeing what lies inside an unlinked child keeps the lists of the walked nodes proper. -/
theorem Lists.removed {σ σ' : Store} {ptrs : List ℕ → List NodeId} {c : List ℕ}
    {cell : Cell NodeId Info} (h : Lists doc S r σ ptrs) (hc : Child doc S r c)
    (hnot : ¬ Walked doc S r c) (hcell : σ (.parsed c) = some cell) (hgone : σ' (.parsed c) = none)
    (hout : ∀ n, n ≠ .parsed c → ¬ Inside c n → σ' n = σ.unlink (.parsed c) n) :
    Lists doc S r σ' ptrs := by
  obtain ⟨p, A, B, hp, hpc, hmem, hsplit, hlinked, hothers⟩ := h.parent_split hc hcell
  have hnodup := hlinked.nodup
  have hpc' : NodeId.parsed p ≠ .parsed c := by simpa using hpc
  have hlive : ∀ n, n ≠ .parsed c → ¬ Inside c n → (σ' n).isSome = (σ n).isSome := by
    intro n hne hn
    rw [hout n hne hn, unlink_of_ne hcell hne, Option.isSome_map]
  -- freeing does not touch the cells of a list that is proper after unlinking
  have hfree : ∀ q L, Walked doc S r q → Linked (σ.unlink (.parsed c)) (.parsed q) L →
      (∀ n ∈ L, n ∈ liveKids doc σ q ++ ptrs q ∧ n ≠ .parsed c) → Linked σ' (.parsed q) L := by
    intro q L hq hL hmemL
    have hqc : NodeId.parsed q ≠ .parsed c := by
      rintro ⟨⟩
      exact hnot hq
    refine hL.congr (fun d hd => ⟨d, ?_, rfl, rfl⟩) fun n hn d hd => ⟨d, ?_, rfl, rfl, rfl⟩
    · rw [hout _ hqc (h.not_inside hc hnot hq (Or.inl rfl)), hd]
    · obtain ⟨hin, hne⟩ := hmemL n hn
      rw [hout n hne (h.not_inside hc hnot hq (Or.inr hin)), hd]
  refine ⟨fun q hq => ?_, h.pointers⟩
  rcases eq_or_ne q p with rfl | hqp
  · rw [liveKids_remove hsplit (hsplit ▸ hnodup) hmem hgone fun n hn hne => hlive n hne ?_]
    · refine hfree q _ hq (hlinked.unlink hpc') fun n hn => ?_
      rw [hsplit]
      refine ⟨by simp at hn ⊢; tauto, ?_⟩
      rintro rfl
      simp only [List.nodup_middle, List.nodup_cons] at hnodup
      exact hnodup.1 hn
    · exact kid_not_inside hc hnot hq hn
  · have hkids : liveKids doc σ' q = liveKids doc σ q := by
      refine List.filter_congr fun n hn => ?_
      have hne : n ≠ .parsed c := fun heq => hothers q hqp (heq ▸ hn)
      exact hlive n hne (kid_not_inside hc hnot hq hn)
    have hother := h.linked q hq
    have hqp' : NodeId.parsed q ≠ .parsed p := by simpa using hqp
    rw [hkids]
    refine hfree q _ hq (hlinked.unlink_other hother hqp' hpc') fun n hn => ⟨hn, ?_⟩
    rintro rfl
    exact hlinked.not_mem_of_ne hother hqp' hn (by simp)

section Unlink

variable {fuel : ℕ} {σ σ' : Store} {ptrs : List ℕ → List NodeId} {c : List ℕ}
  {cell : Cell NodeId Info}

/-- Unlinking a child does not reach below it. -/
theorem Lists.unlink_inside (h : Lists doc S r σ ptrs) (hc : Child doc S r c)
    (hnot : ¬ Walked doc S r c) (hcell : σ (.parsed c) = some cell) {n : NodeId} (hn : Inside c n) :
    σ.unlink (.parsed c) n = σ n := by
  obtain ⟨p, A, B, hp, -, -, hsplit, hlinked, -⟩ := h.parent_split hc hcell
  refine hlinked.unlink_outside (fun heq => ?_) fun hin => ?_
  · exact h.not_inside hc hnot hp (Or.inl heq) hn
  · rw [← hsplit] at hin
    exact h.not_inside hc hnot hp (Or.inr hin) hn

/-- The child that is unlinked keeps its children. -/
theorem Lists.unlink_child (h : Lists doc S r σ ptrs) (hc : Child doc S r c)
    (hcell : σ (.parsed c) = some cell) : ∃ cell', σ.unlink (.parsed c) (.parsed c) = some cell' ∧
      cell'.children = cell.children := by
  obtain ⟨p, A, B, -, hpc, -, -, hlinked, -⟩ := h.parent_split hc hcell
  have hparent : cell.parent ≠ some (.parsed c) := by
    obtain ⟨d, hd, hparent, -⟩ := hlinked.member A _ B rfl
    rw [hcell, Option.some.injEq] at hd
    rw [hd, hparent]
    simpa using hpc
  obtain ⟨cell', hcell', hchildren, -⟩ := unlink_self hcell hparent
  exact ⟨cell', hcell', hchildren⟩

/-- Outside the child, its removal does what unlinking it does. -/
theorem free_outside (hlists : Lists doc S r σ ptrs) (hc : Child doc S r c)
    (hnot : ¬ Walked doc S r c) (hintact : Intact doc σ c)
    (h : Heap.free fuel (σ.unlink (.parsed c)) (.parsed c) = some σ') {n : NodeId}
    (hne : n ≠ .parsed c) (hn : ¬ Inside c n) : σ' n = σ.unlink (.parsed c) n := by
  obtain ⟨cell', hcell', -, -, -, hframe⟩ := free_eq_some h
  obtain ⟨cell, hcell, -⟩ := unlink_eq_some hcell'
  have hclosed : ClosedUnder (σ.unlink (.parsed c)) (Inside c) :=
    hintact.closed.mono fun n d hn hd => by rwa [hlists.unlink_inside hc hnot hcell hn] at hd
  obtain ⟨cell'', hcell'', hchildren⟩ := hlists.unlink_child hc hcell
  rw [hcell', Option.some.injEq] at hcell''
  refine hframe _ hclosed ?_ n hne hn
  rw [hcell'', hchildren]
  exact hintact.first_inside hcell

theorem free_removed (hlists : Lists doc S r σ ptrs) (hc : Child doc S r c)
    (hnot : ¬ Walked doc S r c) (hintact : Intact doc σ c)
    (h : Heap.free fuel (σ.unlink (.parsed c)) (.parsed c) = some σ') :
    Removed doc S r ptrs c σ σ' := by
  obtain ⟨cell', hcell', hgone, hfirst, hsub, -⟩ := free_eq_some h
  obtain ⟨cell, hcell, -⟩ := unlink_eq_some hcell'
  obtain ⟨p, A, B, hp, hpc, -, hsplit, hlinked, -⟩ := hlists.parent_split hc hcell
  have hchildren : cell'.children = cell.children := by
    obtain ⟨d, hd, hchildren⟩ := hlists.unlink_child hc hcell
    rw [hcell', Option.some.injEq] at hd
    rw [hd, hchildren]
  have hout : ∀ n, n ≠ .parsed c → ¬ Inside c n → σ' n = σ.unlink (.parsed c) n :=
    fun n hne hn => free_outside hlists hc hnot hintact h hne hn
  refine ⟨hlists.removed hc hnot hcell hgone hout, hgone, ?_,
    fun n d' hd' => unlink_eq_some (hsub n d' hd'), fun n d hne hn hd => ?_, fun n hne hn hw => ?_⟩
  · rw [← hintact.children cell hcell, ← hchildren]
    exact hfirst
  · obtain ⟨d', hd', hdata, -, hchildren⟩ := hlinked.unlink_keeps hne hd
    exact ⟨d', by rw [hout n hne hn, hd'], hdata, fun hw => hchildren (hw p hp)⟩
  · rw [hout n hne hn, hlinked.unlink_outside (hw p hp).1 (by rw [← hsplit]; exact (hw p hp).2)]

end Unlink

theorem Removed.back {ptrs : List ℕ → List NodeId} {c : List ℕ} {σ σ' : Store}
    (h : Removed doc S r ptrs c σ σ') {n : NodeId} {d' : Cell NodeId Info} (hn : ¬ Inside c n)
    (hd' : σ' n = some d') :
    ∃ d, σ n = some d ∧ d'.data = d.data ∧
      ((∀ p, Walked doc S r p → n ≠ .parsed p) → d'.children = d.children) := by
  have hne : n ≠ .parsed c := by
    rintro rfl
    rw [h.gone] at hd'
    cases hd'
  obtain ⟨d, hd, -⟩ := h.sub n d' hd'
  obtain ⟨d'', hd'', hdata, hchildren⟩ := h.keeps n d hne hn hd
  rw [hd', Option.some.injEq] at hd''
  subst hd''
  exact ⟨d, hd, hdata, hchildren⟩

theorem kidIds_head {c : List ℕ} {t : Tree} (h : doc.at? (0 :: c) = some t) :
    (doc.kidIds c).head? = some (.parsed (0 :: c)) := by
  have hlt : 0 < (doc.kids c).length := Document.at?_eq_some_iff.mp ⟨t, h⟩
  rw [Document.kidIds, List.head?_map, List.head?_range, if_neg (by omega)]
  rfl

/-- A node without a first child in the tree has no node there in the store either. -/
theorem store_first (c : List ℕ) :
    doc.store (.parsed (0 :: c)) = none ∨ (doc.kidIds c).head? = some (.parsed (0 :: c)) := by
  cases h : doc.at? (0 :: c) with
  | none =>
    left
    rw [Document.store, h]
  | some t => exact Or.inr (kidIds_head h)

theorem Removed.first_gone {ptrs : List ℕ → List NodeId} {c : List ℕ} {σ σ' : Store}
    (h : Removed doc S r ptrs c σ σ') (hintact : Intact doc σ c) :
    σ' (.parsed (0 :: c)) = none := by
  cases hfirst : σ' (.parsed (0 :: c)) with
  | none => rfl
  | some d =>
    obtain ⟨d₀, hd₀, -⟩ := h.sub _ d hfirst
    rw [hintact.below _ (List.suffix_cons _ _) (by simp)] at hd₀
    rcases @store_first doc c with hnone | hhead
    · rw [hnone] at hd₀
      cases hd₀
    · rw [h.first _ hhead] at hfirst
      cases hfirst

end VaeDb.Staging
