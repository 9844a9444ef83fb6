import VaeDb.Site.Kids

/-! What an association does to each cell, whatever it names.

    The item takes over `last`, the attributes and the Context of its target, its text is followed by
    the children of the target, and the pointer node is put behind the last child of the target, which
    may be a child of another node by then. No other cell changes.

        item ── text ──▶ first child of the target
        last child of the target ──▶ pointer ── first child of the item's parent               -/

namespace VaeDb.Staging
open Schemes Xml Walk

variable {doc : Document} {S : Structures} {r : List ℕ} {site site' : Site} {a t : List ℕ}

/-! ### Putting the pointer node in its place -/

/-- What the node at `c` becomes when the pointer node `k` is put behind the last child of the node at
    `t`, whose cell is `target`. -/
structure Hung (t : List ℕ) (k : ℕ) (target : Cell NodeId Info) (c : List ℕ)
    (cell cell' : Cell NodeId Info) : Prop where
  parent : cell'.parent = cell.parent
  prev : cell'.prev = cell.prev
  children : cell'.children =
    if c = t ∧ target.children = none then some (.pointer k) else cell.children
  next : cell'.next = if target.children ≠ none ∧ target.last = some (.parsed c)
    then some (.pointer k) else cell.next
  last : cell'.last = if c = t then some (.pointer k) else cell.last
  data : cell'.data = cell.data

/-- Only the node and its last child are changed. -/
theorem Hung.same {k : ℕ} {target cell cell' : Cell NodeId Info} {c : List ℕ}
    (h : Hung t k target c cell cell') (hct : c ≠ t) (hlast : target.last ≠ some (.parsed c)) :
    cell' = cell := by
  obtain ⟨hparent, hprev, hchildren, hnext, hlast', hdata⟩ := h
  rw [if_neg fun hcond => hct hcond.1] at hchildren
  rw [if_neg fun hcond => hlast hcond.2] at hnext
  rw [if_neg hct] at hlast'
  cases cell
  cases cell'
  simp_all only

/-- The store with the pointer node in its place, cell by cell. -/
theorem Stages.placed_apply {s : Stages site (.parsed a) (.parsed t)} {target : Cell NodeId Info}
    (htarget : s.grafted (.parsed t) = some target) (n : NodeId) :
    s.placed n = (s.copied n).map fun d => { d with
      parent := if n = .pointer site.allocated then some (.parsed t) else d.parent
      prev := if n = .pointer site.allocated ∧ target.children ≠ none then target.last else d.prev
      next := if target.children ≠ none ∧ target.last = some n then some (.pointer site.allocated)
        else d.next
      children := if n = .parsed t ∧ target.children = none then some (.pointer site.allocated)
        else d.children
      last := if n = .parsed t then some (.pointer site.allocated) else d.last } := by
  refine addChild_apply ?_ (by simp) n
  rwa [Stages.copied, Function.update_of_ne (by simp)]

namespace Stages.Sound

variable {s : Stages site (.parsed a) (.parsed t)}

/-- `setLast` is about pointer nodes only. -/
theorem result_parsed (hs : s.Sound) (hctxs : PointerNodesIn (fun n => ∃ k, n = .pointer k) site.contexts)
    (c : List ℕ) : s.result.doc (.parsed c) = s.placed (.parsed c) := by
  have hpointers := PointerNodesIn.stages hctxs hs ⟨_, rfl⟩
  change setLast _ _ _ _ = _
  rw [setLast_apply, if_neg]
  intro hin
  obtain ⟨k, hk⟩ := hpointers _ _ hs.associatedContext _ hin
  cases hk

/-- The target, once the item is grafted onto it. -/
theorem target (hs : s.Sound) : ∃ target, s.grafted (.parsed t) = some target := by
  obtain ⟨⟨target, htarget, -⟩, -⟩ := addChild?_eq_some.mp hs.added
  rw [Stages.copied, Function.update_of_ne (by simp)] at htarget
  exact ⟨target, htarget⟩

/-- A node of the document, past the graft. -/
theorem hung (hs : s.Sound) (hctxs : PointerNodesIn (fun n => ∃ k, n = .pointer k) site.contexts)
    {target : Cell NodeId Info} (htarget : s.grafted (.parsed t) = some target) {c : List ℕ}
    {cell : Cell NodeId Info} (hcell : s.grafted (.parsed c) = some cell) :
    ∃ cell', s.result.doc (.parsed c) = some cell' ∧ Hung t site.allocated target c cell cell' := by
  rw [hs.result_parsed hctxs, Stages.placed_apply htarget, Stages.copied,
    Function.update_of_ne (by simp), hcell]
  refine ⟨_, rfl, rfl, by simp, ?_, rfl, ?_, rfl⟩
  · simp only [NodeId.parsed.injEq]
  · simp only [NodeId.parsed.injEq]

/-- No node of the document is made. -/
theorem result_none (hs : s.Sound) (hctxs : PointerNodesIn (fun n => ∃ k, n = .pointer k) site.contexts)
    {c : List ℕ} (hc : s.grafted (.parsed c) = none) : s.result.doc (.parsed c) = none := by
  obtain ⟨target, htarget⟩ := hs.target
  rw [hs.result_parsed hctxs, Stages.placed_apply htarget, Stages.copied,
    Function.update_of_ne (by simp), hc]
  rfl

/-- The pointer nodes keep their children and their data, and the copy has those of the parent. -/
theorem result_pointer (hs : s.Sound) (k : ℕ) :
    (s.result.doc (.pointer k)).map (fun d => (d.children, d.data)) =
      (s.copied (.pointer k)).map fun d => (d.children, d.data) := by
  obtain ⟨target, htarget⟩ := hs.target
  have hplaced : (s.placed (.pointer k)).map (fun d => (d.children, d.data)) =
      (s.copied (.pointer k)).map fun d => (d.children, d.data) := by
    rw [Stages.placed_apply htarget]
    cases s.copied (.pointer k) <;> simp
  change (setLast _ _ _ _).map _ = _
  rw [setLast_apply, ← hplaced]
  split
  · cases s.placed (.pointer k) <;> rfl
  · rfl

end Stages.Sound

/-! ### The item as parsed -/

/-- What associating the item `a`, a child of `p`, with the node at `t` does to the store. -/
structure Joined (a t p : List ℕ) (k : ℕ) (target : Cell NodeId Info) (σ σ' : Store) : Prop where
  there : σ (.parsed t) = some target
  parsed : ∀ c, c ≠ a → ¬ Inside a (.parsed c) → ∀ cell, σ (.parsed c) = some cell →
    ∃ cell', σ' (.parsed c) = some cell' ∧ Hung t k target c cell cell'
  item : ∃ cell cell', σ (.parsed a) = some cell ∧ σ' (.parsed a) = some cell' ∧
    cell'.parent = cell.parent ∧ cell'.prev = cell.prev ∧ cell'.children = cell.children ∧
    cell'.last = target.last ∧ cell'.data.priv = target.data.priv ∧
    cell'.next = if target.children ≠ none ∧ target.last = some (.parsed a)
      then some (.pointer k) else cell.next
  text : ∃ cell, σ' (.parsed (0 :: a)) = some cell ∧
    (target.last ≠ some (.parsed (0 :: a)) → cell.next = target.children)
  pointer : ∀ j cell, j ≠ k → σ (.pointer j) = some cell →
    ∃ cell', σ' (.pointer j) = some cell' ∧ cell'.children = cell.children
  copy : ∃ parent cell', σ (.parsed p) = some parent ∧ σ' (.pointer k) = some cell' ∧
    cell'.children = parent.children
  fresh : ∀ j, j ≠ k → σ (.pointer j) = none → σ' (.pointer j) = none
  none : ∀ c, σ (.parsed c) = none → σ' (.parsed c) = none

/-- An item as parsed that starts with a text. -/
theorem joined {s : Stages site (.parsed a) (.parsed t)} (hs : s.Sound)
    (hctxs : PointerNodesIn (fun n => ∃ k, n = .pointer k) site.contexts)
    (hintact : Intact doc site.doc a) (hta : t ≠ a) (hti : ¬ Inside a (.parsed t))
    (hfirst : (doc.kidIds a).head? = some (.parsed (0 :: a))) {i : ℕ} {p : List ℕ} (hap : a = i :: p)
    (hparent : ∀ cell, site.doc (.parsed a) = some cell → cell.parent = some (.parsed p)) :
    ∃ target, Joined a t p site.allocated target site.doc s.result.doc := by
  obtain ⟨σ₁, target, hsub, hout, htarget, ⟨d, hd⟩, heq⟩ :=
    graft_intact hintact hti hfirst hs.graft
  have hin : Inside a (.parsed (0 :: a)) := inside_cons List.suffix_rfl
  have haa : ¬ Inside a (.parsed a) := by
    rintro ⟨q, ⟨⟩, -, hqa⟩
    exact hqa rfl
  have hne : NodeId.parsed (0 :: a) ≠ .parsed a := by simp
  have houtside : ∀ n, n ≠ .parsed a → ¬ Inside a n → s.grafted n = site.doc n := by
    intro n hna hn
    have hn0 : n ≠ .parsed (0 :: a) := fun h => hn (h ▸ hin)
    rw [heq, Heap.modify_of_ne _ _ hna, Heap.modify_of_ne _ _ hn0, hout n hn]
  have htarget' : s.grafted (.parsed t) = some target :=
    (houtside _ (by simpa using hta) hti).trans htarget
  obtain ⟨cell, hcell⟩ : ∃ cell, site.doc (.parsed a) = some cell := by
    have hitem := hs.item
    rw [heq, Heap.modify_self, Heap.modify_of_ne _ _ hne.symm] at hitem
    obtain ⟨cell, hcell, -⟩ := Option.map_eq_some_iff.mp hitem
    exact ⟨cell, hsub _ _ hcell⟩
  have hgrafted : s.grafted (.parsed a) = some { cell with
      last := target.last
      data := { cell.data with
        properties := target.data.properties, priv := target.data.priv } } := by
    rw [heq, Heap.modify_self, Heap.modify_of_ne _ _ hne.symm, hout _ haa, hcell]
    rfl
  have hpointer : ∀ k, s.grafted (.pointer k) = site.doc (.pointer k) :=
    fun k => houtside _ (by simp) (by rintro ⟨q, ⟨⟩, -⟩)
  refine ⟨target, htarget, fun c hca hc cell hcell => ?_, ?_, ?_, fun k cell hk hcell => ?_, ?_,
    fun k hk hnone => ?_, fun c hc => hs.result_none hctxs ?_⟩
  · refine hs.hung hctxs htarget' ((houtside _ (by simpa using hca) hc).trans hcell)
  · obtain ⟨cell', hcell', hhung⟩ := hs.hung hctxs htarget' hgrafted
    refine ⟨cell, cell', hcell, hcell', hhung.parent, hhung.prev, ?_, ?_, ?_, hhung.next⟩
    · rw [hhung.children, if_neg fun h => hta h.1.symm]
    · rw [hhung.last, if_neg hta.symm]
    · rw [hhung.data]
  · have htext : s.grafted (.parsed (0 :: a)) = some { d with next := target.children } := by
      rw [heq, Heap.modify_of_ne _ _ hne, Heap.modify_self, hd]
      rfl
    obtain ⟨cell', hcell', hhung⟩ := hs.hung hctxs htarget' htext
    refine ⟨cell', hcell', fun hlast => ?_⟩
    rw [hhung.next, if_neg fun h => hlast h.2]
  · have hresult := hs.result_pointer k
    rw [Stages.copied, Function.update_of_ne (by simpa using hk), hpointer, hcell,
      Option.map_some] at hresult
    obtain ⟨cell', hcell', hsame⟩ := Option.map_eq_some_iff.mp hresult
    exact ⟨cell', hcell', (Prod.mk.inj hsame).1⟩
  · have hcopied := hs.parent
    have hcellParent : s.cell.parent = some (.parsed p) := by
      have hitem := hs.item
      rw [hgrafted, Option.some.injEq] at hitem
      rw [← hitem]
      exact hparent cell hcell
    rw [hcellParent, xmlCopyNode, deref_eq_ok, houtside _ (by simp [hap])
      (hap ▸ not_inside_parent i p)] at hcopied
    have hresult := hs.result_pointer site.allocated
    rw [Stages.copied, Function.update_self, Option.map_some] at hresult
    obtain ⟨cell', hcell', hsame⟩ := Option.map_eq_some_iff.mp hresult
    exact ⟨s.parent, cell', hcopied, hcell', (Prod.mk.inj hsame).1⟩
  · have hresult := hs.result_pointer k
    rw [Stages.copied, Function.update_of_ne (by simpa using hk), hpointer, hnone,
      Option.map_none, Option.map_eq_none_iff] at hresult
    exact hresult
  · rw [heq]
    have hc₁ : σ₁ (.parsed c) = none := by
      refine Option.eq_none_iff_forall_not_mem.mpr fun d hd => ?_
      rw [hsub _ d hd] at hc
      cases hc
    simp only [Heap.modify, hc₁]
    split <;> split <;> rfl

/-! ### Whatever has been freed before -/

/-- What the turn of the item `a` can do to the store at all. -/
structure Turned (a : List ℕ) (σ σ' : Store) : Prop where
  parsed : ∀ c cell', σ' (.parsed c) = some cell' → ∃ cell, σ (.parsed c) = some cell ∧
    (c ≠ a → cell'.data = cell.data) ∧ (∀ m ∈ cell'.parent, m ∈ cell.parent) ∧
    (cell'.children = cell.children ∨
      cell.children = none ∧ (∃ k, cell'.children = some (.pointer k)) ∨
      ∃ item, σ (.parsed a) = some item ∧ item.parent = some (.parsed c))
  pointer : ∀ k cell', σ' (.pointer k) = some cell' → cell'.data.content = "" ∨
    ∃ cell, σ (.pointer k) = some cell ∧ cell'.data = cell.data

theorem turned_remove {site₁ : Site} (h : site.removeNode (.parsed a) = .ok site₁) :
    Turned a site.doc site₁.doc := by
  obtain ⟨σ, lists, -, hσ, rfl⟩ := removeNode_eq_ok h
  obtain ⟨cu', hcu', hgone, -, hsub, -⟩ := free_eq_some hσ
  obtain ⟨cu, hcu, -⟩ := unlink_eq_some hcu'
  refine ⟨fun c cell' hcell' => ?_, fun k cell' hcell' => ?_⟩
  · have hne : NodeId.parsed c ≠ .parsed a := by
      intro heq
      have hcell' : σ (.parsed c) = some cell' := hcell'
      rw [heq, hgone] at hcell'
      cases hcell'
    have hunlinked := hsub _ _ hcell'
    rw [unlink_of_ne hcu hne] at hunlinked
    obtain ⟨cell, hcell, rfl⟩ := Option.map_eq_some_iff.mp hunlinked
    refine ⟨cell, hcell, fun _ => rfl, fun _ hm => hm, ?_⟩
    by_cases hparent : cu.parent = some (.parsed c)
    · exact .inr (.inr ⟨cu, hcu, hparent⟩)
    · exact .inl (by simp [hparent])
  · obtain ⟨cell, hcell, hdata⟩ := unlink_eq_some (hsub _ _ hcell')
    exact .inr ⟨cell, hcell, hdata⟩

/-- A graft only changes `next` of a text, and `last` and the data of the item. -/
theorem graft_cell {n m x : NodeId} {σ : Store} {lists : AttrLists} {cell' : Cell NodeId Info}
    (h : site.graft n m = .ok (σ, lists)) (hcell' : σ x = some cell') :
    ∃ cell, site.doc x = some cell ∧ cell'.parent = cell.parent ∧
      cell'.children = cell.children ∧ (x ≠ n → cell'.data = cell.data) := by
  obtain ⟨_, _, target, first, σ₁, _, _, -, -, -, ⟨-, hfree, -⟩, -, rfl⟩ := graft_eq_ok h
  have hsub := freeList_sub (freeList_of_each hfree)
  have htext : ∀ {d}, σ₁.modify first (fun c => { c with next := target.children }) x = some d →
      ∃ cell, site.doc x = some cell ∧ d.parent = cell.parent ∧ d.children = cell.children ∧
        d.data = cell.data := by
    intro d hd
    rw [Heap.modify] at hd
    split at hd
    · obtain ⟨cell, hcell, rfl⟩ := Option.map_eq_some_iff.mp hd
      exact ⟨cell, hsub x cell hcell, rfl, rfl, rfl⟩
    · exact ⟨d, hsub x d hd, rfl, rfl, rfl⟩
  rw [Heap.modify] at hcell'
  split at hcell'
  · next hx =>
    obtain ⟨d, hd, rfl⟩ := Option.map_eq_some_iff.mp hcell'
    obtain ⟨cell, hcell, hparent, hchildren, -⟩ := htext hd
    exact ⟨cell, hcell, hparent, hchildren, fun hne => absurd hx hne⟩
  · obtain ⟨cell, hcell, hparent, hchildren, hdata⟩ := htext hcell'
    exact ⟨cell, hcell, hparent, hchildren, fun _ => hdata⟩

/-- After a graft, the item has the Context of its target. -/
theorem graft_takes {n m : NodeId} {σ : Store} {lists : AttrLists} {cell' : Cell NodeId Info}
    (h : site.graft n m = .ok (σ, lists)) (hcell' : σ n = some cell') :
    ∃ target, site.doc m = some target ∧ cell'.data.priv = target.data.priv := by
  obtain ⟨_, _, target, first, σ₁, _, _, -, -, -, ⟨-, hfree, -⟩, htarget, rfl⟩ := graft_eq_ok h
  refine ⟨target, freeList_sub (freeList_of_each hfree) _ _ htarget, ?_⟩
  rw [Heap.modify_self] at hcell'
  obtain ⟨d, -, rfl⟩ := Option.map_eq_some_iff.mp hcell'
  rfl

namespace Stages.Sound

variable {s : Stages site (.parsed a) (.parsed t)}

/-- A node of the document that is there at the end was there after the graft. -/
theorem result_cell (hs : s.Sound)
    (hctxs : PointerNodesIn (fun n => ∃ k, n = .pointer k) site.contexts) {c : List ℕ}
    {cell' : Cell NodeId Info} (hcell' : s.result.doc (.parsed c) = some cell') :
    ∃ target cell, s.grafted (.parsed t) = some target ∧ s.grafted (.parsed c) = some cell ∧
      Hung t site.allocated target c cell cell' := by
  obtain ⟨target, htarget⟩ := hs.target
  cases hcell : s.grafted (.parsed c) with
  | none =>
    rw [hs.result_none hctxs hcell] at hcell'
    cases hcell'
  | some cell =>
    obtain ⟨cell'', hcell'', hhung⟩ := hs.hung hctxs htarget hcell
    obtain rfl := Option.some.inj (hcell'.symm.trans hcell'')
    exact ⟨target, cell, htarget, rfl, hhung⟩

theorem turned (hs : s.Sound)
    (hctxs : PointerNodesIn (fun n => ∃ k, n = .pointer k) site.contexts) :
    Turned a site.doc s.result.doc := by
  refine ⟨fun c cell' hcell' => ?_, fun k cell' hcell' => ?_⟩
  · obtain ⟨target, cell, htarget, hcell, hhung⟩ := hs.result_cell hctxs hcell'
    obtain ⟨cell₀, hcell₀, hparent, hchildren, hdata⟩ := graft_cell hs.graft hcell
    refine ⟨cell₀, hcell₀, fun hne => hhung.data.trans (hdata (by simpa using hne)),
      fun m hm => ?_, ?_⟩
    · rwa [hhung.parent, hparent] at hm
    · rw [hhung.children, hchildren]
      split
      · next hcond =>
        obtain ⟨rfl, hnone⟩ := hcond
        obtain rfl := Option.some.inj (htarget.symm.trans hcell)
        exact .inr (.inl ⟨hchildren.symm.trans hnone, _, rfl⟩)
      · exact .inl rfl
  · have hresult := hs.result_pointer k
    rw [hcell', Option.map_some] at hresult
    obtain ⟨d, hd, hsame⟩ := Option.map_eq_some_iff.mp hresult.symm
    have hdata : cell'.data = d.data := ((Prod.mk.inj hsame).2).symm
    rw [Stages.copied, Function.update_apply] at hd
    split at hd
    · cases hd
      exact .inl (by rw [hdata]; rfl)
    · obtain ⟨cell, hcell, -, -, hsame⟩ := graft_cell hs.graft hd
      exact .inr ⟨cell, hcell, hdata.trans (hsame (by simp))⟩

/-- The item has the Context of its target. -/
theorem takes (hs : s.Sound)
    (hctxs : PointerNodesIn (fun n => ∃ k, n = .pointer k) site.contexts)
    {cell' : Cell NodeId Info} (hcell' : s.result.doc (.parsed a) = some cell') :
    ∃ target, site.doc (.parsed t) = some target ∧ cell'.data.priv = target.data.priv := by
  obtain ⟨_, cell, -, hcell, hhung⟩ := hs.result_cell hctxs hcell'
  obtain ⟨target, htarget, hpriv⟩ := graft_takes hs.graft hcell
  exact ⟨target, htarget, by rw [hhung.data, hpriv]⟩

end Stages.Sound

end VaeDb.Staging
