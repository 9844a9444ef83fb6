import VaeDb.Schemes.Siblings

/-! A part of a heap that its links do not leave.

    The region `A` hangs below one cell `b` that is not part of it: links out of the cells of `A` stay
    in `A`, but for a `parent` link, which may lead to `b`; the two ends of the list of `b` are in `A`.
    Whatever is done to cells of `A` then stays there: outside of `A` every cell is as before, and `b`
    as well apart from the ends of its list.

        outside ── b ──▶ A ⟲                                                                  -/

namespace Schemes
open Heap

universe u v

variable {ι : Type u} {β : Type v} [DecidableEq ι]

/-- The links of a cell to its children stay in `A`. -/
structure EndsIn (A : ι → Prop) (c : Cell ι β) : Prop where
  children : ∀ m ∈ c.children, A m
  last : ∀ m ∈ c.last, A m

/-- All links of a cell stay in `A`, or lead back to `b`. -/
structure LinksIn (A : ι → Prop) (b : ι) (c : Cell ι β) : Prop extends EndsIn A c where
  parent : ∀ m ∈ c.parent, A m ∨ m = b
  next : ∀ m ∈ c.next, A m
  prev : ∀ m ∈ c.prev, A m

/-- The links of `A` stay in `A`. -/
structure Region (A : ι → Prop) (b : ι) (σ : Heap ι β) : Prop where
  links : ∀ n c, A n → σ n = some c → LinksIn A b c
  border : ∀ c, σ b = some c → EndsIn A c

/-- Two cells that differ in their list of children at most. -/
structure SameButEnds (c c' : Cell ι β) : Prop where
  parent : c'.parent = c.parent
  next : c'.next = c.next
  prev : c'.prev = c.prev
  data : c'.data = c.data

/-- A change of the heap that stays in the region. -/
structure Within (A : ι → Prop) (b : ι) (σ σ' : Heap ι β) : Prop where
  region : Region A b σ'
  outside : ∀ n, ¬ A n → n ≠ b → σ' n = σ n
  border : ∀ c, σ b = some c → ∃ c', σ' b = some c' ∧ SameButEnds c c'

namespace Within

variable {A : ι → Prop} {b : ι} {σ σ' σ'' : Heap ι β}

omit [DecidableEq ι] in
theorem refl (h : Region A b σ) : Within A b σ σ :=
  ⟨h, fun _ _ _ => rfl, fun c hc => ⟨c, hc, rfl, rfl, rfl, rfl⟩⟩

omit [DecidableEq ι] in
theorem trans (h : Within A b σ σ') (h' : Within A b σ' σ'') : Within A b σ σ'' := by
  refine ⟨h'.region, fun n hn hb => (h'.outside n hn hb).trans (h.outside n hn hb), fun c hc => ?_⟩
  obtain ⟨c', hc', hsame⟩ := h.border c hc
  obtain ⟨c'', hc'', hsame'⟩ := h'.border c' hc'
  exact ⟨c'', hc'', hsame'.parent.trans hsame.parent, hsame'.next.trans hsame.next,
    hsame'.prev.trans hsame.prev, hsame'.data.trans hsame.data⟩

/-! ### One cell -/

/-- A cell of the region is set. -/
theorem update (hb : ¬ A b) (h : Region A b σ) {n : ι} (hn : A n) {x : Option (Cell ι β)}
    (hx : ∀ c ∈ x, LinksIn A b c) : Within A b σ (Function.update σ n x) := by
  have hne : b ≠ n := fun heq => hb (heq ▸ hn)
  refine ⟨⟨fun m c hm hc => ?_, fun c hc => h.border c ?_⟩, fun m hm _ => ?_, fun c hc => ⟨c, ?_, ?_⟩⟩
  · rcases eq_or_ne m n with rfl | hmn
    · rw [Function.update_self] at hc
      exact hx c hc
    · rw [Function.update_of_ne hmn] at hc
      exact h.links m c hm hc
  · rwa [Function.update_of_ne hne] at hc
  · exact Function.update_of_ne (fun heq : m = n => hm (heq.symm ▸ hn)) ..
  · rw [Function.update_of_ne hne, hc]
  · exact ⟨rfl, rfl, rfl, rfl⟩

theorem erase (hb : ¬ A b) (h : Region A b σ) {n : ι} (hn : A n) : Within A b σ (σ.erase n) :=
  update hb h hn (by simp)

theorem modify_eq_update (σ : Heap ι β) (n : ι) (f : Cell ι β → Cell ι β) :
    σ.modify n f = Function.update σ n ((σ n).map f) := by
  funext m
  rcases eq_or_ne m n with rfl | hne
  · rw [modify_self, Function.update_self]
  · rw [modify_of_ne _ _ hne, Function.update_of_ne hne]

theorem modify (hb : ¬ A b) (h : Region A b σ) {n : ι} (hn : A n) {f : Cell ι β → Cell ι β}
    (hf : ∀ c, LinksIn A b c → LinksIn A b (f c)) : Within A b σ (σ.modify n f) := by
  rw [modify_eq_update]
  refine update hb h hn fun c hc => ?_
  obtain ⟨d, hd, rfl⟩ := Option.map_eq_some_iff.mp hc
  exact hf d (h.links n d hn hd)

/-- The cell above the region changes the ends of its list. -/
theorem modifyBorder (hb : ¬ A b) (h : Region A b σ) {f : Cell ι β → Cell ι β}
    (hf : ∀ c, EndsIn A c → EndsIn A (f c) ∧ SameButEnds c (f c)) : Within A b σ (σ.modify b f) := by
  refine ⟨⟨fun n c hn hc => ?_, fun c hc => ?_⟩, fun n _ hne => modify_of_ne _ _ hne, fun c hc => ?_⟩
  · rw [modify_of_ne _ _ fun heq : n = b => hb (heq ▸ hn)] at hc
    exact h.links n c hn hc
  · rw [modify_self] at hc
    obtain ⟨d, hd, rfl⟩ := Option.map_eq_some_iff.mp hc
    exact (hf d (h.border d hd)).1
  · exact ⟨f c, by rw [modify_self, hc]; rfl, (hf c (h.border c hc)).2⟩

theorem modifyLink (hb : ¬ A b) (h : Region A b σ) {l : Option ι} (hl : ∀ n ∈ l, A n)
    {f : Cell ι β → Cell ι β} (hf : ∀ c, LinksIn A b c → LinksIn A b (f c)) :
    Within A b σ (σ.modifyLink l f) := by
  cases l with
  | none => exact refl h
  | some n => exact modify hb h (hl n rfl) hf

/-! ### Lists -/

/-- Taking a cell of the region out of its list. -/
theorem unlink (hb : ¬ A b) (h : Region A b σ) {u : ι} (hu : A u) : Within A b σ (σ.unlink u) := by
  rw [Heap.unlink]
  cases hc : σ u with
  | none => exact refl h
  | some c =>
    have hlinks := h.links u c hu hc
    -- what the parent's ends become
    have hends : ∀ q : Cell ι β, EndsIn A q → EndsIn A { q with
        children := if q.children = some u then c.next else q.children
        last := if q.last = some u then c.prev else q.last } := by
      intro q hq
      constructor
      · dsimp only
        split
        · exact hlinks.next
        · exact hq.children
      · dsimp only
        split
        · exact hlinks.prev
        · exact hq.last
    have hparent : Within A b σ (σ.modifyLink c.parent fun q => { q with
        children := if q.children = some u then c.next else q.children
        last := if q.last = some u then c.prev else q.last }) := by
      cases hp : c.parent with
      | none => exact refl h
      | some p =>
        rcases hlinks.parent p hp with hA | rfl
        · exact modify hb h hA fun q hq => ⟨hends q hq.toEndsIn, hq.parent, hq.next, hq.prev⟩
        · exact modifyBorder hb h fun q hq => ⟨hends q hq, rfl, rfl, rfl, rfl⟩
    have hnext := modifyLink hb hparent.region hlinks.next (f := fun d => { d with prev := c.prev })
      fun d hd => ⟨⟨hd.children, hd.last⟩, hd.parent, hd.next, hlinks.prev⟩
    have hprev := modifyLink hb hnext.region hlinks.prev (f := fun d => { d with next := c.next })
      fun d hd => ⟨⟨hd.children, hd.last⟩, hd.parent, hlinks.next, hd.prev⟩
    have hself := modify hb hprev.region hu
      (f := fun d => { d with parent := none, next := none, prev := none })
      fun d hd => ⟨⟨hd.children, hd.last⟩, by simp, by simp, by simp⟩
    exact ((hparent.trans hnext).trans hprev).trans hself

/-- Adding a cell of the region to a list of the region. -/
theorem addChild (hb : ¬ A b) (h : Region A b σ) {p n : ι} (hp : A p) (hn : A n) :
    Within A b σ (σ.addChild p n) := by
  have hlink : ∀ m ∈ some n, A m := fun m hm => Option.some.inj hm ▸ hn
  rw [Heap.addChild]
  cases hc : σ p with
  | none => exact refl h
  | some c =>
    dsimp only
    have hlast := (h.links p c hp hc).last
    have hparent := modify hb h hn (f := fun d => { d with parent := some p })
      fun d hd => ⟨⟨hd.children, hd.last⟩, fun m hm => .inl (Option.some.inj hm ▸ hp), hd.next, hd.prev⟩
    cases hchildren : c.children with
    | none =>
      have hself := modify hb hparent.region hp
        (f := fun q => { q with children := some n, last := some n })
        fun q hq => ⟨⟨hlink, hlink⟩, hq.parent, hq.next, hq.prev⟩
      exact hparent.trans hself
    | some first =>
      have hnext := modifyLink hb hparent.region hlast (f := fun d => { d with next := some n })
        fun d hd => ⟨⟨hd.children, hd.last⟩, hd.parent, hlink, hd.prev⟩
      have hprev := modify hb hnext.region hn (f := fun d => { d with prev := c.last })
        fun d hd => ⟨⟨hd.children, hd.last⟩, hd.parent, hd.next, hlast⟩
      have hself := modify hb hprev.region hp (f := fun q => { q with last := some n })
        fun q hq => ⟨⟨hq.children, hlink⟩, hq.parent, hq.next, hq.prev⟩
      exact ((hparent.trans hnext).trans hprev).trans hself

/-- Freeing a list of the region. -/
theorem freeList (hb : ¬ A b) : ∀ {fuel : ℕ} {σ σ' : Heap ι β} {l : Option ι}, Region A b σ →
    (∀ n ∈ l, A n) → Heap.freeList fuel σ l = some σ' → Within A b σ σ'
  | fuel, σ, σ', none, h, _, hfree => by
      rw [Heap.freeList, Option.some.injEq] at hfree
      exact hfree ▸ refl h
  | 0, _, _, some _, _, _, hfree => by cases hfree
  | fuel + 1, σ, σ', some n, h, hl, hfree => by
      have hn := hl n rfl
      rw [Heap.freeList] at hfree
      cases hc : σ n with
      | none => simp [hc] at hfree
      | some c =>
        have hlinks := h.links n c hn hc
        simp only [hc] at hfree
        cases hbelow : Heap.freeList fuel σ c.children with
        | none => simp [hbelow] at hfree
        | some σ₁ =>
          rw [hbelow] at hfree
          have h₁ := freeList hb h hlinks.children hbelow
          have h₂ := erase hb h₁.region hn
          exact (h₁.trans h₂).trans (freeList hb h₂.region hlinks.next hfree)

/-- Freeing a cell of the region. -/
theorem free (hb : ¬ A b) {fuel : ℕ} {n : ι} (h : Region A b σ) (hn : A n)
    (hfree : Heap.free fuel σ n = some σ') : Within A b σ σ' := by
  rw [Heap.free] at hfree
  cases hc : σ n with
  | none => simp [hc] at hfree
  | some c =>
    simp only [hc] at hfree
    cases hbelow : Heap.freeList fuel σ c.children with
    | none => simp [hbelow] at hfree
    | some σ₁ =>
      rw [hbelow, Option.some.injEq] at hfree
      have h₁ := freeList hb h (h.links n c hn hc).children hbelow
      exact hfree ▸ h₁.trans (erase hb h₁.region hn)

end Within

/-! ### Data -/

theorem modify_data (σ : Heap ι β) (n : ι) {f : Cell ι β → Cell ι β} (hf : ∀ c, (f c).data = c.data)
    (m : ι) : (σ.modify n f m).map Cell.data = (σ m).map Cell.data := by
  rcases eq_or_ne m n with rfl | hne
  · rw [modify_self, Option.map_map]
    exact congrArg (Option.map · _) (funext hf)
  · rw [modify_of_ne _ _ hne]

theorem modifyLink_data (σ : Heap ι β) (l : Option ι) {f : Cell ι β → Cell ι β}
    (hf : ∀ c, (f c).data = c.data) (m : ι) :
    (σ.modifyLink l f m).map Cell.data = (σ m).map Cell.data := by
  cases l with
  | none => rfl
  | some n => exact modify_data σ n hf m

/-- Linking changes the data of no cell. -/
theorem addChild_data (σ : Heap ι β) (p n m : ι) :
    (σ.addChild p n m).map Cell.data = (σ m).map Cell.data := by
  rw [Heap.addChild]
  cases σ p with
  | none => rfl
  | some c =>
    dsimp only
    cases c.children with
    | none =>
      refine (modify_data _ _ ?_ m).trans (modify_data _ _ ?_ m)
      · exact fun _ => rfl
      · exact fun _ => rfl
    | some first =>
      refine (modify_data _ _ ?_ m).trans ((modify_data _ _ ?_ m).trans
        ((modifyLink_data _ _ ?_ m).trans (modify_data _ _ ?_ m)))
      · exact fun _ => rfl
      · exact fun _ => rfl
      · exact fun _ => rfl
      · exact fun _ => rfl

end Schemes
