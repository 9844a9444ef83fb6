import Mathlib.Tactic.Common

/-! Computations that remember their results.

    A `Memo` computation runs over a cache and answers or fails; what was cached before a failure
    stays cached. `Computes I x p` says that the cache does not show: from every cache that satisfies
    `I`, `x` answers `p`, and `I` still holds afterwards.

        hit:   look c = some a ──▶ a
        miss:  fresh ──▶ a, c := store a c
               fresh ──▶ failure, nothing stored -/

namespace Schemes

/-- A computation that may fail, over a cache of type `κ`. -/
abbrev Memo (κ ε : Type) := ExceptT ε (StateM κ)

variable {κ ε α β : Type} {I : κ → Prop}

/-- The outcome of a computation, and the cache it leaves. -/
def Memo.go (x : Memo κ ε α) (c : κ) : Except ε α × κ := (ExceptT.run x).run c

theorem Memo.go_bind (x : Memo κ ε α) (f : α → Memo κ ε β) (c : κ) :
    (x >>= f).go c = match x.go c with
      | (.ok a, c') => (f a).go c'
      | (.error e, c') => (.error e, c') := by
  rcases hxc : x.go c with ⟨_ | a, c'⟩ <;>
    simp only [Memo.go, ExceptT.run_bind, StateT.run_bind] at hxc ⊢ <;>
    simp only [hxc] <;> rfl

theorem Memo.go_get (c : κ) : (get : Memo κ ε κ).go c = (.ok c, c) := rfl

/-- Answer from the cache; else compute, and store the answer. -/
def memo (look : κ → Option α) (store : α → κ → κ) (fresh : Memo κ ε α) : Memo κ ε α := do
  match look (← get) with
  | some a => pure a
  | none => do
    let a ← fresh
    modify (store a)
    pure a

theorem memo_hit {look : κ → Option α} {c : κ} {a : α} (h : look c = some a)
    (store : α → κ → κ) (fresh : Memo κ ε α) : (memo look store fresh).go c = (.ok a, c) := by
  rw [memo, Memo.go_bind, Memo.go_get]
  simp only [h]
  rfl

theorem memo_miss {look : κ → Option α} {c : κ} (h : look c = none) (store : α → κ → κ)
    (fresh : Memo κ ε α) :
    (memo look store fresh).go c = match fresh.go c with
      | (.ok a, c') => (.ok a, store a c')
      | (.error e, c') => (.error e, c') := by
  rw [memo, Memo.go_bind, Memo.go_get]
  simp only [h]
  exact Memo.go_bind fresh _ c

/-- From every good cache, `x` answers `p` and leaves a good cache. -/
def Computes (I : κ → Prop) (x : Memo κ ε α) (p : Except ε α) : Prop :=
  ∀ c, I c → (x.go c).1 = p ∧ I (x.go c).2

namespace Computes

theorem pure (a : α) : Computes I (Pure.pure a : Memo κ ε α) (Pure.pure a) := fun _ hc => ⟨rfl, hc⟩

theorem throw (e : ε) : Computes I (throwThe ε e : Memo κ ε α) (throwThe ε e) :=
  fun _ hc => ⟨rfl, hc⟩

theorem lift (p : Except ε α) : Computes I (liftM p : Memo κ ε α) p := fun _ hc => ⟨rfl, hc⟩

theorem bind {x : Memo κ ε α} {p : Except ε α} {f : α → Memo κ ε β} {g : α → Except ε β}
    (hx : Computes I x p) (hf : ∀ a, p = .ok a → Computes I (f a) (g a)) :
    Computes I (x >>= f) (p >>= g) := by
  intro c hc
  obtain ⟨hp, hI⟩ := hx c hc
  rw [Memo.go_bind]
  rcases hxc : x.go c with ⟨_ | a, c'⟩
  · rw [hxc] at hp hI
    exact ⟨by rw [← hp]; rfl, hI⟩
  · rw [hxc] at hp hI
    rw [← hp]
    exact hf a hp.symm c' hI

/-- A sequence of computations that pass a value on. -/
theorem foldlM {x : β → α → Memo κ ε β} {p : β → α → Except ε β}
    (h : ∀ b a, Computes I (x b a) (p b a)) : ∀ (l : List α) (b : β),
    Computes I (l.foldlM x b) (l.foldlM p b)
  | [], b => pure b
  | a :: l, b => by
      rw [List.foldlM_cons, List.foldlM_cons]
      exact (h b a).bind fun b' _ => foldlM h l b'

/-- A sequence of computations that each give an item. -/
theorem mapM {x : α → Memo κ ε β} {p : α → Except ε β} (h : ∀ a, Computes I (x a) (p a)) :
    ∀ l : List α, Computes I (l.mapM x) (l.mapM p)
  | [] => by
      rw [List.mapM_nil, List.mapM_nil]
      exact pure []
  | a :: l => by
      rw [List.mapM_cons, List.mapM_cons]
      exact (h a).bind fun b _ => (mapM h l).bind fun bs _ => pure (b :: bs)

/-- A remembered answer does not show if whatever is found in a good cache is the fresh answer, and
    storing the fresh answer keeps the cache good. -/
theorem memo {look : κ → Option α} {store : α → κ → κ} {fresh : Memo κ ε α} {p : Except ε α}
    (hfresh : Computes I fresh p) (hlook : ∀ c a, I c → look c = some a → p = .ok a)
    (hstore : ∀ c a, I c → p = .ok a → I (store a c)) :
    Computes I (Schemes.memo look store fresh) p := by
  intro c hc
  cases hlk : look c with
  | some a =>
    rw [memo_hit hlk]
    exact ⟨(hlook c a hc hlk).symm, hc⟩
  | none =>
    rw [memo_miss hlk]
    obtain ⟨hp, hI⟩ := hfresh c hc
    rcases hxc : fresh.go c with ⟨_ | a, c'⟩
    · rw [hxc] at hp hI
      exact ⟨hp, hI⟩
    · rw [hxc] at hp hI
      exact ⟨hp, hstore c' a hI hp.symm⟩

end Computes

end Schemes
