import Mathlib.Algebra.BigOperators.Group.Finset.Basic
import Mathlib.Algebra.Order.BigOperators.Group.Finset
import VaeDb.Schemes.Mutex
import VaeDb.Schemes.Runs

/-! Threads that wait for mutexes, and how their calls come to an end.

    A thread waits for at most one mutex. Where mutexes have ranks and a thread only waits for one that
    ranks above all it holds, the threads that wait for each other stand in a row, and the last of them
    waits for nothing that is taken.

        t₁ ── waits for ──▶ m₁, held by t₂ ── waits for ──▶ m₂, held by t₃ ──▶ …
                       rank m₁    <               rank m₂    <    …

    So as long as a call is under way, one can go on; and if every call has finitely many steps to
    make, all of them can be brought to their end. -/

namespace Schemes

section Waiting

variable {τ μ : Type} {owner : μ → Option τ} {held : τ → List μ} {t : τ} {m : μ}

/-- The record of owners says exactly who holds what. -/
def Records (owner : μ → Option τ) (held : τ → List μ) : Prop :=
  ∀ t m, owner m = some t ↔ m ∈ held t

namespace Records

theorem owns (h : Records owner held) : Owns owner held := fun t m hm => (h t m).mpr hm

/-- The thread that a row of waiting threads ends with: it waits for nothing, or for a mutex that is
    free. The ranks go up along the row, and there is a highest one. -/
theorem exists_unblocked (h : Records owner held) (wants : τ → Option μ) (rank : μ → ℕ)
    {bound : ℕ} (hbound : ∀ m, rank m ≤ bound)
    (hrank : ∀ t m, wants t = some m → ∀ m' ∈ held t, rank m' < rank m) (t : τ) :
    ∃ t', (t' = t ∨ held t' ≠ []) ∧ ∀ m, wants t' = some m → owner m = none := by
  have hrow : ∀ n t, (∀ m, wants t = some m → bound < rank m + n) →
      ∃ t', (t' = t ∨ held t' ≠ []) ∧ ∀ m, wants t' = some m → owner m = none := by
    intro n
    induction n with
    | zero =>
      intro t hn
      refine ⟨t, .inl rfl, fun m hm => ?_⟩
      have hlt := hn m hm
      have hle := hbound m
      omega
    | succ n ih =>
      intro t hn
      by_cases hfree : ∀ m, wants t = some m → owner m = none
      · exact ⟨t, .inl rfl, hfree⟩
      · push Not at hfree
        obtain ⟨m, hm, howner⟩ := hfree
        obtain ⟨t₁, ht₁⟩ := Option.ne_none_iff_exists'.mp howner
        have hheld := (h t₁ m).mp ht₁
        obtain ⟨t', ht', hunblocked⟩ := ih t₁ fun m' hm' => by
          have hlt := hrank t₁ m' hm' m hheld
          have hgap := hn m hm
          omega
        refine ⟨t', .inr ?_, hunblocked⟩
        rcases ht' with rfl | hsome
        · exact List.ne_nil_of_mem hheld
        · exact hsome
  exact hrow (bound + 1) t fun m _ => by omega

variable [DecidableEq τ]

theorem keep (h : Records owner held) {l : List μ} (hl : l = held t) :
    Records owner (Function.update held t l) := by
  rw [hl, Function.update_eq_self]
  exact h

variable [DecidableEq μ]

theorem acquire (h : Records owner held) (hfree : owner m = none) :
    Records (Function.update owner m (some t)) (Function.update held t (m :: held t)) := by
  intro t' m'
  have hnot : m ∉ held t' := fun hmem => by
    rw [(h t' m).mpr hmem] at hfree
    cases hfree
  rcases eq_or_ne m' m with rfl | hm'
  · rw [Function.update_self]
    rcases eq_or_ne t' t with rfl | ht'
    · simp
    · simp [Function.update_of_ne ht', hnot, ht'.symm]
  · rw [Function.update_of_ne hm', h t' m']
    rcases eq_or_ne t' t with rfl | ht'
    · simp [hm']
    · rw [Function.update_of_ne ht']

theorem release (h : Records owner held) {l : List μ} (hheld : held t = m :: l) (hm : m ∉ l) :
    Records (Function.update owner m none) (Function.update held t l) := by
  intro t' m'
  rcases eq_or_ne t' t with rfl | ht'
  · rw [Function.update_self]
    rcases eq_or_ne m' m with rfl | hm'
    · simp [hm]
    · rw [Function.update_of_ne hm', h t' m', hheld]
      simp [hm']
  · rw [Function.update_of_ne ht']
    rcases eq_or_ne m' m with rfl | hm'
    · rw [Function.update_self, ← h t' m']
      have howner : owner m' = some t := (h t m').mpr (hheld ▸ List.mem_cons_self)
      simp [howner, ht'.symm]
    · rw [Function.update_of_ne hm', h t' m']

end Records

end Waiting

/-! ### Calls that end -/

variable {σ α : Type} {step : σ → α → Option σ}

/-- Where each action that costs takes one of what is left, and each action that gives adds a bounded
    amount, a run has only so many actions that cost. -/
theorem run_cost {costs gives : α → Bool} {left : σ → ℕ} {bound : ℕ}
    (hstep : ∀ s a s', step s a = some s' →
      left s' + (costs a).toNat ≤ left s + bound * (gives a).toNat) :
    ∀ {as : List α} {s s' : σ}, run step s as = some s' →
      left s' + as.countP costs ≤ left s + bound * as.countP gives
  | [], s, s', h => by
      cases h
      exact le_rfl
  | a :: as, s, s', h => by
      obtain ⟨s₁, hs₁, hrest⟩ := run_cons_eq_some.mp h
      have hone := hstep s a s₁ hs₁
      have hmore := run_cost hstep hrest
      have hcount : ∀ p : α → Bool, (a :: as).countP p = as.countP p + (p a).toNat := fun p => by
        cases hp : p a <;> simp [hp]
      rw [hcount, hcount, Nat.mul_add]
      omega

/-- Where some action always brings the system closer to its end, it can be brought there. -/
theorem run_completes (Inv Done : σ → Prop) (Quiet : α → Prop) (measure : σ → ℕ)
    (hstep : ∀ s, Inv s → Done s ∨ ∃ a s', Quiet a ∧ step s a = some s' ∧ Inv s' ∧
      measure s' < measure s) {s : σ} (hs : Inv s) :
    ∃ as s', (∀ a ∈ as, Quiet a) ∧ run step s as = some s' ∧ Inv s' ∧ Done s' := by
  induction hn : measure s using Nat.strong_induction_on generalizing s with
  | _ n ih =>
    subst hn
    rcases hstep s hs with hdone | ⟨a, s₁, ha, hrun, hs₁, hlt⟩
    · exact ⟨[], s, by simp, rfl, hs, hdone⟩
    · obtain ⟨as, s', has, hruns, hs', hdone⟩ := ih _ hlt hs₁ rfl
      refine ⟨a :: as, s', List.forall_mem_cons.mpr ⟨ha, has⟩, ?_, hs', hdone⟩
      exact run_cons_eq_some.mpr ⟨s₁, hrun, hruns⟩

end Schemes
