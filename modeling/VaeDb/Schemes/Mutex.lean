import Mathlib.Logic.Function.Basic
import Mathlib.Tactic.Common

/-! Mutexes: threads that hold them, and the rules that keep the record of owners true.

    `owner` is the state of the mutexes, `held` the mutexes that each thread holds by where it is in
    its code, the one taken last first. `Owns` says that they agree; then no two threads hold one
    mutex. Taking a free mutex, giving one back and doing neither keep it. -/

namespace Schemes

variable {τ μ : Type} {owner : μ → Option τ} {held : τ → List μ} {t t' : τ} {m : μ}

/-- A mutex that a thread holds has this thread as its owner. -/
def Owns (owner : μ → Option τ) (held : τ → List μ) : Prop :=
  ∀ t m, m ∈ held t → owner m = some t

namespace Owns

/-- Mutual exclusion. -/
theorem exclusive (h : Owns owner held) (ht : m ∈ held t) (ht' : m ∈ held t') : t = t' :=
  Option.some.inj ((h t m ht).symm.trans (h t' m ht'))

variable [DecidableEq τ]

theorem keep (h : Owns owner held) {l : List μ} (hl : l = held t) :
    Owns owner (Function.update held t l) := by
  rw [hl, Function.update_eq_self]
  exact h

variable [DecidableEq μ]

theorem acquire (h : Owns owner held) (hfree : owner m = none) :
    Owns (Function.update owner m (some t)) (Function.update held t (m :: held t)) := by
  intro t' m' hm'
  have hold : m' ∈ held t' → Function.update owner m (some t) m' = some t' := fun hmem => by
    have howner := h t' m' hmem
    have hne : m' ≠ m := by
      rintro rfl
      rw [hfree] at howner
      cases howner
    rw [Function.update_of_ne hne, howner]
  rcases eq_or_ne t' t with rfl | hne
  · rw [Function.update_self] at hm'
    rcases List.mem_cons.mp hm' with rfl | hmem
    · exact Function.update_self ..
    · exact hold hmem
  · rw [Function.update_of_ne hne] at hm'
    exact hold hm'

theorem release (h : Owns owner held) {l : List μ} (hheld : held t = m :: l) (hm : m ∉ l) :
    Owns (Function.update owner m none) (Function.update held t l) := by
  intro t' m' hm'
  have hmem : m ∈ held t := by simp [hheld]
  have hne : m' ≠ m ∧ m' ∈ held t' := by
    rcases eq_or_ne t' t with rfl | hne
    · rw [Function.update_self] at hm'
      refine ⟨?_, by simp [hheld, hm']⟩
      rintro rfl
      exact hm hm'
    · rw [Function.update_of_ne hne] at hm'
      refine ⟨?_, hm'⟩
      rintro rfl
      exact hne (h.exclusive hm' hmem)
  rw [Function.update_of_ne hne.1]
  exact h t' m' hne.2

end Owns

end Schemes
