import Mathlib.Data.List.Infix
import Mathlib.Data.Nat.Notation
import Mathlib.Tactic.Common

/-! Runs of a partial step function, and traces of a step relation.

    A system is a state and a step function that answers `none` where an action is not enabled. A
    run is a list of actions; `run` replays it. Two rules carry every safety result over such a
    system. `run_invariant`: what one step keeps, a whole run keeps, given that each action of the
    run meets a condition in the state it is taken in (`Meets`). `forall_prefix_iff_meets`: when one
    step keeps a property exactly if the condition holds there, the property holds in every state
    of a run exactly if the run meets the condition.

    Where a step leaves something open, the system is a relation and its runs are traces; the rules
    for them are `Trace.invariant` and `Trace.effect`. -/

namespace Schemes

universe u v

variable {σ : Type u} {α : Type v}

/-- Replay a list of actions; `none` as soon as one of them is not enabled. -/
def run (step : σ → α → Option σ) : σ → List α → Option σ
  | s, [] => some s
  | s, a :: as => (step s a).bind fun t => run step t as

/-- Every action of the run meets `cond` in the state it is taken in. -/
def Meets (step : σ → α → Option σ) (cond : σ → α → Prop) : σ → List α → Prop
  | _, [] => True
  | s, a :: as =>
    cond s a ∧ match step s a with
      | none => True
      | some t => Meets step cond t as

instance Meets.decidable (step : σ → α → Option σ) (cond : σ → α → Prop)
    [∀ s a, Decidable (cond s a)] : ∀ s as, Decidable (Meets step cond s as)
  | _, [] => isTrue trivial
  | s, a :: as =>
    match h : step s a with
    | none => decidable_of_iff (cond s a) (by simp [Meets, h])
    | some t =>
      have := Meets.decidable step cond t as
      decidable_of_iff (cond s a ∧ Meets step cond t as) (by simp [Meets, h])

variable {step : σ → α → Option σ} {cond : σ → α → Prop}

theorem meets_cons {s : σ} {a : α} {as : List α} :
    Meets step cond s (a :: as) ↔ cond s a ∧ ∀ t, step s a = some t → Meets step cond t as := by
  rw [Meets]
  cases h : step s a <;> simp

/-- Conditions that agree in every state are met by the same runs. -/
theorem meets_congr {cond' : σ → α → Prop} (h : ∀ s a, cond s a ↔ cond' s a) (s : σ) (as : List α) :
    Meets step cond s as ↔ Meets step cond' s as := by
  obtain rfl : cond = cond' := funext fun s => funext fun a => propext (h s a)
  exact Iff.rfl

@[simp] theorem run_nil (s : σ) : run step s [] = some s := rfl

/-- A run that starts with `a` takes the step `a` and runs on from where it leads. -/
theorem run_cons_eq_some {s t : σ} {a : α} {as : List α} :
    run step s (a :: as) = some t ↔ ∃ r, step s a = some r ∧ run step r as = some t := by
  rw [run, Option.bind_eq_some_iff]

theorem run_append_eq_some {s t : σ} : ∀ {as bs : List α},
    run step s (as ++ bs) = some t ↔ ∃ r, run step s as = some r ∧ run step r bs = some t
  | [], bs => by simp
  | a :: as, bs => by
      simp only [List.cons_append, run_cons_eq_some, run_append_eq_some]
      constructor
      · rintro ⟨q, hq, r, hr, ht⟩
        exact ⟨r, ⟨q, hq, hr⟩, ht⟩
      · rintro ⟨r, ⟨q, hq, hr⟩, ht⟩
        exact ⟨q, hq, r, hr, ht⟩

/-- Where every action is enabled, a run is a left fold. -/
theorem run_eq_foldl (f : σ → α → σ) : ∀ (s : σ) (as : List α),
    run (fun s a => some (f s a)) s as = some (as.foldl f s)
  | _, [] => rfl
  | s, a :: as => run_eq_foldl f (f s a) as

/-- What one step keeps under the condition, a run that meets the condition keeps. -/
theorem run_invariant {I : σ → Prop}
    (hstep : ∀ s a t, I s → cond s a → step s a = some t → I t) :
    ∀ {s t : σ} {as : List α}, I s → Meets step cond s as → run step s as = some t → I t
  | s, t, [], hs, _, h => by
      rw [run_nil, Option.some.injEq] at h
      exact h ▸ hs
  | s, t, a :: as, hs, hmeets, h => by
      obtain ⟨ha, hm⟩ := meets_cons.mp hmeets
      obtain ⟨r, hr, ht⟩ := run_cons_eq_some.mp h
      exact run_invariant hstep (hstep s a r hs ha hr) (hm r hr) ht

/-- The unconditional rule: an invariant of every step is an invariant of every run. -/
theorem run_invariant' {I : σ → Prop} (hstep : ∀ s a t, I s → step s a = some t → I t) :
    ∀ {s t : σ} {as : List α}, I s → run step s as = some t → I t
  | s, t, [], hs, h => by
      rw [run_nil, Option.some.injEq] at h
      exact h ▸ hs
  | s, t, a :: as, hs, h => by
      obtain ⟨r, hr, ht⟩ := run_cons_eq_some.mp h
      exact run_invariant' hstep (hstep s a r hs hr) ht

/-- If each step keeps `P` exactly when the condition holds at it, then `P` holds in every state of
    the run exactly when the whole run meets the condition. -/
theorem forall_prefix_iff_meets {P : σ → Prop}
    (hstep : ∀ s a t, P s → step s a = some t → (P t ↔ cond s a)) :
    ∀ {s : σ} {as : List α}, P s → (∃ t, run step s as = some t) →
      ((∀ pre, pre <+: as → ∀ t, run step s pre = some t → P t) ↔ Meets step cond s as)
  | s, [], hs, _ => by
      refine ⟨fun _ => trivial, fun _ pre hpre t ht => ?_⟩
      rw [List.prefix_nil.mp hpre, run_nil, Option.some.injEq] at ht
      exact ht ▸ hs
  | s, a :: as, hs, ⟨t, hrun⟩ => by
      obtain ⟨r, hr, ht⟩ := run_cons_eq_some.mp hrun
      constructor
      · intro h
        have hPr : P r := h [a] (by simp) r (by simp [run, hr])
        refine meets_cons.mpr ⟨(hstep s a r hs hr).mp hPr, fun r' hr' => ?_⟩
        obtain rfl : r = r' := Option.some.inj (hr.symm.trans hr')
        refine (forall_prefix_iff_meets hstep hPr ⟨t, ht⟩).mp fun pre hpre q hq => ?_
        exact h (a :: pre) (List.cons_prefix_cons.mpr ⟨rfl, hpre⟩) q
          (run_cons_eq_some.mpr ⟨r, hr, hq⟩)
      · intro hmeets pre hpre q hq
        obtain ⟨ha, hm⟩ := meets_cons.mp hmeets
        cases pre with
        | nil =>
          rw [run_nil, Option.some.injEq] at hq
          exact hq ▸ hs
        | cons b pre =>
          obtain ⟨rfl, htail⟩ := List.cons_prefix_cons.mp hpre
          obtain ⟨r', hr', hq'⟩ := run_cons_eq_some.mp hq
          obtain rfl : r = r' := Option.some.inj (hr.symm.trans hr')
          have hPr : P r := (hstep s _ r hs hr).mpr ha
          exact (forall_prefix_iff_meets hstep hPr ⟨t, ht⟩).mpr (hm r hr) pre htail q hq'

/-! ### Traces -/

/-- `Trace R s as t`: the actions `as` lead from `s` to `t`, each by one step of `R`. -/
inductive Trace (R : σ → α → σ → Prop) : σ → List α → σ → Prop
  | nil (s : σ) : Trace R s [] s
  | cons {s r t : σ} {a : α} {as : List α} : R s a r → Trace R r as t → Trace R s (a :: as) t

namespace Trace

variable {R : σ → α → σ → Prop} {s t : σ} {as bs : List α}

theorem append {r : σ} (h : Trace R s as r) (h' : Trace R r bs t) : Trace R s (as ++ bs) t := by
  induction h with
  | nil => exact h'
  | cons hstep _ ih => exact .cons hstep (ih h')

theorem single {a : α} (h : R s a t) : Trace R s [a] t := .cons h (.nil t)

/-- What every step by an action in `as` keeps, the trace keeps. -/
theorem invariant {I : σ → Prop} (h : Trace R s as t)
    (hstep : ∀ s a t, a ∈ as → I s → R s a t → I t) (hs : I s) : I t := by
  induction h with
  | nil => exact hs
  | cons hR _ ih =>
    exact ih (fun s a t ha => hstep s a t (List.mem_cons_of_mem _ ha))
      (hstep _ _ _ List.mem_cons_self hs hR)

/-- What a step brings about and every step keeps, holds at the end for every action taken. -/
theorem effect {D : α → σ → Prop} (h : Trace R s as t) (hdo : ∀ s a t, R s a t → D a t)
    (hkeep : ∀ s a b t, D a s → R s b t → D a t) {a : α} (ha : a ∈ as) : D a t := by
  induction h with
  | nil => cases ha
  | cons hR htail ih =>
    rcases List.mem_cons.mp ha with rfl | ha
    · exact htail.invariant (fun s b t _ hs hR => hkeep s _ b t hs hR) (hdo _ _ _ hR)
    · exact ih ha

end Trace

end Schemes
