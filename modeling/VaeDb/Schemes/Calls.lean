import Mathlib.Data.List.Basic
import Mathlib.Tactic.Common

/-! The calls that a loop makes before it throws.

    A loop comes to an item of its list if the rounds for the items before it have returned. `calls`
    are the items that a loop with a state comes to, each with the state it is called in, and `written`
    is what the calls note down; `visited` are the items of a loop that only collects. A call that fails
    is the last one, and the loop fails as it does.

        items    a      b      c      d
        rounds   ok     ok     throw
        calls    a      b      c               -/

namespace Schemes

universe u v w z

variable {ε : Type u} {α : Type v} {β : Type w} {γ : Type z}

/-! ### Loops with a state -/

/-- The states and items that `foldlM` calls its body with. -/
def calls (f : β → α → Except ε β) : β → List α → List (β × α)
  | _, [] => []
  | b, a :: l => (b, a) :: match f b a with
    | .ok b => calls f b l
    | .error _ => []

theorem calls_cons_ok {f : β → α → Except ε β} {b b' : β} {a : α} {l : List α}
    (h : f b a = .ok b') : calls f b (a :: l) = (b, a) :: calls f b' l := by
  rw [calls, h]

theorem calls_cons_error {f : β → α → Except ε β} {b : β} {a : α} {l : List α} {e : ε}
    (h : f b a = .error e) : calls f b (a :: l) = [(b, a)] := by
  rw [calls, h]

theorem length_calls_le (f : β → α → Except ε β) :
    ∀ (b : β) (l : List α), (calls f b l).length ≤ l.length
  | _, [] => Nat.le_refl _
  | b, a :: l => by
      cases hf : f b a with
      | error e =>
        rw [calls_cons_error hf]
        simp
      | ok b' =>
        rw [calls_cons_ok hf, List.length_cons, List.length_cons]
        exact Nat.succ_le_succ (length_calls_le f b' l)

theorem foldlM_cons_ok {f : β → α → Except ε β} {b b' : β} {a : α} {l : List α}
    (h : f b a = .ok b') : (a :: l).foldlM f b = l.foldlM f b' := by
  rw [List.foldlM_cons, h]
  rfl

theorem foldlM_cons_error {f : β → α → Except ε β} {b : β} {a : α} {l : List α} {e : ε}
    (h : f b a = .error e) : (a :: l).foldlM f b = .error e := by
  rw [List.foldlM_cons, h]
  rfl

/-- An item is called if the loop returns on the items before it. -/
theorem mem_calls {f : β → α → Except ε β} {b b' : β} {a : α} {l : List α} :
    (b', a) ∈ calls f b l ↔
      ∃ before behind, l = before ++ a :: behind ∧ before.foldlM f b = .ok b' := by
  induction l generalizing b with
  | nil => simp [calls]
  | cons a₁ l ih =>
    constructor
    · intro h
      cases hf : f b a₁ with
      | error e =>
        rw [calls_cons_error hf] at h
        cases List.mem_singleton.mp h
        exact ⟨[], l, rfl, rfl⟩
      | ok b₁ =>
        rw [calls_cons_ok hf] at h
        rcases List.mem_cons.mp h with heq | h
        · cases heq
          exact ⟨[], l, rfl, rfl⟩
        · obtain ⟨before, behind, rfl, hbefore⟩ := ih.mp h
          exact ⟨a₁ :: before, behind, rfl, (foldlM_cons_ok hf).trans hbefore⟩
    · rintro ⟨before, behind, heq, hbefore⟩
      cases before with
      | nil =>
        cases heq
        cases hbefore
        rw [calls]
        exact List.mem_cons_self
      | cons a₂ before =>
        obtain ⟨rfl, rfl⟩ := List.cons.inj heq
        cases hf : f b a₁ with
        | error e =>
          rw [foldlM_cons_error hf] at hbefore
          cases hbefore
        | ok b₁ =>
          rw [foldlM_cons_ok hf] at hbefore
          rw [calls_cons_ok hf]
          exact List.mem_cons_of_mem _ (ih.mpr ⟨before, behind, rfl, hbefore⟩)

/-- A loop fails as one of its calls does. -/
theorem foldlM_of_call {f : β → α → Except ε β} {b b' : β} {a : α} {l : List α} {e : ε}
    (hcall : (b', a) ∈ calls f b l) (h : f b' a = .error e) : l.foldlM f b = .error e := by
  obtain ⟨before, behind, rfl, hbefore⟩ := mem_calls.mp hcall
  rw [List.foldlM_append, hbefore]
  exact foldlM_cons_error h

/-- Where a call returns on the items that meet `P`, the calls do exactly if all items do. -/
theorem forall_calls_iff {f : β → α → Except ε β} {P : α → Prop}
    (hP : ∀ b a, P a → ∃ b', f b a = .ok b') :
    ∀ {l : List α} {b : β}, (∀ call ∈ calls f b l, P call.2) ↔ ∀ a ∈ l, P a
  | [], b => by simp [calls]
  | a :: l, b => by
      by_cases ha : P a
      · obtain ⟨b', hb'⟩ := hP b a ha
        rw [calls_cons_ok hb', List.forall_mem_cons, List.forall_mem_cons, and_iff_right ha,
          and_iff_right ha]
        exact forall_calls_iff hP
      · refine iff_of_false (fun h => ha (h (b, a) ?_)) fun h => ha (h a List.mem_cons_self)
        rw [calls]
        exact List.mem_cons_self

/-! ### What a loop writes down -/

/-- What the calls of a loop write down, each at most one thing. -/
def written (f : β → α → Except ε β) (note : β → α → Option γ) (b : β) (l : List α) : List γ :=
  (calls f b l).filterMap fun call => note call.1 call.2

section Written

variable {f : β → α → Except ε β} {note : β → α → Option γ} {I : List α → List γ → β → Prop}

theorem written_nil (b : β) : written f note b [] = [] := rfl

theorem written_cons_ok {b b' : β} {a : α} {l : List α} (h : f b a = .ok b') :
    written f note b (a :: l) = (note b a).toList ++ written f note b' l := by
  rw [written, calls_cons_ok h, List.filterMap_cons]
  cases note b a <;> rfl

/-- What every call keeps, of the items to come, the notes and the state, holds after any of them. -/
theorem written_invariant (hstep : ∀ b a l log b', I (a :: l) log b → f b a = .ok b' →
      I l (log ++ (note b a).toList) b') {behind : List α} :
    ∀ {before : List α} {log : List γ} {b b' : β}, I (before ++ behind) log b →
      before.foldlM f b = .ok b' → I behind (log ++ written f note b before) b'
  | [], log, b, b', h, hok => by
      cases hok
      rwa [written_nil, List.append_nil]
  | a :: before, log, b, b', h, hok => by
      cases hf : f b a with
      | error e =>
        rw [foldlM_cons_error hf] at hok
        cases hok
      | ok b₁ =>
        rw [foldlM_cons_ok hf] at hok
        rw [written_cons_ok hf, ← List.append_assoc]
        exact written_invariant hstep (hstep b a _ log b₁ h hf) hok

/-- If each call keeps `P` exactly when `Q` holds at it, and none of those at which it does not
    hold fails, then `P` holds whenever some items are done exactly if `Q` holds at every call. -/
theorem forall_prefix_iff_calls {P : List γ → β → Prop} {Q : β → α → Prop}
    (hstep : ∀ b a l log b', I (a :: l) log b → f b a = .ok b' →
      I l (log ++ (note b a).toList) b' ∧
        (P log b → (P (log ++ (note b a).toList) b' ↔ Q b a)))
    (hreturns : ∀ b a l log, I (a :: l) log b → ¬ Q b a → ∃ b', f b a = .ok b') :
    ∀ {l : List α} {log : List γ} {b : β}, I l log b → P log b →
      ((∀ before, before <+: l → ∀ b', before.foldlM f b = .ok b' →
          P (log ++ written f note b before) b') ↔ ∀ call ∈ calls f b l, Q call.1 call.2)
  | [], log, b, _, hP => by
      refine iff_of_true (fun before hbefore b' hok => ?_) (by simp [calls])
      obtain rfl := List.prefix_nil.mp hbefore
      cases hok
      rwa [written_nil, List.append_nil]
  | a :: l, log, b, hI, hP => by
      have hnil : ∀ b', ([] : List α).foldlM f b = .ok b' → P (log ++ written f note b []) b' := by
        intro b' hok
        cases hok
        rwa [written_nil, List.append_nil]
      cases hf : f b a with
      | error e =>
        rw [calls_cons_error hf]
        refine iff_of_true (fun before hbefore b' hok => ?_) fun call hcall => ?_
        · rcases List.prefix_cons_iff.mp hbefore with rfl | ⟨before, rfl, -⟩
          · exact hnil b' hok
          · rw [foldlM_cons_error hf] at hok
            cases hok
        · obtain rfl := List.mem_singleton.mp hcall
          by_contra hQ
          obtain ⟨b', hok⟩ := hreturns b a l log hI hQ
          rw [hf] at hok
          cases hok
      | ok b₁ =>
        obtain ⟨hI₁, hiff⟩ := hstep b a l log b₁ hI hf
        rw [calls_cons_ok hf, List.forall_mem_cons, ← hiff hP]
        constructor
        · intro hall
          have hP₁ : P (log ++ (note b a).toList) b₁ := by
            have hone := hall [a] (by simp) b₁ (foldlM_cons_ok hf)
            rwa [written_cons_ok hf, written_nil, List.append_nil] at hone
          refine ⟨hP₁, (forall_prefix_iff_calls hstep hreturns hI₁ hP₁).mp
            fun before hbefore b' hok => ?_⟩
          have hmore := hall (a :: before) ((List.prefix_cons_inj a).mpr hbefore) b'
            ((foldlM_cons_ok hf).trans hok)
          rwa [written_cons_ok hf, ← List.append_assoc] at hmore
        · rintro ⟨hP₁, hcalls⟩ before hbefore b' hok
          rcases List.prefix_cons_iff.mp hbefore with rfl | ⟨before, rfl, hrest⟩
          · exact hnil b' hok
          · rw [foldlM_cons_ok hf] at hok
            rw [written_cons_ok hf, ← List.append_assoc]
            exact (forall_prefix_iff_calls hstep hreturns hI₁ hP₁).mpr hcalls before hrest b' hok

end Written

/-! ### Loops that collect -/

/-- The items that `mapM` calls its body with. -/
def visited (f : α → Except ε β) : List α → List α
  | [] => []
  | a :: l => a :: match f a with
    | .ok _ => visited f l
    | .error _ => []

theorem mem_visited {f : α → Except ε β} {a : α} {l : List α} :
    a ∈ visited f l ↔
      ∃ before behind, l = before ++ a :: behind ∧ ∀ x ∈ before, ∃ y, f x = .ok y := by
  induction l with
  | nil => simp [visited]
  | cons a₁ l ih =>
    rw [visited, List.mem_cons]
    constructor
    · rintro (rfl | h)
      · exact ⟨[], l, rfl, by simp⟩
      · cases hf : f a₁ with
        | error e => simp [hf] at h
        | ok y =>
          rw [hf] at h
          obtain ⟨before, behind, rfl, hbefore⟩ := ih.mp h
          exact ⟨a₁ :: before, behind, rfl, List.forall_mem_cons.mpr ⟨⟨y, hf⟩, hbefore⟩⟩
    · rintro ⟨before, behind, heq, hbefore⟩
      cases before with
      | nil =>
        cases heq
        exact .inl rfl
      | cons a₂ before =>
        obtain ⟨rfl, rfl⟩ := List.cons.inj heq
        obtain ⟨⟨y, hy⟩, hrest⟩ := List.forall_mem_cons.mp hbefore
        rw [hy]
        exact .inr (ih.mpr ⟨before, behind, rfl, hrest⟩)

theorem mapM_of_visited {f : α → Except ε β} {a : α} {l : List α} {e : ε}
    (hvisited : a ∈ visited f l) (h : f a = .error e) : l.mapM f = .error e := by
  induction l with
  | nil => cases hvisited
  | cons a₁ l ih =>
    rw [List.mapM_cons]
    rw [visited] at hvisited
    rcases List.mem_cons.mp hvisited with rfl | hrest
    · rw [h]
      rfl
    · cases hf : f a₁ with
      | error e => simp [hf] at hrest
      | ok y =>
        rw [hf] at hrest
        rw [ih hrest]
        rfl

end Schemes
