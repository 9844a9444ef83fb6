import Mathlib.Data.List.TakeWhile
import Mathlib.Data.Nat.Notation
import Mathlib.Tactic.Common

/-! Cutting a list into the runs of two kinds of elements by turns.

    `p m` says which elements go on with a run of mode `m`; each element is of one mode. The first
    run may be empty, when the list begins with an element of the other mode; an empty run ends the
    list. The rest take an element at least, so a loop that takes one run in each round needs at most
    `rounds` of them.

        mode        m       !m       m       !m
        list    │ a a a │ b b b b │ a a │ (at the end)

    `lastMode` is the mode of the last element. Where the next element is of the other mode the cuts
    of an appended list are those of its parts (`cuts_append`). -/

namespace Schemes

universe u

variable {α : Type u}

/-- Put an element in front of the first run. -/
def onto (a : α) : List (List α) → List (List α)
  | [] => [[a]]
  | t :: ts => (a :: t) :: ts

/-- The runs of a list by turns, beginning with those of mode `m`. -/
def cuts (p : Bool → α → Bool) : Bool → List α → List (List α)
  | _, [] => [[], []]
  | m, a :: s => if p m a then onto a (cuts p m s) else [] :: onto a (cuts p (!m) s)

/-- The mode that a list leaves. -/
def lastMode (p : Bool → α → Bool) : Bool → List α → Bool
  | m, [] => m
  | m, a :: s => lastMode p (if p m a then m else !m) s

/-- How many runs there are at most, the one at the end included. -/
def rounds (p : Bool → α → Bool) (m : Bool) : List α → ℕ
  | [] => 1
  | a :: s => s.length + if p m a then 2 else 3

variable {p : Bool → α → Bool} {m : Bool} {s u : List α} {a : α}

@[simp] theorem length_onto {ts : List (List α)} (h : ts ≠ []) : (onto a ts).length = ts.length := by
  cases ts with
  | nil => exact absurd rfl h
  | cons t ts => rfl

theorem two_le_length_cuts (p : Bool → α → Bool) (m : Bool) (s : List α) :
    2 ≤ (cuts p m s).length := by
  induction s generalizing m with
  | nil => exact le_rfl
  | cons a s ih =>
    rw [cuts]
    split
    · have h := ih m
      rwa [length_onto (List.length_pos_iff.mp (by omega))]
    · have h := ih (!m)
      rw [List.length_cons, length_onto (List.length_pos_iff.mp (by omega))]
      omega

theorem cuts_ne_nil (p : Bool → α → Bool) (m : Bool) (s : List α) : cuts p m s ≠ [] :=
  List.length_pos_iff.mp (by have := two_le_length_cuts p m s; omega)

/-- What is left over after the first run. -/
theorem exists_cuts (p : Bool → α → Bool) (m : Bool) (s : List α) :
    ∃ t t' ts, cuts p m s = t :: t' :: ts := by
  have h := two_le_length_cuts p m s
  rcases hc : cuts p m s with _ | ⟨t, _ | ⟨t', ts⟩⟩
  · simp [hc] at h
  · simp [hc] at h
  · exact ⟨t, t', ts, rfl⟩

@[simp] theorem flatten_onto (ts : List (List α)) : (onto a ts).flatten = a :: ts.flatten := by
  cases ts <;> rfl

theorem flatten_cuts (p : Bool → α → Bool) (m : Bool) (s : List α) : (cuts p m s).flatten = s := by
  induction s generalizing m with
  | nil => rfl
  | cons a s ih =>
    rw [cuts]
    split
    · rw [flatten_onto, ih]
    · rw [List.flatten_cons, flatten_onto, ih, List.nil_append]

/-- An empty run ends the list. -/
theorem dropLast_cuts (p : Bool → α → Bool) (m : Bool) (s : List α) :
    (cuts p m s).dropLast ++ [[]] = cuts p m s := by
  induction s generalizing m with
  | nil => rfl
  | cons a s ih =>
    have honto : ∀ m, (onto a (cuts p m s)).dropLast ++ [[]] = onto a (cuts p m s) := by
      intro m
      have h := ih m
      obtain ⟨t, t', ts, hc⟩ := exists_cuts p m s
      rw [hc, List.dropLast_cons_cons, List.cons_append, List.cons.injEq] at h
      rw [hc, onto, List.dropLast_cons_cons, List.cons_append, h.2]
    rw [cuts]
    split
    · exact honto m
    · obtain ⟨t, t', ts, hc⟩ := exists_cuts p (!m) s
      have h := honto (!m)
      rw [hc, onto] at h ⊢
      rw [List.dropLast_cons_cons, List.cons_append, h]

/-! ### One run after the other -/

/-- What goes before the next run ends where an element of the other mode stands. -/
theorem head_dropWhile (hp : ∀ m a, p (!m) a = !p m a) {b : α}
    (h : (s.dropWhile (p m)).head? = some b) : p (!m) b = true := by
  have hb := List.head?_dropWhile_not (p m) s
  rw [h] at hb
  rw [hp]
  simpa using hb

theorem cuts_of_mem (h : p m a) : cuts p m (a :: s) = onto a (cuts p m s) := by
  rw [cuts, if_pos h]

/-- The loop's view of the cuts: the longest run, then the runs of what is left. -/
theorem cuts_eq (hp : ∀ m a, p (!m) a = !p m a) (hs : s ≠ []) : cuts p m s = s.takeWhile (p m) ::
    if s.dropWhile (p m) = [] then [[]] else cuts p (!m) (s.dropWhile (p m)) := by
  have hother : ∀ {m : Bool} {a : α} (s : List α), p m a = false →
      cuts p m (a :: s) = [] :: cuts p (!m) (a :: s) := by
    intro m a s ha
    have hturn : p (!m) a = true := by rw [hp, ha]; rfl
    rw [cuts_of_mem hturn, cuts, if_neg (by simp [ha])]
  cases s with
  | nil => exact absurd rfl hs
  | cons a s =>
    induction s generalizing a with
    | nil =>
      cases ha : p m a with
      | true => simp [cuts, ha, onto]
      | false => simp [hother [] ha, ha]
    | cons b s ih =>
      cases ha : p m a with
      | true => simp [cuts_of_mem ha, ih b (by simp), ha, onto]
      | false => simp [hother (b :: s) ha, ha]

theorem rounds_pos (p : Bool → α → Bool) (m : Bool) (s : List α) : 0 < rounds p m s := by
  cases s with
  | nil => exact Nat.one_pos
  | cons a s =>
    rw [rounds]
    split <;> omega

theorem rounds_le (p : Bool → α → Bool) (m : Bool) (s : List α) : rounds p m s ≤ s.length + 2 := by
  cases s with
  | nil => simp [rounds]
  | cons a s =>
    rw [rounds, List.length_cons]
    split <;> omega

/-- A run that takes no element turns the mode, and then the next one takes an element. -/
theorem rounds_dropWhile_lt (hp : ∀ m a, p (!m) a = !p m a) (hs : s ≠ []) :
    rounds p (!m) (s.dropWhile (p m)) < rounds p m s := by
  cases s with
  | nil => exact absurd rfl hs
  | cons a s =>
    cases ha : p m a with
    | false => simp [rounds, ha, hp]
    | true =>
      rw [List.dropWhile_cons_of_pos ha, rounds, if_pos ha]
      have hle := (List.dropWhile_suffix (p m) (l := s)).length_le
      rcases hd : s.dropWhile (p m) with _ | ⟨b, u⟩
      · simp [rounds]
      · have hb : p (!m) b = true := head_dropWhile hp (by rw [hd]; rfl)
        rw [hd, List.length_cons] at hle
        rw [rounds, if_pos hb]
        omega

/-! ### Appended lists -/

theorem lastMode_append (s u : List α) :
    lastMode p m (s ++ u) = lastMode p (lastMode p m s) u := by
  induction s generalizing m with
  | nil => rfl
  | cons a s ih =>
    rw [List.cons_append, lastMode, lastMode]
    exact ih

/-- The last element has the mode that the list leaves. -/
theorem lastMode_of_getLast (hp : ∀ m a, p (!m) a = !p m a) {k : Bool}
    (hs : s.getLast? = some a) (ha : p k a) : lastMode p m s = k := by
  obtain ⟨u, rfl⟩ := List.getLast?_eq_some_iff.mp hs
  rw [lastMode_append, lastMode, lastMode]
  rcases eq_or_ne (lastMode p m u) k with hk | hk
  · rw [hk, if_pos ha]
  · have hturn : lastMode p m u = !k := Bool.eq_not.mpr hk
    have hk : p (!k) a = false := by rw [hp, ha]; rfl
    rw [hturn, if_neg (by simp [hk]), Bool.not_not]

theorem cuts_append (hp : ∀ m a, p (!m) a = !p m a) (ha : p (lastMode p m s) a = false) :
    cuts p m (s ++ a :: u) =
      (cuts p m s).dropLast ++ cuts p (!lastMode p m s) (a :: u) := by
  induction s generalizing m with
  | nil =>
    have ha' : p m a = false := ha
    have hturn : p (!m) a = true := by rw [hp, ha']; rfl
    rw [List.nil_append, lastMode, cuts_of_mem hturn]
    simp [cuts, ha']
  | cons b s ih =>
    rw [lastMode] at ha ⊢
    rw [List.cons_append, cuts, cuts]
    split at ha
    · next hb =>
      rw [if_pos hb, if_pos hb, if_pos hb, ih ha]
      obtain ⟨t, t', ts, hc⟩ := exists_cuts p m s
      simp [hc, onto]
    · next hb =>
      rw [if_neg hb, if_neg hb, if_neg hb, ih ha]
      obtain ⟨t, t', ts, hc⟩ := exists_cuts p (!m) s
      simp [hc, onto]

/-- The runs go by turns, so their number tells the mode at the end. -/
theorem length_cuts_even (p : Bool → α → Bool) (m : Bool) (s : List α) :
    (cuts p m s).length % 2 = 0 ↔ lastMode p m s = m := by
  induction s generalizing m with
  | nil => simp [cuts, lastMode]
  | cons a s ih =>
    rw [cuts, lastMode]
    split
    · rw [length_onto (cuts_ne_nil _ _ _), ih]
    · rw [List.length_cons, length_onto (cuts_ne_nil _ _ _)]
      have hturn : lastMode p (!m) s = m ↔ ¬ (cuts p (!m) s).length % 2 = 0 := by
        rw [ih]
        cases m <;> cases lastMode p _ s <;> simp
      rw [hturn]
      omega

/-- Only the first run and the last may be empty. -/
theorem cuts_inner {k : ℕ} (h : (cuts p m s)[k]? = some []) :
    k = 0 ∨ k + 1 = (cuts p m s).length := by
  induction s generalizing m k with
  | nil =>
    have hk : k < 2 := (List.getElem?_eq_some_iff.mp h).1
    simp only [cuts, List.length_cons, List.length_nil]
    omega
  | cons a s ih =>
    -- past the element that was put in front, the runs are those of the rest
    have hrest : ∀ {m : Bool} {k : ℕ}, (onto a (cuts p m s))[k]? = some [] →
        k + 1 = (cuts p m s).length := by
      intro m k hk
      obtain ⟨t, t', ts, hc⟩ := exists_cuts p m s
      cases k with
      | zero => simp [hc, onto] at hk
      | succ k =>
        have h' : (cuts p m s)[k + 1]? = some [] := by
          rw [hc] at hk ⊢
          exact hk
        rcases ih h' with h' | h'
        · omega
        · exact h'
    rw [cuts] at h ⊢
    split at h
    · next ha =>
      rw [if_pos ha, length_onto (cuts_ne_nil _ _ _)]
      exact .inr (hrest h)
    · next ha =>
      rw [if_neg ha, List.length_cons, length_onto (cuts_ne_nil _ _ _)]
      cases k with
      | zero => exact .inl rfl
      | succ k => exact .inr (by rw [hrest h])

/-! ### Properties that go by turns -/

/-- The mode at a position. -/
def modeAt (m : Bool) (k : ℕ) : Bool := if k % 2 = 0 then m else !m

/-- Each member has the property of the mode at its position. -/
def ByTurns (P : Bool → α → Prop) : Bool → List α → Prop
  | _, [] => True
  | m, a :: s => P m a ∧ ByTurns P (!m) s

theorem modeAt_succ (m : Bool) (k : ℕ) : modeAt m (k + 1) = modeAt (!m) k := by
  unfold modeAt
  rcases Nat.mod_two_eq_zero_or_one k with hk | hk
  · simp [hk, show (k + 1) % 2 = 1 by omega]
  · simp [hk, show (k + 1) % 2 = 0 by omega]

theorem ByTurns.get {P : Bool → α → Prop} (h : ByTurns P m s) {k : ℕ} (hk : s[k]? = some a) :
    P (modeAt m k) a := by
  induction s generalizing m k with
  | nil => simp at hk
  | cons b s ih =>
    cases k with
    | zero =>
      obtain rfl : b = a := by simpa using hk
      exact h.1
    | succ k =>
      rw [modeAt_succ]
      exact ih h.2 (by simpa using hk)

end Schemes
