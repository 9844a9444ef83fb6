import Mathlib.Data.List.Nodup
import Mathlib.Data.Nat.Notation
import Mathlib.Tactic.Common

/-! Slices of a list: a part of given length from a given position on.

    Slices that follow each other tile the list (`slices_tile`). A list that grows at its end grows
    its slices as a counter would say (`slice_concat`), which is how a loop that skips some items
    and then takes some collects one. In a list without repetitions a slice determines the positions
    it covers (`samePositions_of_slice_eq`).

        slice 2 3 [a, b, c, d, e, f, g] = [c, d, e] -/

namespace Schemes

universe u

variable {α : Type u}

/-- `count` items from position `start` on, fewer where the list ends. -/
def slice (start count : ℕ) (l : List α) : List α := (l.drop start).take count

@[simp] theorem length_slice (start count : ℕ) (l : List α) :
    (slice start count l).length = min count (l.length - start) := by
  simp [slice]

theorem slice_eq_nil_iff {start count : ℕ} {l : List α} (hcount : 0 < count) :
    slice start count l = [] ↔ l.length ≤ start := by
  rw [← List.length_eq_zero_iff, length_slice]
  omega

/-- A slice that reaches the end is all the rest. -/
theorem slice_of_length_le {start count : ℕ} {l : List α} (h : l.length ≤ start + count) :
    slice start count l = l.drop start := by
  rw [slice, List.take_of_length_le]
  rw [List.length_drop]
  omega

/-- Only what is there counts: the length may be cut at the end of the list. -/
theorem slice_min {start count bound : ℕ} {l : List α} (h : l.length ≤ bound) :
    slice start (min (start + count) bound - start) l = slice start count l := by
  rcases Nat.le_total (start + count) bound with hle | hle
  · rw [Nat.min_eq_left hle, Nat.add_sub_cancel_left]
  · have hrest : slice start count l = l.drop start := slice_of_length_le (by omega)
    rw [Nat.min_eq_right hle, hrest]
    rcases Nat.le_total start bound with hs | hs
    · rw [slice_of_length_le (by omega)]
    · rw [slice, List.drop_of_length_le (by omega), List.take_nil]

/-- One more item at the end: it belongs to the slice if its position does. -/
theorem slice_concat (start count : ℕ) (l : List α) (x : α) :
    slice start count (l ++ [x]) =
      if start ≤ l.length ∧ l.length < start + count then slice start count l ++ [x]
      else slice start count l := by
  rw [slice, slice]
  rcases Nat.lt_or_ge l.length start with hlt | hle
  · rw [if_neg (by omega), List.drop_of_length_le (by simp; omega),
      List.drop_of_length_le (by omega)]
  · rw [List.drop_append_of_le_length hle, List.take_append]
    split
    · next h =>
      have hone : 0 < count - (l.drop start).length := by
        rw [List.length_drop]
        omega
      rw [List.take_of_length_le (l := [x]) (by rw [List.length_singleton]; omega)]
    · next h =>
      have hnone : count - (l.drop start).length = 0 := by
        rw [List.length_drop]
        omega
      rw [hnone, List.take_zero, List.append_nil]

/-- Slices that each start where the one before ends are one slice together. -/
theorem slices_meet (bound : ℕ → ℕ) (l : List α) (k : ℕ) (hbound : ∀ j < k, bound j ≤ bound (j + 1)) :
    bound 0 ≤ bound k ∧
      ((List.range k).flatMap fun j => slice (bound j) (bound (j + 1) - bound j) l) =
        slice (bound 0) (bound k - bound 0) l := by
  induction k with
  | zero => simp [slice]
  | succ k ih =>
    obtain ⟨hfirst, htile⟩ := ih fun j hj => hbound j (by omega)
    have hlast := hbound k (by omega)
    have hsum : bound (k + 1) - bound 0 = (bound k - bound 0) + (bound (k + 1) - bound k) := by omega
    have hstart : bound 0 + (bound k - bound 0) = bound k := by omega
    refine ⟨by omega, ?_⟩
    rw [List.range_succ, List.flatMap_append, htile, List.flatMap_singleton, slice, slice, slice,
      hsum, List.take_add, List.drop_drop, hstart]

/-- Slices of one length, one after the other, are a slice of that many times the length. -/
theorem slices_tile (start count : ℕ) (l : List α) (k : ℕ) :
    ((List.range k).flatMap fun j => slice (start + j * count) count l) =
      slice start (k * count) l := by
  have hmeet := (slices_meet (fun j => start + j * count) l k
    fun j _ => by simp only [Nat.succ_mul]; omega).2
  have hcount : ∀ j, start + (j + 1) * count - (start + j * count) = count := by
    intro j
    rw [Nat.succ_mul]
    omega
  simpa only [hcount, Nat.zero_mul, Nat.add_zero, Nat.add_sub_cancel_left] using hmeet

/-- The items of a slice, by position. -/
theorem getElem?_slice (start count i : ℕ) (l : List α) :
    (slice start count l)[i]? = if i < count then l[start + i]? else none := by
  rw [slice, List.getElem?_take, List.getElem?_drop]

/-- Two slices that cover the same positions of a list of length `len`. -/
def SamePositions (len start count start' count' : ℕ) : Prop :=
  (len ≤ start ∧ len ≤ start') ∨
    (start = start' ∧ min len (start + count) = min len (start' + count'))

theorem SamePositions.slice_eq {start count start' count' : ℕ} {l : List α}
    (h : SamePositions l.length start count start' count') :
    slice start count l = slice start' count' l := by
  rcases h with ⟨hend, hend'⟩ | ⟨rfl, hstop⟩
  · rw [slice, slice, List.drop_of_length_le hend, List.drop_of_length_le hend', List.take_nil,
      List.take_nil]
  · have hcut : ∀ n, slice start n l = slice start (min (start + n) l.length - start) l :=
      fun n => (slice_min (Nat.le_refl _)).symm
    rw [hcut count, hcut count', Nat.min_comm, hstop, Nat.min_comm]

/-- Without repetitions, two slices are equal only if they cover the same positions. -/
theorem samePositions_of_slice_eq {start count start' count' : ℕ} {l : List α} (hl : l.Nodup)
    (hcount : 0 < count) (hcount' : 0 < count')
    (h : slice start count l = slice start' count' l) :
    SamePositions l.length start count start' count' := by
  have hlen := congrArg List.length h
  rw [length_slice, length_slice] at hlen
  by_cases hend : l.length ≤ start
  · exact Or.inl ⟨hend, by omega⟩
  · right
    have hfirst := congrArg (fun s => s[0]?) h
    simp only [getElem?_slice, if_pos hcount, if_pos hcount', Nat.add_zero] at hfirst
    have hin : start < l.length := by omega
    have hin' : start' < l.length := by omega
    rw [List.getElem?_eq_getElem hin, List.getElem?_eq_getElem hin', Option.some.injEq] at hfirst
    have hstart : start = start' := hl.getElem_inj_iff.mp hfirst
    exact ⟨hstart, by omega⟩

end Schemes
