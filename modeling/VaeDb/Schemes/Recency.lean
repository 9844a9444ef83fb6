import Mathlib.Algebra.BigOperators.Group.List.Lemmas
import Mathlib.Algebra.Ring.Nat
import Mathlib.Data.List.Infix
import Mathlib.Data.List.Nodup
import Mathlib.Tactic.Common

/-! Recency lists: keyed entries, the one used last in front.

    No two entries agree on the key. An entry that is used moves to the front; an insert takes an
    older entry of its key out and goes to the front, and then the list is cut to the longest front
    part whose total size fits. `evicted` is that cut as a loop does it, one entry at a time from the
    back.

        use k:      [ a, k, b ]  ──▶  [ k, a, b ]
        insert k:   [ a, k, b ]  ──▶  [ k', a, b ]  ──▶  the front part that fits -/

namespace Schemes
namespace Recency

variable {κ α : Type}

section Keys

variable [DecidableEq κ]

def lookup (l : List (κ × α)) (k : κ) : Option α := (l.find? fun e => e.1 = k).map Prod.snd

def without (k : κ) (l : List (κ × α)) : List (κ × α) := l.filter fun e => e.1 ≠ k

def toFront (k : κ) (l : List (κ × α)) : List (κ × α) :=
  match l.find? fun e => e.1 = k with
  | some e => e :: without k l
  | none => l

theorem lookup_eq_none {l : List (κ × α)} {k : κ} : lookup l k = none ↔ k ∉ l.map Prod.fst := by
  simp only [lookup, Option.map_eq_none_iff, List.find?_eq_none, decide_eq_true_eq, List.mem_map,
    not_exists, not_and]

theorem lookup_eq_some {l : List (κ × α)} (hl : (l.map Prod.fst).Nodup) {k : κ} {a : α} :
    lookup l k = some a ↔ (k, a) ∈ l := by
  induction l with
  | nil => simp [lookup]
  | cons e l ih =>
    obtain ⟨hnot, hnodup⟩ := List.nodup_cons.mp hl
    obtain ⟨k', a'⟩ := e
    rw [lookup, List.find?_cons]
    by_cases hk : k' = k
    · subst hk
      have hl' : (k', a) ∉ l := fun h => hnot (List.mem_map.mpr ⟨_, h, rfl⟩)
      simp only [decide_true, Option.map_some, Option.some.injEq, List.mem_cons, Prod.mk.injEq,
        true_and, hl', or_false]
      exact eq_comm
    · simp only [hk, decide_false, List.mem_cons, Prod.mk.injEq, Ne.symm hk, false_and, false_or]
      exact ih hnodup

theorem mem_without {k : κ} {l : List (κ × α)} {e : κ × α} : e ∈ without k l ↔ e ∈ l ∧ e.1 ≠ k := by
  simp [without]

theorem toFront_of_not_mem {k : κ} {l : List (κ × α)} (h : k ∉ l.map Prod.fst) :
    toFront k l = l := by
  have hnone : l.find? (fun e => e.1 = k) = none := by
    simpa [lookup] using lookup_eq_none.mpr h
  rw [toFront, hnone]

theorem toFront_of_mem {l : List (κ × α)} (hl : (l.map Prod.fst).Nodup) {e : κ × α} (h : e ∈ l) :
    toFront e.1 l = e :: without e.1 l := by
  obtain ⟨e', he', hsnd⟩ := Option.map_eq_some_iff.mp ((lookup_eq_some hl).mpr h)
  have hfst : e'.1 = e.1 := by simpa using List.find?_some he'
  rw [toFront, he', Prod.ext hfst hsnd]

/-- A key that is not there is already taken out. -/
theorem without_of_not_mem {k : κ} {l : List (κ × α)} (h : k ∉ l.map Prod.fst) :
    without k l = l := by
  rw [without, List.filter_eq_self]
  intro e he
  have hne : e.1 ≠ k := fun hek => h (List.mem_map.mpr ⟨e, he, hek⟩)
  simpa using hne

/-- Taking the last entry out by its key. -/
theorem without_concat {l : List (κ × α)} {e : κ × α} (h : ((l ++ [e]).map Prod.fst).Nodup) :
    without e.1 (l ++ [e]) = l := by
  rw [List.map_append, List.nodup_append] at h
  have hnot : e.1 ∉ l.map Prod.fst := fun hk => h.2.2 _ hk _ (by simp) rfl
  have hlast : without e.1 [e] = [] := by simp [without]
  rw [without, List.filter_append]
  change without e.1 l ++ without e.1 [e] = l
  rw [without_of_not_mem hnot, hlast, List.append_nil]

@[simp] theorem without_without (k : κ) (l : List (κ × α)) :
    without k (without k l) = without k l := by
  simp [without, List.filter_filter]

theorem without_toFront (k : κ) (l : List (κ × α)) : without k (toFront k l) = without k l := by
  rw [toFront]
  split
  · next e he =>
    have hek : e.1 = k := by simpa using List.find?_some he
    rw [without, List.filter_cons]
    simp only [hek, ne_eq, not_true_eq_false, decide_false]
    exact without_without k l
  · rfl

end Keys

/-! ### Sizes -/

section Sizes

variable (size : α → ℕ)

def total (l : List (κ × α)) : ℕ := (l.map fun e => size e.2).sum

/-- The longest front part whose total is at most `room`. -/
def fitting : ℕ → List (κ × α) → List (κ × α)
  | _, [] => []
  | room, e :: l => if size e.2 ≤ room then e :: fitting (room - size e.2) l else []

/-- Entries fall off the back until the rest fits. -/
def evicted (room : ℕ) : ℕ → List (κ × α) → List (κ × α)
  | 0, l => l
  | n + 1, l => if room < total size l then evicted room n l.dropLast else l

variable {size}

@[simp] theorem total_nil : total size ([] : List (κ × α)) = 0 := rfl

@[simp] theorem total_cons (e : κ × α) (l : List (κ × α)) :
    total size (e :: l) = size e.2 + total size l := rfl

theorem total_one : ∀ l : List (κ × α), total (fun _ => 1) l = l.length
  | [] => rfl
  | e :: l => by rw [total_cons, total_one l, List.length_cons, Nat.add_comm]

/-- An entry and the others make up the whole. -/
theorem total_without [DecidableEq κ] (size : α → ℕ) : ∀ {l : List (κ × α)},
    (l.map Prod.fst).Nodup → ∀ {e : κ × α}, e ∈ l →
    size e.2 + total size (without e.1 l) = total size l
  | e' :: l, hl, e, he => by
      obtain ⟨hnot, hnodup⟩ := List.nodup_cons.mp hl
      rcases List.mem_cons.mp he with rfl | hmem
      · have hout : without e.1 (e :: l) = l := by
          rw [without, List.filter_cons_of_neg (by simp)]
          exact without_of_not_mem hnot
        rw [hout, total_cons]
      · have hne : e'.1 ≠ e.1 := fun heq => hnot (heq ▸ List.mem_map_of_mem hmem)
        have hcons : without e.1 (e' :: l) = e' :: without e.1 l := by
          rw [without, List.filter_cons_of_pos (by simpa using hne), without]
        have hrest := total_without size hnodup hmem
        rw [hcons, total_cons, total_cons]
        omega

theorem total_without_le [DecidableEq κ] (size : α → ℕ) (k : κ) :
    ∀ l : List (κ × α), total size (without k l) ≤ total size l
  | [] => le_rfl
  | e :: l => by
      have hrest := total_without_le size k l
      by_cases hk : e.1 = k
      · rw [without, List.filter_cons_of_neg (by simpa using hk), total_cons]
        exact hrest.trans (Nat.le_add_left _ _)
      · rw [without, List.filter_cons_of_pos (by simpa using hk), total_cons, total_cons]
        exact Nat.add_le_add_left hrest _

/-- A use changes no size. -/
theorem total_toFront [DecidableEq κ] {l : List (κ × α)} (hl : (l.map Prod.fst).Nodup) (k : κ) :
    total size (toFront k l) = total size l := by
  by_cases hk : k ∈ l.map Prod.fst
  · obtain ⟨e, he, rfl⟩ := List.mem_map.mp hk
    rw [toFront_of_mem hl he, total_cons, total_without size hl he]
  · rw [toFront_of_not_mem hk]

theorem fitting_isPrefix : ∀ (room : ℕ) (l : List (κ × α)), fitting size room l <+: l
  | _, [] => List.prefix_rfl
  | room, e :: l => by
      rw [fitting]
      split
      · exact List.cons_prefix_cons.mpr ⟨rfl, fitting_isPrefix _ l⟩
      · exact List.nil_prefix

theorem total_fitting : ∀ (room : ℕ) (l : List (κ × α)), total size (fitting size room l) ≤ room
  | _, [] => Nat.zero_le _
  | room, e :: l => by
      rw [fitting]
      split
      · have hl := total_fitting (room - size e.2) l
        rw [total_cons]
        omega
      · exact Nat.zero_le _

/-- What fits is kept whole. -/
theorem fitting_eq_self : ∀ {room : ℕ} {l : List (κ × α)}, total size l ≤ room →
    fitting size room l = l
  | _, [], _ => rfl
  | room, e :: l, h => by
      rw [total_cons] at h
      rw [fitting, if_pos (by omega), fitting_eq_self (by omega)]

/-- An entry at the back of a list that does not fit is not kept. -/
theorem fitting_concat : ∀ {room : ℕ} {l : List (κ × α)} {e : κ × α},
    room < total size (l ++ [e]) → fitting size room (l ++ [e]) = fitting size room l
  | room, [], e, h => by
      rw [List.nil_append, total_cons, total_nil] at h
      simp only [List.nil_append, fitting]
      rw [if_neg (by omega)]
  | room, e' :: l, e, h => by
      rw [List.cons_append, total_cons] at h
      rw [List.cons_append, fitting, fitting]
      split
      · rw [fitting_concat (by omega)]
      · rfl

/-- The loop leaves the longest front part that fits. -/
theorem evicted_eq_fitting (room : ℕ) : ∀ (n : ℕ) (l : List (κ × α)), l.length ≤ n →
    evicted size room n l = fitting size room l
  | 0, l, hn => by
      obtain rfl := List.length_eq_zero_iff.mp (Nat.le_zero.mp hn)
      rfl
  | n + 1, l, hn => by
      rw [evicted]
      split
      · next hroom =>
        have hne : l ≠ [] := by
          rintro rfl
          simp at hroom
        have hsplit := List.dropLast_append_getLast hne
        have hlen : l.dropLast.length ≤ n := by
          rw [List.length_dropLast]
          omega
        rw [evicted_eq_fitting room n _ hlen, ← fitting_concat (by rw [hsplit]; exact hroom),
          hsplit]
      · next hroom => exact (fitting_eq_self (by omega)).symm

/-- Entries of size one: a number of entries is kept. -/
theorem fitting_one : ∀ (room : ℕ) (l : List (κ × α)), fitting (fun _ => 1) room l = l.take room
  | room, [] => by simp [fitting]
  | 0, e :: l => by simp [fitting]
  | room + 1, e :: l => by
      rw [fitting, if_pos (by omega), List.take_succ_cons, Nat.add_sub_cancel, fitting_one room l]

end Sizes

end Recency
end Schemes
