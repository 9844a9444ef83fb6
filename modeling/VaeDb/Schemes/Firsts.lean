import Mathlib.Data.List.Nodup
import Mathlib.Tactic.Common

/-! First occurrences: the items of a list whose value no earlier item has.

    Two functions that tell the same items apart have the same first occurrences (`firsts_congr`).
    Where one of them tells less apart than the other, the converse holds too (`firsts_eq_iff`): if
    two items of the list get one value from it and two from the other, one of them is missing.

        items    a₁   b₂   a₁   c₂          firsts letter = a b c
        letter   a    b    a    c           firsts number = a b
        number   1    2    1    2 -/

namespace Schemes

universe u v w

variable {α : Type u} {β : Type v} {γ : Type w} [DecidableEq β] [DecidableEq γ]

/-- The items whose value none of the items before them has; `before` are those before the list. -/
def firstsAfter (f : α → β) (before : List α) : List α → List α
  | [] => []
  | a :: l =>
    if ∀ b ∈ before, f b ≠ f a then a :: firstsAfter f (before ++ [a]) l
    else firstsAfter f (before ++ [a]) l

def firsts (f : α → β) (l : List α) : List α := firstsAfter f [] l

variable {f : α → β} {g : α → γ} {before l : List α} {a : α}

/-- No first occurrence has the value of an item before the list. -/
theorem ne_of_mem_firstsAfter (h : a ∈ firstsAfter f before l) : ∀ b ∈ before, f b ≠ f a := by
  induction l generalizing before with
  | nil => exact nomatch h
  | cons x l ih =>
    rw [firstsAfter] at h
    split at h
    · next hnew =>
      rcases List.mem_cons.mp h with rfl | h
      · exact hnew
      · exact fun b hb => ih h b (List.mem_append_left [x] hb)
    · exact fun b hb => ih h b (List.mem_append_left [x] hb)

theorem nodup_map_firstsAfter (f : α → β) (before l : List α) :
    ((firstsAfter f before l).map f).Nodup := by
  induction l generalizing before with
  | nil => exact List.nodup_nil
  | cons x l ih =>
    rw [firstsAfter]
    split
    · rw [List.map_cons, List.nodup_cons]
      refine ⟨fun hmem => ?_, ih _⟩
      obtain ⟨y, hy, heq⟩ := List.mem_map.mp hmem
      exact ne_of_mem_firstsAfter hy x (List.mem_append_right before List.mem_cons_self) heq.symm
    · exact ih _

/-- Each value of the list is that of an item before it or of a first occurrence. -/
theorem exists_firstsAfter (h : a ∈ l) :
    (∃ b ∈ before, f b = f a) ∨ ∃ x ∈ firstsAfter f before l, f x = f a := by
  induction l generalizing before with
  | nil => exact nomatch h
  | cons x l ih =>
    rw [firstsAfter]
    split
    · rcases List.mem_cons.mp h with rfl | h
      · exact .inr ⟨a, List.mem_cons_self, rfl⟩
      · rcases @ih (before ++ [x]) h with ⟨b, hb, heq⟩ | ⟨y, hy, heq⟩
        · rcases List.mem_append.mp hb with hb | hb
          · exact .inl ⟨b, hb, heq⟩
          · exact .inr ⟨x, List.mem_cons_self, List.mem_singleton.mp hb ▸ heq⟩
        · exact .inr ⟨y, List.mem_cons_of_mem x hy, heq⟩
    · next hold =>
      push Not at hold
      obtain ⟨b₀, hb₀, hx⟩ := hold
      rcases List.mem_cons.mp h with rfl | h
      · exact .inl ⟨b₀, hb₀, hx⟩
      · rcases @ih (before ++ [x]) h with ⟨b, hb, heq⟩ | hlater
        · rcases List.mem_append.mp hb with hb | hb
          · exact .inl ⟨b, hb, heq⟩
          · exact .inl ⟨b₀, hb₀, hx.trans (List.mem_singleton.mp hb ▸ heq)⟩
        · exact .inr hlater

theorem nodup_map_firsts (f : α → β) (l : List α) : ((firsts f l).map f).Nodup :=
  nodup_map_firstsAfter f [] l

theorem exists_firsts (h : a ∈ l) : ∃ x ∈ firsts f l, f x = f a :=
  (exists_firstsAfter h).resolve_left fun ⟨_, hb, _⟩ => nomatch hb

theorem firstsAfter_congr (h : ∀ a ∈ before ++ l, ∀ b ∈ before ++ l, f a = f b ↔ g a = g b) :
    firstsAfter f before l = firstsAfter g before l := by
  induction l generalizing before with
  | nil => rfl
  | cons x l ih =>
    have hx : x ∈ before ++ x :: l := List.mem_append_right before List.mem_cons_self
    have hsame : (∀ b ∈ before, f b ≠ f x) ↔ ∀ b ∈ before, g b ≠ g x :=
      forall₂_congr fun b hb => not_congr (h b (List.mem_append_left _ hb) x hx)
    have hrest : firstsAfter f (before ++ [x]) l = firstsAfter g (before ++ [x]) l :=
      ih (by simpa using h)
    rw [firstsAfter, firstsAfter, hrest, if_congr hsame rfl rfl]

/-- Functions that tell the same items apart. -/
theorem firsts_congr (h : ∀ a ∈ l, ∀ b ∈ l, f a = f b ↔ g a = g b) : firsts f l = firsts g l :=
  firstsAfter_congr h

/-- A function that tells less apart than another, but has the same first occurrences, tells all of
    them apart. -/
theorem firsts_eq_iff (hfg : ∀ a b, g a = g b → f a = f b) :
    firsts f l = firsts g l ↔ ∀ a ∈ l, ∀ b ∈ l, f a = f b → g a = g b := by
  constructor
  · intro h a ha b hb heq
    obtain ⟨x, hx, hxa⟩ := exists_firsts (f := g) ha
    obtain ⟨y, hy, hyb⟩ := exists_firsts (f := g) hb
    -- both are first occurrences for `f`, with one value
    have hvalue : f x = f y := (hfg _ _ hxa).trans (heq.trans (hfg _ _ hyb).symm)
    rw [← h] at hx hy
    have hsame : x = y := List.inj_on_of_nodup_map (nodup_map_firsts f l) hx hy hvalue
    rw [← hxa, ← hyb, hsame]
  · exact fun h => firsts_congr fun a ha b hb => ⟨h a ha b hb, hfg a b⟩

end Schemes
