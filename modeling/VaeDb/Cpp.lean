import Mathlib.Data.Int.Notation
import Mathlib.Data.List.Chain
import Mathlib.Data.List.Infix
import Mathlib.Data.Nat.Notation
import Mathlib.Logic.Equiv.Defs
import Mathlib.Tactic.Common

/-! The pieces of C, the C++ library and boost that the program leans on.

    Machine integers are values of ℤ together with `int32`, the reduction into the range of an
    `int`. Texts are Lean strings; where the source hands a `c_str()` to a C function, the text ends
    at its first NUL (`cStr`). `split` is `boost::split` with `is_any_of` and no token compression:
    adjacent separators, and separators at either end, give empty pieces. -/

namespace VaeDb.Cpp

/-- Reduction into the range of a 32-bit `int`. -/
def int32 (n : ℤ) : ℤ := n.bmod 4294967296

/-- A C string ends at its first NUL. -/
def cStr (s : String) : String := String.ofList (s.toList.takeWhile (· ≠ '\x00'))

def isspace (c : Char) : Bool := c == ' ' || ('\t' ≤ c && c ≤ '\r')

def isdigit (c : Char) : Bool := '0' ≤ c && c ≤ '9'

/-- The value of a string of decimal digits. -/
def decimal (digits : List Char) : ℕ := digits.foldl (fun n c => 10 * n + (c.toNat - '0'.toNat)) 0

/-- `atoi` (and `strtol` in base 10): white space, a sign, the digits that follow. Values of more than
    63 bits, where `strtol` stops at the ends of a `long`, are left out: they are reduced as well. -/
def atoi (s : String) : ℤ :=
  match s.toList.dropWhile isspace with
  | '-' :: cs => int32 (-(decimal (cs.takeWhile isdigit)))
  | '+' :: cs => int32 (decimal (cs.takeWhile isdigit))
  | cs => int32 (decimal (cs.takeWhile isdigit))

/-- `boost::split(.., s, boost::is_any_of(seps))`. -/
def split (seps : List Char) (s : String) : List String :=
  (s.toList.splitOnP (· ∈ seps)).map String.ofList

/-- `boost::join(parts, sep)`. -/
def join (parts : List String) (sep : String) : String := sep.intercalate parts

/-- The words that `stream >> word` reads one after another. -/
def words (s : String) : List String :=
  ((s.toList.splitOnP isspace).filter (· ≠ [])).map String.ofList

def tolower (c : Char) : Char := if 'A' ≤ c && c ≤ 'Z' then Char.ofNat (c.toNat + 32) else c

/-- The text in lower case, for comparisons that ignore case. -/
def caseless (s : String) : List Char := s.toList.map tolower

/-- `strcasecmp(a, b) == 0` on C strings. -/
def strcasecmp (a b : String) : Bool := caseless (cStr a) == caseless (cStr b)

/-- Whether `needle` occurs in `hay`. -/
def occursIn (needle : List Char) : List Char → Bool
  | [] => needle.isEmpty
  | c :: hay => needle.isPrefixOf (c :: hay) || occursIn needle hay

/-- `strstr(hay, needle) != NULL` on C strings. -/
def strstr (hay needle : String) : Bool := occursIn (cStr needle).toList (cStr hay).toList

/-- `strcasestr(hay, needle) != NULL` on C strings. -/
def strcasestr (hay needle : String) : Bool := occursIn (caseless (cStr needle)) (caseless (cStr hay))

/-! ### Sorting -/

/-- What `std::sort` does to `n` elements: the comparisons it makes, each depending on the answers so
    far, and the order it leaves them in. With a comparator that is no strict weak ordering it may
    run out of the range. -/
inductive SortTree (n : ℕ) where
  | done (order : Equiv.Perm (Fin n))
  | less (i j : Fin n) (yes no : SortTree n)
  | overrun

/-- The order for a comparator on positions; `none` where the range is left. -/
def SortTree.run {n : ℕ} {m : Type → Type} [Monad m] (comp : Fin n → Fin n → m Bool) :
    SortTree n → m (Option (Equiv.Perm (Fin n)))
  | .done order => pure (some order)
  | .less i j yes no => do if ← comp i j then yes.run comp else no.run comp
  | .overrun => pure none

/-! ### Splitting and joining -/

theorem split_eq (c : Char) (s : String) : split [c] s = (s.toList.splitOn c).map String.ofList := by
  have hsep : (fun d => decide (d ∈ [c])) = (· == c) := by
    funext d
    rw [Bool.eq_iff_iff]
    simp
  rw [split, List.splitOn_eq_splitOnP, hsep]

theorem toList_join (parts : List String) (sep : String) :
    (join parts sep).toList = sep.toList.intercalate (parts.map String.toList) :=
  String.toList_intercalate

theorem map_toList_split (c : Char) (s : String) :
    (split [c] s).map String.toList = s.toList.splitOn c := by
  rw [split_eq, List.map_map]
  simp

/-- Joining the pieces gives the text back. -/
theorem join_split (c : Char) (s : String) : join (split [c] s) (String.singleton c) = s := by
  apply String.toList_inj.mp
  rw [toList_join, map_toList_split, String.toList_singleton, List.intercalate_splitOn]

/-- A text has no separator, or goes on behind its first one. -/
theorem pieces_induction (c : Char) {P : List Char → Prop} (one : ∀ a, c ∉ a → P a)
    (more : ∀ a s, c ∉ a → P s → P (a ++ c :: s)) (s : List Char) : P s := by
  induction hn : s.length using Nat.strong_induction_on generalizing s with
  | _ n ih =>
    by_cases h : c ∈ s
    · obtain ⟨a, t, rfl, ha⟩ := List.eq_append_cons_of_mem h
      rw [List.length_append, List.length_cons] at hn
      exact more a t ha (ih t.length (by omega) t rfl)
    · exact one s h

theorem splitOn_piece {c : Char} {s p : List Char} (h : p ∈ s.splitOn c) : p <:+: s := by
  induction s using pieces_induction c with
  | one a ha =>
    rw [List.splitOn_eq_singleton ha, List.mem_singleton] at h
    exact h ▸ List.infix_rfl
  | more a s ha ih =>
    rw [List.splitOn_append_cons_self_of_not_mem ha, List.mem_cons] at h
    rcases h with rfl | h
    · exact (List.prefix_append p _).isInfix
    · exact (ih h).trans ((List.suffix_cons c s).trans (List.suffix_append a _)).isInfix

theorem not_mem_of_splitOn {c : Char} {s p : List Char} (h : p ∈ s.splitOn c) : c ∉ p := by
  induction s using pieces_induction c with
  | one a ha =>
    rw [List.splitOn_eq_singleton ha, List.mem_singleton] at h
    rwa [h]
  | more a s ha ih =>
    rw [List.splitOn_append_cons_self_of_not_mem ha, List.mem_cons] at h
    rcases h with rfl | h
    · exact ha
    · exact ih h

theorem exists_mem_splitOn {c d : Char} {s : List Char} (hne : d ≠ c) (h : d ∈ s) :
    ∃ p ∈ s.splitOn c, d ∈ p := by
  induction s using pieces_induction c with
  | one a ha => exact ⟨a, by simp [List.splitOn_eq_singleton ha], h⟩
  | more a s ha ih =>
    rw [List.splitOn_append_cons_self_of_not_mem ha]
    rcases List.mem_append.mp h with h | h
    · exact ⟨a, List.mem_cons_self, h⟩
    · obtain ⟨p, hp, hd⟩ := ih ((List.mem_cons.mp h).resolve_left hne)
      exact ⟨p, List.mem_cons_of_mem _ hp, hd⟩

theorem length_splitOn (c : Char) (s : List Char) : (s.splitOn c).length = s.count c + 1 := by
  induction s using pieces_induction c with
  | one a ha => rw [List.splitOn_eq_singleton ha, List.count_eq_zero.mpr ha, List.length_singleton]
  | more a s ha ih =>
    rw [List.splitOn_append_cons_self_of_not_mem ha, List.length_cons, ih, List.count_append,
      List.count_eq_zero.mpr ha, List.count_cons_self, Nat.zero_add]

/-- Splitting what was joined splits the pieces. -/
theorem splitOn_intercalate (c : Char) {l : List (List Char)} (h : l ≠ []) :
    ([c].intercalate l).splitOn c = l.flatMap (·.splitOn c) := by
  induction l with
  | nil => exact absurd rfl h
  | cons a l ih =>
    cases l with
    | nil => simp
    | cons b l =>
      rw [List.intercalate_cons_of_ne_nil (by simp), List.append_assoc, List.singleton_append,
        List.splitOn_append_cons_self, ih (by simp)]
      rfl

/-- The first piece of a text goes on from what stands in front of it. -/
theorem splitOn_first (c : Char) (b : List Char) : ∃ y Q, ∀ w, c ∉ w →
    (w ++ b).splitOn c = (w ++ y) :: Q := by
  by_cases hb : c ∈ b
  · obtain ⟨y, t, rfl, hy⟩ := List.eq_append_cons_of_mem hb
    refine ⟨y, t.splitOn c, fun w hw => ?_⟩
    rw [← List.append_assoc, List.splitOn_append_cons_self_of_not_mem (by simp [hw, hy])]
  · exact ⟨b, [], fun w hw => List.splitOn_eq_singleton (by simp [hw, hb])⟩

/-- A text without separators between two others: where it stands among the pieces does not depend on
    it. -/
theorem splitOn_cut (c : Char) (a b : List Char) : ∃ P x y Q, ∀ w, c ∉ w →
    (a ++ w ++ b).splitOn c = P ++ (x ++ w ++ y) :: Q := by
  induction a using pieces_induction c with
  | one a ha =>
    obtain ⟨y, Q, hfirst⟩ := splitOn_first c b
    exact ⟨[], a, y, Q, fun w hw => hfirst (a ++ w) (by simp [ha, hw])⟩
  | more a s ha ih =>
    obtain ⟨P, x, y, Q, hcut⟩ := ih
    refine ⟨a :: P, x, y, Q, fun w hw => ?_⟩
    rw [List.append_assoc, List.append_assoc, List.cons_append,
      List.splitOn_append_cons_self_of_not_mem ha, ← List.append_assoc, hcut w hw]
    rfl

theorem occursIn_iff {needle hay : List Char} : occursIn needle hay ↔ needle <:+: hay := by
  induction hay with
  | nil => simp [occursIn]
  | cons c hay ih =>
    rw [occursIn, Bool.or_eq_true, List.isPrefixOf_iff_prefix, ih, List.infix_cons_iff]

/-- A character is found up to the first NUL. -/
theorem strstr_char {s : String} {c : Char} (hc : c ≠ '\x00') :
    strstr s (String.singleton c) ↔ c ∈ s.toList.takeWhile (· ≠ '\x00') := by
  have hneedle : (cStr (String.singleton c)).toList = [c] := by
    simp [cStr, hc]
  rw [strstr, hneedle, occursIn_iff, cStr, String.toList_ofList, List.singleton_infix_iff]

/-! ### Empty pieces -/

variable {α : Type*} {p : α → Bool}

/-- The first piece is empty if the text starts with a separator. -/
theorem nil_mem_splitOnP_cons (a : α) (l : List α) :
    [] ∈ (a :: l).splitOnP p ↔ p a ∨ [] ∈ ((a :: l).splitOnP p).tail := by
  rw [List.splitOnP_cons_eq_if_modifyHead]
  split
  · next ha => simp [ha]
  · next ha =>
    rcases hl : l.splitOnP p with _ | ⟨x, xs⟩
    · exact absurd hl (List.splitOnP_ne_nil p l)
    · simp [ha]

/-- Past the first piece, an empty piece comes from a separator at the end or from two adjacent
    separators. -/
theorem nil_mem_tail_splitOnP : ∀ l : List α,
    [] ∈ (l.splitOnP p).tail ↔ (∃ a ∈ l.getLast?, p a) ∨ ¬ l.IsChain fun a b => ¬ (p a ∧ p b)
  | [] => by simp
  | [a] => by
      rw [List.splitOnP_cons_eq_if_modifyHead]
      split <;> simp_all
  | a :: b :: l => by
      have ih := nil_mem_tail_splitOnP (b :: l)
      rw [List.getLast?_cons_cons, List.isChain_cons_cons, not_and_or, not_not,
        List.splitOnP_cons_eq_if_modifyHead]
      split
      · next ha =>
        rw [List.tail_cons, nil_mem_splitOnP_cons, ih, or_left_comm]
        simp [ha]
      · next ha =>
        rw [List.tail_modifyHead, ih]
        simp [ha]

/-- No empty piece: the text is not empty, has no separator at either end and no two adjacent ones. -/
structure WellSeparated (p : α → Bool) (l : List α) : Prop where
  ne_nil : l ≠ []
  head : ∀ a ∈ l.head?, ¬ p a
  last : ∀ a ∈ l.getLast?, ¬ p a
  apart : l.IsChain fun a b => ¬ (p a ∧ p b)

theorem nil_not_mem_splitOnP : ∀ l : List α, [] ∉ l.splitOnP p ↔ WellSeparated p l
  | [] => by
      refine iff_of_false (by simp) fun h => h.ne_nil rfl
  | a :: l => by
      rw [nil_mem_splitOnP_cons, nil_mem_tail_splitOnP, not_or, not_or, not_not]
      constructor
      · rintro ⟨ha, hlast, hapart⟩
        exact ⟨by simp, by simpa using ha, fun b hb hpb => hlast ⟨b, hb, hpb⟩, hapart⟩
      · rintro ⟨-, hhead, hlast, hapart⟩
        exact ⟨hhead a rfl, fun ⟨b, hb, hpb⟩ => hlast b hb hpb, hapart⟩

theorem empty_not_mem_split (seps : List Char) (s : String) :
    "" ∉ split seps s ↔ WellSeparated (· ∈ seps) s.toList := by
  rw [← nil_not_mem_splitOnP, split, not_iff_not, List.mem_map]
  constructor
  · rintro ⟨l, hl, heq⟩
    rw [show l = [] by simpa using heq] at hl
    exact hl
  · exact fun h => ⟨[], h, rfl⟩

end VaeDb.Cpp
