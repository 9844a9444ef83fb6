import Mathlib.Algebra.Order.Group.Unbundled.Abs
import Mathlib.Data.Char
import Mathlib.Data.List.Lex
import Mathlib.Data.List.TakeWhile
import Mathlib.Tactic.Linarith
import VaeDb.Schemes.Cuts
import VaeDb.Schemes.Levels
import VaeDb.Util

/-! The natural order of texts as a comparison by levels: the k-th tokens of two texts make level k.

    At a text position tokens tie only if they are equal. At a number position they tie if the
    numbers differ by less than `EPS`, and such ties do not add up:

        0  ≈  0.00000000006  ≈  0.00000000012      but 0 is before 0.00000000012

    What follows the numbers then decides about neighbours only, and may order them in a circle. -/

namespace VaeDb.Util
open Cpp Schemes

/-- The tokens that `str_compare_nat` compares. -/
def tokens (s : String) : List Token := merge_floats (tokenize_string s.toList)

/-- Two tokens at one position; a text that has ended comes first. -/
def tokenLevel (mstr : Bool) : Option Token → Option Token → ℤ
  | none, none => 0
  | none, some _ => 1
  | some _, none => -1
  | some t₁, some t₂ => if t₁ = [] && t₂ = [] then 0 else compareToken mstr t₁ t₂

/-- Texts stand at the even positions, numbers at the odd ones. -/
def textAt (k : ℕ) : Bool := k % 2 = 0

/-- The number at position `k` of a text. -/
def numberAt (s : String) (k : ℕ) : Option ℚ :=
  if textAt k then none else (tokens s)[k]?.bind lexical_cast

theorem textAt_succ (k : ℕ) : textAt (k + 1) = !textAt k := by
  rw [Bool.eq_iff_iff]
  simp [textAt]
  omega

/-! ### The numbers among the tokens -/

/-- Runs without digits and runs of digits by turns. -/
def Alternating : Bool → List Token → Prop
  | _, [] => True
  | mstr, t :: ts => t.all (inToken mstr) ∧ Alternating (!mstr) ts

/-- What stands at a number position, if it is not empty, is a number. -/
def Castable : Bool → List Token → Prop
  | _, [] => True
  | mstr, t :: ts => (mstr = false → t ≠ [] → (lexical_cast t).isSome) ∧ Castable (!mstr) ts

theorem alternating_tokenizeFrom (fuel : ℕ) (strmode : Bool) (s : List Char) :
    Alternating strmode (tokenizeFrom fuel strmode s) := by
  induction fuel generalizing strmode s with
  | zero => trivial
  | succ fuel ih =>
    refine ⟨List.all_takeWhile, ?_⟩
    split
    · trivial
    · exact ih _ _

theorem all_isdigit {t : Token} (h : t.all (inToken false)) : t.all isdigit := by
  simpa [inToken] using h

theorem lexical_cast_of_digits {t : Token} (h : t.all isdigit) (hne : t ≠ []) :
    lexical_cast t = some (decimal t : ℚ) := by
  have htake : t.takeWhile isdigit = t := List.takeWhile_eq_self_iff.mpr (by simpa using h)
  have hdrop : t.dropWhile isdigit = [] := List.dropWhile_eq_nil_iff.mpr (by simpa using h)
  simp [lexical_cast, htake, hdrop, hne]

theorem lexical_cast_of_point {l r : Token} (hl : l.all isdigit) (hr : r.all isdigit) (hlne : l ≠ [])
    (hrne : r ≠ []) : lexical_cast (l ++ ['.'] ++ r) =
      some ((decimal (l ++ r) : ℚ) / (10 : ℚ) ^ r.length) := by
  have hpoint : isdigit '.' = false := by decide
  have htake : (l ++ '.' :: r).takeWhile isdigit = l := by
    rw [List.takeWhile_append_of_pos (by simpa using hl), List.takeWhile_cons_of_neg (by simp [hpoint]),
      List.append_nil]
  have hdrop : (l ++ '.' :: r).dropWhile isdigit = '.' :: r := by
    rw [List.dropWhile_append_of_pos (by simpa using hl), List.dropWhile_cons_of_neg (by simp [hpoint])]
  have hall : r.all isdigit = true := hr
  simp only [List.append_assoc, List.singleton_append, lexical_cast, htake, hdrop]
  simp [hlne, hrne, hall]

/-- Digits, or digits on both sides of a point. -/
def Numeral (t : Token) : Prop :=
  (t ≠ [] ∧ t.all isdigit) ∨
  ∃ l r : Token, t = l ++ ['.'] ++ r ∧ (l ≠ [] ∧ l.all isdigit) ∧ (r ≠ [] ∧ r.all isdigit)

/-- What the tokens at text positions and at number positions are made of. -/
def Kind (mstr : Bool) (t : Token) : Prop :=
  if mstr then ∀ c ∈ t, isdigit c = false else t = [] ∨ Numeral t

theorem Numeral.castable {t : Token} (h : Numeral t) : (lexical_cast t).isSome := by
  rcases h with ⟨hne, hall⟩ | ⟨l, r, rfl, ⟨hl, hlall⟩, hr, hrall⟩
  · rw [lexical_cast_of_digits hall hne]
    rfl
  · rw [lexical_cast_of_point hlall hrall hl hr]
    rfl

theorem kind_of_all {mstr : Bool} {t : Token} (h : t.all (inToken mstr)) : Kind mstr t := by
  cases mstr with
  | true => simpa [Kind, inToken] using h
  | false =>
    rcases eq_or_ne t [] with rfl | hne
    · exact .inl rfl
    · exact .inr (.inl ⟨hne, all_isdigit h⟩)

/-- A point between two tokens is a text, so only numbers are merged. -/
theorem kinds_merge_floats (mstr : Bool) (ts : List Token) (h : Alternating mstr ts) :
    ByTurns Kind mstr (merge_floats ts) := by
  induction ts using merge_floats.induct generalizing mstr with
  | case1 l c r ts hmerge ih =>
    obtain ⟨hl, hc, hr, hts⟩ := h
    rw [merge_floats, if_pos hmerge]
    simp only [Bool.and_eq_true, decide_eq_true_eq] at hmerge
    obtain ⟨⟨rfl, hlne⟩, hrne⟩ := hmerge
    cases mstr with
    | true => simp [inToken, isdigit] at hc
    | false => exact ⟨.inr (.inr ⟨l, r, rfl, ⟨hlne, all_isdigit hl⟩, hrne, all_isdigit hr⟩), ih _ hts⟩
  | case2 l c r ts hmerge ih =>
    rw [merge_floats, if_neg hmerge]
    exact ⟨kind_of_all h.1, ih _ h.2⟩
  | case3 ts hshort =>
    rcases ts with _ | ⟨l, _ | ⟨c, _ | ⟨r, ts⟩⟩⟩
    · trivial
    · exact ⟨kind_of_all h.1, trivial⟩
    · exact ⟨kind_of_all h.1, kind_of_all h.2.1, trivial⟩
    · exact absurd rfl (hshort l c r ts)

theorem castable_of_kinds {mstr : Bool} {ts : List Token} (h : ByTurns Kind mstr ts) :
    Castable mstr ts := by
  induction ts generalizing mstr with
  | nil => trivial
  | cons t ts ih =>
    refine ⟨?_, ih h.2⟩
    rintro rfl hne
    exact (h.1.resolve_left hne).castable

theorem Castable.get {mstr : Bool} {ts : List Token} (h : Castable mstr ts) {k : ℕ} {t : Token}
    (hk : ts[k]? = some t) (hpos : Bool.xor mstr (textAt k) = true) (hne : t ≠ []) :
    (lexical_cast t).isSome := by
  induction ts generalizing mstr k with
  | nil => simp at hk
  | cons t' ts ih =>
    cases k with
    | zero =>
      obtain rfl : t' = t := by simpa using hk
      exact h.1 (by cases mstr <;> simp_all [textAt]) hne
    | succ k =>
      refine ih h.2 (k := k) (by simpa using hk) ?_
      rw [textAt_succ] at hpos
      cases mstr <;> cases htext : textAt k <;> simp_all

/-- A token at a number position is empty or a number. -/
theorem isSome_lexical_cast {s : String} {k : ℕ} {t : Token} (hk : (tokens s)[k]? = some t)
    (hpos : textAt k = false) (hne : t ≠ []) : (lexical_cast t).isSome :=
  (castable_of_kinds (kinds_merge_floats true _ (alternating_tokenizeFrom _ _ _))).get hk
    (by simp [hpos]) hne

/-! ### Tokens at one position -/

/-- Two numbers; 1 is before. -/
def numberLevel (d₁ d₂ : ℚ) : ℤ := if |d₁ - d₂| < EPS then 0 else if d₁ < d₂ then 1 else -1

/-- Two texts; 1 is before. -/
def textLevel (t₁ t₂ : Token) : ℤ := if t₁ = t₂ then 0 else if t₁ < t₂ then 1 else -1

variable {mstr : Bool} {t₁ t₂ t₃ : Token} {d₁ d₂ d₃ : ℚ}

theorem EPS_pos : 0 < EPS := by norm_num [EPS]

theorem numberLevel_eq_zero : numberLevel d₁ d₂ = 0 ↔ |d₁ - d₂| < EPS := by
  unfold numberLevel
  split
  · next h => simp [h]
  · next h => split <;> simp [h]

theorem numberLevel_eq_one : numberLevel d₁ d₂ = 1 ↔ d₁ + EPS ≤ d₂ := by
  have hpos := EPS_pos
  unfold numberLevel
  split
  · next h =>
    rw [abs_lt] at h
    simp
    linarith
  · next h =>
    rw [not_lt, le_abs] at h
    split
    · next hlt =>
      simp
      rcases h with h | h <;> linarith
    · next hle =>
      simp
      linarith

theorem numberLevel_swap : numberLevel d₂ d₁ = -numberLevel d₁ d₂ := by
  have hpos := EPS_pos
  unfold numberLevel
  rw [abs_sub_comm]
  split
  · rfl
  · next h =>
    rw [not_lt, le_abs] at h
    rcases lt_trichotomy d₁ d₂ with hlt | heq | hlt
    · simp [hlt, hlt.not_gt]
    · exfalso
      rcases h with h | h <;> linarith
    · simp [hlt, hlt.not_gt]

theorem textLevel_swap : textLevel t₂ t₁ = -textLevel t₁ t₂ := by
  unfold textLevel
  rcases lt_trichotomy t₁ t₂ with hlt | heq | hlt
  · simp [hlt, hlt.not_gt, hlt.ne, hlt.ne']
  · simp [heq]
  · simp [hlt, hlt.not_gt, hlt.ne, hlt.ne']

theorem textLevel_eq_one : textLevel t₁ t₂ = 1 ↔ t₁ < t₂ := by
  unfold textLevel
  split
  · next h => simp [h]
  · next h => split <;> simp_all

theorem compareToken_text (h₁ : t₁ ≠ []) (h₂ : t₂ ≠ []) :
    compareToken true t₁ t₂ = textLevel t₁ t₂ := by
  simp [compareToken, textLevel, h₁, h₂]

theorem compareToken_number (h₁ : t₁ ≠ []) (h₂ : t₂ ≠ []) (hd₁ : lexical_cast t₁ = some d₁)
    (hd₂ : lexical_cast t₂ = some d₂) : compareToken false t₁ t₂ = numberLevel d₁ d₂ := by
  simp [compareToken, numberLevel, h₁, h₂, hd₁, hd₂]

/-- Ended, empty, or neither. -/
def tokenRank : Option Token → ℕ
  | none => 0
  | some [] => 1
  | some (_ :: _) => 2

/-- The rank decides; of two tokens that are not empty, what they hold. -/
theorem tokenLevel_of_rank (x y : Option Token) :
    (tokenRank x < tokenRank y ∧ tokenLevel mstr x y = 1) ∨
    (tokenRank y < tokenRank x ∧ tokenLevel mstr x y = -1) ∨
    (tokenRank x = tokenRank y ∧ tokenRank x < 2 ∧ tokenLevel mstr x y = 0) ∨
    (tokenRank x = 2 ∧ tokenRank y = 2 ∧ ∃ t₁ t₂, x = some t₁ ∧ y = some t₂ ∧ t₁ ≠ [] ∧ t₂ ≠ [] ∧
      tokenLevel mstr x y = compareToken mstr t₁ t₂) := by
  rcases x with _ | _ | ⟨c, t₁⟩ <;> rcases y with _ | _ | ⟨d, t₂⟩ <;>
    simp [tokenRank, tokenLevel, compareToken]

/-- The tokens at a position of two texts that are both there and not empty. -/
theorem tokenLevel_cases {s t : String} {k : ℕ} {t₁ t₂ : Token} (hs : (tokens s)[k]? = some t₁)
    (ht : (tokens t)[k]? = some t₂) (h₁ : t₁ ≠ []) (h₂ : t₂ ≠ []) :
    (textAt k = true ∧ compareToken (textAt k) t₁ t₂ = textLevel t₁ t₂) ∨
    (textAt k = false ∧ ∃ d₁ d₂, numberAt s k = some d₁ ∧ numberAt t k = some d₂ ∧
      compareToken (textAt k) t₁ t₂ = numberLevel d₁ d₂) := by
  cases hpos : textAt k with
  | true => exact .inl ⟨rfl, compareToken_text h₁ h₂⟩
  | false =>
    obtain ⟨d₁, hd₁⟩ := Option.isSome_iff_exists.mp (isSome_lexical_cast hs hpos h₁)
    obtain ⟨d₂, hd₂⟩ := Option.isSome_iff_exists.mp (isSome_lexical_cast ht hpos h₂)
    exact .inr ⟨rfl, d₁, d₂, by simp [numberAt, hpos, hs, hd₁], by simp [numberAt, hpos, ht, hd₂],
      compareToken_number h₁ h₂ hd₁ hd₂⟩

/-- What a position of a text counts for: a text position has no number, a number position no
    text. -/
structure Key where
  rank : ℕ
  text : Token
  number : ℚ

def keyAt (s : String) (k : ℕ) : Key :=
  ⟨tokenRank (tokens s)[k]?, if textAt k then (tokens s)[k]?.getD [] else [],
    (numberAt s k).getD 0⟩

def Key.level (x y : Key) : ℤ :=
  if x.rank < y.rank then 1 else if y.rank < x.rank then -1
  else if x.text = y.text then numberLevel x.number y.number else textLevel x.text y.text

theorem numberLevel_self (d : ℚ) : numberLevel d d = 0 := by
  rw [numberLevel_eq_zero, sub_self, abs_zero]
  exact EPS_pos

@[simp]
theorem keyAt_rank (s : String) (k : ℕ) : (keyAt s k).rank = tokenRank (tokens s)[k]? := rfl

theorem tokenLevel_eq (s t : String) (k : ℕ) :
    tokenLevel (textAt k) (tokens s)[k]? (tokens t)[k]? = (keyAt s k).level (keyAt t k) := by
  have hlow : ∀ s, tokenRank (tokens s)[k]? < 2 → keyAt s k = ⟨tokenRank (tokens s)[k]?, [], 0⟩ := by
    intro s h
    unfold keyAt numberAt
    rcases hx : (tokens s)[k]? with _ | _ | ⟨c, t₁⟩
    · simp
    · simp [lexical_cast]
    · simp [tokenRank, hx] at h
  rcases @tokenLevel_of_rank (textAt k) (tokens s)[k]? (tokens t)[k]? with
    ⟨hlt, heq⟩ | ⟨hlt, heq⟩ | ⟨hrank, hlt, heq⟩ | ⟨hx, hy, t₁, t₂, hs, ht, h₁, h₂, heq⟩
  · simp [heq, Key.level, hlt]
  · simp [heq, Key.level, hlt, hlt.not_gt]
  · rw [heq, hlow s hlt, hlow t (hrank ▸ hlt)]
    simp [Key.level, hrank, numberLevel_self]
  · simp only [heq, Key.level, keyAt_rank, hx, hy, lt_irrefl, if_false]
    rcases tokenLevel_cases hs ht h₁ h₂ with ⟨hpos, hlevel⟩ | ⟨hpos, d₁, d₂, hd₁, hd₂, hlevel⟩
    · rw [hlevel]
      by_cases htexts : t₁ = t₂
      · simp [keyAt, numberAt, hpos, hs, ht, htexts, textLevel, numberLevel_self]
      · simp [keyAt, numberAt, hpos, hs, ht, htexts]
    · rw [hlevel]
      simp [keyAt, hpos, hd₁, hd₂]

/-! ### The levels of a text -/

theorem Key.level_sign (x y : Key) : x.level y = 1 ∨ x.level y = 0 ∨ x.level y = -1 := by
  unfold Key.level numberLevel textLevel
  split_ifs <;> simp

theorem Key.level_swap (x y : Key) : y.level x = -x.level y := by
  unfold Key.level
  rcases lt_trichotomy x.rank y.rank with hlt | heq | hlt
  · simp [hlt, hlt.not_gt]
  · simp only [heq, lt_irrefl, if_false, eq_comm (a := y.text)]
    split
    · exact numberLevel_swap
    · exact textLevel_swap
  · simp [hlt, hlt.not_gt]

theorem Key.level_eq_one {x y : Key} : x.level y = 1 ↔ x.rank < y.rank ∨ (x.rank = y.rank ∧
    (x.text < y.text ∨ (x.text = y.text ∧ x.number + EPS ≤ y.number))) := by
  unfold Key.level
  rcases lt_trichotomy x.rank y.rank with hlt | heq | hlt
  · simp [hlt]
  · simp only [heq, lt_irrefl, if_false, false_or, true_and]
    split
    · next htext => simp [htext, numberLevel_eq_one]
    · next htext => simp [htext, textLevel_eq_one]
  · simp [hlt.not_gt, hlt, hlt.ne']

theorem Key.level_trans {x y z : Key} (hxy : x.level y = 1) (hyz : y.level z = 1) :
    x.level z = 1 := by
  have hpos := EPS_pos
  rw [Key.level_eq_one] at *
  rcases hxy with hxy | ⟨hxy, htxy⟩
  · exact .inl (by omega)
  rcases hyz with hyz | ⟨hyz, htyz⟩
  · exact .inl (by omega)
  refine .inr ⟨by omega, ?_⟩
  rcases htxy with htxy | ⟨htxy, hdxy⟩ <;> rcases htyz with htyz | ⟨htyz, hdyz⟩
  · exact .inl (htxy.trans htyz)
  · exact .inl (htyz ▸ htxy)
  · exact .inl (htxy ▸ htyz)
  · exact .inr ⟨htxy.trans htyz, by linarith⟩

/-- The natural order: position by position. -/
def naturalLevels : Levels String where
  level k s t := tokenLevel (textAt k) (tokens s)[k]? (tokens t)[k]?
  sign k s t := by
    rw [tokenLevel_eq]
    exact Key.level_sign _ _
  swap k s t := by
    rw [tokenLevel_eq, tokenLevel_eq]
    exact Key.level_swap _ _
  trans k s t u := by
    rw [tokenLevel_eq, tokenLevel_eq, tokenLevel_eq]
    exact Key.level_trans

theorem naturalLevels_level (k : ℕ) (s t : String) : naturalLevels.level k s t =
    tokenLevel (textAt k) (tokens s)[k]? (tokens t)[k]? := rfl

/-- One position of the loop; past the ends of both texts there is nothing to tell. -/
theorem compareFrom_step (mstr : Bool) (ts₁ ts₂ : List Token) : compareFrom mstr ts₁ ts₂ =
    if tokenLevel mstr ts₁.head? ts₂.head? = 0 then compareFrom (!mstr) ts₁.tail ts₂.tail
    else tokenLevel mstr ts₁.head? ts₂.head? := by
  rcases ts₁ with _ | ⟨t₁, ts₁⟩ <;> rcases ts₂ with _ | ⟨t₂, ts₂⟩
  · simp [compareFrom, tokenLevel]
  · simp [compareFrom, tokenLevel]
  · simp [compareFrom, tokenLevel]
  · simp only [List.head?_cons, List.tail_cons, tokenLevel]
    rw [compareFrom]
    split
    · rfl
    · split <;> simp_all

theorem compareFrom_drop (s t : String) (n k : ℕ) (hs : (tokens s).length ≤ k + n)
    (ht : (tokens t).length ≤ k + n) :
    compareFrom (textAt k) ((tokens s).drop k) ((tokens t).drop k) = naturalLevels.first k s t := by
  induction n generalizing k with
  | zero =>
    rw [Nat.add_zero] at hs ht
    rw [List.drop_eq_nil_of_le hs, List.drop_eq_nil_of_le ht, compareFrom, Levels.first_of_ties]
    intro j hj
    rw [naturalLevels_level, List.getElem?_eq_none (by omega), List.getElem?_eq_none (by omega)]
    rfl
  | succ n ih =>
    rw [compareFrom_step, List.head?_drop, List.head?_drop, List.tail_drop, List.tail_drop,
      ← textAt_succ, ih (k + 1) (by omega) (by omega)]
    have hstep := naturalLevels.first_step k s t
    rw [naturalLevels_level] at hstep
    rcases hstep with ⟨hlevel, hfirst⟩ | ⟨hlevel, hfirst⟩
    · rw [hfirst, if_pos hlevel]
    · rw [hfirst, if_neg hlevel]

theorem str_compare_nat_eq_first : str_compare_nat = naturalLevels.first 0 := by
  funext s t
  have h := compareFrom_drop s t ((tokens s).length + (tokens t).length) 0 (by omega) (by omega)
  rw [List.drop_zero, List.drop_zero] at h
  exact h

/-- The comparison of two texts the other way around. -/
theorem str_compare_nat_swap (s t : String) : str_compare_nat t s = -str_compare_nat s t := by
  rw [str_compare_nat_eq_first]
  exact Levels.first_swap 0 s t

/-! ### Near ties -/

/-- The texts tie before position `k`, and have numbers there that make a chain of near ties. -/
structure NearTies (k : ℕ) (u v w : String) : Prop where
  below_uv : naturalLevels.TieBelow k u v
  below_vw : naturalLevels.TieBelow k v w
  below_uw : naturalLevels.TieBelow k u w
  numbers : ∃ x y z, numberAt u k = some x ∧ numberAt v k = some y ∧ numberAt w k = some z ∧
    |x - y| < EPS ∧ |y - z| < EPS ∧ x + EPS ≤ z

theorem tokenRank_eq_two {x : Option Token} : tokenRank x = 2 ↔ ∃ t, x = some t ∧ t ≠ [] := by
  rcases x with _ | _ | ⟨c, t⟩ <;> simp [tokenRank]

theorem numberAt_isSome {s : String} {k : ℕ} :
    (numberAt s k).isSome ↔ textAt k = false ∧ (keyAt s k).rank = 2 := by
  rw [keyAt_rank, tokenRank_eq_two, numberAt]
  cases hpos : textAt k with
  | true => simp
  | false =>
    simp only [Bool.false_eq_true, if_false, true_and]
    constructor
    · intro h
      rcases hx : (tokens s)[k]? with _ | _ | ⟨c, t⟩
      · simp [hx] at h
      · simp [hx, lexical_cast] at h
      · exact ⟨c :: t, rfl, by simp⟩
    · rintro ⟨t, ht, hne⟩
      simpa [ht] using isSome_lexical_cast ht hpos hne

theorem Key.level_eq_zero {x y : Key} : x.level y = 0 ↔
    x.rank = y.rank ∧ x.text = y.text ∧ |x.number - y.number| < EPS := by
  unfold Key.level
  rcases lt_trichotomy x.rank y.rank with hlt | heq | hlt
  · simp [hlt, hlt.ne]
  · simp only [heq, lt_irrefl, if_false, true_and]
    split
    · next htext => simp [htext, numberLevel_eq_zero]
    · next htext =>
      simp only [htext, textLevel, if_false, false_and, iff_false]
      split <;> decide
  · simp [hlt.not_gt, hlt, hlt.ne']

/-- Where two texts have numbers, these decide. -/
theorem level_of_numbers {s t : String} {k : ℕ} {x y : ℚ} (hs : numberAt s k = some x)
    (ht : numberAt t k = some y) : naturalLevels.level k s t = numberLevel x y := by
  obtain ⟨hpos, hrank⟩ := numberAt_isSome.mp (by rw [hs]; rfl)
  obtain ⟨-, hrank'⟩ := numberAt_isSome.mp (show (numberAt t k).isSome by rw [ht]; rfl)
  rw [naturalLevels_level, tokenLevel_eq, Key.level, hrank, hrank']
  simp [keyAt, hpos, hs, ht]

theorem chain_iff_nearTies {k : ℕ} {u v w : String} :
    naturalLevels.Chain k u v w ↔ NearTies k u v w := by
  constructor
  · rintro ⟨buv, bvw, buw, huv, hvw, huw⟩
    refine ⟨buv, bvw, buw, ?_⟩
    rw [naturalLevels_level, tokenLevel_eq, Key.level_eq_zero] at huv hvw
    rw [naturalLevels_level, tokenLevel_eq, Key.level_eq_one] at huw
    obtain ⟨hruv, htuv, hnuv⟩ := huv
    obtain ⟨hrvw, htvw, hnvw⟩ := hvw
    have hgap : (keyAt u k).number + EPS ≤ (keyAt w k).number := by
      rcases huw with hlt | ⟨-, hlt | ⟨-, hgap⟩⟩
      · omega
      · exact absurd hlt (htuv.trans htvw ▸ lt_irrefl _)
      · exact hgap
    -- numbers a gap apart are not both missing, and then all three are there
    have hsome : (numberAt u k).isSome ∧ (numberAt v k).isSome ∧ (numberAt w k).isSome := by
      rw [numberAt_isSome, numberAt_isSome, numberAt_isSome, ← hrvw, ← hruv]
      have hu : textAt k = false ∧ (keyAt u k).rank = 2 := by
        by_contra hnone
        have hnu : numberAt u k = none := by
          rw [← Option.not_isSome_iff_eq_none, numberAt_isSome]
          exact hnone
        have hnw : numberAt w k = none := by
          rw [← Option.not_isSome_iff_eq_none, numberAt_isSome, ← hrvw, ← hruv]
          exact hnone
        have hpos := EPS_pos
        simp only [keyAt, hnu, hnw, Option.getD_none, zero_add] at hgap
        linarith
      exact ⟨hu, hu, hu⟩
    obtain ⟨⟨x, hx⟩, ⟨y, hy⟩, z, hz⟩ := hsome.imp Option.isSome_iff_exists.mp
      (And.imp Option.isSome_iff_exists.mp Option.isSome_iff_exists.mp)
    simp only [keyAt, hx, hy, hz, Option.getD_some] at hnuv hnvw hgap
    exact ⟨x, y, z, hx, hy, hz, hnuv, hnvw, hgap⟩
  · rintro ⟨buv, bvw, buw, x, y, z, hx, hy, hz, hxy, hyz, hgap⟩
    exact ⟨buv, bvw, buw, by rwa [level_of_numbers hx hy, numberLevel_eq_zero],
      by rwa [level_of_numbers hy hz, numberLevel_eq_zero],
      by rwa [level_of_numbers hx hz, numberLevel_eq_one]⟩

/-- CORRECT: the natural order is a strict weak order on a set of texts exactly if, wherever three of
    them have a chain of near ties, what follows puts the first before the second or the second
    before the third. -/
theorem str_compare_nat_strictWeak_iff (S : Set String) :
    StrictWeak str_compare_nat S ↔ ∀ u ∈ S, ∀ v ∈ S, ∀ w ∈ S, ∀ k, NearTies k u v w →
      naturalLevels.Before (k + 1) u v ∨ naturalLevels.Before (k + 1) v w := by
  rw [str_compare_nat_eq_first, Levels.strictWeak_iff]
  simp only [Levels.ChainsBroken, chain_iff_nearTies]

/-- Ties that do not add up, and three texts in a circle. -/
theorem str_compare_nat_circle :
    (str_compare_nat "0" "0.00000000006" = 0 ∧
      str_compare_nat "0.00000000006" "0.00000000012" = 0 ∧
      str_compare_nat "0" "0.00000000012" = 1) ∧
    (0 < str_compare_nat "0.00000000012a" "0.00000000006b" ∧
      0 < str_compare_nat "0.00000000006b" "0c" ∧ 0 < str_compare_nat "0c" "0.00000000012a") ∧
    ¬ StrictWeak str_compare_nat Set.univ := by
  have hcircle : 0 < str_compare_nat "0.00000000012a" "0.00000000006b" ∧
      0 < str_compare_nat "0.00000000006b" "0c" ∧ 0 < str_compare_nat "0c" "0.00000000012a" := by
    decide +kernel
  refine ⟨by decide +kernel, hcircle, fun h => ?_⟩
  have hback := h.before_trans _ trivial _ trivial _ trivial hcircle.1 hcircle.2.1
  rw [str_compare_nat_swap] at hback
  exact absurd hcircle.2.2 (by omega)

end VaeDb.Util
