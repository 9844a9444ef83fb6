import Mathlib.Tactic.FieldSimp
import Mathlib.Tactic.Positivity
import VaeDb.Util.Tokens

/-! What the natural order says of two texts: when they tie, and what a number inside them does.

    Around a number the tokens are those of the text before it and of the text behind it, and the
    merge does not cross into it from the left:

        p           m     q                 tokens of p │ m.5 │ …
        "room "     12    ".5 b"    ──▶     room         12.5    b

    What comes behind may go on with a point and digits, but it does so alike in both texts. -/

namespace VaeDb.Util
open Cpp Schemes

/-! ### Ties -/

/-- Equal texts, or numbers closer than `EPS`; two empty tokens at a number position count as equal. -/
def Ties (mstr : Bool) (t₁ t₂ : Token) : Prop :=
  if mstr then t₁ = t₂
  else (t₁ = [] ∧ t₂ = []) ∨
    ∃ d₁ d₂, lexical_cast t₁ = some d₁ ∧ lexical_cast t₂ = some d₂ ∧ |d₁ - d₂| < EPS

/-- Two lists of merged tokens agree position by position. -/
structure Agree (ts₁ ts₂ : List Token) : Prop where
  length : ts₁.length = ts₂.length
  ties : ∀ k t₁ t₂, ts₁[k]? = some t₁ → ts₂[k]? = some t₂ → Ties (textAt k) t₁ t₂

theorem ne_nil_of_castable {t : Token} {d : ℚ} (h : lexical_cast t = some d) : t ≠ [] := by
  rintro rfl
  simp [lexical_cast] at h

/-- Tokens that tie are both empty or both not. -/
theorem Ties.rank {mstr : Bool} {t₁ t₂ : Token} (h : Ties mstr t₁ t₂) :
    tokenRank (some t₁) = tokenRank (some t₂) := by
  cases mstr with
  | true =>
    obtain rfl : t₁ = t₂ := h
    rfl
  | false =>
    rcases h with ⟨rfl, rfl⟩ | ⟨d₁, d₂, h₁, h₂, -⟩
    · rfl
    · rw [tokenRank_eq_two.mpr ⟨t₁, rfl, ne_nil_of_castable h₁⟩,
        tokenRank_eq_two.mpr ⟨t₂, rfl, ne_nil_of_castable h₂⟩]

theorem ties_nil (mstr : Bool) : Ties mstr [] [] := by
  cases mstr with
  | true => rfl
  | false => exact .inl ⟨rfl, rfl⟩

/-- A position where both texts have a token. -/
theorem level_eq_zero_of_tokens {s t : String} {k : ℕ} {t₁ t₂ : Token}
    (hs : (tokens s)[k]? = some t₁) (ht : (tokens t)[k]? = some t₂) :
    naturalLevels.level k s t = 0 ↔ Ties (textAt k) t₁ t₂ := by
  rw [naturalLevels_level, hs, ht]
  rcases @tokenLevel_of_rank (textAt k) (some t₁) (some t₂) with
    ⟨hlt, heq⟩ | ⟨hlt, heq⟩ | ⟨hrank, hlt, heq⟩ | ⟨-, -, _, _, ⟨⟩, ⟨⟩, h₁, h₂, heq⟩
  · rw [heq]
    exact ⟨fun h => absurd h (by decide), fun h => absurd h.rank (by omega)⟩
  · rw [heq]
    exact ⟨fun h => absurd h (by decide), fun h => absurd h.rank (by omega)⟩
  · have hempty : ∀ t : Token, tokenRank (some t) < 2 → t = [] := by
      intro t h
      cases t with
      | nil => rfl
      | cons c t => exact absurd h (lt_irrefl 2)
    rw [hempty t₁ hlt, hempty t₂ (hrank ▸ hlt)]
    exact ⟨fun _ => ties_nil _, fun _ => rfl⟩
  · rw [heq]
    rcases tokenLevel_cases hs ht h₁ h₂ with ⟨hpos, hlevel⟩ | ⟨hpos, d₁, d₂, hd₁, hd₂, hlevel⟩
    · rw [hlevel, hpos]
      unfold textLevel Ties
      split
      · next h => simp [h]
      · next h => split <;> simp [h]
    · rw [hlevel, numberLevel_eq_zero, hpos]
      simp only [numberAt, hpos, hs, ht, Bool.false_eq_true, if_false, Option.bind_some] at hd₁ hd₂
      simp [Ties, h₁, hd₁, hd₂]

/-- Two texts tie exactly if their tokens agree. -/
theorem str_compare_nat_eq_zero {s t : String} :
    str_compare_nat s t = 0 ↔ Agree (tokens s) (tokens t) := by
  rw [str_compare_nat_eq_first]
  constructor
  · intro h
    have hall : ∀ k, naturalLevels.level k s t = 0 := by
      intro k
      rcases Levels.all_or_first (fun k => naturalLevels.level k s t = 0) 0 with
        hall | ⟨j, hj, hties, hne⟩
      · exact hall k k.zero_le
      · rw [Levels.first_eq_level hj hties hne] at h
        exact absurd h hne
    refine ⟨?_, fun k t₁ t₂ hs ht => (level_eq_zero_of_tokens hs ht).mp (hall k)⟩
    -- past the end of one text alone the position decides
    by_contra hlength
    rcases Nat.lt_or_gt_of_ne hlength with hlt | hlt
    · have h := hall (tokens s).length
      rw [naturalLevels_level, List.getElem?_eq_none le_rfl, List.getElem?_eq_getElem hlt] at h
      simp [tokenLevel] at h
    · have h := hall (tokens t).length
      rw [naturalLevels_level, List.getElem?_eq_none le_rfl, List.getElem?_eq_getElem hlt] at h
      simp [tokenLevel] at h
  · intro h
    apply Levels.first_of_ties
    intro k _
    rcases Nat.lt_or_ge k (tokens s).length with hlt | hge
    · have hs := List.getElem?_eq_getElem hlt
      have ht := List.getElem?_eq_getElem (h.length ▸ hlt : k < (tokens t).length)
      exact (level_eq_zero_of_tokens hs ht).mpr (h.ties k _ _ hs ht)
    · rw [naturalLevels_level, List.getElem?_eq_none hge, List.getElem?_eq_none (h.length ▸ hge)]
      rfl

/-- CORRECT: the comparison the other way around has the other sign, the result is -1, 0 or 1, and it
    is 0 exactly if the merged tokens agree position by position. -/
theorem str_compare_nat_antisymmetric (s t : String) :
    str_compare_nat s t = -str_compare_nat t s ∧
    (str_compare_nat s t = -1 ∨ str_compare_nat s t = 0 ∨ str_compare_nat s t = 1) ∧
    (str_compare_nat s t = 0 ↔ Agree (merge_floats (tokenize_string s.toList))
      (merge_floats (tokenize_string t.toList))) := by
  refine ⟨str_compare_nat_swap t s, ?_, str_compare_nat_eq_zero⟩
  rw [str_compare_nat_eq_first]
  rcases naturalLevels.first_sign 0 s t with h | h | h
  · exact .inr (.inr h)
  · exact .inr (.inl h)
  · exact .inl h

/-! ### The tokens around a number -/

/-- The merge does not cross a border that no point stands at. -/
theorem merge_floats_append (ts us : List Token) (hts : ts.getLast? ≠ some ['.'])
    (hus : us.head? ≠ some ['.']) :
    merge_floats (ts ++ us) = merge_floats ts ++ merge_floats us := by
  have hone : ∀ l : Token, merge_floats (l :: us) = l :: merge_floats us := by
    intro l
    rcases us with _ | ⟨c, _ | ⟨r, us⟩⟩
    · rfl
    · rfl
    · have hc : c ≠ ['.'] := fun h => hus (by rw [h]; rfl)
      rw [merge_floats, if_neg (by simp [hc])]
  induction ts using merge_floats.induct with
  | case1 l c r ts hmerge ih =>
    have hlast : ts.getLast? ≠ some ['.'] := by
      intro h
      obtain ⟨ts', rfl⟩ := List.getLast?_eq_some_iff.mp h
      exact hts (@List.getLast?_concat _ (l :: c :: r :: ts') ['.'])
    simp only [List.cons_append] at ih ⊢
    rw [merge_floats, if_pos hmerge, merge_floats, if_pos hmerge, ih hlast]
    rfl
  | case2 l c r ts hmerge ih =>
    simp only [List.cons_append] at ih ⊢
    rw [merge_floats, if_neg hmerge, merge_floats, if_neg hmerge, ih (by simpa using hts)]
    rfl
  | case3 ts hshort =>
    rcases ts with _ | ⟨l, _ | ⟨c, _ | ⟨r, ts⟩⟩⟩
    · rfl
    · exact hone l
    · have hc : c ≠ ['.'] := by simpa using hts
      rcases us with _ | ⟨u, us⟩
      · rfl
      · rw [List.cons_append, List.cons_append, List.nil_append, merge_floats, if_neg (by simp [hc]),
          hone c]
        rfl
    · exact absurd rfl (hshort l c r ts)

/-- A merge takes three tokens for one, so the positions keep their parity. -/
theorem length_merge_floats (ts : List Token) :
    (merge_floats ts).length % 2 = ts.length % 2 := by
  induction ts using merge_floats.induct with
  | case1 l c r ts hmerge ih =>
    rw [merge_floats, if_pos hmerge]
    simp only [List.length_cons]
    omega
  | case2 l c r ts hmerge ih =>
    rw [merge_floats, if_neg hmerge]
    simp only [List.length_cons] at ih ⊢
    omega
  | case3 ts hshort => rw [merge_floats.eq_2 ts hshort]

/-- What a number has behind it in its token: nothing, or a point and digits. -/
def Fraction (w : Token) : Prop := w = [] ∨ ∃ r : Token, w = '.' :: r ∧ r ≠ [] ∧ r.all isdigit

/-- The number at the front merges with what is behind it or does not, whichever number it is. -/
theorem merge_floats_number {us : List Token} (hus : Alternating true us) :
    ∃ w us', Fraction w ∧ ∀ m : Token, m ≠ [] → merge_floats (m :: us) = (m ++ w) :: us' := by
  rcases us with _ | ⟨c, _ | ⟨r, us⟩⟩
  · exact ⟨[], [], .inl rfl, fun m _ => by rw [List.append_nil]; rfl⟩
  · exact ⟨[], [c], .inl rfl, fun m _ => by rw [List.append_nil]; rfl⟩
  · by_cases hmerge : c = ['.'] ∧ r ≠ []
    · obtain ⟨rfl, hr⟩ := hmerge
      refine ⟨'.' :: r, merge_floats us, .inr ⟨r, rfl, hr, all_isdigit hus.2.1⟩, fun m hm => ?_⟩
      rw [merge_floats, if_pos (by simp [hm, hr])]
      simp
    · refine ⟨[], merge_floats (c :: r :: us), .inl rfl, fun m hm => ?_⟩
      rw [merge_floats, if_neg (by simp_all), List.append_nil]

variable {p q m n : List Char}

theorem lastMode_text (hp : ∀ c, p.getLast? = some c → isdigit c = false) :
    lastMode inToken true p = true := by
  rcases List.eq_nil_or_concat p with rfl | ⟨p', c, hconcat⟩
  · rfl
  · have hlast : p.getLast? = some c := by simp [hconcat]
    exact lastMode_of_getLast inToken_turn hlast (by simp [inToken, hp c hlast])

/-- The tokens of a text begin with those of a part that ends in a text. -/
theorem tokenize_string_append (hp : ∀ c, p.getLast? = some c → isdigit c = false)
    (hq : ∀ c, q.head? = some c → isdigit c = false) (hm : m.all isdigit) (hmne : m ≠ []) :
    tokenize_string (p ++ m ++ q) = (cuts inToken true p).dropLast ++
      m :: if q = [] then [[]] else cuts inToken true q := by
  obtain ⟨d, m', hcons⟩ := List.exists_cons_of_ne_nil hmne
  have hmode := lastMode_text hp
  have hd : isdigit d = true := by
    rw [hcons, List.all_cons, Bool.and_eq_true] at hm
    exact hm.1
  have hdigits : ∀ c ∈ m, inToken false c = true := by simpa [inToken] using hm
  have htake : (m ++ q).takeWhile (inToken false) = m := by
    rw [List.takeWhile_append_of_pos hdigits]
    cases q with
    | nil => simp
    | cons c q => rw [List.takeWhile_cons_of_neg (by simp [inToken, hq c rfl]), List.append_nil]
  have hdrop : (m ++ q).dropWhile (inToken false) = q := by
    rw [List.dropWhile_append_of_pos hdigits]
    cases q with
    | nil => rfl
    | cons c q => rw [List.dropWhile_cons_of_neg (by simp [inToken, hq c rfl])]
  have hcuts := @cuts_append Char inToken true p (m' ++ q) d inToken_turn
    (by rw [hmode]; simp [inToken, hd])
  have hnumber := @cuts_eq Char inToken false (m ++ q) inToken_turn (by simp [hmne])
  rw [hmode, ← List.cons_append, ← hcons, ← List.append_assoc] at hcuts
  rw [htake, hdrop] at hnumber
  rw [tokenize_string_eq_cuts (by simp [hmne]), hcuts, Bool.not_true, hnumber, Bool.not_false]

/-- The tokens in front of a number and behind it are the same for every number. -/
theorem tokens_number (hp : ∀ c, p.getLast? = some c → isdigit c = false ∧ c ≠ '.')
    (hq : ∀ c, q.head? = some c → isdigit c = false) :
    ∃ before w behind, before.length % 2 = 1 ∧ Fraction w ∧
      ∀ m : Token, m.all isdigit → m ≠ [] → merge_floats (tokenize_string (p ++ m ++ q)) =
        before ++ (m ++ w) :: behind := by
  have hrest : Alternating true (if q = [] then [[]] else cuts inToken true q) := by
    split
    · exact ⟨rfl, trivial⟩
    · next hne =>
      rw [← tokenize_string_eq_cuts hne]
      exact alternating_tokenizeFrom _ _ _
  obtain ⟨w, behind, hw, hmerge⟩ := merge_floats_number hrest
  refine ⟨merge_floats (cuts inToken true p).dropLast, w, behind, ?_, hw, fun m hm hmne => ?_⟩
  · have htwo := two_le_length_cuts inToken true p
    have heven := (length_cuts_even inToken true p).mpr (lastMode_text fun c hc => (hp c hc).1)
    rw [length_merge_floats, List.length_dropLast]
    omega
  · rw [tokenize_string_append (fun c hc => (hp c hc).1) hq hm hmne, merge_floats_append, hmerge m hmne]
    · -- a point at the end would be the last character of `p`
      intro hlast
      obtain ⟨ts, hts⟩ := List.getLast?_eq_some_iff.mp hlast
      have hflat := flatten_cuts inToken true p
      rw [← dropLast_cuts, hts] at hflat
      exact (hp '.' (by rw [← hflat]; simp)).2 rfl
    · intro hhead
      obtain rfl : m = ['.'] := by simpa using hhead
      exact absurd hm (by decide)

/-! ### The comparison of two numbers in the same surroundings -/

theorem decimal_append (l r : List Char) :
    decimal (l ++ r) = decimal l * 10 ^ r.length + decimal r := by
  have hfrom : ∀ k : ℕ, r.foldl (fun n c => 10 * n + (c.toNat - '0'.toNat)) k =
      k * 10 ^ r.length + decimal r := by
    unfold decimal
    induction r with
    | nil => intro k; simp
    | cons c r ih =>
      intro k
      rw [List.foldl_cons, List.foldl_cons, ih, ih (10 * 0 + _), List.length_cons]
      ring
  rw [decimal, List.foldl_append]
  exact hfrom _

/-- What is behind a number adds the same to its value, whichever number it is. -/
theorem lexical_cast_fraction {w : Token} (hw : Fraction w) : ∃ f : ℚ, ∀ m : Token, m.all isdigit →
    m ≠ [] → lexical_cast (m ++ w) = some ((decimal m : ℚ) + f) := by
  rcases hw with rfl | ⟨r, rfl, hr, hrall⟩
  · refine ⟨0, fun m hm hmne => ?_⟩
    rw [List.append_nil, lexical_cast_of_digits hm hmne, add_zero]
  · refine ⟨(decimal r : ℚ) / 10 ^ r.length, fun m hm hmne => ?_⟩
    have h := lexical_cast_of_point hm hrall hmne hr
    rw [List.append_assoc, List.singleton_append] at h
    rw [h, decimal_append]
    push_cast
    field_simp

theorem tokenLevel_self (mstr : Bool) (t : Token) : tokenLevel mstr (some t) (some t) = 0 := by
  cases t with
  | nil => rfl
  | cons c t =>
    cases mstr with
    | true => simp [tokenLevel, compareToken]
    | false =>
      rw [tokenLevel, if_neg (by simp)]
      cases hcast : lexical_cast (c :: t) with
      | none => simp [compareToken, hcast]
      | some d => rw [compareToken_number (by simp) (by simp) hcast hcast, numberLevel_self]

/-- Tokens in front that are the same decide nothing. -/
theorem compareFrom_append (mstr : Bool) (ts us₁ us₂ : List Token) :
    compareFrom mstr (ts ++ us₁) (ts ++ us₂) = compareFrom (modeAt mstr ts.length) us₁ us₂ := by
  induction ts generalizing mstr with
  | nil => rfl
  | cons t ts ih =>
    rw [compareFrom_step, List.length_cons, modeAt_succ, ← ih]
    simp [tokenLevel_self]

theorem compareFrom_self (mstr : Bool) (ts : List Token) : compareFrom mstr ts ts = 0 := by
  have h := compareFrom_append mstr ts [] []
  rw [List.append_nil] at h
  rw [h, compareFrom]

/-- Nor do tokens behind that are the same. -/
theorem compareFrom_cons_same (mstr : Bool) (t₁ t₂ : Token) (us : List Token) :
    compareFrom mstr (t₁ :: us) (t₂ :: us) = tokenLevel mstr (some t₁) (some t₂) := by
  rw [compareFrom_step, List.tail_cons, List.tail_cons, compareFrom_self]
  split
  · next h => exact h.symm
  · rfl

/-- Numbers with the same fraction differ by less than `EPS` only if they are equal. -/
theorem numberLevel_whole (i j : ℕ) (f : ℚ) : numberLevel ((i : ℚ) + f) ((j : ℚ) + f) =
    if i < j then 1 else if j < i then -1 else 0 := by
  have hEPS : EPS ≤ 1 := by norm_num [EPS]
  have hone : ∀ {i j : ℕ}, i < j → numberLevel ((i : ℚ) + f) ((j : ℚ) + f) = 1 := by
    intro i j hlt
    have hstep : (i : ℚ) + 1 ≤ j := by exact_mod_cast hlt
    exact numberLevel_eq_one.mpr (by linarith)
  rcases lt_trichotomy i j with hlt | rfl | hlt
  · rw [hone hlt, if_pos hlt]
  · rw [numberLevel_self, if_neg (lt_irrefl _), if_neg (lt_irrefl _)]
  · rw [numberLevel_swap, hone hlt, if_neg hlt.not_gt, if_pos hlt]

/-- CORRECT: two texts that differ in a number only compare as the numbers do. -/
theorem str_compare_nat_number (p q m n : String)
    (hp : ∀ c, p.toList.getLast? = some c → isdigit c = false ∧ c ≠ '.')
    (hq : ∀ c, q.toList.head? = some c → isdigit c = false)
    (hm : m.toList.all isdigit) (hmne : m.toList ≠ [])
    (hn : n.toList.all isdigit) (hnne : n.toList ≠ []) :
    str_compare_nat (p ++ m ++ q) (p ++ n ++ q) =
      if decimal m.toList < decimal n.toList then 1
      else if decimal n.toList < decimal m.toList then -1 else 0 := by
  obtain ⟨before, w, behind, hodd, hw, htokens⟩ := tokens_number hp hq
  obtain ⟨f, hcast⟩ := lexical_cast_fraction hw
  have hmode : modeAt true before.length = false := by simp [modeAt, hodd]
  rw [str_compare_nat, String.toList_append, String.toList_append, String.toList_append,
    String.toList_append, htokens _ hm hmne, htokens _ hn hnne, compareFrom_append, hmode,
    compareFrom_cons_same, tokenLevel, if_neg (by simp [hmne])]
  rw [compareToken_number (by simp [hmne]) (by simp [hnne]) (hcast _ hm hmne) (hcast _ hn hnne),
    numberLevel_whole]

/-- A number with a fraction behind it, and leading zeros. -/
theorem str_compare_nat_room : str_compare_nat "room 012.5 b" "room 7.5 b" = -1 := by
  have hlast : ∀ c, "room ".toList.getLast? = some c → isdigit c = false ∧ c ≠ '.' := by
    intro c hc
    obtain rfl : ' ' = c := Option.some.inj hc
    decide
  have hhead : ∀ c, ".5 b".toList.head? = some c → isdigit c = false := by
    intro c hc
    obtain rfl : '.' = c := Option.some.inj hc
    decide
  exact str_compare_nat_number "room " ".5 b" "012" "7" hlast hhead (by decide) (by decide) (by decide)
    (by decide)

end VaeDb.Util
