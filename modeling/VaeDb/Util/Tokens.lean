import VaeDb.Util.Natural

/-! The tokens of a text: what `tokenize_string` cuts and `merge_floats` puts together.

    The loop of `tokenize_string` takes the token from `b` to `e` in each round and leaves with the
    one that begins at the end of the text. A text that begins with a digit costs it one round that
    takes nothing; every other round takes a character, up to the last.

        b, e     0,0    0,1    1,2    2,4    4,5    5,5
        "1.25b"  (none)  1      .      25     b     (none)   ──▶   (none) │ 1.25 │ b │ (none)

    A point that stands by itself between two numbers goes with them into one token, which keeps
    texts at the even positions and numbers at the odd ones. -/

namespace VaeDb.Util
open Cpp Schemes

/-! ### The loop by positions -/

/-- Where the token that starts at `b` ends. -/
def token_end (s : List Char) (b : ℕ) (strmode : Bool) : ℕ :=
  if h : b < s.length then
    if inToken strmode s[b] then token_end s (b + 1) strmode else b
  else b
termination_by s.length - b

/-- The variables of the loop in `tokenize_string`. -/
structure Scan where
  b : ℕ
  e : ℕ
  mstr : Bool
  tokens : List Token

/-- `e = 0`, `b = 0`, `mstr = false`, and no tokens yet. -/
def Scan.start : Scan := ⟨0, 0, false, []⟩

/-- The body of the loop. -/
def Scan.body (s : List Char) (x : Scan) : Scan :=
  let b := x.e
  let mstr := !x.mstr
  let e := token_end s b mstr
  ⟨b, e, mstr, x.tokens ++ [(s.drop b).take (e - b)]⟩

/-- The loop, for so many rounds at most: what it has left with, or `none` while it goes on. -/
def Scan.loop (s : List Char) : ℕ → Scan → Option Scan
  | 0, _ => none
  | n + 1, x =>
    let y := x.body s
    if y.b < s.length then Scan.loop s n y else some y

theorem token_end_eq (s : List Char) (b : ℕ) (strmode : Bool) :
    token_end s b strmode = b + ((s.drop b).takeWhile (inToken strmode)).length := by
  induction b using token_end.induct s strmode with
  | case1 b hb hin ih =>
    rw [token_end, dif_pos hb, if_pos hin, ih, List.drop_eq_getElem_cons hb,
      List.takeWhile_cons_of_pos hin, List.length_cons]
    omega
  | case2 b hb hin =>
    rw [token_end, dif_pos hb, if_neg hin, List.drop_eq_getElem_cons hb,
      List.takeWhile_cons_of_neg hin]
    rfl
  | case3 b hb =>
    rw [token_end, dif_neg hb, List.drop_eq_nil_of_le (by omega)]
    rfl

/-- The token of a round. -/
theorem token_eq (s : List Char) (b : ℕ) (strmode : Bool) :
    (s.drop b).take (token_end s b strmode - b) = (s.drop b).takeWhile (inToken strmode) := by
  rw [token_end_eq, Nat.add_sub_cancel_left]
  exact (List.prefix_iff_eq_take.mp (List.takeWhile_prefix _)).symm

/-- What a round leaves of the text. -/
theorem drop_token_end (s : List Char) (b : ℕ) (strmode : Bool) :
    s.drop (token_end s b strmode) = (s.drop b).dropWhile (inToken strmode) := by
  rw [token_end_eq, ← List.drop_drop]
  generalize s.drop b = u
  calc u.drop (u.takeWhile (inToken strmode)).length
      = (u.takeWhile (inToken strmode) ++ u.dropWhile (inToken strmode)).drop
          (u.takeWhile (inToken strmode)).length := by rw [List.takeWhile_append_dropWhile]
    _ = u.dropWhile (inToken strmode) := List.drop_left

theorem inToken_turn (m : Bool) (c : Char) : inToken (!m) c = !inToken m c := by
  simp [inToken]

variable {s : List Char} {n : ℕ} {x : Scan}

theorem Scan.loop_of_lt (h : x.e < s.length) : Scan.loop s (n + 1) x = Scan.loop s n (x.body s) :=
  if_pos h

theorem Scan.loop_of_le (h : s.length ≤ x.e) : Scan.loop s (n + 1) x = some (x.body s) :=
  if_neg (Nat.not_lt.mpr h)

@[simp] theorem Scan.body_tokens (s : List Char) (x : Scan) : (x.body s).tokens =
    x.tokens ++ [(s.drop x.e).takeWhile (inToken (!x.mstr))] := by
  simp only [Scan.body, token_eq]

@[simp] theorem Scan.body_mstr (s : List Char) (x : Scan) : (x.body s).mstr = !x.mstr := rfl

@[simp] theorem Scan.drop_body_e (s : List Char) (x : Scan) :
    s.drop (x.body s).e = (s.drop x.e).dropWhile (inToken (!x.mstr)) :=
  drop_token_end s x.e _

/-- With rounds enough the loop leaves with the tokens of what it had before it. -/
theorem Scan.loop_tokens (hn : rounds inToken (!x.mstr) (s.drop x.e) ≤ n) :
    ∃ y, Scan.loop s n x = some y ∧
      y.tokens = x.tokens ++ tokenizeFrom n (!x.mstr) (s.drop x.e) := by
  induction n generalizing x with
  | zero =>
    have hpos := rounds_pos inToken (!x.mstr) (s.drop x.e)
    omega
  | succ n ih =>
    rw [tokenizeFrom]
    rcases Nat.lt_or_ge x.e s.length with hlt | hge
    · have hne : s.drop x.e ≠ [] := by simpa using hlt
      have hfewer := rounds_dropWhile_lt inToken_turn (m := !x.mstr) hne
      obtain ⟨y, hy, htokens⟩ := @ih (x.body s) (by
        rw [Scan.body_mstr, Scan.drop_body_e]
        omega)
      refine ⟨y, by rw [Scan.loop_of_lt hlt, hy], ?_⟩
      rw [htokens, if_neg hne]
      simp
    · have hend : s.drop x.e = [] := List.drop_eq_nil_of_le hge
      refine ⟨x.body s, Scan.loop_of_le hge, ?_⟩
      rw [if_pos hend, Scan.body_tokens]

/-- More rounds than the loop takes change nothing. -/
theorem Scan.loop_mono {k : ℕ} {y : Scan} (h : Scan.loop s n x = some y) (hk : n ≤ k) :
    Scan.loop s k x = some y := by
  induction n generalizing x k with
  | zero => cases h
  | succ n ih =>
    obtain ⟨k, rfl⟩ : ∃ j, k = j + 1 := ⟨k - 1, by omega⟩
    rcases Nat.lt_or_ge x.e s.length with hlt | hge
    · rw [Scan.loop_of_lt hlt] at h ⊢
      exact ih h (by omega)
    · rw [Scan.loop_of_le hge] at h ⊢
      exact h

/-! ### The tokens as cuts -/

theorem tokenizeFrom_eq_cuts {strmode : Bool} (hs : s ≠ [])
    (hn : rounds inToken strmode s ≤ n) : tokenizeFrom n strmode s = cuts inToken strmode s := by
  induction n generalizing strmode s with
  | zero =>
    have hpos := rounds_pos inToken strmode s
    omega
  | succ n ih =>
    rw [tokenizeFrom, if_neg hs, cuts_eq inToken_turn hs]
    have hfewer := rounds_dropWhile_lt inToken_turn (m := strmode) hs
    split
    · next hd =>
      -- the round after the last character
      rw [hd] at hfewer ⊢
      have hpos := rounds_pos inToken (!strmode) []
      obtain ⟨k, rfl⟩ : ∃ k, n = k + 1 := ⟨n - 1, by omega⟩
      rfl
    · next hd => rw [ih hd (by omega)]

theorem tokenize_string_eq_cuts (hs : s ≠ []) : tokenize_string s = cuts inToken true s :=
  tokenizeFrom_eq_cuts hs (rounds_le inToken true s)

theorem flatten_tokenize_string (s : List Char) : (tokenize_string s).flatten = s := by
  cases s with
  | nil => rfl
  | cons c s => rw [tokenize_string_eq_cuts (by simp), flatten_cuts]

theorem tokenize_string_inner {k : ℕ} (h : (tokenize_string s)[k]? = some []) :
    k = 0 ∨ k + 1 = (tokenize_string s).length := by
  cases s with
  | nil =>
    have hk := (List.getElem?_eq_some_iff.mp h).1
    exact .inl (Nat.lt_one_iff.mp hk)
  | cons c s =>
    rw [tokenize_string_eq_cuts (by simp)] at h ⊢
    exact cuts_inner h

/-! ### The merge -/

theorem flatten_merge_floats (ts : List Token) : (merge_floats ts).flatten = ts.flatten := by
  induction ts using merge_floats.induct with
  | case1 l c r ts hmerge ih =>
    rw [merge_floats, if_pos hmerge]
    simp [ih]
  | case2 l c r ts hmerge ih =>
    rw [merge_floats, if_neg hmerge, List.flatten_cons, ih]
    rfl
  | case3 ts hshort => rw [merge_floats.eq_2 ts hshort]

/-! ### The tokens of a text -/

theorem textAt_eq_modeAt (k : ℕ) : textAt k = modeAt true k := by
  unfold textAt modeAt
  split <;> simp_all

theorem byTurns_of_alternating {mstr : Bool} {ts : List Token} (h : Alternating mstr ts) :
    ByTurns (fun mstr t => t.all (inToken mstr)) mstr ts := by
  induction ts generalizing mstr with
  | nil => trivial
  | cons t ts ih => exact ⟨h.1, ih h.2⟩

/-- What `tokenize_string` makes of a text. -/
structure Tokenized (s : List Char) (ts : List Token) : Prop where
  flatten : ts.flatten = s
  text : ∀ k t, ts[k]? = some t → textAt k = true → ∀ c ∈ t, isdigit c = false
  number : ∀ k t, ts[k]? = some t → textAt k = false → ∀ c ∈ t, isdigit c = true
  inner : ∀ k, ts[k]? = some [] → k = 0 ∨ k + 1 = ts.length

/-- What `merge_floats` makes of the tokens of a text. -/
structure Merged (s : List Char) (ts : List Token) : Prop where
  flatten : ts.flatten = s
  text : ∀ k t, ts[k]? = some t → textAt k = true → ∀ c ∈ t, isdigit c = false
  number : ∀ k t, ts[k]? = some t → textAt k = false → t = [] ∨ Numeral t
  castable : ∀ k t, ts[k]? = some t → textAt k = false → t ≠ [] → (lexical_cast t).isSome

theorem tokenized (s : List Char) : Tokenized s (tokenize_string s) := by
  have hturns := byTurns_of_alternating (alternating_tokenizeFrom (s.length + 2) true s)
  refine ⟨flatten_tokenize_string s, ?_, ?_, fun k => tokenize_string_inner⟩
  · intro k t ht hk
    have h := hturns.get ht
    rw [← textAt_eq_modeAt, hk] at h
    simpa [inToken] using h
  · intro k t ht hk
    have h := hturns.get ht
    rw [← textAt_eq_modeAt, hk] at h
    simpa [inToken] using h

/-- The token at a position is of the position's kind. -/
theorem kind_tokens {s : String} {k : ℕ} {t : Token} (ht : (tokens s)[k]? = some t) :
    Kind (textAt k) t := by
  rw [textAt_eq_modeAt]
  exact (kinds_merge_floats true _ (alternating_tokenizeFrom _ _ _)).get ht

theorem merged (s : String) : Merged s.toList (tokens s) := by
  refine ⟨by rw [tokens, flatten_merge_floats, flatten_tokenize_string], ?_, ?_, ?_⟩
  · intro k t ht hk
    have h := kind_tokens ht
    rwa [hk] at h
  · intro k t ht hk
    have h := kind_tokens ht
    rwa [hk] at h
  · intro k t ht hk hne
    exact isSome_lexical_cast ht hk hne

theorem loop_start (s : List Char) : ∃ x, (∀ n, s.length + 2 ≤ n →
    Scan.loop s n Scan.start = some x) ∧ x.tokens = tokenize_string s := by
  obtain ⟨x, hx, htokens⟩ := @Scan.loop_tokens s (s.length + 2) Scan.start (rounds_le _ _ _)
  exact ⟨x, fun n hn => Scan.loop_mono hx hn, htokens⟩

/-- The loop of `str_compare_nat` where the positions before `k` tie. -/
theorem str_compare_nat_at {s t : String} {k : ℕ} (h : naturalLevels.TieBelow k s t) :
    str_compare_nat s t =
      compareFrom (textAt k) ((tokens s).drop k) ((tokens t).drop k) := by
  rw [str_compare_nat_eq_first, naturalLevels.first_of_tieBelow h]
  exact (compareFrom_drop s t ((tokens s).length + (tokens t).length) k (by omega) (by omega)).symm

/-- CORRECT: the loop of `tokenize_string` ends, and its tokens make up the text, with digits at the
    odd positions only and nothing else there, none of them empty but the first and the last. The
    merged tokens still make up the text; texts stand at the even positions and at the odd ones
    numbers that can be read, unless empty. When the comparison of two texts comes to a position it
    meets two tokens of the kind it takes them for. -/
theorem tokenize_string_merge_floats (s : String) :
    (∃ x, (∀ n, s.toList.length + 2 ≤ n → Scan.loop s.toList n Scan.start = some x) ∧
      x.tokens = tokenize_string s.toList) ∧
    Tokenized s.toList (tokenize_string s.toList) ∧
    Merged s.toList (merge_floats (tokenize_string s.toList)) ∧
    ∀ (t : String) (k : ℕ),
      (naturalLevels.TieBelow k s t → str_compare_nat s t =
        compareFrom (textAt k) ((tokens s).drop k) ((tokens t).drop k)) ∧
      ∀ t₁ t₂, (tokens s)[k]? = some t₁ → (tokens t)[k]? = some t₂ →
        Kind (textAt k) t₁ ∧ Kind (textAt k) t₂ :=
  ⟨loop_start _, tokenized _, merged s, fun _ _ =>
    ⟨str_compare_nat_at, fun _ _ h₁ h₂ => ⟨kind_tokens h₁, kind_tokens h₂⟩⟩⟩

end VaeDb.Util
