import Mathlib.Data.Rat.Floor
import VaeDb.Cpp

/-! `str_compare_nat`: the natural order of texts, in which embedded numbers compare as numbers.

    A text is cut into tokens, runs without digits and runs of digits by turns; a number, a single
    point and a number then merge into one token. Tokens at even positions are texts, tokens at odd
    positions numbers.

        "v1.25b"  ──▶  v │ 1 │ . │ 25 │ b │  ──▶  v │ 1.25 │ b │ 

    Number tokens are read as exact rationals. -/

namespace VaeDb.Util
open Cpp

abbrev Token := List Char

/-- Whether a character goes on with the token: `isdigit(c) ^ strmode`. -/
def inToken (strmode : Bool) (c : Char) : Bool := Bool.xor (isdigit c) strmode

/-- The loop of `tokenize_string`. It ends with the token that starts at the end of the text. -/
def tokenizeFrom : ℕ → Bool → List Char → List Token
  | 0, _, _ => []
  | fuel + 1, strmode, s =>
    s.takeWhile (inToken strmode) ::
      if s = [] then [] else tokenizeFrom fuel (!strmode) (s.dropWhile (inToken strmode))

/-- The first token may be empty and so is the last; the others take a character at least. -/
def tokenize_string (s : List Char) : List Token := tokenizeFrom (s.length + 2) true s

def merge_floats : List Token → List Token
  | l :: c :: r :: tokens =>
    if c = ['.'] && l ≠ [] && r ≠ [] then (l ++ c ++ r) :: merge_floats tokens
    else l :: merge_floats (c :: r :: tokens)
  | tokens => tokens

/-- `boost::lexical_cast<double>` on the numerals that tokens can be: digits, or digits on both
    sides of a point. -/
def lexical_cast (token : Token) : Option ℚ :=
  let whole := token.takeWhile isdigit
  match token.dropWhile isdigit with
  | [] => if whole = [] then none else some (decimal whole : ℚ)
  | '.' :: fraction =>
    if whole = [] || fraction = [] || !fraction.all isdigit then none
    else some ((decimal (whole ++ fraction) : ℚ) / (10 : ℚ) ^ fraction.length)
  | _ => none

def EPS : ℚ := 1 / 10 ^ 10

/-- The three-way comparison of two tokens that are not both empty; 0 goes on with the next. -/
def compareToken (mstr : Bool) (t₁ t₂ : Token) : ℤ :=
  let byText : ℤ := if t₁ = t₂ then 0 else if t₁ < t₂ then 1 else -1
  if t₁ = [] || t₂ = [] then (if t₁.length < t₂.length then 1 else -1)
  else if mstr then byText
  else match lexical_cast t₁, lexical_cast t₂ with
    | some d₁, some d₂ => if |d₁ - d₂| < EPS then 0 else if d₁ < d₂ then 1 else -1
    | _, _ => byText

/-- The loop of `str_compare_nat`, and the comparison of the lengths after it. -/
def compareFrom : Bool → List Token → List Token → ℤ
  | _, [], [] => 0
  | _, [], _ :: _ => 1
  | _, _ :: _, [] => -1
  | mstr, t₁ :: tokens₁, t₂ :: tokens₂ =>
    if t₁ = [] && t₂ = [] then compareFrom (!mstr) tokens₁ tokens₂
    else match compareToken mstr t₁ t₂ with
      | 0 => compareFrom (!mstr) tokens₁ tokens₂
      | c => c

def str_compare_nat (s₁ s₂ : String) : ℤ :=
  compareFrom true (merge_floats (tokenize_string s₁.toList))
    (merge_floats (tokenize_string s₂.toList))

end VaeDb.Util
