import Mathlib.Algebra.GroupWithZero.Nat
import Mathlib.Data.List.Basic
import Mathlib.Tactic.Common

/-! Quoted literals in a text.

    A literal starts with a quote, single or double, and ends with the next quote of the same kind;
    there is no escape. A reader goes through a text from left to right and keeps the literals that
    are complete. Of where it stands only the mode matters for what follows: outside of literals, or
    inside of one with its quote.

        text:    a [ x = ' i t " s ' ]
        mode:    o o o o   ' ' ' ' '   o

    Two texts that are fed to readers in the same mode leave them in the same mode, and the weight
    of a text counts the characters of some kind that it has inside of literals. -/

namespace Schemes

inductive Quote where
  | single
  | double
  deriving DecidableEq

def Quote.char : Quote → Char
  | .single => '\''
  | .double => '"'

/-- The literal that a character starts. -/
def quoteOf (c : Char) : Option Quote :=
  if c = '\'' then some .single else if c = '"' then some .double else none

abbrev Literal := Quote × List Char

/-- The literal being read, if any, and those that are complete. -/
structure Reader where
  current : Option Literal
  literals : List Literal

namespace Reader

def start : Reader := ⟨none, []⟩

def read (r : Reader) (c : Char) : Reader :=
  match r.current with
  | none => ⟨(quoteOf c).map (·, []), r.literals⟩
  | some (q, text) =>
    if c = q.char then ⟨none, r.literals ++ [(q, text)]⟩ else ⟨some (q, text ++ [c]), r.literals⟩

def feed (r : Reader) (s : List Char) : Reader := s.foldl read r

def mode (r : Reader) : Option Quote := r.current.map Prod.fst

theorem feed_append (r : Reader) (u v : List Char) : r.feed (u ++ v) = (r.feed u).feed v :=
  List.foldl_append

theorem feed_cons (r : Reader) (c : Char) (s : List Char) : r.feed (c :: s) = (r.read c).feed s := rfl

end Reader

/-! ### Modes -/

def nextMode : Option Quote → Char → Option Quote
  | none, c => quoteOf c
  | some q, c => if c = q.char then none else some q

/-- The mode after a text. -/
def modeAfter (m : Option Quote) (s : List Char) : Option Quote := s.foldl nextMode m

variable {m : Option Quote} {s u v : List Char}

theorem modeAfter_append (m : Option Quote) (u v : List Char) :
    modeAfter m (u ++ v) = modeAfter (modeAfter m u) v := List.foldl_append

theorem modeAfter_cons (m : Option Quote) (c : Char) (s : List Char) :
    modeAfter m (c :: s) = modeAfter (nextMode m c) s := rfl

theorem nextMode_of_plain {c : Char} (h : quoteOf c = none) (m : Option Quote) : nextMode m c = m := by
  cases m with
  | none => exact h
  | some q =>
    have hne : c ≠ q.char := by
      rintro rfl
      cases q <;> simp [quoteOf, Quote.char] at h
    exact if_neg hne

/-- Without quotes nothing changes. -/
theorem modeAfter_of_plain (h : ∀ c ∈ s, quoteOf c = none) (m : Option Quote) : modeAfter m s = m := by
  induction s with
  | nil => rfl
  | cons c s ih =>
    rw [modeAfter_cons, nextMode_of_plain (h c (by simp)), ih fun c hc => h c (by simp [hc])]

theorem Reader.mode_read (r : Reader) (c : Char) : (r.read c).mode = nextMode r.mode c := by
  obtain ⟨current, literals⟩ := r
  cases current with
  | none => cases h : quoteOf c <;> simp [Reader.read, Reader.mode, nextMode, h]
  | some literal =>
    simp only [Reader.read, Reader.mode, nextMode, Option.map_some]
    split <;> rfl

theorem Reader.mode_feed (r : Reader) (s : List Char) : (r.feed s).mode = modeAfter r.mode s := by
  induction s generalizing r with
  | nil => rfl
  | cons c s ih => rw [Reader.feed_cons, ih, Reader.mode_read, modeAfter_cons]

theorem Reader.mode_eq_none {r : Reader} : r.mode = none ↔ r.current = none := by
  simp [Reader.mode]

/-! ### What is inside -/

/-- The number of characters of a kind that a text has inside of literals. -/
def weight (p : Char → Bool) : Option Quote → List Char → ℕ
  | _, [] => 0
  | m, c :: s => (if m.isSome && p c then 1 else 0) + weight p (nextMode m c) s

variable {p : Char → Bool}

theorem weight_append (m : Option Quote) (u v : List Char) :
    weight p m (u ++ v) = weight p m u + weight p (modeAfter m u) v := by
  induction u generalizing m with
  | nil => simp [weight, modeAfter]
  | cons c u ih => rw [List.cons_append, weight, weight, ih, modeAfter_cons, Nat.add_assoc]

def Literal.weight (p : Char → Bool) (l : Literal) : ℕ := l.2.countP p

def Reader.weight (p : Char → Bool) (r : Reader) : ℕ :=
  (r.literals.map (Literal.weight p)).sum + (r.current.map (Literal.weight p)).getD 0

theorem Reader.weight_read (hp : ∀ q : Quote, ¬ p q.char) (r : Reader) (c : Char) :
    (r.read c).weight p = r.weight p + if r.mode.isSome && p c then 1 else 0 := by
  obtain ⟨current, literals⟩ := r
  cases current with
  | none => cases h : quoteOf c <;> simp [Reader.read, Reader.weight, Reader.mode, Literal.weight, h]
  | some literal =>
    obtain ⟨q, text⟩ := literal
    simp only [Reader.read, Reader.mode, Option.map_some, Option.isSome_some, Bool.true_and]
    split
    · next hc => simp [Reader.weight, hc, hp q]
    · simp [Reader.weight, Literal.weight, List.countP_append, List.countP_singleton]
      omega

/-- A reader gathers the weight of what it is fed. -/
theorem Reader.weight_feed (hp : ∀ q : Quote, ¬ p q.char) (r : Reader) (s : List Char) :
    (r.feed s).weight p = r.weight p + Schemes.weight p r.mode s := by
  induction s generalizing r with
  | nil => rfl
  | cons c s ih =>
    rw [Reader.feed_cons, ih, Reader.weight_read hp, Reader.mode_read, Schemes.weight, Nat.add_assoc]

/-! ### New literals between the old ones -/

/-- The second list is the first one with new literals put in. -/
inductive Keeps (new : Literal → Prop) : List Literal → List Literal → Prop
  | nil : Keeps new [] []
  | keep {l : Literal} {L L' : List Literal} : Keeps new L L' → Keeps new (l :: L) (l :: L')
  | insert {l : Literal} {L L' : List Literal} : new l → Keeps new L L' → Keeps new L (l :: L')

variable {new : Literal → Prop} {L M N L' M' : List Literal}

theorem Keeps.refl : ∀ L : List Literal, Keeps new L L
  | [] => .nil
  | _ :: L => .keep (Keeps.refl L)

theorem Keeps.trans (h : Keeps new L M) (h' : Keeps new M N) : Keeps new L N := by
  induction h' generalizing L with
  | nil => exact h
  | keep _ ih =>
    cases h with
    | keep h => exact .keep (ih h)
    | insert hl h => exact .insert hl (ih h)
  | insert hl _ ih => exact .insert hl (ih h)

theorem Keeps.append (h : Keeps new L M) (h' : Keeps new L' M') : Keeps new (L ++ L') (M ++ M') := by
  induction h with
  | nil => exact h'
  | keep _ ih => exact .keep ih
  | insert hl _ ih => exact .insert hl ih

theorem Keeps.weight (hnew : ∀ l, new l → l.weight p = 0) (h : Keeps new L M) :
    (M.map (Literal.weight p)).sum = (L.map (Literal.weight p)).sum := by
  induction h with
  | nil => rfl
  | keep _ ih => rw [List.map_cons, List.map_cons, List.sum_cons, List.sum_cons, ih]
  | insert hl _ ih => rw [List.map_cons, List.sum_cons, hnew _ hl, Nat.zero_add, ih]

/-- A reader that has read the same, and new literals in between. -/
structure Reader.Kept (new : Literal → Prop) (r r' : Reader) : Prop where
  current : r.current = r'.current
  literals : Keeps new r.literals r'.literals

theorem Reader.Kept.trans {r r' r'' : Reader} (h : r.Kept new r') (h' : r'.Kept new r'') :
    r.Kept new r'' := ⟨h.current.trans h'.current, h.literals.trans h'.literals⟩

theorem Reader.Kept.mode {r r' : Reader} (h : r.Kept new r') : r.mode = r'.mode :=
  congrArg (Option.map Prod.fst) h.current

theorem Reader.Kept.read {r r' : Reader} (h : r.Kept new r') (c : Char) :
    (r.read c).Kept new (r'.read c) := by
  obtain ⟨current, literals⟩ := r
  obtain ⟨current', literals'⟩ := r'
  obtain ⟨heq, hkeeps⟩ := h
  change current = current' at heq
  subst heq
  cases current with
  | none => exact ⟨rfl, hkeeps⟩
  | some literal =>
    simp only [Reader.read]
    split
    · exact ⟨rfl, hkeeps.append (Keeps.refl _)⟩
    · exact ⟨rfl, hkeeps⟩

theorem Reader.Kept.feed {r r' : Reader} (h : r.Kept new r') (s : List Char) :
    (r.feed s).Kept new (r'.feed s) := by
  induction s generalizing r r' with
  | nil => exact h
  | cons c s ih => exact ih (h.read c)

/-- What is read outside of literals leaves no trace, and a whole literal is one more. -/
theorem Reader.feed_of_plain {r : Reader} (h : r.current = none) (hs : ∀ c ∈ s, quoteOf c = none) :
    r.feed s = r := by
  induction s with
  | nil => rfl
  | cons c s ih =>
    have hread : r.read c = r := by
      obtain ⟨current, literals⟩ := r
      change current = none at h
      subst h
      simp [Reader.read, hs c (by simp)]
    rw [Reader.feed_cons, hread, ih fun c hc => hs c (by simp [hc])]

theorem Reader.feed_text {L : List Literal} {q : Quote} {text : List Char} (hs : q.char ∉ s) :
    Reader.feed ⟨some (q, text), L⟩ s = ⟨some (q, text ++ s), L⟩ := by
  induction s generalizing text with
  | nil => simp [Reader.feed]
  | cons c s ih =>
    rw [List.mem_cons, not_or] at hs
    have hread : Reader.read ⟨some (q, text), L⟩ c = ⟨some (q, text ++ [c]), L⟩ :=
      if_neg fun heq => hs.1 heq.symm
    rw [Reader.feed_cons, hread, ih hs.2, List.append_assoc, List.singleton_append]

theorem Reader.feed_literal {L : List Literal} {q : Quote} (hs : q.char ∉ s) :
    Reader.feed ⟨none, L⟩ (q.char :: s ++ [q.char]) = ⟨none, L ++ [(q, s)]⟩ := by
  have hopen : Reader.read ⟨none, L⟩ q.char = ⟨some (q, []), L⟩ := by
    cases q <;> rfl
  rw [List.cons_append, Reader.feed_cons, hopen, Reader.feed_append, Reader.feed_text hs,
    List.nil_append]
  exact if_pos rfl

end Schemes
