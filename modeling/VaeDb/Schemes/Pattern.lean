import Mathlib.Data.List.Forall2
import Mathlib.Data.List.TakeWhile
import Mathlib.Logic.Relation
import Mathlib.Tactic.Common

/-! Patterns and replacement, as Perl's regular expressions do it.

    A pattern is a sequence of atoms: one character of a class, a run of such characters, or one of
    several words. A run takes as many characters as it can and gives them back one by one when the
    rest does not match; words are tried in their order. `replace` rewrites the leftmost match.
    The second half says what a match is without the search: a text cut into pieces, one for each
    atom. The search finds one if there is one.

        text:   … x [ a b c ] …
        atoms:      [ name+ ]          rewrite:  [ name+ /text() ] -/

namespace Schemes

inductive Atom where
  | one (p : Char → Bool)
  | run (p : Char → Bool)
  | words (ws : List String)

abbrev Pattern := List Atom

/-- A part of a rewrite: fixed text, or the text that an atom matched. -/
inductive Part where
  | text (s : String)
  | atom (i : ℕ)

abbrev Rewrite := List Part

/-- The first success among `f n`, `f (n - 1)`, ..., `f 1`. -/
def downFrom {α : Type} (f : ℕ → Option α) : ℕ → Option α
  | 0 => none
  | n + 1 => match f (n + 1) with
    | some a => some a
    | none => downFrom f n

namespace Pattern

/-- Match at the start of a text: the text of each atom, and what is left. -/
def matchAt : Pattern → List Char → Option (List (List Char) × List Char)
  | [], s => some ([], s)
  | .one _ :: _, [] => none
  | .one p :: atoms, c :: s =>
    if p c then (matchAt atoms s).map fun (ms, rest) => ([c] :: ms, rest) else none
  | .run p :: atoms, s =>
    downFrom (fun n => (matchAt atoms (s.drop n)).map fun (ms, rest) => (s.take n :: ms, rest))
      (s.takeWhile p).length
  | .words ws :: atoms, s =>
    ws.findSome? fun w =>
      if w.toList.isPrefixOf s then
        (matchAt atoms (s.drop w.length)).map fun (ms, rest) => (w.toList :: ms, rest)
      else none

end Pattern

def Rewrite.apply (rewrite : Rewrite) (ms : List (List Char)) : List Char :=
  rewrite.flatMap fun
    | .text s => s.toList
    | .atom i => ms.getD i []

/-- Rewrite the leftmost match; `none` where there is none. -/
def replace (pattern : Pattern) (rewrite : Rewrite) : List Char → Option (List Char)
  | [] => (pattern.matchAt []).map fun (ms, rest) => rewrite.apply ms ++ rest
  | c :: s => match pattern.matchAt (c :: s) with
    | some (ms, rest) => some (rewrite.apply ms ++ rest)
    | none => (replace pattern rewrite s).map (c :: ·)

/-- `while (Replace) {}`, for at most `fuel` rounds; `none` where it takes more. -/
def replaceWhile (pattern : Pattern) (rewrite : Rewrite) : ℕ → List Char → Option (List Char)
  | 0, _ => none
  | fuel + 1, s => match replace pattern rewrite s with
    | none => some s
    | some s' => replaceWhile pattern rewrite fuel s'

/-! ### What matches -/

/-- The texts that an atom takes. -/
def Atom.Accepts : Atom → List Char → Prop
  | .one p, m => ∃ c, p c ∧ m = [c]
  | .run p, m => m ≠ [] ∧ ∀ c ∈ m, p c
  | .words ws, m => ∃ w ∈ ws, m = w.toList

section
variable {pattern : Pattern} {rewrite : Rewrite} {ms : List (List Char)} {s s' rest : List Char}

theorem downFrom_eq_some {α : Type} {f : ℕ → Option α} {n : ℕ} {a : α}
    (h : downFrom f n = some a) : ∃ k, 0 < k ∧ k ≤ n ∧ f k = some a := by
  induction n with
  | zero => cases h
  | succ n ih =>
    rw [downFrom] at h
    cases hf : f (n + 1) with
    | some b =>
      rw [hf] at h
      exact ⟨n + 1, by omega, le_rfl, hf.trans h⟩
    | none =>
      rw [hf] at h
      obtain ⟨k, hpos, hle, hk⟩ := ih h
      exact ⟨k, hpos, by omega, hk⟩

theorem downFrom_isSome {α : Type} {f : ℕ → Option α} {n k : ℕ} (hpos : 0 < k) (hle : k ≤ n)
    (h : (f k).isSome) : (downFrom f n).isSome := by
  induction n with
  | zero => omega
  | succ n ih =>
    rw [downFrom]
    cases hf : f (n + 1) with
    | some b => rfl
    | none =>
      have hne : k ≠ n + 1 := by
        rintro rfl
        simp [hf] at h
      exact ih (by omega)

theorem forall_mem_take_takeWhile {p : Char → Bool} {n : ℕ} (h : n ≤ (s.takeWhile p).length) :
    ∀ c ∈ s.take n, p c := by
  intro c hc
  have hfront : s.take n <+: s.takeWhile p := by
    apply List.prefix_of_prefix_length_le (List.take_prefix n s) (List.takeWhile_prefix p)
    rw [List.length_take]
    omega
  exact List.mem_takeWhile_imp (hfront.subset hc)

theorem length_le_takeWhile {p : Char → Bool} {m : List Char} (h : ∀ c ∈ m, p c) :
    m.length ≤ ((m ++ rest).takeWhile p).length := by
  rw [List.takeWhile_append_of_pos h, List.length_append]
  omega

/-- A match is a text for each atom, one after another. -/
theorem Pattern.matchAt_sound (h : pattern.matchAt s = some (ms, rest)) :
    List.Forall₂ Atom.Accepts pattern ms ∧ s = ms.flatten ++ rest := by
  induction pattern generalizing s ms rest with
  | nil =>
    obtain ⟨rfl, rfl⟩ := Prod.mk.inj (Option.some.inj h)
    exact ⟨.nil, rfl⟩
  | cons atom atoms ih =>
    cases atom with
    | one p =>
      cases s with
      | nil => cases h
      | cons c s =>
        rw [matchAt] at h
        split at h
        · next hc =>
          obtain ⟨m, hm, heq⟩ := Option.map_eq_some_iff.mp h
          obtain ⟨rfl, rfl⟩ := Prod.mk.inj heq
          obtain ⟨hall, rfl⟩ := ih hm
          exact ⟨.cons ⟨c, hc, rfl⟩ hall, rfl⟩
        · cases h
    | run p =>
      obtain ⟨n, hpos, hle, hn⟩ := downFrom_eq_some h
      obtain ⟨m, hm, heq⟩ := Option.map_eq_some_iff.mp hn
      obtain ⟨rfl, rfl⟩ := Prod.mk.inj heq
      obtain ⟨hall, hdrop⟩ := ih hm
      have hlen : (s.takeWhile p).length ≤ s.length := (List.takeWhile_prefix p).length_le
      refine ⟨.cons ⟨?_, forall_mem_take_takeWhile hle⟩ hall, ?_⟩
      · intro hnil
        have := congrArg List.length hnil
        simp only [List.length_take, List.length_nil] at this
        omega
      · rw [List.flatten_cons, List.append_assoc, ← hdrop, List.take_append_drop]
    | words ws =>
      rw [matchAt] at h
      obtain ⟨w, hw, hfound⟩ := List.exists_of_findSome?_eq_some h
      split at hfound
      · next hfront =>
        obtain ⟨m, hm, heq⟩ := Option.map_eq_some_iff.mp hfound
        obtain ⟨rfl, rfl⟩ := Prod.mk.inj heq
        obtain ⟨hall, hdrop⟩ := ih hm
        obtain ⟨t, rfl⟩ := List.isPrefixOf_iff_prefix.mp hfront
        rw [← String.length_toList, List.drop_left] at hdrop
        refine ⟨.cons ⟨w, hw, rfl⟩ hall, ?_⟩
        rw [List.flatten_cons, List.append_assoc, ← hdrop]
      · cases hfound

/-- The search gives back characters until it finds a match. -/
theorem Pattern.matchAt_complete (h : List.Forall₂ Atom.Accepts pattern ms) :
    (pattern.matchAt (ms.flatten ++ rest)).isSome := by
  induction h with
  | nil => rfl
  | @cons atom m atoms ms hm _ ih =>
    cases atom with
    | one p =>
      obtain ⟨c, hc, rfl⟩ := hm
      simp [matchAt, hc, ih]
    | run p =>
      obtain ⟨hne, hall⟩ := hm
      rw [matchAt, List.flatten_cons, List.append_assoc]
      apply downFrom_isSome (List.length_pos_of_ne_nil hne) (length_le_takeWhile hall)
      rw [List.drop_left, Option.isSome_map]
      exact ih
    | words ws =>
      obtain ⟨w, hw, rfl⟩ := hm
      rw [matchAt, List.findSome?_isSome_iff]
      refine ⟨w, hw, ?_⟩
      rw [List.flatten_cons, List.append_assoc, if_pos (by simp), ← String.length_toList,
        List.drop_left, Option.isSome_map]
      exact ih

/-- There is nothing to rewrite exactly if no match stands anywhere. -/
theorem replace_eq_none :
    replace pattern rewrite s = none ↔
      ∀ a ms b, List.Forall₂ Atom.Accepts pattern ms → s ≠ a ++ ms.flatten ++ b := by
  have hstart : ∀ s, pattern.matchAt s = none ↔
      ∀ ms b, List.Forall₂ Atom.Accepts pattern ms → s ≠ ms.flatten ++ b := by
    intro s
    constructor
    · intro h ms b hall heq
      have hsome : (pattern.matchAt (ms.flatten ++ b)).isSome := Pattern.matchAt_complete hall
      rw [← heq, h] at hsome
      cases hsome
    · intro h
      cases hm : pattern.matchAt s with
      | none => rfl
      | some found => exact absurd (Pattern.matchAt_sound hm).2 (h _ _ (Pattern.matchAt_sound hm).1)
  induction s with
  | nil =>
    rw [replace, Option.map_eq_none_iff, hstart]
    constructor
    · intro h a ms b hall heq
      have hnil := List.append_eq_nil_iff.mp heq.symm
      obtain rfl := (List.append_eq_nil_iff.mp hnil.1).1
      exact h ms b hall heq
    · exact fun h ms b hall => h [] ms b hall
  | cons c s ih =>
    rw [replace]
    constructor
    · intro h a ms b hall heq
      cases hm : pattern.matchAt (c :: s) with
      | some found => simp [hm] at h
      | none =>
        rw [hm, Option.map_eq_none_iff] at h
        cases a with
        | nil => exact (hstart _).mp hm ms b hall heq
        | cons d a => exact ih.mp h a ms b hall (List.cons.inj heq).2
    · intro h
      rw [(hstart _).mpr fun ms b hall => h [] ms b hall, Option.map_eq_none_iff]
      refine ih.mpr fun a ms b hall heq => ?_
      exact h (c :: a) ms b hall (by simp [heq])

/-- A rewrite puts its text in the place of a match. -/
theorem replace_eq_some (h : replace pattern rewrite s = some s') :
    ∃ a ms b, List.Forall₂ Atom.Accepts pattern ms ∧ s = a ++ ms.flatten ++ b ∧
      s' = a ++ rewrite.apply ms ++ b := by
  induction s generalizing s' with
  | nil =>
    obtain ⟨m, hm, rfl⟩ := Option.map_eq_some_iff.mp h
    exact ⟨[], m.1, m.2, (Pattern.matchAt_sound hm).1, (Pattern.matchAt_sound hm).2, rfl⟩
  | cons c s ih =>
    rw [replace] at h
    cases hm : pattern.matchAt (c :: s) with
    | some m =>
      rw [hm] at h
      obtain rfl := Option.some.inj h
      exact ⟨[], m.1, m.2, (Pattern.matchAt_sound hm).1, (Pattern.matchAt_sound hm).2, rfl⟩
    | none =>
      rw [hm] at h
      obtain ⟨t, ht, rfl⟩ := Option.map_eq_some_iff.mp h
      obtain ⟨a, ms, b, hall, rfl, rfl⟩ := ih ht
      exact ⟨c :: a, ms, b, hall, rfl, rfl⟩

/-- Where a cut of a text goes, seen from a piece of it: behind the piece, in front of it, or inside. -/
theorem infix_cut {x w y u v : List Char} (h : x ++ w ++ y = u ++ v) :
    (∃ z, u = x ++ w ++ z ∧ y = z ++ v) ∨ (∃ z, x = u ++ z ∧ v = z ++ w ++ y) ∨
      ∃ w₁ w₂, w₁ ≠ [] ∧ w₂ ≠ [] ∧ w = w₁ ++ w₂ ∧ u = x ++ w₁ ∧ v = w₂ ++ y := by
  rcases List.append_eq_append_iff.mp h with ⟨z, hu, hy⟩ | ⟨w₂, hw, rfl⟩
  · exact .inl ⟨z, hu, hy⟩
  · rcases List.append_eq_append_iff.mp hw with ⟨w₁, rfl, rfl⟩ | ⟨z, rfl, rfl⟩
    · by_cases h₁ : w₁ = []
      · subst h₁
        exact .inr (.inl ⟨[], by simp, rfl⟩)
      · by_cases h₂ : w₂ = []
        · subst h₂
          exact .inl ⟨[], by simp, rfl⟩
        · exact .inr (.inr ⟨w₁, w₂, h₁, h₂, rfl, rfl, rfl⟩)
    · exact .inr (.inl ⟨z, rfl, rfl⟩)

/-! ### Rewriting to the end -/

/-- A loop that has ended has made its rounds, and finds nothing more. -/
theorem replaceWhile_eq_some {fuel : ℕ} (h : replaceWhile pattern rewrite fuel s = some s') :
    Relation.ReflTransGen (fun s s' => replace pattern rewrite s = some s') s s' ∧
      replace pattern rewrite s' = none := by
  induction fuel generalizing s with
  | zero => cases h
  | succ fuel ih =>
    rw [replaceWhile] at h
    cases hs : replace pattern rewrite s with
    | none =>
      rw [hs] at h
      obtain rfl := Option.some.inj h
      exact ⟨.refl, hs⟩
    | some t =>
      rw [hs] at h
      obtain ⟨hrounds, hnone⟩ := ih h
      exact ⟨.head hs hrounds, hnone⟩

/-- A loop ends if each round brings a measure down. -/
theorem replaceWhile_terminates (size : List Char → ℕ)
    (hsize : ∀ s s', replace pattern rewrite s = some s' → size s' < size s) {fuel : ℕ}
    (hfuel : size s < fuel) : ∃ s', replaceWhile pattern rewrite fuel s = some s' := by
  induction fuel generalizing s with
  | zero => omega
  | succ fuel ih =>
    rw [replaceWhile]
    cases hs : replace pattern rewrite s with
    | none => exact ⟨s, rfl⟩
    | some t => exact ih (by have := hsize s t hs; omega)

end

end Schemes
