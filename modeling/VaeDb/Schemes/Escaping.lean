import Mathlib.Data.List.Basic
import Mathlib.Data.Nat.Notation
import Mathlib.Tactic.Common

/-! Escaping, and texts that say themselves where they end.

    One escape character stands in front of each special character, and is special itself. To read a
    text back is to drop each escape character and to take what follows it as it is.

        s            a  \  b  "  c
        escape s     a  \\ b  \" c
        quote s    " a  \\ b  \" c "

    A quote that is not escaped ends a text, whatever follows; so the quoted texts can be put one
    behind another, in pairs and in lists, and still be told apart. -/

namespace Schemes

universe u v w

variable {α : Type u} {β : Type v} {γ : Type w}

/-- `esc` in front of every special character. -/
def escape (esc : α) (special : α → Bool) : List α → List α
  | [] => []
  | c :: s => if special c then esc :: c :: escape esc special s else c :: escape esc special s

/-- The character behind `esc` is taken as it is. -/
def unescape [DecidableEq α] (esc : α) : List α → List α
  | [] => []
  | [c] => [c]
  | c :: d :: s => if c = esc then d :: unescape esc s else c :: unescape esc (d :: s)

/-- An escaped text between quotes. -/
def quote (esc q : α) (special : α → Bool) (s : List α) : List α :=
  q :: (escape esc special s ++ [q])

variable {esc q : α} {special : α → Bool} {s t u v : List α}

/-! ### Reading back -/

theorem unescape_cons [DecidableEq α] {c : α} (hc : c ≠ esc) (s : List α) :
    unescape esc (c :: s) = c :: unescape esc s := by
  cases s with
  | nil => rfl
  | cons d s => rw [unescape, if_neg hc]

theorem unescape_esc [DecidableEq α] (c : α) (s : List α) :
    unescape esc (esc :: c :: s) = c :: unescape esc s := by
  rw [unescape, if_pos rfl]

/-- Escaping is undone. -/
theorem unescape_escape [DecidableEq α] (hesc : special esc) (s : List α) :
    unescape esc (escape esc special s) = s := by
  induction s with
  | nil => rfl
  | cons c s ih =>
    rw [escape]
    split
    · rw [unescape_esc, ih]
    · next hc =>
      have hne : c ≠ esc := fun heq => hc (heq ▸ hesc)
      rw [unescape_cons hne, ih]

/-- A text without special characters is left as it is. -/
theorem escape_of_plain (h : ∀ c ∈ s, ¬ special c) : escape esc special s = s := by
  induction s with
  | nil => rfl
  | cons c s ih =>
    rw [escape, if_neg (h c List.mem_cons_self), ih fun d hd => h d (List.mem_cons_of_mem c hd)]

/-! ### Texts that end by themselves -/

/-- Where a text that `f` writes ends does not depend on what follows. -/
def SelfDelimiting (f : β → List α) : Prop :=
  ∀ ⦃x y : β⦄ ⦃u v : List α⦄, f x ++ u = f y ++ v → x = y ∧ u = v

variable {f : β → List α} {g : γ → List α}

theorem SelfDelimiting.injective (hf : SelfDelimiting f) : Function.Injective f := by
  intro x y heq
  have happend : f x ++ [] = f y ++ [] := by rw [heq]
  exact (hf happend).1

/-- No escaped text starts with a special character other than the escape character. -/
theorem escape_cons_ne (hq : special q) (hne : q ≠ esc) (c : α) (s u v : List α) :
    escape esc special (c :: s) ++ u ≠ q :: v := by
  intro h
  rw [escape] at h
  split at h
  · exact hne (List.cons.inj h).1.symm
  · next hc => exact hc ((List.cons.inj h).1 ▸ hq)

/-- Of an escaped text and the quote behind it, the first quote that is not escaped is that one. -/
theorem escape_append_inj (hesc : special esc) (hq : special q) (hne : q ≠ esc) :
    ∀ {s t : List α}, escape esc special s ++ q :: u = escape esc special t ++ q :: v →
      s = t ∧ u = v
  | [], [], h => ⟨rfl, (List.cons.inj h).2⟩
  | [], d :: t, h => absurd h.symm (escape_cons_ne hq hne d t _ _)
  | c :: s, [], h => absurd h (escape_cons_ne hq hne c s _ _)
  | c :: s, d :: t, h => by
    rw [escape, escape] at h
    split at h <;> split at h
    · have hrest := List.cons.inj (List.cons.inj h).2
      have ih := escape_append_inj hesc hq hne hrest.2
      exact ⟨by rw [hrest.1, ih.1], ih.2⟩
    · next hd => exact absurd ((List.cons.inj h).1 ▸ hesc) hd
    · next hc _ => exact absurd ((List.cons.inj h).1.symm ▸ hesc) hc
    · have hrest := List.cons.inj h
      have ih := escape_append_inj hesc hq hne hrest.2
      exact ⟨by rw [hrest.1, ih.1], ih.2⟩

theorem selfDelimiting_quote (hesc : special esc) (hq : special q) (hne : q ≠ esc) :
    SelfDelimiting (quote esc q special) := by
  intro s t u v h
  have hbody : escape esc special s ++ q :: u = escape esc special t ++ q :: v := by
    simpa [quote] using h
  exact escape_append_inj hesc hq hne hbody

theorem SelfDelimiting.append (hf : SelfDelimiting f) (hg : SelfDelimiting g) :
    SelfDelimiting fun e : β × γ => f e.1 ++ g e.2 := by
  intro x y u v h
  simp only [List.append_assoc] at h
  obtain ⟨hfst, hrest⟩ := hf h
  obtain ⟨hsnd, htail⟩ := hg hrest
  exact ⟨Prod.ext hfst hsnd, htail⟩

/-- A fixed text may follow. -/
theorem SelfDelimiting.followed (hf : SelfDelimiting f) (w : List α) :
    SelfDelimiting fun x => f x ++ w := by
  intro x y u v h
  rw [List.append_assoc, List.append_assoc] at h
  obtain ⟨hx, hrest⟩ := hf h
  exact ⟨hx, List.append_cancel_left hrest⟩

/-- A list ends with a character that no item starts with. -/
theorem SelfDelimiting.list {fin : α} (hf : SelfDelimiting f)
    (hfin : ∀ (x : β) (u v : List α), f x ++ u ≠ fin :: v) :
    SelfDelimiting fun l : List β => l.flatMap f ++ [fin] := by
  intro l m u v h
  induction l generalizing m with
  | nil =>
    cases m with
    | nil => exact ⟨rfl, (List.cons.inj h).2⟩
    | cons y m =>
      simp only [List.flatMap_cons, List.append_assoc] at h
      exact absurd h.symm (hfin _ _ _)
  | cons x l ih =>
    cases m with
    | nil =>
      simp only [List.flatMap_cons, List.append_assoc] at h
      exact absurd h (hfin _ _ _)
    | cons y m =>
      simp only [List.flatMap_cons, List.append_assoc] at h
      obtain ⟨hx, hrest⟩ := hf h
      obtain ⟨hl, htail⟩ := ih (by simpa using hrest)
      exact ⟨by rw [hx, hl], htail⟩

end Schemes
