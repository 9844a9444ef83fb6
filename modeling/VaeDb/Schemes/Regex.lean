import Mathlib.Data.List.Infix
import Mathlib.Data.Nat.Notation
import Mathlib.Tactic.Common

/-! Regular expressions with groups, as a backtracking engine runs them.

    `run` lists the ways to match from a place in the text, in the order in which the engine tries
    them: an alternative before the next one, a repetition with as many rounds as possible before one
    with fewer. The match that counts is the first of the list, at the leftmost place that has one.

        text   a b ( c d ) e          \((.*)\)
                   ╰──┬──╯
                   group 1: c d

    `not_find_of_needs` is the rule for telling rules of a lexer apart: an expression that cannot
    match without a certain character finds nothing in a text without it. -/

namespace Schemes

inductive Regex where
  | empty
  | one (p : Char → Bool)
  | seq (r s : Regex)
  | alt (r s : Regex)
  | star (r : Regex)
  | group (n : ℕ) (r : Regex)
  /-- `\A` -/
  | start
  /-- `\Z`: also before a newline that ends the text -/
  | stop

/-- A place in the text, and the groups matched on the way there, the latest first. -/
structure Cursor where
  pos : ℕ
  rest : List Char
  groups : List (ℕ × List Char)

def Cursor.group (k : Cursor) (n : ℕ) : Option String := (k.groups.lookup n).map String.ofList

namespace Regex

/-- A fixed text. -/
def text (s : String) : Regex := s.toList.foldr (fun c r => .seq (.one (· == c)) r) .empty

/-- `.` -/
def dot : Regex := .one (· ≠ '\n')

def plus (r : Regex) : Regex := .seq r (.star r)

/-- The rounds of a repetition, each of which has to get on in the text. -/
def rounds (next : Cursor → List Cursor) : ℕ → Cursor → List Cursor
  | 0, k => [k]
  | fuel + 1, k =>
    ((next k).filter fun k' => k'.rest.length < k.rest.length).flatMap (rounds next fuel) ++ [k]

/-- The ways to match from `k`, the preferred one first. -/
def run : Regex → Cursor → List Cursor
  | .empty, k => [k]
  | .one p, ⟨pos, c :: rest, groups⟩ => if p c then [⟨pos + 1, rest, groups⟩] else []
  | .one _, ⟨_, [], _⟩ => []
  | .seq r s, k => (r.run k).flatMap s.run
  | .alt r s, k => r.run k ++ s.run k
  | .star r, k => rounds r.run k.rest.length k
  | .group n r, k =>
    (r.run k).map fun k' =>
      { k' with groups := (n, k.rest.take (k.rest.length - k'.rest.length)) :: k'.groups }
  | .start, k => if k.pos = 0 then [k] else []
  | .stop, k => if k.rest = [] ∨ k.rest = ['\n'] then [k] else []

/-- The leftmost match from a place on: where it starts, and where it ends. -/
def findFrom (r : Regex) : ℕ → List Char → Option (ℕ × Cursor)
  | pos, [] => (r.run ⟨pos, [], []⟩).head?.map (pos, ·)
  | pos, c :: s => match (r.run ⟨pos, c :: s, []⟩).head? with
    | some k => some (pos, k)
    | none => findFrom r (pos + 1) s

def find (r : Regex) (s : List Char) : Option Cursor := (r.findFrom 0 s).map Prod.snd

/-- The matches one after another; after an empty one the search goes on a character later. -/
def scanFrom (r : Regex) : ℕ → ℕ → List Char → List Cursor
  | 0, _, _ => []
  | fuel + 1, pos, s => match r.findFrom pos s with
    | none => []
    | some (first, k) =>
      k :: if k.pos = first then scanFrom r fuel (k.pos + 1) k.rest.tail
        else scanFrom r fuel k.pos k.rest

def scan (r : Regex) (s : List Char) : List Cursor := r.scanFrom (s.length + 1) 0 s

/-! ### What a match takes -/

/-- Every match takes the character `c`. -/
def Needs (c : Char) : Regex → Prop
  | .one p => ∀ d, p d → d = c
  | .seq r s => r.Needs c ∨ s.Needs c
  | .alt r s => r.Needs c ∧ s.Needs c
  | .group _ r => r.Needs c
  | _ => False

theorem seq_needs_left {c : Char} {r : Regex} (h : r.Needs c) (s : Regex) : (seq r s).Needs c := .inl h

theorem seq_needs_right {c : Char} (r : Regex) {s : Regex} (h : s.Needs c) : (seq r s).Needs c :=
  .inr h

theorem text_needs {c : Char} {s : String} (h : c ∈ s.toList) : (text s).Needs c := by
  rw [text]
  generalize s.toList = cs at h ⊢
  induction cs with
  | nil => simp at h
  | cons d cs ih =>
    rcases List.mem_cons.mp h with rfl | h
    · exact .inl fun e he => by simpa using he
    · exact .inr (ih h)

variable {k k' : Cursor}

theorem rounds_suffix {next : Cursor → List Cursor}
    (hnext : ∀ k, ∀ k' ∈ next k, k'.rest <:+ k.rest) :
    ∀ fuel k, ∀ k' ∈ rounds next fuel k, k'.rest <:+ k.rest := by
  intro fuel
  induction fuel with
  | zero =>
    intro k k' hk'
    rw [List.mem_singleton.mp hk']
  | succ fuel ih =>
    intro k k' hk'
    rcases List.mem_append.mp hk' with h | h
    · obtain ⟨m, hm, hk'⟩ := List.mem_flatMap.mp h
      exact (ih m k' hk').trans (hnext k m (List.mem_of_mem_filter hm))
    · rw [List.mem_singleton.mp h]

/-- A match ends further on in the same text. -/
theorem run_suffix (r : Regex) : ∀ k, ∀ k' ∈ r.run k, k'.rest <:+ k.rest := by
  induction r with
  | empty =>
    intro k k' h
    rw [List.mem_singleton.mp h]
  | one p =>
    rintro ⟨pos, _ | ⟨c, rest⟩, groups⟩ k' h
    · simp [run] at h
    · rw [run] at h
      split at h
      · rw [List.mem_singleton.mp h]
        exact List.suffix_cons c rest
      · simp at h
  | seq r s ihr ihs =>
    intro k k' h
    obtain ⟨m, hm, hk'⟩ := List.mem_flatMap.mp h
    exact (ihs m k' hk').trans (ihr k m hm)
  | alt r s ihr ihs =>
    intro k k' h
    exact (List.mem_append.mp h).elim (ihr k k') (ihs k k')
  | star r ih => exact fun k => rounds_suffix ih _ k
  | group n r ih =>
    intro k k' h
    obtain ⟨m, hm, rfl⟩ := List.mem_map.mp h
    exact ih k m hm
  | start =>
    intro k k' h
    simp only [run, List.mem_ite_nil_right, List.mem_singleton] at h
    rw [h.2]
  | stop =>
    intro k k' h
    simp only [run, List.mem_ite_nil_right, List.mem_singleton] at h
    rw [h.2]

/-- A match takes the character it needs from the text. -/
theorem run_needs {c : Char} (r : Regex) (hr : r.Needs c) : ∀ k, r.run k ≠ [] → c ∈ k.rest := by
  induction r with
  | one p =>
    rintro ⟨pos, _ | ⟨d, rest⟩, groups⟩ h
    · simp [run] at h
    · by_cases hd : p d
      · rw [hr d hd]
        exact List.mem_cons_self
      · simp [run, hd] at h
  | seq r s ihr ihs =>
    intro k h
    obtain ⟨m, hm⟩ : ∃ m ∈ r.run k, s.run m ≠ [] := by simpa [run] using h
    rcases hr with hr | hs
    · exact ihr hr k (List.ne_nil_of_mem hm.1)
    · exact (r.run_suffix k m hm.1).mem (ihs hs m hm.2)
  | alt r s ihr ihs =>
    intro k h
    have : r.run k ≠ [] ∨ s.run k ≠ [] := by
      by_contra! hnil
      exact h (by simp [run, hnil])
    exact this.elim (ihr hr.1 k) (ihs hr.2 k)
  | group n r ih =>
    intro k h
    exact ih hr k fun hnil => h (by simp [run, hnil])
  | _ => exact hr.elim

/-- What needs a character finds nothing in a text without it. -/
theorem not_find_of_needs {c : Char} {r : Regex} (hr : r.Needs c) {s : List Char} (hs : c ∉ s) :
    r.find s = none := by
  have hrun : ∀ pos t, c ∉ t → r.run ⟨pos, t, []⟩ = [] := fun pos t ht => by
    by_contra h
    exact ht (run_needs r hr ⟨pos, t, []⟩ h)
  have hfrom : ∀ pos, r.findFrom pos s = none := by
    induction s with
    | nil =>
      intro pos
      simp [findFrom, hrun pos [] hs]
    | cons d t ih =>
      intro pos
      rw [findFrom, hrun pos (d :: t) hs]
      exact ih (fun h => hs (List.mem_cons_of_mem d h)) (pos + 1)
  rw [find, hfrom 0, Option.map_none]

/-- An expression that starts with `\A` matches at the beginning or not at all. -/
theorem find_start (r : Regex) (s : List Char) :
    (Regex.seq .start r).find s = (r.run ⟨0, s, []⟩).head? := by
  have hlater : ∀ pos t, (Regex.seq .start r).findFrom (pos + 1) t = none := by
    intro pos t
    induction t generalizing pos with
    | nil => simp [findFrom, run]
    | cons c t ih =>
      rw [findFrom, ih]
      simp [run]
  cases s with
  | nil => cases h : r.run ⟨0, [], []⟩ <;> simp [find, findFrom, run, h]
  | cons c s =>
    rw [find, findFrom, hlater]
    cases h : r.run ⟨0, c :: s, []⟩ <;> simp [run, h]

end Regex

end Schemes
