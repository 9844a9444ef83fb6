import Mathlib.Data.Int.Notation
import Mathlib.Data.Nat.Notation
import Mathlib.Tactic.Common

/-! The query log: one entry for every call that a client makes to the handler.

    An entry is framed by two lines that start with `#`; between them stand the method and its
    arguments, one line each, with their types. The handler ends each list of arguments with `"\n"`,
    which is an argument to the log like any other, of type `char[2]`.

        # begin query 7
        method_call(resetSite):
          string:"shop"
          string:"key"
          char[2]:"
        "
        # end resetSite query 7 after 25 microseconds.

    A quote or a backslash is escaped by a replacement that comes upon its own output and does not
    end; `none` stands for a replacement that takes more than `fuel` rounds. -/

namespace VaeDb.QueryLog

/-! ### Values -/

/-- `str.find(search, loc)`. -/
def find (str search : List Char) (loc : ℕ) : Option ℕ :=
  (List.range' loc (str.length + 1 - loc)).find? fun p => search.isPrefixOf (str.drop p)

/-- `str_replace`, from `loc` on. -/
def strReplace (search replacement : List Char) : ℕ → List Char → ℕ → Option (List Char)
  | 0, _, _ => none
  | fuel + 1, str, loc => match find str search loc with
    | none => some str
    | some p =>
      strReplace search replacement fuel
        (str.take p ++ replacement ++ str.drop (p + search.length)) (p + 1)

/-- A `std::map<string, string>`, in the order of its keys. -/
structure StringMap where
  entries : List (String × String)
  sorted : entries.Pairwise fun e f => e.1 < f.1

/-- An argument of a call. -/
inductive Arg where
  | string (s : String)
  | bool (b : Bool)
  | i32 (n : ℤ)
  | map (m : StringMap)
  /-- a literal of one character -/
  | char2 (c : Char)

/-- `ValueRep` of a string. -/
def quoted (fuel : ℕ) (s : String) : Option String := do
  let escaped ← strReplace ['\\'] ['\\', '\\'] fuel s.toList 0
  let escaped ← strReplace ['"'] ['\\', '"'] fuel escaped 0
  return "\"" ++ String.ofList escaped ++ "\""

/-- A key of a map with its value. -/
def quotedPair (fuel : ℕ) (e : String × String) : Option String := do
  return (← quoted fuel e.1) ++ ":" ++ (← quoted fuel e.2) ++ ","

namespace Arg

/-- `TypeHelper<T>::Name`. -/
def typeName : Arg → String
  | .string _ => "string"
  | .bool _ => "bool"
  | .i32 _ => "i32"
  | .map _ => "map<string,string>"
  | .char2 _ => "char[2]"

/-- `TypeHelper<T>::ValueRep`. -/
def valueRep (fuel : ℕ) : Arg → Option String
  | .string s => quoted fuel s
  | .bool b => some (if b then "1" else "0")
  | .i32 n => some (toString n)
  | .map m => do
    let parts ← m.entries.mapM (quotedPair fuel)
    return "\x7b" ++ String.join parts ++ "\x7d"
  | .char2 c => quoted fuel (String.ofList [c])

/-- `operator<<`. -/
def line (fuel : ℕ) (a : Arg) : Option String := do
  return "  " ++ a.typeName ++ ":" ++ (← a.valueRep fuel) ++ "\n"

end Arg

/-! ### Entries -/

/-- A call of the handler that is logged. -/
inductive Logged where
  | closeSession (sessionId : ℤ) (secretKey : String)
  | createInfo (sessionId responseId : ℤ) (query : String)
  | data (sessionId responseId : ℤ)
  | get (sessionId responseId : ℤ) (query : String) (options : StringMap)
  | openSession (subdomain secretKey : String) (stagingMode : Bool) (suggestedSessionId : ℤ)
  | resetSite (subdomain secretKey : String)
  | struct (sessionId responseId : ℤ)

namespace Logged

def methodName : Logged → String
  | .closeSession .. => "closeSession"
  | .createInfo .. => "createInfo"
  | .data .. => "data"
  | .get .. => "get"
  | .openSession .. => "openSession"
  | .resetSite .. => "resetSite"
  | .struct .. => "structure"

def args : Logged → List Arg
  | .closeSession sessionId secretKey => [.i32 sessionId, .string secretKey]
  | .createInfo sessionId responseId query => [.i32 sessionId, .i32 responseId, .string query]
  | .data sessionId responseId => [.i32 sessionId, .i32 responseId]
  | .get sessionId responseId query options =>
    [.i32 sessionId, .i32 responseId, .string query, .map options]
  | .openSession subdomain secretKey stagingMode suggestedSessionId =>
    [.string subdomain, .string secretKey, .bool stagingMode, .i32 suggestedSessionId]
  | .resetSite subdomain secretKey => [.string subdomain, .string secretKey]
  | .struct sessionId responseId => [.i32 sessionId, .i32 responseId]

end Logged

/-- A call, the time it took, and the subdomain if one was set. -/
structure Entry where
  call : Logged
  microseconds : ℤ
  subdomain : String

/-- The line before the method, without its newline. -/
def header (queryId : ℕ) : String := "# begin query " ++ toString queryId

/-- What the destructor of an entry adds. -/
def Entry.footer (queryId : ℕ) (e : Entry) : String :=
  "# end " ++ e.call.methodName ++ " query " ++ toString queryId ++ " after " ++
    toString e.microseconds ++ " microseconds" ++
    (if e.subdomain = "" then "" else " for " ++ e.subdomain) ++ ".\n\n"

/-- What an entry writes, from its construction to its destruction. -/
def Entry.text (fuel queryId : ℕ) (e : Entry) : Option String := do
  let lines ← (e.call.args ++ [Arg.char2 '\n']).mapM (Arg.line fuel)
  return header queryId ++ "\n" ++
    ("method_call(" ++ e.call.methodName ++ "):\n" ++ String.join lines ++ e.footer queryId)

/-- The entries one after another; the ids are those of an `unsigned` counter. -/
def write (fuel : ℕ) : ℕ → List Entry → Option String
  | _, [] => some ""
  | queryId, e :: es => do
    return (← e.text fuel queryId) ++ (← write fuel ((queryId + 1) % 4294967296) es)

/-! ### Which strings can be written -/

/-- Free of quotes, backslashes and newlines. -/
def Clean (s : String) : Prop := ∀ c ∈ s.toList, c ≠ '"' ∧ c ≠ '\\' ∧ c ≠ '\n'

instance (s : String) : Decidable (Clean s) := inferInstanceAs (Decidable (∀ c ∈ s.toList, _))

def Arg.Clean : Arg → Prop
  | .string s => QueryLog.Clean s
  | .map m => ∀ e ∈ m.entries, QueryLog.Clean e.1 ∧ QueryLog.Clean e.2
  | .char2 c => c ≠ '"' ∧ c ≠ '\\'
  | _ => True

/-- The strings among the arguments are clean. -/
def Logged.Clean (call : Logged) : Prop := ∀ a ∈ call.args, a.Clean

theorem find_eq_none {c : Char} {str : List Char} (h : c ∉ str) (loc : ℕ) :
    find str [c] loc = none := by
  refine List.find?_eq_none.mpr fun p _ hp => h ?_
  obtain ⟨t, ht⟩ := List.isPrefixOf_iff_prefix.mp hp
  have hmem : c ∈ str.drop p := by simp [← ht]
  exact List.mem_of_mem_drop hmem

theorem find_ne_none {c : Char} {str t : List Char} {loc p : ℕ} (hloc : loc ≤ p)
    (hp : str.drop p = c :: t) : find str [c] loc ≠ none := by
  have hlt : p < str.length := by
    by_contra hle
    simp [List.drop_eq_nil_of_le (Nat.le_of_not_lt hle)] at hp
  intro hnone
  refine List.find?_eq_none.mp hnone p (by simp; omega) ?_
  simp [hp]

theorem strReplace_of_not_mem {c : Char} {str : List Char} (h : c ∉ str) (replacement : List Char)
    (fuel loc : ℕ) : strReplace [c] replacement (fuel + 1) str loc = some str := by
  rw [strReplace, find_eq_none h]

/-- The replacement keeps the character, one place further on, where the search finds it again. -/
theorem strReplace_hangs (b c : Char) : ∀ (fuel : ℕ) (str : List Char) (loc : ℕ),
    find str [c] loc ≠ none → strReplace [c] [b, c] fuel str loc = none
  | 0, _, _, _ => rfl
  | fuel + 1, str, loc, h => by
    obtain ⟨p, hp⟩ := Option.ne_none_iff_exists'.mp h
    rw [strReplace, hp]
    have hlt : p < str.length := by
      have hfound := List.find?_some hp
      obtain ⟨t, ht⟩ := List.isPrefixOf_iff_prefix.mp hfound
      have := congrArg List.length ht
      simp at this
      omega
    have hagain : (str.take p ++ [b, c] ++ str.drop (p + [c].length)).drop (p + 1) =
        c :: str.drop (p + 1) := by
      have hlen : (str.take p).length = p := List.length_take_of_le (Nat.le_of_lt hlt)
      rw [List.append_assoc, ← List.drop_drop, List.drop_left' hlen]
      rfl
    exact strReplace_hangs b c fuel _ (p + 1) (find_ne_none (Nat.le_refl _) hagain)

theorem strReplace_of_mem {b c : Char} {str : List Char} (h : c ∈ str) (fuel : ℕ) :
    strReplace [c] [b, c] fuel str 0 = none := by
  obtain ⟨l, r, rfl⟩ := List.append_of_mem h
  exact strReplace_hangs b c fuel _ 0 (find_ne_none (Nat.zero_le l.length) List.drop_left)

/-- A string is written exactly if it has no quote and no backslash, and then as it is. -/
theorem quoted_eq_some_iff (fuel : ℕ) (s q : String) :
    quoted (fuel + 1) s = some q ↔
      ('\\' ∉ s.toList ∧ '"' ∉ s.toList) ∧ q = "\"" ++ s ++ "\"" := by
  rw [quoted]
  by_cases hbackslash : '\\' ∈ s.toList
  · simp [strReplace_of_mem hbackslash, hbackslash]
  · by_cases hquote : '"' ∈ s.toList
    · simp [strReplace_of_not_mem hbackslash, strReplace_of_mem hquote, hquote]
    · simp [strReplace_of_not_mem hbackslash, strReplace_of_not_mem hquote, hbackslash, hquote,
        eq_comm]

/-! ### Clean calls are written -/

theorem quoted_of_clean {s : String} (hs : Clean s) (fuel : ℕ) :
    quoted (fuel + 1) s = some ("\"" ++ s ++ "\"") :=
  (quoted_eq_some_iff fuel s _).mpr ⟨⟨fun h => (hs _ h).2.1 rfl, fun h => (hs _ h).1 rfl⟩, rfl⟩

theorem mapM_isSome {α β : Type} {f : α → Option β} :
    ∀ {l : List α}, (∀ a ∈ l, (f a).isSome) → (l.mapM f).isSome
  | [], _ => rfl
  | a :: l, h => by
    obtain ⟨b, hb⟩ := Option.isSome_iff_exists.mp (h a List.mem_cons_self)
    obtain ⟨bs, hbs⟩ := Option.isSome_iff_exists.mp
      (mapM_isSome fun x hx => h x (List.mem_cons_of_mem a hx))
    simp [hb, hbs]

theorem Arg.valueRep_isSome {a : Arg} (ha : a.Clean) (fuel : ℕ) :
    (a.valueRep (fuel + 1)).isSome := by
  cases a with
  | string s => simp [valueRep, quoted_of_clean ha]
  | bool b => rfl
  | i32 n => rfl
  | map m =>
    have hpair : ∀ e ∈ m.entries, (quotedPair (fuel + 1) e).isSome := fun e he => by
      simp [quotedPair, quoted_of_clean (ha e he).1, quoted_of_clean (ha e he).2]
    obtain ⟨parts, hparts⟩ := Option.isSome_iff_exists.mp (mapM_isSome hpair)
    simp [valueRep, hparts]
  | char2 c =>
    have hc := (quoted_eq_some_iff fuel (String.ofList [c]) _).mpr
      ⟨by simpa [eq_comm] using ⟨ha.2, ha.1⟩, rfl⟩
    exact Option.isSome_iff_exists.mpr ⟨_, hc⟩

theorem Arg.line_isSome {a : Arg} (ha : a.Clean) (fuel : ℕ) : (a.line (fuel + 1)).isSome := by
  obtain ⟨v, hv⟩ := Option.isSome_iff_exists.mp (Arg.valueRep_isSome ha fuel)
  simp [line, hv]

/-- A clean call is written, and its entry starts with the line that begins a query. -/
theorem Entry.text_of_clean {e : Entry} (he : e.call.Clean) (fuel queryId : ℕ) :
    ∃ body, e.text (fuel + 1) queryId = some (header queryId ++ "\n" ++ body) := by
  have hlines : ∀ a ∈ e.call.args ++ [Arg.char2 '\n'], (a.line (fuel + 1)).isSome := by
    intro a ha
    rcases List.mem_append.mp ha with ha | ha
    · exact Arg.line_isSome (he a ha) fuel
    · rw [List.mem_singleton.mp ha]
      have hnewline : (Arg.char2 '\n').Clean := ⟨by decide, by decide⟩
      exact Arg.line_isSome hnewline fuel
  obtain ⟨lines, hlines⟩ := Option.isSome_iff_exists.mp (mapM_isSome hlines)
  rw [Entry.text, hlines]
  exact ⟨_, rfl⟩

theorem write_of_clean (fuel : ℕ) : ∀ (queryId : ℕ) (es : List Entry),
    (∀ e ∈ es, e.call.Clean) → ∃ text, write (fuel + 1) queryId es = some text
  | _, [], _ => ⟨"", rfl⟩
  | queryId, e :: es, h => by
    obtain ⟨body, hbody⟩ := Entry.text_of_clean (h e List.mem_cons_self) fuel queryId
    obtain ⟨rest, hrest⟩ := write_of_clean fuel ((queryId + 1) % 4294967296) es
      fun x hx => h x (List.mem_cons_of_mem e hx)
    exact ⟨_, by rw [write, hbody, hrest]; rfl⟩

end VaeDb.QueryLog
