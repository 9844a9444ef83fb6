import VaeDb.Cpp
import VaeDb.QueryLog.Entry
import VaeDb.Schemes.Regex

/-! The bot that replays a query log against a server.

    `process_stream` reads the log line by line. A line is classified by the first of a list of
    regular expressions that finds something in it, anywhere in it. A method is called when the next
    one comes or the log ends, with the arguments read up to there; a line that no other expression
    fits is an error, and ends the replay.

        method_call(m):   ──▶  call the method before, with `args`; remember m
        string: bool: i32: map:  ──▶  push to `args`
        (empty)           ──▶  skip
        anything else     ──▶  error on line n

    The server is a parameter: whether a call, after those before it, comes back or raises something
    that `method_call` does not rescue. -/

namespace VaeDb.QueryLog
open Schemes

/-! ### Values -/

/-- A Ruby value that the bot passes on. -/
inductive Value where
  | string (s : String)
  | bool (b : Bool)
  | int (n : ℤ)
  | hash (h : String → Option String)

/-- The argument as the server got it. -/
def Arg.value : Arg → Value
  | .string s => .string s
  | .bool b => .bool b
  | .i32 n => .int n
  | .map m => .hash fun k => m.entries.lookup k
  | .char2 c => .string (String.ofList [c])

/-- A method and its arguments. -/
abbrev Issue := String × List Value

def Logged.issue (call : Logged) : Issue := (call.methodName, call.args.map Arg.value)

/-- The digits of `String#to_i`: single underscores between them are skipped. -/
def digits : List Char → List Char
  | [] => []
  | '_' :: d :: cs => if Cpp.isdigit d then d :: digits cs else []
  | d :: cs => if Cpp.isdigit d then d :: digits cs else []

/-- `String#to_i`. -/
def toI (s : String) : ℤ :=
  let number (cs : List Char) : ℤ := if cs.head? = some '_' then 0 else Cpp.decimal (digits cs)
  match s.toList.dropWhile Cpp.isspace with
  | '-' :: cs => -number cs
  | '+' :: cs => number cs
  | cs => number cs

/-! ### Lines -/

/-- The lines that `gets` returns, each with its newline. -/
def lines : List Char → List (List Char)
  | [] => []
  | c :: s =>
    if c = '\n' then [c] :: lines s
    else match lines s with
      | [] => [[c]]
      | l :: ls => (c :: l) :: ls

/-- `String#strip`: white space at both ends, and NULs at the end. -/
def strip (line : List Char) : List Char :=
  ((line.dropWhile Cpp.isspace).reverse.dropWhile fun c => Cpp.isspace c || c == '\x00').reverse

inductive Tag where
  | methodCall
  | valueString
  | valueBool
  | valueI32
  | valueMapSS
  | empty
  | any
  deriving DecidableEq

namespace Rule

/-- `([^"\\]*(?:\\.[^"\\]*)*)` -/
def quotedText (n : ℕ) : Regex :=
  let plain := Regex.star (.one fun c => c ≠ '"' && c ≠ '\\')
  .group n (.seq plain (.star (.seq (.text "\\") (.seq .dot plain))))

/-- `"(...)":"(...)",`, the groups numbered from `n`. -/
def mapSSList (n : ℕ) : Regex :=
  .seq (.text "\"") (.seq (quotedText n) (.seq (.text "\":\"")
    (.seq (quotedText (n + 1)) (.text "\","))))

/-- `method_call\((.+)\):` -/
def methodCall : Regex := .seq (.text "method_call(") (.seq (.group 1 (.plus .dot)) (.text "):"))

/-- `string:"(.*)"` -/
def valueString : Regex := .seq (.text "string:\"") (.seq (.group 1 (.star .dot)) (.text "\""))

/-- `bool:(0|1)` -/
def valueBool : Regex := .seq (.text "bool:") (.group 1 (.alt (.text "0") (.text "1")))

/-- `i32:(.*)` -/
def valueI32 : Regex := .seq (.text "i32:") (.group 1 (.star .dot))

/-- `map<string,string>:\{((...)*)\}` -/
def valueMapSS : Regex :=
  .seq (.text "map<string,string>:\x7b")
    (.seq (.group 1 (.star (.group 2 (mapSSList 3)))) (.text "\x7d"))

/-- `\A\Z` -/
def empty : Regex := .seq .start .stop

/-- `(.*)` -/
def any : Regex := .group 1 (.star .dot)

end Rule

/-- `LEX_RULES`. -/
def lexRules : List (Tag × Regex) :=
  [(.methodCall, Rule.methodCall), (.valueString, Rule.valueString), (.valueBool, Rule.valueBool),
    (.valueI32, Rule.valueI32), (.valueMapSS, Rule.valueMapSS), (.empty, Rule.empty),
    (.any, Rule.any)]

/-- The first rule that finds something, and its first group. -/
def classifyLine (line : List Char) : Option (Tag × String) :=
  lexRules.findSome? fun (tag, regex) =>
    (regex.find line).map fun k => (tag, (k.group 1).getD "")

/-- `Hash[*lexeme.scan(R_MAP_S_S_LIST).flatten]`. -/
def toHash (lexeme : String) : String → Option String :=
  ((Rule.mapSSList 1).scan lexeme.toList).foldl
    (fun h k => Function.update h ((k.group 1).getD "") (k.group 2)) fun _ => none

/-! ### The replay -/

/-- Whether the last call of a history comes back: with an answer or a `VaeDbInternalError`, or with
    an exception that ends the replay. -/
abbrev Server := List Issue → Bool

/-- What a replay did: the calls, and the error line if there was one. -/
structure Replay where
  issued : List Issue
  error : Option (ℕ × String)

/-- The variables of `process_stream`. -/
structure Bot where
  methodName : Option String
  args : List Value
  issued : List Issue

variable (vaedb : Server)

/-- The loop over the lines, from line `lineNum` on. -/
def processLines : ℕ → Bot → List (List Char) → Replay
  | _, bot, [] => match bot.methodName with
    | none => ⟨bot.issued, none⟩
    | some name => ⟨bot.issued ++ [(name, bot.args)], none⟩
  | lineNum, bot, line :: rest => match classifyLine (strip line) with
    | some (.methodCall, lexeme) => match bot.methodName with
      | none => processLines (lineNum + 1) { bot with methodName := some lexeme } rest
      | some name =>
        let issued := bot.issued ++ [(name, bot.args)]
        if vaedb issued then processLines (lineNum + 1) ⟨some lexeme, [], issued⟩ rest
        else ⟨issued, none⟩
    | some (.valueString, lexeme) =>
      processLines (lineNum + 1) { bot with args := bot.args ++ [.string lexeme] } rest
    | some (.valueBool, lexeme) =>
      processLines (lineNum + 1) { bot with args := bot.args ++ [.bool (lexeme == "1")] } rest
    | some (.valueI32, lexeme) =>
      processLines (lineNum + 1) { bot with args := bot.args ++ [.int (toI lexeme)] } rest
    | some (.valueMapSS, lexeme) =>
      processLines (lineNum + 1) { bot with args := bot.args ++ [.hash (toHash lexeme)] } rest
    | some (.empty, _) => processLines (lineNum + 1) bot rest
    | some (.any, lexeme) => ⟨bot.issued, some (lineNum, lexeme)⟩
    | none => ⟨bot.issued, some (lineNum, "")⟩

def processStream (text : String) : Replay := processLines vaedb 1 ⟨none, [], []⟩ (lines text.toList)

/-- The replay issues the calls that were logged, in their order, and no error. -/
def Replays (entries : List Entry) (text : String) : Prop :=
  (processStream vaedb text).issued = entries.map (·.call.issue) ∧
    (processStream vaedb text).error = none

/-! ### The first line of an entry -/

variable {vaedb}

theorem lines_append {l : List Char} (hl : '\n' ∉ l) (s : List Char) :
    lines (l ++ '\n' :: s) = (l ++ ['\n']) :: lines s := by
  induction l with
  | nil => rfl
  | cons c l ih =>
    have hc : c ≠ '\n' := fun h => hl (h ▸ List.mem_cons_self)
    rw [List.cons_append, lines, if_neg hc, ih fun h => hl (List.mem_cons_of_mem c h)]
    rfl

theorem mem_of_mem_strip {c : Char} {l : List Char} (h : c ∈ strip l) : c ∈ l := by
  rw [strip, List.mem_reverse] at h
  have hdropped := List.mem_reverse.mp ((List.dropWhile_suffix _).mem h)
  exact (List.dropWhile_suffix _).mem hdropped

/-- A line that starts with a visible character still does when it is stripped. -/
theorem strip_cons {c : Char} (hspace : ¬ Cpp.isspace c) (hnul : c ≠ '\x00') (l : List Char) :
    ∃ t, strip (c :: l) = c :: t := by
  rw [strip, List.dropWhile_cons_of_neg hspace, List.reverse_cons, List.dropWhile_append]
  split
  · exact ⟨[], by simp [hspace, hnul]⟩
  · exact ⟨_, by rw [List.reverse_append]; rfl⟩

/-- Every rule but the last two needs a colon. -/
theorem find_of_no_colon {l : List Char} (hl : ':' ∉ l) :
    ∀ rule ∈ [Rule.methodCall, Rule.valueString, Rule.valueBool, Rule.valueI32, Rule.valueMapSS],
      rule.find l = none := by
  have hword : ∀ {s : String} (r : Regex), ':' ∈ s.toList → (Regex.seq (.text s) r).find l = none :=
    fun r hs => Regex.not_find_of_needs (Regex.seq_needs_left (Regex.text_needs hs) r) hl
  simp only [List.mem_cons, List.not_mem_nil, or_false]
  rintro rule (rfl | rfl | rfl | rfl | rfl)
  · have hend : (Regex.text "):").Needs ':' := Regex.text_needs (by decide)
    exact Regex.not_find_of_needs (Regex.seq_needs_right _ (Regex.seq_needs_right _ hend)) hl
  · exact hword _ (by decide)
  · exact hword _ (by decide)
  · exact hword _ (by decide)
  · exact hword _ (by decide)

theorem find_empty {l : List Char} (hne : l ≠ []) (hnl : l ≠ ['\n']) : Rule.empty.find l = none := by
  rw [Rule.empty, Regex.find_start]
  simp [Regex.run, hne, hnl]

/-- A line without a colon is an error line, unless it is empty. -/
theorem classifyLine_of_no_colon {l : List Char} (hcolon : ':' ∉ l) (hne : l ≠ [])
    (hnl : l ≠ ['\n']) : ∃ lexeme, classifyLine l = some (.any, lexeme) ∨ classifyLine l = none := by
  have hfind := find_of_no_colon hcolon
  simp only [List.mem_cons, List.not_mem_nil, or_false, forall_eq_or_imp, forall_eq] at hfind
  have hempty := find_empty hne hnl
  obtain ⟨h₁, h₂, h₃, h₄, h₅⟩ := hfind
  rw [classifyLine, lexRules]
  cases h : Rule.any.find l <;> simp [h₁, h₂, h₃, h₄, h₅, hempty, h]

/-- The first line of an entry has only these characters. -/
theorem mem_header {c : Char} {queryId : ℕ} (h : c ∈ (header queryId).toList) :
    c ∈ "# begin query ".toList ∨ c.isDigit := by
  rw [header, String.toList_append, List.mem_append] at h
  refine h.imp_right fun h => ?_
  rw [show toString queryId = queryId.repr from rfl, Nat.toList_repr] at h
  exact Nat.isDigit_of_mem_toDigits (by decide) (by decide) h

theorem not_mem_header {c : Char} (hc : c ∉ "# begin query ".toList) (hdigit : ¬ c.isDigit)
    (queryId : ℕ) : c ∉ (header queryId).toList :=
  fun h => (mem_header h).elim hc hdigit

theorem header_cons (queryId : ℕ) : ∃ t, (header queryId).toList = '#' :: t :=
  ⟨_, by rw [header, String.toList_append]; rfl⟩

/-- The line that begins a query ends the replay with an error. -/
theorem processStream_header (queryId : ℕ) (body : String) :
    (processStream vaedb (header queryId ++ "\n" ++ body)).error ≠ none := by
  have hnewline := not_mem_header (c := '\n') (by decide) (by decide) queryId
  have hlines : lines (header queryId ++ "\n" ++ body).toList =
      ((header queryId).toList ++ ['\n']) :: lines body.toList := by
    rw [String.append_assoc, String.toList_append, String.toList_append]
    exact lines_append hnewline _
  have hcolon : ':' ∉ strip ((header queryId).toList ++ ['\n']) := by
    intro h
    rcases List.mem_append.mp (mem_of_mem_strip h) with h | h
    · exact not_mem_header (by decide) (by decide) queryId h
    · exact absurd h (by decide)
  obtain ⟨t, ht⟩ := header_cons queryId
  obtain ⟨t', hstrip⟩ := strip_cons (c := '#') (by decide) (by decide) (t ++ ['\n'])
  rw [← List.cons_append, ← ht] at hstrip
  obtain ⟨lexeme, hclass⟩ := classifyLine_of_no_colon hcolon (by simp [hstrip]) (by simp [hstrip])
  rw [processStream, hlines, processLines]
  rcases hclass with hclass | hclass <;> simp [hclass]

/-! ### Replaying a log -/

/-- CORRECT: every sequence of clean calls is written to the log, whatever the server answers, and
    the replay of that log issues these calls and no error exactly if there are none of them. -/
theorem write_replays_iff (vaedb : Server) (fuel queryId : ℕ) (es : List Entry)
    (hclean : ∀ e ∈ es, e.call.Clean) :
    ∃ text, write (fuel + 1) queryId es = some text ∧ (Replays vaedb es text ↔ es = []) := by
  cases es with
  | nil => exact ⟨"", rfl, iff_of_true ⟨rfl, rfl⟩ rfl⟩
  | cons e es =>
    obtain ⟨body, hbody⟩ := Entry.text_of_clean (hclean e List.mem_cons_self) fuel queryId
    obtain ⟨rest, hrest⟩ := write_of_clean fuel ((queryId + 1) % 4294967296) es
      fun x hx => hclean x (List.mem_cons_of_mem e hx)
    refine ⟨header queryId ++ "\n" ++ (body ++ rest), ?_, iff_of_false ?_ (by simp)⟩
    · rw [write, hbody, hrest, ← String.append_assoc]
      rfl
    · exact fun h => processStream_header queryId (body ++ rest) h.2

/-- A `get` with one option. -/
def sampleEntry : Entry := ⟨.get 7 0 "shop" ⟨[("page", "1")], by simp⟩, 25, "shop"⟩

theorem write_replays_iff_sample :
    (∀ e ∈ [sampleEntry], e.call.Clean) ∧
      ∃ text, write 1 0 [sampleEntry] = some text ∧
        (Replays (fun _ => true) [sampleEntry] text ↔ [sampleEntry] = []) := by
  have hclean : ∀ e ∈ [sampleEntry], e.call.Clean := by
    simp [sampleEntry, Logged.Clean, Logged.args, Arg.Clean, Clean]
  exact ⟨hclean, write_replays_iff (fun _ => true) 0 0 [sampleEntry] hclean⟩

/-- The log of a `data(1, 1)` call: the first line is an error line. -/
theorem data_not_replayed :
    (Logged.data 1 1).Clean ∧
      ∃ text, write 1 0 [⟨.data 1 1, 25, ""⟩] = some text ∧
        (processStream (fun _ => true) text).error = some (1, "# begin query 0") ∧
        ¬ Replays (fun _ => true) [⟨.data 1 1, 25, ""⟩] text := by
  have htext : write 1 0 [⟨.data 1 1, 25, ""⟩] = some ("# begin query 0\nmethod_call(data):\n" ++
      "  i32:1\n  i32:1\n  char[2]:\"\n\"\n# end data query 0 after 25 microseconds.\n\n") := by
    decide +kernel
  have herror : (processStream (fun _ => true) ("# begin query 0\nmethod_call(data):\n" ++
      "  i32:1\n  i32:1\n  char[2]:\"\n\"\n# end data query 0 after 25 microseconds.\n\n")).error =
        some (1, "# begin query 0") := by
    decide +kernel
  refine ⟨by simp [Logged.Clean, Logged.args, Arg.Clean], _, htext, herror, fun h => ?_⟩
  rw [h.2] at herror
  cases herror

end VaeDb.QueryLog
