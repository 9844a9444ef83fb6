import VaeDb.QueryLog.Entry
import VaeDb.Schemes.Escaping

/-! The strings of the query log, against the escaping that they are meant to get.

    `stringRep` and `mapRep` are what is to be written: each backslash and each double quote with a
    backslash in front of it. They can be read back, any string and any map. `ValueRep` writes the
    same wherever it ends, and ends for the strings in which there is nothing to escape.

                     ValueRep           stringRep
        ab           "ab"               "ab"
        a"b          (does not end)     "a\"b"
        a\b          (does not end)     "a\\b" -/

namespace VaeDb.Escaping
open QueryLog Schemes

/-- A backslash or a double quote. -/
def special (c : Char) : Bool := c == '\\' || c == '"'

/-- Nothing to escape. -/
def Plain (s : String) : Prop := ∀ c ∈ s.toList, ¬ special c

/-- A backslash in front of every backslash and every double quote. -/
def escaped (s : String) : String := String.ofList (escape '\\' special s.toList)

def unescaped (s : String) : String := String.ofList (unescape '\\' s.toList)

/-- What is to be written for a string. -/
def stringRep (s : String) : String := "\"" ++ escaped s ++ "\""

def pairRep (e : String × String) : String := stringRep e.1 ++ ":" ++ stringRep e.2 ++ ","

/-- What is to be written for a map. -/
def mapRep (m : StringMap) : String := "\x7b" ++ String.join (m.entries.map pairRep) ++ "\x7d"

/-- `ValueRep` comes back with the string escaped, from which the string can be read back. -/
def StringLogged (s : String) : Prop :=
  (∃ fuel, Arg.valueRep fuel (.string s) = some ("\"" ++ escaped s ++ "\"")) ∧
    unescaped (escaped s) = s

/-- `ValueRep` comes back with a text that it writes for no other map. -/
def MapLogged (m : StringMap) : Prop :=
  ∃ fuel text, Arg.valueRep fuel (.map m) = some text ∧
    ∀ fuel' m', Arg.valueRep fuel' (.map m') = some text → m' = m

variable {fuel : ℕ} {s t q text : String} {e : String × String} {m : StringMap}

/-! ### What is to be written can be read back -/

theorem unescaped_escaped (s : String) : unescaped (escaped s) = s := by
  have hspecial : special '\\' = true := rfl
  simp [unescaped, escaped, unescape_escape hspecial]

theorem toList_stringRep (s : String) : (stringRep s).toList = quote '\\' '"' special s.toList := by
  simp [stringRep, escaped, quote]

theorem selfDelimiting_stringRep : SelfDelimiting fun s => (stringRep s).toList := by
  intro s t u v h
  simp only [toList_stringRep] at h
  obtain ⟨hlist, hrest⟩ := selfDelimiting_quote rfl rfl (by decide) h
  exact ⟨String.toList_injective hlist, hrest⟩

theorem selfDelimiting_pairRep : SelfDelimiting fun e => (pairRep e).toList := by
  have hpair := ((selfDelimiting_stringRep.followed [':']).append
    selfDelimiting_stringRep).followed [',']
  intro x y u v h
  exact hpair (by simpa [pairRep] using h)

theorem pairRep_ne (e : String × String) (u v : List Char) :
    (pairRep e).toList ++ u ≠ '\x7d' :: v := by
  simp [pairRep, stringRep]

theorem toList_flatten (parts : List String) :
    (String.join parts).toList = parts.flatMap String.toList := by
  induction parts with
  | nil => rfl
  | cons p parts ih => simp [ih]

/-- No two maps are written alike. -/
theorem mapRep_injective : Function.Injective mapRep := by
  intro m m' heq
  have hlist := congrArg String.toList heq
  simp only [mapRep, String.toList_append, toList_flatten, List.flatMap_map] at hlist
  have hentries : m.entries = m'.entries :=
    (selfDelimiting_pairRep.list pairRep_ne).injective (List.cons.inj hlist).2
  cases m
  cases m'
  simpa using hentries

/-! ### What is written -/

theorem plain_iff (s : String) : Plain s ↔ '\\' ∉ s.toList ∧ '"' ∉ s.toList := by
  constructor
  · exact fun h => ⟨fun hmem => h _ hmem rfl, fun hmem => h _ hmem rfl⟩
  · rintro ⟨hbackslash, hquote⟩ c hc hspecial
    rcases Bool.or_eq_true _ _ |>.mp hspecial with heq | heq
    · exact hbackslash (eq_of_beq heq ▸ hc)
    · exact hquote (eq_of_beq heq ▸ hc)

theorem stringRep_of_plain (hs : Plain s) : stringRep s = "\"" ++ s ++ "\"" := by
  rw [stringRep, escaped, escape_of_plain hs, String.ofList_toList]

theorem quoted_of_plain (hs : Plain s) (fuel : ℕ) : quoted (fuel + 1) s = some (stringRep s) :=
  (quoted_eq_some_iff fuel s _).mpr ⟨(plain_iff s).mp hs, stringRep_of_plain hs⟩

theorem quoted_some (h : quoted fuel s = some q) : Plain s ∧ q = stringRep s := by
  cases fuel with
  | zero => exact nomatch h
  | succ fuel =>
    obtain ⟨hplain, heq⟩ := (quoted_eq_some_iff fuel s q).mp h
    have hs := (plain_iff s).mpr hplain
    exact ⟨hs, heq.trans (stringRep_of_plain hs).symm⟩

/-- Both halves of an item of a map. -/
def PlainPair (e : String × String) : Prop := Plain e.1 ∧ Plain e.2

theorem quotedPair_of_plain (he : PlainPair e) (fuel : ℕ) :
    quotedPair (fuel + 1) e = some (pairRep e) := by
  rw [quotedPair, quoted_of_plain he.1, quoted_of_plain he.2]
  rfl

theorem quotedPair_some (h : quotedPair fuel e = some q) : PlainPair e ∧ q = pairRep e := by
  simp only [quotedPair, Option.bind_eq_bind, Option.bind_eq_some_iff, Option.pure_def,
    Option.some.injEq] at h
  obtain ⟨key, hkey, value, hvalue, heq⟩ := h
  obtain ⟨hplain₁, hrep₁⟩ := quoted_some hkey
  obtain ⟨hplain₂, hrep₂⟩ := quoted_some hvalue
  exact ⟨⟨hplain₁, hplain₂⟩, by rw [← heq, hrep₁, hrep₂, pairRep]⟩

theorem mapM_of_plain {l : List (String × String)} (hl : ∀ e ∈ l, PlainPair e) (fuel : ℕ) :
    l.mapM (quotedPair (fuel + 1)) = some (l.map pairRep) := by
  induction l with
  | nil => rfl
  | cons e l ih =>
    rw [List.mapM_cons, quotedPair_of_plain (hl e List.mem_cons_self),
      ih fun x hx => hl x (List.mem_cons_of_mem e hx)]
    rfl

theorem mapM_some {l : List (String × String)} {parts : List String}
    (h : l.mapM (quotedPair fuel) = some parts) :
    (∀ e ∈ l, PlainPair e) ∧ parts = l.map pairRep := by
  induction l generalizing parts with
  | nil => exact ⟨by simp, by simpa using h.symm⟩
  | cons e l ih =>
    rw [List.mapM_cons] at h
    simp only [Option.bind_eq_bind, Option.bind_eq_some_iff, Option.pure_def,
      Option.some.injEq] at h
    obtain ⟨part, hpart, rest, hrest, heq⟩ := h
    obtain ⟨hplain, hrep⟩ := quotedPair_some hpart
    obtain ⟨hplains, hreps⟩ := ih hrest
    exact ⟨List.forall_mem_cons.mpr ⟨hplain, hplains⟩, by rw [← heq, hrep, hreps, List.map_cons]⟩

theorem valueRep_of_plain (hm : ∀ e ∈ m.entries, PlainPair e) (fuel : ℕ) :
    Arg.valueRep (fuel + 1) (.map m) = some (mapRep m) := by
  rw [Arg.valueRep, mapM_of_plain hm]
  rfl

/-- Where `ValueRep` of a map ends, it has written what is to be written. -/
theorem valueRep_some (h : Arg.valueRep fuel (.map m) = some text) :
    (∀ e ∈ m.entries, PlainPair e) ∧ text = mapRep m := by
  simp only [Arg.valueRep, Option.bind_eq_bind, Option.bind_eq_some_iff, Option.pure_def,
    Option.some.injEq] at h
  obtain ⟨parts, hparts, heq⟩ := h
  obtain ⟨hplain, hreps⟩ := mapM_some hparts
  exact ⟨hplain, by rw [← heq, hreps, mapRep]⟩

/-! ### The strings and the maps that are logged -/

/-- CORRECT: a string comes back escaped, and a map as a text of its own, exactly if there is nothing
    to escape. -/
theorem logged_iff (s : String) (m : StringMap) :
    (StringLogged s ↔ Plain s) ∧ (MapLogged m ↔ ∀ e ∈ m.entries, Plain e.1 ∧ Plain e.2) := by
  refine ⟨⟨?_, fun hs => ?_⟩, ⟨?_, fun hm => ?_⟩⟩
  · rintro ⟨⟨fuel, hfuel⟩, -⟩
    exact (quoted_some hfuel).1
  · exact ⟨⟨1, quoted_of_plain hs 0⟩, unescaped_escaped s⟩
  · rintro ⟨fuel, text, htext, -⟩
    exact (valueRep_some htext).1
  · refine ⟨1, mapRep m, valueRep_of_plain hm 0, fun fuel' m' h => ?_⟩
    exact mapRep_injective (valueRep_some h).2.symm

/-- A quote: no number of rounds is enough. -/
theorem not_logged :
    (∀ fuel, Arg.valueRep fuel (.string "say \"hi\"") = none) ∧ ¬ StringLogged "say \"hi\"" := by
  have hhangs : ∀ fuel, Arg.valueRep fuel (.string "say \"hi\"") = none := by
    intro fuel
    refine Option.eq_none_iff_forall_ne_some.mpr fun q hq => ?_
    have hquote : '"' ∉ "say \"hi\"".toList := ((plain_iff _).mp (quoted_some hq).1).2
    exact hquote (by decide)
  refine ⟨hhangs, ?_⟩
  rintro ⟨⟨fuel, hfuel⟩, -⟩
  exact nomatch (hhangs fuel).symm.trans hfuel

end VaeDb.Escaping
