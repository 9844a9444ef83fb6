import Mathlib.Data.List.TakeWhile
import VaeDb.Site.Indexes
import VaeDb.Site.Permalinks

/-! Queries that are an id: which element a string of digits leads to.

    Every element of the content is entered into `nodes` under its id when its constructor ends, and
    the last one entered under an id stays. An id attribute and a query are both read by `atoi`, which
    reduces what is written into an `int`, and an element without an id attribute is entered under 0.
    So a query may lead to an element that does not declare the number asked for, and to one that was
    freed when the associations were dealt with.

        <page id="7"/> <note/> <page id="4294967303"/>
        7           ──▶ page 4294967303
        0           ──▶ note
        4294967296  ──▶ note -/

namespace VaeDb.Ids
open Schemes Xml Walk Staging Indexes Cpp

/-! ### Numbers -/

/-- The value of the digits at the start of a text. -/
def numeral (cs : List Char) : Option ℤ :=
  if cs.takeWhile isdigit = [] then none else some (decimal (cs.takeWhile isdigit))

/-- The integer that a text denotes: what `atoi` reads, before it is reduced. -/
def number (s : String) : Option ℤ :=
  let cs := s.toList.dropWhile isspace
  if cs.head? = some '-' then (numeral cs.tail).map (-·)
  else if cs.head? = some '+' then numeral cs.tail
  else numeral cs

theorem decimal_eq_numeral (cs : List Char) :
    (decimal (cs.takeWhile isdigit) : ℤ) = (numeral cs).getD 0 := by
  unfold numeral
  split
  · next h => simp [h, decimal]
  · rfl

theorem atoi_eq_number (s : String) : atoi s = int32 ((number s).getD 0) := by
  unfold atoi number
  generalize s.toList.dropWhile isspace = cs
  split
  · next cs =>
    rw [decimal_eq_numeral]
    cases h : numeral cs <;> simp [h]
  · next cs => simp [decimal_eq_numeral]
  · next hminus hplus =>
    have hc : cs.head? ≠ some '-' := fun h => hminus _ (List.eq_cons_of_mem_head? h)
    have hc' : cs.head? ≠ some '+' := fun h => hplus _ (List.eq_cons_of_mem_head? h)
    simp [decimal_eq_numeral, hc, hc']

/-- A string of decimal digits, not empty. -/
def Digits (d : String) : Prop := d.toList ≠ [] ∧ d.toList.all isdigit

variable {d : String}

theorem not_isspace_of_isdigit {c : Char} (h : isdigit c) : isspace c = false := by
  simp only [isdigit, Bool.and_eq_true, decide_eq_true_eq] at h
  simp only [isspace, Bool.or_eq_false_iff, beq_eq_false_iff_ne, ne_eq, Bool.and_eq_false_iff,
    decide_eq_false_iff_not]
  refine ⟨?_, .inr fun hle => ?_⟩
  · rintro rfl
    exact absurd h.1 (by decide)
  · exact absurd (Char.le_trans h.1 hle) (by decide)

theorem number_digits (hd : Digits d) : number d = some (decimal d.toList : ℤ) := by
  obtain ⟨hne, hall⟩ := hd
  obtain ⟨c, cs, hcs⟩ := List.exists_cons_of_ne_nil hne
  have htake : d.toList.takeWhile isdigit = d.toList :=
    List.takeWhile_eq_self_iff.mpr (by simpa using hall)
  have hc : isdigit c := by
    rw [hcs, List.all_cons, Bool.and_eq_true] at hall
    exact hall.1
  have hdrop : d.toList.dropWhile isspace = c :: cs := by
    rw [hcs, List.dropWhile_cons_of_neg (by simp [not_isspace_of_isdigit hc])]
  have hminus : c ≠ '-' := by
    rintro rfl
    exact absurd hc (by decide)
  have hplus : c ≠ '+' := by
    rintro rfl
    exact absurd hc (by decide)
  rw [number, hdrop, List.head?_cons, if_neg (by simpa using hminus), if_neg (by simpa using hplus),
    ← hcs, numeral, htake, if_neg hne]

theorem leadingId_digits (hd : Digits d) : Query.leadingId d = some (d, "") := by
  obtain ⟨hne, hall⟩ := hd
  have htake : d.toList.takeWhile isdigit = d.toList :=
    List.takeWhile_eq_self_iff.mpr (by simpa using hall)
  have hdrop : d.toList.dropWhile isdigit = [] :=
    List.dropWhile_eq_nil_iff.mpr (by simpa using hall)
  rw [Query.leadingId, htake, hdrop]
  simp [hne]

theorem permalinkPath_digits (hd : Digits d) : Query.permalinkPath d = none := by
  obtain ⟨hne, hall⟩ := hd
  obtain ⟨c, cs, hcs⟩ := List.exists_cons_of_ne_nil hne
  have hc : isdigit c := by
    rw [hcs, List.all_cons, Bool.and_eq_true] at hall
    exact hall.1
  have hp : ('p' == c) = false := by
    rw [beq_eq_false_iff_ne]
    rintro rfl
    exact absurd hc (by decide)
  rw [Query.permalinkPath, hcs]
  simp [List.isPrefixOf, hp]

/-- A query of digits, with or without a slash in front, is looked up in the index. -/
theorem new_digits (lib : Libxml) (site : Site) (context : Option NodeId) {q : String}
    (hd : Digits d) (hq : q = d ∨ q = "/" ++ d) :
    Query.new lib site context q = .ok (Query.find site (int32 (decimal d.toList))) := by
  have hatoi : atoi d = int32 (decimal d.toList) := by
    rw [atoi_eq_number, number_digits hd]
    rfl
  have hafter : ∀ context, Query.afterPermalink lib site q context d =
      .ok (Query.find site (int32 (decimal d.toList))) := by
    intro context
    rw [Query.afterPermalink, Query.resolveId, leadingId_digits hd]
    dsimp only
    rw [hatoi]
    cases Query.find site (int32 (decimal d.toList)) with
    | nil => rfl
    | cons node nodes => rfl
  have hresolve : ∀ context, Query.resolvePermalink site context d = pure (.rest context d) := by
    intro context
    rw [Query.resolvePermalink, permalinkPath_digits hd]
  have hslash : d.toList.head? ≠ some '/' := by
    obtain ⟨c, cs, hcs⟩ := List.exists_cons_of_ne_nil hd.1
    have hall := hd.2
    rw [hcs, List.all_cons, Bool.and_eq_true] at hall
    rw [hcs, List.head?_cons]
    rintro ⟨⟩
    exact absurd hall.1 (by decide)
  rw [Query.new_eq]
  rcases hq with rfl | rfl
  · rw [if_neg hslash, if_neg hslash, hresolve]
    exact hafter _
  · have hdrop : String.ofList (("/" ++ d).toList.drop 1) = d := by
      apply String.toList_inj.mp
      simp
    rw [if_pos (by simp), if_pos (by simp), hdrop, hresolve]
    exact hafter _

/-! ### What is declared -/

/-- The text of the last `id` attribute. -/
def idText : Properties → Option String
  | [] => none
  | (name, value) :: rest =>
    (idText rest).or (if name = "id" then some (value.getD "") else none)

/-- The attributes of the element at a path. -/
def propertiesAt (doc : Document) (c : List ℕ) : Properties :=
  match doc.at? c with
  | some (.element _ properties _) => properties
  | _ => []

/-- The integer that the `id` attribute of an element denotes. -/
def declaredId (doc : Document) (c : List ℕ) : Option ℤ := (idText (propertiesAt doc c)).bind number

/-- The element that a move enters into the index. -/
def Move.entered : Move → Option (List ℕ)
  | .enter c => some c
  | _ => none

/-- The elements of the content, in the order in which they are registered. -/
def registered (doc : Document) (S : Structures) (r : List ℕ) : List (List ℕ) :=
  (walkKids S r 0 (doc.kids r)).filterMap Move.entered

/-- The last element of a list with a property. -/
def last {α : Type} (p : α → Bool) (l : List α) : Option α := l.reverse.find? p

/-- The id that an element is entered under. -/
def keyAt (doc : Document) (c : List ℕ) : Option ℤ := (attrsAt doc c).map Attrs.id

/-- The element that was registered last among those that declare an id. -/
def declaring (doc : Document) (S : Structures) (r : List ℕ) (v : ℤ) : Option (List ℕ) :=
  last (fun c => declaredId doc c = some v) (registered doc S r)

/-- The element that was registered last under an id. -/
def registeredAt (doc : Document) (S : Structures) (r : List ℕ) (id : ℤ) : Option (List ℕ) :=
  last (fun c => keyAt doc c = some id) (registered doc S r)

variable {doc : Document} {S : Structures} {r : List ℕ}

theorem declared_id (a : Attrs) (ps : Properties) :
    (declared a ps).id = ((idText ps).map atoi).getD a.id := by
  induction ps generalizing a with
  | nil => rfl
  | cons p ps ih =>
    obtain ⟨name, value⟩ := p
    rw [declared, idText]
    split
    · rw [ih]
      cases idText ps <;> rfl
    · split
      · rw [ih]
        cases idText ps <;> rfl
      · split
        · rw [ih]
          cases idText ps <;> rfl
        · rw [ih]
          cases idText ps <;> rfl

/-- The attributes of an element are read off its properties. -/
theorem attrsAt_cases (c : List ℕ) :
    attrsAt doc c = some (declared {} (propertiesAt doc c)) ∨
      attrsAt doc c = none ∧ propertiesAt doc c = [] := by
  unfold attrsAt propertiesAt
  cases hat : doc.at? c with
  | none => exact .inr ⟨rfl, rfl⟩
  | some t =>
    cases t with
    | element name properties children => exact .inl rfl
    | text content => exact .inr ⟨rfl, rfl⟩
    | other content => exact .inr ⟨rfl, rfl⟩

theorem keyAt_eq (c : List ℕ) {id : ℤ} (h : keyAt doc c = some id) :
    id = int32 ((declaredId doc c).getD 0) := by
  obtain ⟨a, ha, rfl⟩ := Option.map_eq_some_iff.mp h
  obtain heq | ⟨heq, -⟩ := @attrsAt_cases doc c
  · obtain rfl : declared {} (propertiesAt doc c) = a := Option.some.inj (heq.symm.trans ha)
    rw [declared_id, declaredId]
    cases idText (propertiesAt doc c) with
    | none => rfl
    | some text => exact atoi_eq_number text
  · rw [heq] at ha
    cases ha

/-- An element that declares an id is entered under it, reduced to an `int`. -/
theorem keyAt_of_declaredId {c : List ℕ} {v : ℤ} (h : declaredId doc c = some v) :
    keyAt doc c = some (int32 v) := by
  obtain heq | ⟨-, hnil⟩ := @attrsAt_cases doc c
  · have hkey : keyAt doc c = some (declared {} (propertiesAt doc c)).id := by
      rw [keyAt, heq]
      rfl
    rw [hkey, keyAt_eq c hkey, h]
    rfl
  · rw [declaredId, hnil] at h
    cases h

/-! ### The last one -/

theorem last_concat {α : Type} (p : α → Bool) (l : List α) (x : α) :
    last p (l ++ [x]) = if p x then some x else last p l := by
  rw [last, List.reverse_concat, List.find?_cons]
  cases h : p x <;> simp [last]

/-- Of two properties, one stronger, the last elements are the same if that of the weaker has the
    stronger too. -/
theorem last_eq_iff {α : Type} {p q : α → Bool} (hpq : ∀ x, p x → q x) (l : List α) :
    last q l = last p l ↔ ∀ x, last q l = some x → p x := by
  induction l using List.reverseRecOn with
  | nil => simp [last]
  | append_singleton l x ih =>
    rw [last_concat, last_concat]
    cases hq : q x with
    | true =>
      cases hp : p x with
      | true => simp [hp]
      | false =>
        simp only [if_true, Bool.false_eq_true, if_false, Option.some.injEq, forall_eq', hp,
          iff_false]
        intro heq
        have := List.find?_some heq.symm
        rw [hp] at this
        cases this
    | false =>
      have hp : p x = false := by
        cases h : p x with
        | true => rw [hpq x h] at hq; exact hq
        | false => rfl
      simpa [hp] using ih

/-- The index holds the last element registered under an id. -/
theorem feedNodes_eq (id : ℤ) :
    feedNodes doc S r id = (registeredAt doc S r id).map NodeId.parsed := by
  unfold feedNodes registeredAt registered
  induction walkKids S r 0 (doc.kids r) using List.reverseRecOn with
  | nil => rfl
  | append_singleton ms m ih =>
    rw [List.foldl_concat, List.filterMap_append]
    cases m with
    | enter c =>
      have hlast : List.filterMap Move.entered [Move.enter c] = [c] := rfl
      rw [hlast, last_concat, enterNode]
      cases ha : attrsAt doc c with
      | none => simpa [keyAt, ha] using ih
      | some a =>
        dsimp only
        rw [Function.update_apply, ih]
        by_cases hid : id = a.id
        · simp [keyAt, ha, hid]
        · simp [keyAt, ha, hid, Ne.symm hid]
    | visit c =>
      rw [show List.filterMap Move.entered [Move.visit c] = [] from rfl, List.append_nil]
      exact ih
    | defer c =>
      rw [show List.filterMap Move.entered [Move.defer c] = [] from rfl, List.append_nil]
      exact ih
    | kill c =>
      rw [show List.filterMap Move.entered [Move.kill c] = [] from rfl, List.append_nil]
      exact ih

/-! ### Loaded sites -/

theorem nodes_production {lib : Libxml} {su rawxml : String} {keys : List String} {site : Site}
    (hdoc : lib.xmlReadMemory rawxml = some doc)
    (hload : (Site.blank su false keys).loadXmlDoc lib rawxml = .ok site) :
    ∃ r, site.rootNode = some (.parsed r) ∧ site.nodes = feedNodes doc site.structures r := by
  obtain ⟨root, design, site₁, site₂, generation, hcontent, hassoc, rfl⟩ :=
    loadXmlDoc_phases hdoc hload
  obtain ⟨r, rfl, hr, htrace⟩ := loadContent_trace rfl rfl hcontent
  obtain ⟨hroot, -, -⟩ :=
    walk_linking hr rfl (fun _ => rfl) (fun _ => rfl) (fun _ => rfl) rfl htrace
  obtain ⟨hnodes', -, hstruct, hroot'⟩ := sameIndex_run hassoc
  refine ⟨r, hroot'.trans hroot, ?_⟩
  dsimp only
  rw [hstruct]
  exact hnodes'.trans (trace_index htrace).1

/-- In either mode, the index by id is that of the feed as the site sees it. -/
theorem loadXmlDoc_nodes {lib : Libxml} {su rawxml : String} {keys : List String}
    {stagingMode : Bool} {site : Site} (hdoc : lib.xmlReadMemory rawxml = some doc)
    (hload : (Site.blank su stagingMode keys).loadXmlDoc lib rawxml = .ok site) :
    ∃ r, site.rootNode = some (.parsed r) ∧
      site.nodes = feedNodes (seenBy stagingMode doc) site.structures r := by
  cases stagingMode with
  | false => exact nodes_production hdoc hload
  | true =>
    have hdoc' : lib.unstaged.xmlReadMemory rawxml = some doc.unstaged :=
      congrArg (Option.map Document.unstaged) hdoc
    have hnodes := nodes_production hdoc' (loadXmlDoc_staging hload)
    exact hnodes

/-! ### The main result -/

/-- A query of digits leads to the element registered last among those that declare the number, which
    is still in the tree, and to nothing if there is none. -/
def LeadsTo (lib : Libxml) (site : Site) (target : Option (List ℕ)) (d : String) : Prop :=
  (∀ c ∈ target, ∃ cell, site.doc (.parsed c) = some cell) ∧
    ∀ context q, q = d ∨ q = "/" ++ d →
      Query.new lib site context q = .ok (Query.result (target.map NodeId.parsed))

/-- CORRECT: in a site loaded from any feed, a string of digits leads where it should exactly if the
    element registered last under its `int` value declares that very number and was not freed while
    loading. -/
theorem query_id_iff {lib : Libxml} {su rawxml : String} {keys : List String} {stagingMode : Bool}
    {site : Site} {d : String} (hdoc : lib.xmlReadMemory rawxml = some doc)
    (hload : (Site.blank su stagingMode keys).loadXmlDoc lib rawxml = .ok site) (hd : Digits d) :
    ∃ r, site.rootNode = some (.parsed r) ∧
      (LeadsTo lib site
          (declaring (seenBy stagingMode doc) site.structures r (decimal d.toList)) d ↔
        ∀ c, registeredAt (seenBy stagingMode doc) site.structures r
            (int32 (decimal d.toList)) = some c →
          declaredId (seenBy stagingMode doc) c = some (decimal d.toList) ∧
            ∃ cell, site.doc (.parsed c) = some cell) := by
  obtain ⟨r, hroot, hnodes⟩ := loadXmlDoc_nodes hdoc hload
  refine ⟨r, hroot, ?_⟩
  have hfind : Query.find site (int32 (decimal d.toList)) = Query.result
      ((registeredAt (seenBy stagingMode doc) site.structures r (int32 (decimal d.toList))).map
        NodeId.parsed) := by
    rw [Query.find, hnodes, feedNodes_eq]
  have hsame : ∀ t t' : Option (List ℕ), Query.result (t.map NodeId.parsed) =
      Query.result (t'.map NodeId.parsed) ↔ t = t' := by
    intro t t'
    cases t <;> cases t' <;> simp [Query.result]
  have hleads : (∀ context q, q = d ∨ q = "/" ++ d → Query.new lib site context q =
      .ok (Query.result ((declaring (seenBy stagingMode doc) site.structures r
        (decimal d.toList)).map NodeId.parsed))) ↔
      registeredAt (seenBy stagingMode doc) site.structures r (int32 (decimal d.toList)) =
        declaring (seenBy stagingMode doc) site.structures r (decimal d.toList) := by
    rw [← hsame, ← hfind]
    constructor
    · intro h
      have hnew := h none d (.inl rfl)
      rw [new_digits lib site none hd (.inl rfl)] at hnew
      exact Except.ok.inj hnew
    · intro h context q hq
      rw [new_digits lib site context hd hq, h]
  have hlast : registeredAt (seenBy stagingMode doc) site.structures r (int32 (decimal d.toList)) =
      declaring (seenBy stagingMode doc) site.structures r (decimal d.toList) ↔
      ∀ c, registeredAt (seenBy stagingMode doc) site.structures r
          (int32 (decimal d.toList)) = some c →
        declaredId (seenBy stagingMode doc) c = some (decimal d.toList) := by
    refine (last_eq_iff ?_ _).trans ?_
    · intro c hc
      simpa using keyAt_of_declaredId (by simpa using hc)
    · simp [registeredAt]
  rw [LeadsTo, hleads]
  constructor
  · rintro ⟨hthere, heq⟩ c hc
    exact ⟨hlast.mp heq c hc, hthere c (heq ▸ hc)⟩
  · intro h
    have heq := hlast.mpr fun c hc => (h c hc).1
    exact ⟨fun c hc => (h c (heq ▸ hc)).2, heq⟩

/-! ### A feed -/

/-- Two pages whose ids are the same `int`, and a note without an id. -/
def idsFeed : Document :=
  [.element "website" [] [
    .element "content" [] [
      .element "page" [("id", some "7")] [],
      .element "note" [] [],
      .element "page" [("id", some "4294967303")] []],
    .element "design" [] [],
    .element "generation" [] [.text "7"]]]

def idsLib : Libxml := { sampleLib with xmlReadMemory := fun _ => some idsFeed }

/-- The feed, loaded. -/
def idsSite : Site :=
  ((Site.blank "shop" false []).loadXmlDoc idsLib "feed").toOption.getD (Site.blank "shop" false [])

theorem idsSite_loaded :
    (Site.blank "shop" false []).loadXmlDoc idsLib "feed" = .ok idsSite :=
  ok_getD (by decide +kernel)

/-- The second page is found by its own number. -/
theorem query_id_iff_second :
    LeadsTo idsLib idsSite (some [2, 0, 0]) "4294967303" := by
  obtain ⟨r, hroot, hiff⟩ := query_id_iff (d := "4294967303") (rfl : idsLib.xmlReadMemory "feed" = _)
    idsSite_loaded (by unfold Digits; decide)
  have hr : idsSite.rootNode = some (.parsed [0, 0]) := by decide +kernel
  rw [hr] at hroot
  cases hroot
  have htarget : declaring (seenBy false idsFeed) idsSite.structures [0, 0]
      (decimal "4294967303".toList) = some [2, 0, 0] := by decide +kernel
  rw [← htarget]
  refine hiff.mpr fun c hc => ?_
  have hlast : registeredAt (seenBy false idsFeed) idsSite.structures [0, 0]
      (int32 (decimal "4294967303".toList)) = some [2, 0, 0] := by decide +kernel
  rw [hlast, Option.some.injEq] at hc
  rw [← hc]
  exact ⟨by decide +kernel, Option.isSome_iff_exists.mp (by decide +kernel)⟩

/-- No element declares 0, and the note is returned; 7 leads to the other page. -/
theorem query_id_misled :
    declaring idsFeed idsSite.structures [0, 0] 0 = none ∧
    Query.new idsLib idsSite none "0" = .ok [.node (.parsed [1, 0, 0])] ∧
    ¬ LeadsTo idsLib idsSite (declaring idsFeed idsSite.structures [0, 0] 0) "0" ∧
    declaring idsFeed idsSite.structures [0, 0] 7 = some [0, 0, 0] ∧
    Query.new idsLib idsSite none "7" = .ok [.node (.parsed [2, 0, 0])] := by
  have hnone : declaring idsFeed idsSite.structures [0, 0] 0 = none := by decide +kernel
  have hnote : Query.new idsLib idsSite none "0" = .ok [.node (.parsed [1, 0, 0])] := by
    decide +kernel
  refine ⟨hnone, hnote, fun h => ?_, by decide +kernel, by decide +kernel⟩
  have hempty := h.2 none "0" (.inl rfl)
  rw [hnote, hnone] at hempty
  cases hempty

end VaeDb.Ids
