import VaeDb.Schemes.Firsts
import VaeDb.Session.Paging

/-! `unique`: one node for each tuple of field values.

    A node that passes the filter is compared with those before it by a key, the values of its fields
    with `~!~` behind each. Equal tuples have equal keys; different ones may, where a value has the
    separator in it. So the nodes that match are the first ones with their key, and they are the first
    ones with their tuple exactly if no two of the nodes that pass share a key but not a tuple.

        tuple           key
        a    b          a~!~b~!~
        a~!~ b          a~!~~!~b~!~
        a    ~!~b       a~!~~!~b~!~ -/

namespace VaeDb
open Schemes Xml

namespace Response

/-- The key of a tuple, as `uniqueMatch` puts it together. -/
def uniqueKey (values : List String) : String :=
  values.foldl (fun val value => val ++ (value ++ "~!~")) ""

/-- What the filter and the fields of a list of nodes come to: each has a Context, `pass` says which
    ones pass the filter, and `value` what `getData` answers for their fields. -/
structure Assigned (ops : Lookups Result) (site : Site) (o : Request) (nodes : List XmlNode)
    (pass : XmlNode → Bool) (value : XmlNode → String → String) : Prop where
  unique : o.unique
  filter : ∀ node ∈ nodes,
    (if o.filter then filterMatch site o.filterTerms node else pure true) = .ok (pass node)
  context : ∀ node ∈ nodes, ∃ c, Query.privateOf site node = .ok (some c) ∧
    ∀ field ∈ o.uniqueFields, ops.getData c field = .ok (value node field)

/-- The values of a node over the unique fields. -/
def tuple (o : Request) (value : XmlNode → String → String) (node : XmlNode) : List String :=
  o.uniqueFields.map (value node)

variable {ops : Lookups Result} {site : Site} {o : Request} {nodes : List XmlNode}
  {pass : XmlNode → Bool} {value : XmlNode → String → String}

/-! ### One node -/

theorem foldlM_values {c : NodeId} {node : XmlNode} : ∀ {fields : List String} {val : String},
    (∀ field ∈ fields, ops.getData c field = .ok (value node field)) →
    fields.foldlM (fun val field => do
      let data ← ops.getData c field
      pure (val ++ (data ++ "~!~"))) val =
    (.ok ((fields.map (value node)).foldl (fun val value => val ++ (value ++ "~!~")) val) :
      Result String)
  | [], val, _ => rfl
  | field :: fields, val, h => by
    obtain ⟨hfield, hfields⟩ := List.forall_mem_cons.mp h
    rw [List.foldlM_cons, hfield]
    exact foldlM_values hfields

theorem uniqueMatch_eq {found : List String} {node : XmlNode}
    (h : ∃ c, Query.privateOf site node = .ok (some c) ∧
      ∀ field ∈ o.uniqueFields, ops.getData c field = .ok (value node field)) :
    uniqueMatch ops site o.uniqueFields found node =
      .ok (if uniqueKey (tuple o value node) ∈ found then (false, found)
        else (true, uniqueKey (tuple o value node) :: found)) := by
  obtain ⟨c, hprivate, hvalues⟩ := h
  refine bind_eq_ok.mpr ⟨some c, hprivate, bind_eq_ok.mpr ⟨c, rfl, ?_⟩⟩
  exact bind_eq_ok.mpr ⟨_, foldlM_values hvalues, rfl⟩

theorem nodeMatch_unique (h : Assigned ops site o nodes pass value) {node : XmlNode}
    (hnode : node ∈ nodes) (found : List String) :
    nodeMatch ops site o found node =
      if pass node then
        .ok (if uniqueKey (tuple o value node) ∈ found then (false, found)
          else (true, uniqueKey (tuple o value node) :: found))
      else .ok (false, found) := by
  have hfilter := h.filter node hnode
  refine (congrArg (fun x => x >>= _) hfilter).trans ?_
  cases hpass : pass node with
  | false => rfl
  | true =>
    change (if o.unique then uniqueMatch ops site o.uniqueFields found node
      else pure (true, found)) = _
    rw [if_pos h.unique, uniqueMatch_eq (h.context node hnode)]
    rfl

/-! ### All nodes -/

/-- The keys found are those of the nodes that have passed so far. -/
theorem matchingFrom_unique : ∀ {rest before : List XmlNode} {found : List String},
    Assigned ops site o rest pass value →
    (∀ key, key ∈ found ↔ ∃ node ∈ before, uniqueKey (tuple o value node) = key) →
    matchingFrom ops site o found rest =
      .ok (firstsAfter (fun node => uniqueKey (tuple o value node)) before (rest.filter pass))
  | [], _, _, _, _ => rfl
  | node :: rest, before, found, h, hfound => by
    have hrest : Assigned ops site o rest pass value :=
      ⟨h.unique, fun n hn => h.filter n (List.mem_cons_of_mem node hn),
        fun n hn => h.context n (List.mem_cons_of_mem node hn)⟩
    rw [matchingFrom, nodeMatch_unique h List.mem_cons_self]
    cases hpass : pass node with
    | false =>
      rw [List.filter_cons_of_neg (by simp [hpass]), if_neg Bool.false_ne_true]
      exact bind_eq_ok.mpr ⟨_, rfl, bind_eq_ok.mpr ⟨_, matchingFrom_unique hrest hfound, rfl⟩⟩
    | true =>
      rw [List.filter_cons_of_pos hpass, firstsAfter]
      have hgrown : ∀ {found' : List String},
          (∀ key, key ∈ found' ↔ key ∈ found ∨ uniqueKey (tuple o value node) = key) →
          ∀ key, key ∈ found' ↔ ∃ n ∈ before ++ [node], uniqueKey (tuple o value n) = key := by
        intro found' hfound' key
        rw [hfound' key, hfound key]
        simp [or_and_right, exists_or]
      by_cases hmem : uniqueKey (tuple o value node) ∈ found
      · have hold : ¬ ∀ n ∈ before, uniqueKey (tuple o value n) ≠ uniqueKey (tuple o value node) := by
          obtain ⟨n, hn, heq⟩ := (hfound _).mp hmem
          exact fun hnew => hnew n hn heq
        rw [if_pos rfl, if_pos hmem, if_neg hold]
        have hsame : ∀ key, key ∈ found ↔ key ∈ found ∨ uniqueKey (tuple o value node) = key :=
          fun key => ⟨.inl, fun hkey => hkey.elim id fun heq => heq ▸ hmem⟩
        exact bind_eq_ok.mpr ⟨_, rfl, bind_eq_ok.mpr
          ⟨_, matchingFrom_unique hrest (hgrown hsame), rfl⟩⟩
      · have hnew : ∀ n ∈ before, uniqueKey (tuple o value n) ≠ uniqueKey (tuple o value node) :=
          fun n hn heq => hmem ((hfound _).mpr ⟨n, hn, heq⟩)
        rw [if_pos rfl, if_neg hmem, if_pos hnew]
        have hmore : ∀ key, key ∈ uniqueKey (tuple o value node) :: found ↔
            key ∈ found ∨ uniqueKey (tuple o value node) = key := by
          intro key
          rw [List.mem_cons, or_comm, eq_comm]
        exact bind_eq_ok.mpr ⟨_, rfl, bind_eq_ok.mpr
          ⟨_, matchingFrom_unique hrest (hgrown hmore), rfl⟩⟩

/-- The nodes that match are the first ones with their key. -/
theorem matching_unique (h : Assigned ops site o nodes pass value) :
    matching ops site o nodes =
      .ok (firsts (fun node => uniqueKey (tuple o value node)) (nodes.filter pass)) :=
  matchingFrom_unique h (by simp)

/-- CORRECT: with `unique`, the nodes that match are those that pass the filter and differ in their
    tuple from every earlier one that passes, exactly if no two nodes that pass share the key of their
    tuples without sharing the tuple. -/
theorem matching_tuples_iff (h : Assigned ops site o nodes pass value) :
    matching ops site o nodes = .ok (firsts (tuple o value) (nodes.filter pass)) ↔
      ∀ a ∈ nodes.filter pass, ∀ b ∈ nodes.filter pass,
        uniqueKey (tuple o value a) = uniqueKey (tuple o value b) →
          tuple o value a = tuple o value b := by
  rw [matching_unique h, Except.ok.injEq]
  exact firsts_eq_iff fun a b heq => congrArg uniqueKey heq

/-! ### A feed -/

/-- Two pages with different fields and one key. -/
def uniqueFeed : Document :=
  [.element "website" [] [
    .element "content" [] [
      .element "page" [("id", some "1")] [
        .element "a" [] [.text "x~!~"], .element "b" [] [.text "y"]],
      .element "page" [("id", some "2")] [
        .element "a" [] [.text "x"], .element "b" [] [.text "~!~y"]]],
    .element "design" [] [],
    .element "generation" [] [.text "7"]]]

def uniqueLib : Libxml := { sampleLib with xmlReadMemory := fun _ => some uniqueFeed }

def uniqueSite : Site :=
  ((Site.blank "shop" false []).loadXmlDoc uniqueLib "feed").toOption.getD (Site.blank "shop" false [])

def uniquePages : List XmlNode := [.node (.parsed [0, 0, 0]), .node (.parsed [1, 0, 0])]

def uniqueValue (node : XmlNode) (field : String) : String :=
  if node = .node (.parsed [0, 0, 0]) then (if field = "a" then "x~!~" else "y")
  else (if field = "a" then "x" else "~!~y")

theorem uniquePages_assigned (fields : List String)
    (hfields : ∀ field ∈ fields, field = "a" ∨ field = "b") :
    Assigned (Lookups.fresh uniqueLib uniqueSite) uniqueSite
      { unique := true, uniqueFields := fields } uniquePages (fun _ => true) uniqueValue where
  unique := rfl
  filter _ _ := rfl
  context := by
    have hdata : ∀ node ∈ uniquePages, ∃ c, Query.privateOf uniqueSite node = .ok (some c) ∧
        ∀ field ∈ ["a", "b"],
          (Lookups.fresh uniqueLib uniqueSite).getData c field = .ok (uniqueValue node field) := by
      intro node hnode
      rcases List.mem_pair.mp hnode with rfl | rfl
      · exact ⟨.parsed [0, 0, 0], by decide +kernel, by decide +kernel⟩
      · exact ⟨.parsed [1, 0, 0], by decide +kernel, by decide +kernel⟩
    intro node hnode
    obtain ⟨c, hprivate, hvalues⟩ := hdata node hnode
    exact ⟨c, hprivate, fun field hfield => hvalues field (List.mem_pair.mpr (hfields field hfield))⟩

/-- By the first field alone, the two pages are told apart. -/
theorem matching_tuples_first :
    matching (Lookups.fresh uniqueLib uniqueSite) uniqueSite
      { unique := true, uniqueFields := ["a"] } uniquePages =
        .ok (firsts (tuple { unique := true, uniqueFields := ["a"] } uniqueValue)
          (uniquePages.filter fun _ => true)) :=
  (matching_tuples_iff (uniquePages_assigned ["a"] (by simp))).mpr (by decide +kernel)

/-- By both fields they are not. -/
theorem not_matching_tuples :
    matching (Lookups.fresh uniqueLib uniqueSite) uniqueSite
      { unique := true, uniqueFields := ["a", "b"] } uniquePages = .ok [.node (.parsed [0, 0, 0])] ∧
    firsts (tuple { unique := true, uniqueFields := ["a", "b"] } uniqueValue)
      (uniquePages.filter fun _ => true) = uniquePages ∧
    matching (Lookups.fresh uniqueLib uniqueSite) uniqueSite
      { unique := true, uniqueFields := ["a", "b"] } uniquePages ≠
        .ok (firsts (tuple { unique := true, uniqueFields := ["a", "b"] } uniqueValue)
          (uniquePages.filter fun _ => true)) := by
  decide +kernel

end Response

end VaeDb
