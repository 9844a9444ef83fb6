import VaeDb.Session.Session
import VaeDb.Site.Answers

/-! `createInfo`: under which row a new one is to be created.

    The last step of the query names what to create; the path before it selects the row to create it
    under, and the last step is looked up in the design from there. One variable carries the context
    through all of it, and is assigned only where the path selects something:

        context ──▶ path selects n, m, ..   ──▶ Context of n ──▶ row, design query
                ──▶ path selects nothing    ──▶ context      ──▶ row, design query

    So a path that leads nowhere ends with the row that the client came from, if the design has a
    place for the last step there. -/

namespace VaeDb
open Schemes Xml Cpp

namespace Response

/-- What the path of a query selects: from the root where the query begins with a slash, and from the
    context where it does not. -/
def selects (lib : Libxml) (site : Site) (context : Option NodeId) (query mainQuery : String) :
    Result Query :=
  Query.new lib site (if query.toList.head? = some '/' then none else context) mainQuery

/-- The row of a node: its id, or 0 for a node without a Context. -/
def IsRow (site : Site) (node : XmlNode) (row : ℤ) : Prop :=
  (Query.privateOf site node = .ok none ∧ row = 0) ∨
    ∃ context ctxt, Query.privateOf site node = .ok (some context) ∧
      site.contexts context = some ctxt ∧ row = ctxt.id

/-- The row that is reported is that of the first node that the path selects, and a path that selects
    nothing is an error. -/
structure Targets (rt : Runtime) (site : Site) (context : Option NodeId)
    (query mainQuery : String) : Prop where
  row : ∀ node nodes info, selects rt.lib site context query mainQuery = .ok (node :: nodes) →
    createInfo (Lookups.fresh rt.lib site) rt site query context = .ok info →
      IsRow site node info.row_id
  nothing : selects rt.lib site context query mainQuery = .ok [] →
    ∃ message, createInfo (Lookups.fresh rt.lib site) rt site query context =
      .error (.queryError message)

/-- The design has no place for the last step, or libxml2 refuses it. -/
def Refused (r : Result Query) : Prop := r = .ok [] ∨ ∃ message, r = .error (.queryError message)

/-- The Context of a context is there. -/
def LiveContext (site : Site) (context : Option NodeId) : Prop :=
  ∀ c, context = some c → ∃ ctxt, site.contexts c = some ctxt

variable {rt : Runtime} {site : Site} {context : Option NodeId} {mainQuery lastPart query : String}

/-! ### The two parts of a query -/

theorem split_parts (hlast : '/' ∉ lastPart.toList) :
    split ['/'] (mainQuery ++ "/" ++ lastPart) = split ['/'] mainQuery ++ [lastPart] := by
  rw [split_eq, split_eq, String.toList_append, String.toList_append, List.append_assoc,
    show "/".toList = ['/'] from rfl, List.singleton_append, List.splitOn_append_cons_self,
    List.splitOn_eq_singleton hlast, List.map_append]
  simp

theorem mainQuery_parts (hlast : '/' ∉ lastPart.toList) :
    join (split ['/'] (mainQuery ++ "/" ++ lastPart)).dropLast "/" = mainQuery := by
  rw [split_parts hlast, List.dropLast_concat]
  exact join_split '/' mainQuery

theorem lastPart_parts (hlast : '/' ∉ lastPart.toList) :
    (split ['/'] (mainQuery ++ "/" ++ lastPart)).getLastD "" = lastPart := by
  rw [split_parts hlast, List.getLastD_concat]

/-- A path with a leading slash does not look at the context. -/
theorem new_slash (lib : Libxml) (h : mainQuery.toList.head? = some '/') :
    Query.new lib site context mainQuery = Query.new lib site none mainQuery := by
  rw [Query.new, Query.new]
  simp only [h, if_true]

theorem selects_eq (lib : Libxml) (hmain : mainQuery ≠ "") :
    selects lib site context (mainQuery ++ "/" ++ lastPart) mainQuery =
      Query.new lib site context mainQuery := by
  obtain ⟨c, cs, hcs⟩ := List.exists_cons_of_ne_nil (mt String.toList_eq_nil_iff.mp hmain)
  have hhead : (mainQuery ++ "/" ++ lastPart).toList.head? = mainQuery.toList.head? := by
    simp [hcs]
  rw [selects, hhead]
  split
  · next h => exact (new_slash lib h).symm
  · rfl

/-! ### The context that the path leaves -/

theorem mainContext_of_nothing {queryParts : List String} (hmain : join queryParts "/" ≠ "")
    (h : Query.new rt.lib site context (join queryParts "/") = .ok []) :
    mainContext (Lookups.fresh rt.lib site) site context queryParts lastPart = .ok context := by
  rw [mainContext]
  simp only [hmain, decide_false, Bool.false_and, if_neg Bool.false_ne_true, ne_eq,
    not_false_eq_true, if_true]
  exact bind_eq_ok.mpr ⟨[], h, rfl⟩

theorem mainContext_of_node {queryParts : List String} {node : XmlNode} {nodes : List XmlNode}
    (hmain : join queryParts "/" ≠ "")
    (h : Query.new rt.lib site context (join queryParts "/") = .ok (node :: nodes)) :
    mainContext (Lookups.fresh rt.lib site) site context queryParts lastPart =
      Query.privateOf site node := by
  rw [mainContext]
  simp only [hmain, decide_false, Bool.false_and, if_neg Bool.false_ne_true, ne_eq,
    not_false_eq_true, if_true]
  rw [show (Lookups.fresh rt.lib site).fetch_query context (join queryParts "/") = _ from h]
  rfl

/-! ### What follows from there -/

theorem noThrow_readId (id : ℤ) (field : String × Option String) : NoThrow (readId id field) := by
  rw [readId]
  split
  · exact (NoThrow.deref _).bind fun value => .pure _
  · exact .pure _

/-- Reading the `id` of a design node throws nothing. -/
theorem noThrow_structureId (node : XmlNode) : NoThrow (structureId site node) := by
  refine NoThrow.bind ?_ fun n => ?_
  · cases node with
    | attr value => exact .undefined
    | node n => exact .pure n
  · exact ((NoThrow.deref _).bind fun cell => .deref _).bind fun properties =>
      .foldlM noThrow_readId properties 0

/-- The row of a context: its id, or 0 where there is none. -/
def RowFrom (site : Site) (context : Option NodeId) (row : ℤ) : Prop :=
  (context = none ∧ row = 0) ∨
    ∃ c ctxt, context = some c ∧ site.contexts c = some ctxt ∧ row = ctxt.id

theorem getId_eq_ok {c : NodeId} {id : ℤ} :
    getId site c = .ok id ↔ ∃ ctxt, site.contexts c = some ctxt ∧ id = ctxt.id := by
  rw [getId, bind_eq_ok]
  simp only [deref_eq_ok, pure_eq_ok]
  exact exists_congr fun ctxt => and_congr_right fun _ => eq_comm

variable {left : Option NodeId} {info : VaeDbCreateInfo} {e : Failure}

/-- What `createInfo` has done when it succeeds, from the context that the path has left. -/
theorem createInfo_ok
    (hleft : mainContext (Lookups.fresh rt.lib site) site context (split ['/'] query).dropLast
      ((split ['/'] query).getLastD "") = .ok left)
    (h : createInfo (Lookups.fresh rt.lib site) rt site query context = .ok info) :
    RowFrom site left info.row_id ∧ atoi ((split ['/'] query).getLastD "") = 0 ∧
      ∃ node nodes, Query.runDesignQuery rt.lib site left ((split ['/'] query).getLastD "") =
        .ok (node :: nodes) := by
  rw [createInfo] at h
  obtain ⟨left', hleft', h⟩ := bind_eq_ok.mp h
  rw [hleft, Except.ok.injEq] at hleft'
  subst hleft'
  obtain ⟨row, hrow, h⟩ := bind_eq_ok.mp h
  have hfrom : RowFrom site left row := by
    cases left with
    | none => exact .inl ⟨rfl, (pure_eq_ok.mp hrow).symm⟩
    | some c =>
      obtain ⟨ctxt, hctxt, heq⟩ := getId_eq_ok.mp hrow
      exact .inr ⟨c, ctxt, rfl, hctxt, heq⟩
  split at h
  · exact absurd h throw_ne_ok
  · next hnumber =>
    obtain ⟨nodes, hnodes, h⟩ := bind_eq_ok.mp h
    cases nodes with
    | nil => exact absurd h throw_ne_ok
    | cons node nodes =>
      obtain ⟨structure_id, -, h⟩ := bind_eq_ok.mp h
      cases h
      exact ⟨hfrom, not_not.mp hnumber, node, nodes, hnodes⟩

/-- How `createInfo` fails, from a context that is there. -/
theorem createInfo_error (hlive : LiveContext site left)
    (hleft : mainContext (Lookups.fresh rt.lib site) site context (split ['/'] query).dropLast
      ((split ['/'] query).getLastD "") = .ok left)
    (h : createInfo (Lookups.fresh rt.lib site) rt site query context = .error e) :
    (∃ message, e = .queryError message ∧ (atoi ((split ['/'] query).getLastD "") ≠ 0 ∨
      Query.runDesignQuery rt.lib site left ((split ['/'] query).getLastD "") = .ok [])) ∨
    (atoi ((split ['/'] query).getLastD "") = 0 ∧
      (Query.runDesignQuery rt.lib site left ((split ['/'] query).getLastD "") = .error e ∨
        e = .undefined ∧ ∃ node nodes,
          Query.runDesignQuery rt.lib site left ((split ['/'] query).getLastD "") =
            .ok (node :: nodes))) := by
  rw [createInfo] at h
  rcases bind_eq_error.mp h with h | ⟨left', hleft', h⟩
  · exact nomatch hleft.symm.trans h
  rw [hleft, Except.ok.injEq] at hleft'
  subst hleft'
  rcases bind_eq_error.mp h with h | ⟨row, -, h⟩
  · cases left with
    | none => exact nomatch h
    | some c =>
      obtain ⟨ctxt, hctxt⟩ := hlive c rfl
      exact nomatch (getId_eq_ok.mpr ⟨ctxt, hctxt, rfl⟩).symm.trans h
  split at h
  · next hnumber => exact .inl ⟨_, (Except.error.inj h).symm, .inl hnumber⟩
  · next hnumber =>
    rcases bind_eq_error.mp h with h | ⟨nodes, hnodes, h⟩
    · exact .inr ⟨not_not.mp hnumber, .inl h⟩
    cases nodes with
    | nil => exact .inl ⟨_, (Except.error.inj h).symm, .inr hnodes⟩
    | cons node nodes =>
      rcases bind_eq_error.mp h with h | ⟨structure_id, -, h⟩
      · exact .inr ⟨not_not.mp hnumber, .inr ⟨noThrow_structureId node _ h, node, nodes, hnodes⟩⟩
      · exact nomatch h

/-- From a context that is there, `createInfo` throws a query error exactly if the last step is a
    number, or the design has no place for it. -/
theorem throws_iff (hlive : LiveContext site left)
    (hleft : mainContext (Lookups.fresh rt.lib site) site context (split ['/'] query).dropLast
      ((split ['/'] query).getLastD "") = .ok left) :
    (∃ message, createInfo (Lookups.fresh rt.lib site) rt site query context =
        .error (.queryError message)) ↔
      atoi ((split ['/'] query).getLastD "") ≠ 0 ∨
        Refused (Query.runDesignQuery rt.lib site left ((split ['/'] query).getLastD "")) := by
  constructor
  · rintro ⟨message, h⟩
    rcases createInfo_error hlive hleft h with ⟨-, -, hcause⟩ | ⟨-, hthrown | ⟨heq, -⟩⟩
    · exact hcause.imp_right .inl
    · exact .inr (.inr ⟨message, hthrown⟩)
    · exact nomatch heq
  · intro hcause
    cases h : createInfo (Lookups.fresh rt.lib site) rt site query context with
    | ok info =>
      obtain ⟨-, hnumber, node, nodes, hnodes⟩ := createInfo_ok hleft h
      rcases hcause with hcause | hnone | ⟨message, hthrown⟩
      · exact absurd hnumber hcause
      · exact nomatch hnodes.symm.trans hnone
      · exact nomatch hnodes.symm.trans hthrown
    | error e =>
      rcases createInfo_error hlive hleft h with ⟨message, rfl, -⟩ | ⟨hnumber, hdesign⟩
      · exact ⟨message, rfl⟩
      rcases hcause with hcause | hnone | ⟨message, hthrown⟩
      · exact absurd hnumber hcause
      · rcases hdesign with hdesign | ⟨-, node, nodes, hnodes⟩
        · exact nomatch hdesign.symm.trans hnone
        · exact nomatch hnodes.symm.trans hnone
      · rcases hdesign with hdesign | ⟨-, node, nodes, hnodes⟩
        · exact ⟨message, congrArg _ (Except.error.inj (hdesign.symm.trans hthrown))⟩
        · exact nomatch hnodes.symm.trans hthrown

/-! ### The row that is targeted -/

theorem isRow_of_rowFrom {node : XmlNode} {row : ℤ} (hnode : Query.privateOf site node = .ok left)
    (h : RowFrom site left row) : IsRow site node row := by
  rcases h with ⟨rfl, hzero⟩ | ⟨c, ctxt, rfl, hctxt, hid⟩
  · exact .inl ⟨hnode, hzero⟩
  · exact .inr ⟨c, ctxt, hnode, hctxt, hid⟩

/-- One context: the row is right exactly if a path that selects nothing meets with a last step that is
    refused from the context itself. -/
theorem targets_iff (hlive : LiveContext site context) (hmain : mainQuery ≠ "")
    (hlast : '/' ∉ lastPart.toList) :
    Targets rt site context (mainQuery ++ "/" ++ lastPart) mainQuery ↔
      (selects rt.lib site context (mainQuery ++ "/" ++ lastPart) mainQuery = .ok [] →
        atoi lastPart ≠ 0 ∨ Refused (Query.runDesignQuery rt.lib site context lastPart)) := by
  have hparts := @mainQuery_parts mainQuery lastPart hlast
  have hpart := @lastPart_parts mainQuery lastPart hlast
  have hne : join (split ['/'] (mainQuery ++ "/" ++ lastPart)).dropLast "/" ≠ "" := by rwa [hparts]
  have hnothing : selects rt.lib site context (mainQuery ++ "/" ++ lastPart) mainQuery = .ok [] →
      ((∃ message, createInfo (Lookups.fresh rt.lib site) rt site (mainQuery ++ "/" ++ lastPart)
          context = .error (.queryError message)) ↔
        atoi lastPart ≠ 0 ∨ Refused (Query.runDesignQuery rt.lib site context lastPart)) := by
    intro hselects
    rw [selects_eq rt.lib hmain, ← hparts] at hselects
    have hthrows := @throws_iff rt site context (mainQuery ++ "/" ++ lastPart) _ hlive
      (mainContext_of_nothing hne hselects)
    rwa [hpart] at hthrows
  constructor
  · exact fun h hselects => (hnothing hselects).mp (h.nothing hselects)
  · intro h
    refine ⟨fun node nodes info hselects hok => ?_, fun hselects => (hnothing hselects).mpr (h hselects)⟩
    rw [selects_eq rt.lib hmain, ← hparts] at hselects
    have hcontext := @mainContext_of_node rt site context
      ((split ['/'] (mainQuery ++ "/" ++ lastPart)).getLastD "") _ _ _ hne hselects
    rw [createInfo] at hok
    obtain ⟨left, hleft, -⟩ := bind_eq_ok.mp hok
    exact isRow_of_rowFrom (hcontext.symm.trans hleft) (createInfo_ok hleft hok).1

/-- CORRECT: a `createInfo` that succeeds has asked for each context of the parent, and for each of
    them the row is right exactly if a path that selects nothing meets with a last step that is a
    number, or that the design refuses from the context itself. -/
theorem createInfos_targets_iff {parent : Option Response}
    (hlive : ∀ context ∈ parents parent, LiveContext site context) (hmain : mainQuery ≠ "")
    (hlast : '/' ∉ lastPart.toList) :
    (∀ infos, createInfos (Lookups.fresh rt.lib site) rt site parent
        (mainQuery ++ "/" ++ lastPart) = .ok infos →
      List.Forall₂ (fun context info => createInfo (Lookups.fresh rt.lib site) rt site
        (mainQuery ++ "/" ++ lastPart) context = .ok info) (parents parent) infos) ∧
    ∀ context ∈ parents parent,
      (Targets rt site context (mainQuery ++ "/" ++ lastPart) mainQuery ↔
        (selects rt.lib site context (mainQuery ++ "/" ++ lastPart) mainQuery = .ok [] →
          atoi lastPart ≠ 0 ∨ Refused (Query.runDesignQuery rt.lib site context lastPart))) :=
  ⟨fun _ hinfos => mapM_eq_ok.mp hinfos,
    fun context hmem => targets_iff (hlive context hmem) hmain hlast⟩

/-! ### A feed -/

/-- A page, and in the design a place for notes under pages. -/
def createFeed : Document :=
  [.element "website" [] [
    .element "content" [] [.element "page" [("id", some "1"), ("type", some "9")] []],
    .element "design" [] [
      .element "page" [("id", some "9")] [.element "note" [("id", some "10")] []]],
    .element "generation" [] [.text "7"]]]

/-- libxml2 on the feed: loading, the pages, and the notes of the design. -/
def createLib : Libxml where
  xmlReadMemory _ := some createFeed
  xmlXPathEvalExpression _ _ q :=
    if q = "/website/content" then .nodeset [.node (.parsed [0, 0])]
    else if q = "/website/design" then .nodeset [.node (.parsed [1, 0])]
    else if q = "/website/design//*[@id=9]" then .nodeset [.node (.parsed [0, 1, 0])]
    else if q = "/website/generation" then .nodeset [.node (.parsed [2, 0])]
    else if q = "page" then .nodeset [.node (.parsed [0, 0, 0])]
    else if q = "note" then .nodeset [.node (.parsed [0, 0, 1, 0])]
    else .nodeset []

def createRuntime : Runtime := ⟨createLib, fun _ => .done (Equiv.refl _), id⟩

def createSite : Site :=
  ((Site.blank "shop" false []).loadXmlDoc createLib "feed").toOption.getD (Site.blank "shop" false [])

/-- A note under the page. -/
theorem createInfos_targets_page :
    Targets createRuntime createSite none "page/note" "page" := by
  have hfound : selects createLib createSite none ("page" ++ "/" ++ "note") "page" ≠ .ok [] := by
    decide +kernel
  have hlive : ∀ context ∈ parents none, LiveContext createSite context := by
    intro context hmem c hc
    exact nomatch (List.mem_singleton.mp hmem).symm.trans hc
  have htargets := (@createInfos_targets_iff createRuntime createSite "page" "note" none hlive
    (by decide) (by decide)).2 none (List.mem_singleton.mpr rfl)
  exact htargets.mpr fun hnothing => absurd hnothing hfound

/-- The path leads nowhere, and a note is created under the page that the client came from. -/
theorem not_targets :
    selects createLib createSite (some (.parsed [0, 0, 0])) "nothing/note" "nothing" = .ok [] ∧
    createInfo (Lookups.fresh createLib createSite) createRuntime createSite "nothing/note"
      (some (.parsed [0, 0, 0])) = .ok ⟨10, 1⟩ ∧
    ¬ Targets createRuntime createSite (some (.parsed [0, 0, 0])) "nothing/note" "nothing" := by
  have hnothing : selects createLib createSite (some (.parsed [0, 0, 0])) "nothing/note" "nothing" =
      .ok [] := by decide +kernel
  have hcreated : createInfo (Lookups.fresh createLib createSite) createRuntime createSite
      "nothing/note" (some (.parsed [0, 0, 0])) = .ok ⟨10, 1⟩ := by decide +kernel
  refine ⟨hnothing, hcreated, fun h => ?_⟩
  obtain ⟨message, hthrown⟩ := h.nothing hnothing
  exact nomatch hcreated.symm.trans hthrown

end Response

end VaeDb
