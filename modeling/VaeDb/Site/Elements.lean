import VaeDb.Site.Answers
import VaeDb.Site.AttrLists
import VaeDb.Site.Surroundings

/-! Reading one element of the content: its attributes, and its structure in the design.

    `populateAttrs` follows the value of every `id`, `type` and `permalink` attribute that it comes to,
    and asks the design for the structure of a `type`. An attribute that is empty has no value node, and
    a `type` that the design does not know selects no node: either is followed all the same.

        <page id="1" type="9">     /website/design//*[@id=9]  ──▶  <page name="Page" ..>
        <page id="">               ✗ value of id
        <page type="77">           ✗ node 0 of an empty set                                   -/

namespace VaeDb
open Schemes Xml Walk

/-! ### What the document selects -/

/-- The elements that the paths of loading select in a document. -/
structure Selection where
  content : List (List ℕ)
  design : List (List ℕ)
  structures : ℤ → List (List ℕ)
  generation : List (List ℕ)

/-- The node set of some elements. -/
def elements (ps : List (List ℕ)) : XPathObject := .nodeset (ps.map fun p => .node (.parsed p))

/-- libxml2 selects elements of the document, those of the design and the generation apart from the
    content, and goes on to select them whatever becomes of what is below the content. -/
structure Selects (lib : Libxml) (doc : Document) (sel : Selection) : Prop where
  content : lib.xmlXPathEvalExpression doc.store none (Cpp.cStr "/website/content") =
    elements sel.content
  design : lib.xmlXPathEvalExpression doc.store none (Cpp.cStr "/website/design") =
    elements sel.design
  structures : ∀ r ∈ sel.content, ∀ σ, Staging.AsParsed doc r σ → ∀ N,
    lib.xmlXPathEvalExpression σ none (Cpp.cStr (designPath N)) = elements (sel.structures N)
  generation : ∀ r ∈ sel.content, ∀ σ, Staging.AsParsed doc r σ →
    lib.xmlXPathEvalExpression σ none (Cpp.cStr "/website/generation") = elements sel.generation
  found : ∀ p, p ∈ sel.content ∨ p ∈ sel.design ∨ (∃ N, p ∈ sel.structures N) ∨ p ∈ sel.generation →
    ∃ name properties children, doc.at? p = some (.element name properties children)
  apart : ∀ r ∈ sel.content, ∀ p,
    (∃ N, p ∈ sel.structures N) ∨ p ∈ sel.design ∨ p ∈ sel.generation → ¬ r <:+ p

/-! ### Attributes -/

/-- Every attribute of one of the names has a value. -/
def Valued (names : List String) (properties : Properties) : Prop :=
  ∀ attr ∈ properties, attr.1 ∈ names → ∃ value, attr.2 = some value

/-- What is read of the attributes outside staging mode. -/
def upToStaging (properties : Properties) : Properties :=
  properties.takeWhile fun attr => attr.1 ≠ "staging"

variable {doc : Document} {sel : Selection} {lib : Libxml}

theorem readAttr_returns (s : VaeDbStructure) (attr : String × Option String) :
    ReturnsIff (attr.1 ∈ ["name", "permalink", "type"] → ∃ value, attr.2 = some value)
      (s.readAttr attr) := by
  obtain ⟨name, value⟩ := attr
  rw [VaeDbStructure.readAttr]
  have hread : ∀ g : String → VaeDbStructure, name ∈ ["name", "permalink", "type"] →
      ReturnsIff (name ∈ ["name", "permalink", "type"] → ∃ v, value = some v)
        (deref value >>= fun v => pure (g v)) := fun g hname =>
    ((ReturnsIff.deref value).before fun v _ => ⟨g v, rfl⟩).congr
      ⟨fun h _ => h, fun h => h hname⟩
  split_ifs with hname hpermalink htype
  · exact hread (fun v => { s with name := v }) (by simp [hname])
  · exact hread (fun v => { s with permalink := v }) (by simp [hpermalink])
  · exact hread (fun v => { s with type := v }) (by simp [htype])
  · refine (ReturnsIff.pure s).congr (iff_of_true trivial fun h => ?_)
    simp [hname, hpermalink, htype] at h

theorem readAttrs_returns (s : VaeDbStructure) (properties : Properties) :
    ReturnsIff (Valued ["name", "permalink", "type"] properties)
      (properties.foldlM VaeDbStructure.readAttr s) :=
  ReturnsIff.foldlM (fun _ _ => True) (fun s attr _ _ =>
    ⟨readAttr_returns s attr, fun _ _ => trivial⟩) trivial

/-- Outside staging mode, the attributes are read up to a `staging`. -/
theorem read_returns : ∀ (properties : Properties) (a : Attrs), ReturnsIff
    (Valued ["id", "type", "permalink"] (upToStaging properties))
    (a.read false properties)
  | [], a => by
      rw [Attrs.read]
      exact (ReturnsIff.pure _).congr (by simp [Valued, upToStaging])
  | (name, value) :: rest, a => by
      have hcons : name ≠ "staging" → (Valued ["id", "type", "permalink"]
          (upToStaging ((name, value) :: rest)) ↔
          (name ∈ ["id", "type", "permalink"] → ∃ v, value = some v) ∧
            Valued ["id", "type", "permalink"] (upToStaging rest)) := by
        intro hname
        rw [upToStaging, List.takeWhile_cons_of_pos (by simpa using hname), Valued, List.forall_mem_cons]
        rfl
      have hread : ∀ g : String → Attrs, name ∈ ["id", "type", "permalink"] → name ≠ "staging" →
          ReturnsIff (Valued ["id", "type", "permalink"]
            (upToStaging ((name, value) :: rest)))
            (deref value >>= fun v => (g v).read false rest) := by
        intro g hname hstaging
        refine ((ReturnsIff.deref value).andThen fun v _ => read_returns rest (g v)).congr ?_
        rw [hcons hstaging]
        exact and_congr_left' ⟨fun h _ => h, fun h => h hname⟩
      rw [Attrs.read]
      split_ifs with hid htype hpermalink hstaging
      · exact hread (fun v => { a with id := Cpp.atoi v }) (by simp [hid]) (by simp [hid])
      · exact hread (fun v => { a with structureId := Cpp.atoi v }) (by simp [htype]) (by simp [htype])
      · exact hread (fun v => { a with permalink := some v }) (by simp [hpermalink])
          (by simp [hpermalink])
      · have hname : name = "staging" := by simpa using hstaging
        refine (ReturnsIff.pure _).congr (iff_of_true trivial ?_)
        rw [upToStaging, List.takeWhile_cons_of_neg (by simp [hname])]
        simp [Valued]
      · refine (read_returns rest a).congr ?_
        rw [hcons (by simpa using hstaging)]
        refine (and_iff_right fun h => ?_).symm
        simp [hid, htype, hpermalink] at h

/-! ### Structures -/

/-- A structure element. -/
def readStructure (doc : Document) (N : ℤ) (d : List ℕ) : Result VaeDbStructure :=
  match doc.at? d with
  | some t => t.info.properties.foldlM VaeDbStructure.readAttr ⟨N, "", "", ""⟩
  | none => throw .undefined

/-- The structures that the design knows and that can be read. -/
def structuresOf (doc : Document) (sel : Selection) : Structures := fun N =>
  match sel.structures N with
  | [] => none
  | d :: _ => (readStructure doc N d).toOption

/-- The design knows the structure, and its element has the values that are asked for. -/
def Known (doc : Document) (sel : Selection) (N : ℤ) : Prop :=
  ∃ d others t, sel.structures N = d :: others ∧ doc.at? d = some t ∧
    Valued ["name", "permalink", "type"] t.info.properties

theorem structuresOf_known {N : ℤ} : (∃ s, structuresOf doc sel N = some s) ↔ Known doc sel N := by
  rw [structuresOf, Known]
  cases hsel : sel.structures N with
  | nil => simp
  | cons d others =>
    dsimp only
    rw [readStructure]
    cases hat : doc.at? d with
    | none => simp [Except.toOption, throw, throwThe, MonadExceptOf.throw, hat]
    | some t =>
      have hiff := (readAttrs_returns ⟨N, "", "", ""⟩ t.info.properties).iff
      simp only [List.cons.injEq]
      constructor
      · rintro ⟨s, hs⟩
        refine ⟨d, others, t, ⟨rfl, rfl⟩, hat, hiff.mp ⟨s, ?_⟩⟩
        cases hread : t.info.properties.foldlM VaeDbStructure.readAttr ⟨N, "", "", ""⟩ with
        | error e => simp [hread, Except.toOption] at hs
        | ok s' =>
          simp only [hread, Except.toOption, Option.some.injEq] at hs
          rw [hs]
      · rintro ⟨d', others', t', ⟨rfl, rfl⟩, hat', hvalued⟩
        rw [hat, Option.some.injEq] at hat'
        subst hat'
        obtain ⟨s, hs⟩ := hiff.mpr hvalued
        exact ⟨s, by rw [hs]; rfl⟩

/-! ### One element -/

/-- What looking up structures needs of a site: the surroundings of the content are as parsed, nodes
    have their own attributes, and only structures of the design are remembered. -/
structure Ready (doc : Document) (sel : Selection) (r : List ℕ) (site : Site) : Prop where
  parsed : Staging.AsParsed doc r site.doc
  root : site.rootNode = some (.parsed r)
  ownLists : ∀ n, Staging.OwnList site n
  structures : Grows site.structures (structuresOf doc sel)

variable {r : List ℕ} {site : Site}

/-- A query for elements apart from the content. -/
theorem runRawQuery_elements {q displayQuery : String} {ps : List (List ℕ)}
    (hroot : site.rootNode = some (.parsed r))
    (heval : lib.xmlXPathEvalExpression site.doc none (Cpp.cStr q) = elements ps)
    (hapart : ∀ p ∈ ps, ¬ r <:+ p) :
    Query.runRawQuery lib site none q displayQuery = .ok (ps.map fun p => .node (.parsed p)) := by
  rw [Query.runRawQuery, heval, elements, hroot]
  dsimp only
  rw [if_neg]
  cases ps with
  | nil => simp
  | cons p ps =>
    intro heq
    simp only [List.map_cons, List.head?_cons, Option.map_some, Option.some.injEq,
      XmlNode.node.injEq, NodeId.parsed.injEq] at heq
    exact hapart p List.mem_cons_self (heq ▸ List.suffix_rfl)

/-- What a lookup selects. -/
theorem lookup_eq (hlib : Selects lib doc sel) (hr : r ∈ sel.content) (h : Ready doc sel r site)
    (N : ℤ) : Query.runRawQuery lib site none (designPath N) (designPath N) =
      .ok ((sel.structures N).map fun p => .node (.parsed p)) :=
  runRawQuery_elements h.root (hlib.structures r hr site.doc h.parsed N)
    fun p hp => hlib.apart r hr p (.inl ⟨N, hp⟩)

/-- The element of a structure is in the tree, and has its attributes. -/
theorem structure_properties (hlib : Selects lib doc sel) (hr : r ∈ sel.content)
    (h : Ready doc sel r site) {N : ℤ} {d : List ℕ} (hd : d ∈ sel.structures N) :
    ∃ t, doc.at? d = some t ∧ site.properties (.parsed d) = .ok t.info.properties := by
  obtain ⟨name, properties, children, hat⟩ := hlib.found d (.inr (.inr (.inl ⟨N, hd⟩)))
  have hparsed := h.parsed.outside d (hlib.apart r hr d (.inl ⟨N, hd⟩))
  cases d with
  | nil => cases hat
  | cons i p =>
    rw [Document.store, hat] at hparsed
    exact ⟨_, hat, (h.ownLists _).properties hparsed⟩

/-- A structure is found if the design knows it. -/
theorem structureFromStructureId_returns (hlib : Selects lib doc sel) (hr : r ∈ sel.content)
    (h : Ready doc sel r site) (N : ℤ) :
    ReturnsIff (Known doc sel N) (site.structureFromStructureId lib N) := by
  rw [Site.structureFromStructureId]
  cases hknown : site.structures N with
  | some s =>
    refine (ReturnsIff.pure _).congr (iff_of_true trivial ?_)
    exact structuresOf_known.mp ⟨s, h.structures N s hknown⟩
  | none =>
    refine .after ⟨_, lookup_eq hlib hr h N⟩ fun query hquery => ?_
    have hq : query = (sel.structures N).map fun p => .node (.parsed p) :=
      Except.ok.inj (hquery.symm.trans (lookup_eq hlib hr h N))
    cases hsel : sel.structures N with
    | nil =>
      rw [hq, hsel]
      refine ReturnsIff.undef.congr (iff_of_false id ?_)
      rintro ⟨d, others, t, hd, -⟩
      rw [hsel] at hd
      cases hd
    | cons d others =>
      obtain ⟨t, hat, hproperties⟩ := structure_properties hlib hr h (hsel ▸ List.mem_cons_self)
      have hnode : Query.getNode query 0 = .ok (.node (.parsed d)) := by rw [hq, hsel]; rfl
      refine .after ⟨_, hnode⟩ fun x hx => ?_
      obtain rfl := Except.ok.inj (hnode.symm.trans hx)
      refine .after ⟨_, hproperties⟩ fun properties hread => ?_
      obtain rfl := Except.ok.inj (hproperties.symm.trans hread)
      refine ((readAttrs_returns _ _).before fun s _ => ⟨_, rfl⟩).congr ?_
      constructor
      · exact fun hvalued => ⟨d, others, t, hsel, hat, hvalued⟩
      · rintro ⟨d', others', t', hd, ht, hvalued⟩
        rw [hsel] at hd
        cases hd
        rw [hat] at ht
        cases ht
        exact hvalued

/-- Only structures of the design are remembered. -/
theorem structureFromStructureId_grows (hlib : Selects lib doc sel) (hr : r ∈ sel.content)
    (h : Ready doc sel r site) {N : ℤ} {site' : Site} {s : VaeDbStructure}
    (hok : site.structureFromStructureId lib N = .ok (site', s)) :
    Grows site'.structures (structuresOf doc sel) := by
  rw [Site.structureFromStructureId] at hok
  cases hknown : site.structures N with
  | some s' =>
    rw [hknown] at hok
    cases hok
    exact h.structures
  | none =>
    rw [hknown] at hok
    obtain ⟨query, hquery, hok⟩ := bind_eq_ok.mp hok
    obtain ⟨x, hx, hok⟩ := bind_eq_ok.mp hok
    obtain rfl := Except.ok.inj ((lookup_eq hlib hr h N).symm.trans hquery)
    cases hsel : sel.structures N with
    | nil =>
      rw [hsel] at hx
      cases hx
    | cons d others =>
      obtain ⟨t, hat, hproperties⟩ := structure_properties hlib hr h (hsel ▸ List.mem_cons_self)
      rw [hsel] at hx
      cases hx
      obtain ⟨properties, hread, hok⟩ := bind_eq_ok.mp hok
      obtain rfl := Except.ok.inj (hproperties.symm.trans hread)
      obtain ⟨s', hs', hok⟩ := bind_eq_ok.mp hok
      cases hok
      intro M s₁ hM
      dsimp only at hM
      rw [Function.update_apply] at hM
      split at hM
      · next heq =>
        cases hM
        rw [structuresOf, heq, hsel]
        dsimp only
        rw [readStructure, hat]
        dsimp only
        rw [hs']
        rfl
      · exact h.structures M s₁ hM

/-- The attributes that are read have values, and the design knows the structure of an element that
    stays. -/
structure ElementFits (doc : Document) (sel : Selection) (properties : Properties) : Prop where
  valued : Valued ["id", "type", "permalink"] (upToStaging properties)
  known : ¬ Staged properties → 0 < (declared {} properties).structureId →
    Known doc sel (declared {} properties).structureId

/-- An element can be read exactly if it fits. -/
theorem populateAttrs_returns (hlib : Selects lib doc sel) (hr : r ∈ sel.content)
    (hmode : site.stagingMode = false) (h : Ready doc sel r site) (properties : Properties) :
    ReturnsIff (ElementFits doc sel properties) (populateAttrs lib site properties) ∧
      ∀ site' a, populateAttrs lib site properties = .ok (site', a) →
        Grows site'.structures (structuresOf doc sel) := by
  have hfits : ElementFits doc sel properties ↔
      Valued ["id", "type", "permalink"] (upToStaging properties) ∧ (¬ Staged properties →
        0 < (declared {} properties).structureId → Known doc sel (declared {} properties).structureId) :=
    ⟨fun hfits => ⟨hfits.valued, hfits.known⟩, fun ⟨hvalued, hknown⟩ => ⟨hvalued, hknown⟩⟩
  rw [populateAttrs, hmode]
  constructor
  · refine ((read_returns properties {}).andThen fun a ha => ?_).congr hfits.symm
    rcases read_cases ha with ⟨rfl, hstaged⟩ | ⟨rfl, hstaged⟩
    · exact (ReturnsIff.pure _).congr (iff_of_true trivial fun hnot => absurd hstaged hnot)
    · have hlookup := structureFromStructureId_returns hlib hr h (declared {} properties).structureId
      refine (ReturnsIff.ite (fun _ => hlookup.before fun _ _ => ⟨_, rfl⟩) fun _ => .pure _).congr ?_
      simp [hstaged]
  · intro site' a hok
    obtain ⟨ra, hra, hok⟩ := bind_eq_ok.mp hok
    cases ra with
    | none =>
      cases hok
      exact h.structures
    | some attrs =>
      dsimp only at hok
      split at hok
      · obtain ⟨⟨site₁, s⟩, hs, hok⟩ := bind_eq_ok.mp hok
        cases hok
        exact structureFromStructureId_grows hlib hr h hs
      · cases hok
        exact h.structures

end VaeDb
