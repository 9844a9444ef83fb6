import VaeDb.Session.Response
import VaeDb.Site.Allocation
import VaeDb.Site.Answers

/-! What the filter sees of a node.

    `filterMatch` looks at the texts among the children of a node and among the children of its child
    elements, and drops the terms that a text contains; what remains at the end is unmet. The lists of
    children may be shared and lead back to the node: the walk goes two levels down and no further.
    But a list that an association was grafted onto may lead to a node that was freed later.

        node ─┬─ text           seen
              ├─ element ─┬─ text        seen
              │           └─ element ─── text     not seen
              └─ ✂              undefined -/

namespace VaeDb
open Schemes Xml Cpp

/-- The members of a Response that the filter uses. -/
structure Filter where
  filterTerms : List String
  filterRemainingTerms : List String

/-- What remains of the terms at the end of `filterMatch`. -/
def Response.filterRemaining (site : Site) (filterTerms : List String) :
    XmlNode → Result (List String)
  | .attr none => pure filterTerms
  | .attr (some value) => pure (filterText filterTerms value)
  | .node n => do
    let cell ← deref (site.doc n)
    filterMatchRecursive site 1 cell.children filterTerms

/-- `filterMatch` with its members. It starts from all terms, whatever the last call left. -/
def Filter.filterMatch (site : Site) (filter : Filter) (node : XmlNode) : Result (Bool × Filter) := do
  let remaining ← Response.filterRemaining site filter.filterTerms node
  pure (remaining.isEmpty, { filter with filterRemainingTerms := remaining })

namespace Response

variable {site : Site} {first : Option NodeId} {terms rest : List String} {texts : List String}

/-! ### The loop over siblings -/

theorem forSiblings_eq {β : Type} {f : β → Cell NodeId Info → Result β} {fuel : ℕ} {b : β}
    {cells : List (NodeId × Cell NodeId Info)} (h : Chain site.doc first cells)
    (hfuel : cells.length ≤ fuel) :
    site.forSiblings f fuel first b = cells.foldlM (fun b m => f b m.2) b := by
  induction h generalizing fuel b with
  | nil =>
    rw [Site.forSiblings]
    rfl
  | @cons n c cells hn _ ih =>
    obtain ⟨fuel, rfl⟩ : ∃ k, fuel = k + 1 := ⟨fuel - 1, by simp at hfuel; omega⟩
    have hrest : ∀ b, site.forSiblings f fuel c.next b = cells.foldlM (fun b m => f b m.2) b :=
      fun b => ih (by simpa using hfuel)
    rw [Site.forSiblings, hn, List.foldlM_cons]
    change (f b c >>= fun b => site.forSiblings f fuel c.next b) = _
    rw [funext hrest]

theorem noThrow_forSiblings {β : Type} {f : β → Cell NodeId Info → Result β}
    (hf : ∀ b cell, NoThrow (f b cell)) : ∀ fuel first b, NoThrow (site.forSiblings f fuel first b)
  | 0, none, b | _ + 1, none, b => NoThrow.pure b
  | 0, some _, _ => .undefined
  | fuel + 1, some child, b => by
    rw [Site.forSiblings]
    exact (NoThrow.deref _).bind fun cell => (hf b cell).bind fun b =>
      noThrow_forSiblings hf fuel cell.next b

/-- A loop that ends has come by a chain. -/
theorem chain_of_forSiblings {β : Type} {f : β → Cell NodeId Info → Result β} {fuel : ℕ} {b b' : β}
    (h : site.forSiblings f fuel first b = .ok b') : ∃ cells, Chain site.doc first cells := by
  induction fuel generalizing first b with
  | zero =>
    cases first with
    | none => exact ⟨[], .nil⟩
    | some n => cases h
  | succ fuel ih =>
    cases first with
    | none => exact ⟨[], .nil⟩
    | some n =>
      rw [Site.forSiblings, bind_eq_ok] at h
      obtain ⟨c, hc, h⟩ := h
      obtain ⟨b₁, -, h⟩ := bind_eq_ok.mp h
      obtain ⟨cells, hchain⟩ := ih h
      exact ⟨(n, c) :: cells, .cons (deref_eq_ok.mp hc) hchain⟩

/-! ### What remains of the terms -/

/-- The terms that no text contains. -/
def unmet (texts terms : List String) : List String :=
  terms.filter fun term => !texts.any fun text => strcasestr text term

theorem filterText_eq (content : String) : filterText terms content = unmet [content] terms := by
  simp [filterText, unmet]

theorem unmet_nil : unmet [] terms = terms := by simp [unmet]

theorem unmet_append (texts' : List String) :
    unmet (texts ++ texts') terms = unmet texts' (unmet texts terms) := by
  rw [unmet, unmet, unmet, List.filter_filter]
  refine List.filter_congr fun term _ => ?_
  rw [List.any_append, Bool.not_or, Bool.and_comm]

theorem unmet_isEmpty :
    (unmet texts terms).isEmpty ↔ ∀ term ∈ terms, ∃ text ∈ texts, strcasestr text term := by
  rw [List.isEmpty_iff, unmet, List.filter_eq_nil_iff]
  refine forall₂_congr fun term _ => ?_
  simp

/-- A loop whose body drops the terms that some texts contain, drops those that any contains. -/
theorem foldlM_unmet {α : Type} {f : List String → α → Result (List String)}
    {R : α → List String → Prop} {l : List α}
    (hf : ∀ terms, ∀ a ∈ l, ∀ rest, f terms a = .ok rest ↔ ∃ texts, R a texts ∧ rest = unmet texts terms) :
    l.foldlM f terms = .ok rest ↔
      ∃ textss, List.Forall₂ R l textss ∧ rest = unmet textss.flatten terms := by
  induction l generalizing terms with
  | nil =>
    rw [List.foldlM_nil, pure_eq_ok]
    simp only [List.forall₂_nil_left_iff, exists_eq_left, List.flatten_nil, unmet_nil]
    exact eq_comm
  | cons a l ih =>
    rw [List.foldlM_cons, bind_eq_ok]
    simp only [hf _ a List.mem_cons_self, ih fun terms b hb => hf terms b (List.mem_cons_of_mem _ hb),
      List.forall₂_cons_left_iff]
    constructor
    · rintro ⟨_, ⟨texts, htexts, rfl⟩, textss, hall, rfl⟩
      exact ⟨texts :: textss, ⟨texts, textss, htexts, hall, rfl⟩, (unmet_append _).symm⟩
    · rintro ⟨_, ⟨texts, textss, htexts, hall, rfl⟩, rfl⟩
      exact ⟨_, ⟨texts, htexts, rfl⟩, textss, hall, unmet_append _⟩

/-- The content of a text. -/
def ownText (c : Cell NodeId Info) : List String :=
  if c.data.type = .text then [c.data.content] else []

/-- The texts that the walk sees in a child, with the number of levels it may still go down. -/
def Texts (site : Site) : ℕ → NodeId × Cell NodeId Info → List String → Prop
  | 0, m, texts => texts = ownText m.2
  | levels + 1, m, texts =>
    (m.2.data.type = .element ∧ ∃ cells textss, Chain site.doc m.2.children cells ∧
      List.Forall₂ (Texts site levels) cells textss ∧ texts = textss.flatten) ∨
    (m.2.data.type ≠ .element ∧ texts = ownText m.2)

/-- The body of the walk on a child that is no element. -/
theorem ownText_eq_ok (c : Cell NodeId Info) :
    (pure (if c.data.type = .text then filterText terms c.data.content else terms) :
      Result (List String)) = .ok rest ↔ ∃ texts, texts = ownText c ∧ rest = unmet texts terms := by
  rw [pure_eq_ok, exists_eq_left, ownText]
  split
  · rw [filterText_eq]
    exact eq_comm
  · rw [unmet_nil]
    exact eq_comm

theorem forSiblings_unmet (hcounted : site.Counted)
    {f : List String → Cell NodeId Info → Result (List String)}
    {R : NodeId × Cell NodeId Info → List String → Prop}
    (hf : ∀ terms m rest, f terms m.2 = .ok rest ↔ ∃ texts, R m texts ∧ rest = unmet texts terms) :
    site.forSiblings f site.allocated first terms = .ok rest ↔
      ∃ cells textss, Chain site.doc first cells ∧ List.Forall₂ R cells textss ∧
        rest = unmet textss.flatten terms := by
  have hloop : ∀ {cells}, Chain site.doc first cells →
      (site.forSiblings f site.allocated first terms = .ok rest ↔
        ∃ textss, List.Forall₂ R cells textss ∧ rest = unmet textss.flatten terms) := by
    intro cells hchain
    rw [forSiblings_eq hchain (hcounted.length_le hchain)]
    exact foldlM_unmet fun terms m _ rest => hf terms m rest
  constructor
  · intro h
    obtain ⟨cells, hchain⟩ := chain_of_forSiblings h
    obtain ⟨textss, hall, hrest⟩ := (hloop hchain).mp h
    exact ⟨cells, textss, hchain, hall, hrest⟩
  · rintro ⟨cells, textss, hchain, hall, hrest⟩
    exact (hloop hchain).mpr ⟨textss, hall, hrest⟩

/-- What the walk returns where it does. -/
theorem filterMatchRecursive_eq_ok (hcounted : site.Counted) (levels : ℕ) :
    filterMatchRecursive site levels first terms = .ok rest ↔
      ∃ cells textss, Chain site.doc first cells ∧ List.Forall₂ (Texts site levels) cells textss ∧
        rest = unmet textss.flatten terms := by
  induction levels generalizing first terms rest with
  | zero => exact forSiblings_unmet hcounted fun terms m rest => ownText_eq_ok m.2
  | succ levels ih =>
    refine forSiblings_unmet hcounted fun terms m rest => ?_
    have hother : m.2.data.type ≠ .element →
        ((∃ texts, texts = ownText m.2 ∧ rest = unmet texts terms) ↔
          ∃ texts, Texts site (levels + 1) m texts ∧ rest = unmet texts terms) := by
      intro hne
      refine exists_congr fun texts => and_congr_left fun _ => ?_
      rw [Texts, and_iff_right hne]
      exact (or_iff_right fun h => hne h.1).symm
    cases htype : m.2.data.type with
    | element =>
      dsimp only
      rw [ih]
      constructor
      · rintro ⟨cells, textss, hchain, hall, rfl⟩
        exact ⟨_, .inl ⟨htype, cells, textss, hchain, hall, rfl⟩, rfl⟩
      · rintro ⟨texts, ⟨-, cells, textss, hchain, hall, rfl⟩ | ⟨hne, -⟩, rfl⟩
        · exact ⟨cells, textss, hchain, hall, rfl⟩
        · exact absurd htype hne
    | text =>
      rw [← hother (by simp [htype]), ← ownText_eq_ok, if_pos htype]
    | other =>
      rw [← hother (by simp [htype]), ← ownText_eq_ok, if_neg (by simp [htype])]

/-! ### What is seen -/

/-- `m` is a child of `n`: the loop over the children, which ends, comes by it. -/
def IsChild (σ : Store) (n m : NodeId) (c : Cell NodeId Info) : Prop :=
  ∃ cell cells, σ n = some cell ∧ Chain σ cell.children cells ∧ (m, c) ∈ cells

/-- A text among the children of the node, or among the children of one of its child elements. -/
def Visible (site : Site) : XmlNode → String → Prop
  | .attr value, text => value = some text
  | .node n, text => ∃ m c, IsChild site.doc n m c ∧
    (c.data.type = .text ∧ c.data.content = text ∨
      c.data.type = .element ∧ ∃ k d, IsChild site.doc m k d ∧
        d.data.type = .text ∧ d.data.content = text)

/-- The lists of children that the filter looks at end. -/
def ChildrenEnd (site : Site) : XmlNode → Prop
  | .attr _ => True
  | .node n => ∃ cell cells, site.doc n = some cell ∧ Chain site.doc cell.children cells ∧
    ∀ m ∈ cells, m.2.data.type = .element → ∃ cells, Chain site.doc m.2.children cells

theorem mem_ownText {c : Cell NodeId Info} {text : String} :
    text ∈ ownText c ↔ c.data.type = .text ∧ c.data.content = text := by
  rw [ownText]
  split
  · next h => simp [h, eq_comm]
  · next h => simp [h]

theorem isChild_iff {n k : NodeId} {c d : Cell NodeId Info} (hn : site.doc n = some c)
    {cells : List (NodeId × Cell NodeId Info)} (h : Chain site.doc c.children cells) :
    IsChild site.doc n k d ↔ (k, d) ∈ cells := by
  constructor
  · rintro ⟨c', cells', hn', hchain, hmem⟩
    rw [hn, Option.some.injEq] at hn'
    subst hn'
    rwa [h.unique hchain]
  · exact fun hmem => ⟨c, cells, hn, h, hmem⟩

/-- What is seen of all items is what is seen of one of them. -/
theorem mem_flatten_forall₂ {α : Type} {R : α → List String → Prop} {Q : α → Prop} {l : List α}
    {textss : List (List String)} {text : String} (h : List.Forall₂ R l textss)
    (hR : ∀ a ∈ l, ∀ texts, R a texts → (text ∈ texts ↔ Q a)) :
    text ∈ textss.flatten ↔ ∃ a ∈ l, Q a := by
  induction h with
  | nil => simp
  | @cons a texts l textss ha _ ih =>
    rw [List.flatten_cons, List.mem_append, hR a List.mem_cons_self texts ha,
      ih fun b hb => hR b (List.mem_cons_of_mem _ hb)]
    simp

theorem exists_forall₂ {α : Type} {R : α → List String → Prop} {l : List α}
    (h : ∀ a ∈ l, ∃ texts, R a texts) : ∃ textss, List.Forall₂ R l textss := by
  induction l with
  | nil => exact ⟨[], .nil⟩
  | cons a l ih =>
    obtain ⟨texts, htexts⟩ := h a List.mem_cons_self
    obtain ⟨textss, hall⟩ := ih fun b hb => h b (List.mem_cons_of_mem _ hb)
    exact ⟨texts :: textss, .cons htexts hall⟩

/-- What the walk sees in a child of the node. -/
theorem mem_texts {m : NodeId × Cell NodeId Info} {text : String} (hm : site.doc m.1 = some m.2)
    (h : Texts site 1 m texts) :
    text ∈ texts ↔ m.2.data.type = .text ∧ m.2.data.content = text ∨
      m.2.data.type = .element ∧ ∃ k d, IsChild site.doc m.1 k d ∧
        d.data.type = .text ∧ d.data.content = text := by
  rcases h with ⟨htype, cells, textss, hchain, hall, rfl⟩ | ⟨hne, rfl⟩
  · rw [mem_flatten_forall₂ hall fun k _ texts hk => hk ▸ mem_ownText]
    have hnot : m.2.data.type ≠ .text := by simp [htype]
    rw [or_iff_right fun h => hnot h.1, and_iff_right htype]
    simp only [isChild_iff hm hchain, Prod.exists]
  · rw [mem_ownText]
    exact (or_iff_left fun h => hne h.1).symm

/-- Where the filter comes to an end, it has looked at what is visible. -/
theorem filterRemaining_eq_ok (hcounted : site.Counted) {node : XmlNode}
    (h : filterRemaining site terms node = .ok rest) : ChildrenEnd site node ∧
      ∃ texts, (∀ text, text ∈ texts ↔ Visible site node text) ∧ rest = unmet texts terms := by
  cases node with
  | attr value =>
    refine ⟨trivial, ?_⟩
    cases value with
    | none => exact ⟨[], fun text => by simp [Visible], (unmet_nil.trans (pure_eq_ok.mp h)).symm⟩
    | some value =>
      refine ⟨[value], fun text => by simp [Visible, eq_comm], ?_⟩
      rw [← filterText_eq, pure_eq_ok.mp h]
  | node n =>
    obtain ⟨cell, hcell, h⟩ := bind_eq_ok.mp h
    rw [deref_eq_ok] at hcell
    obtain ⟨cells, textss, hchain, hall, rfl⟩ := (filterMatchRecursive_eq_ok hcounted 1).mp h
    refine ⟨⟨cell, cells, hcell, hchain, fun m hm htype => ?_⟩, textss.flatten, fun text => ?_, rfl⟩
    · obtain ⟨texts, -, htexts⟩ := forall₂_mem_left hall hm
      rcases htexts with ⟨-, cells', -, hchain', -⟩ | ⟨hne, -⟩
      · exact ⟨cells', hchain'⟩
      · exact absurd htype hne
    · rw [mem_flatten_forall₂ hall fun m hm texts htexts => mem_texts (hchain.cell_eq hm) htexts]
      simp only [Visible, isChild_iff hcell hchain, Prod.exists]

/-- It comes to an end if the lists of children do. -/
theorem exists_filterRemaining (hcounted : site.Counted) {node : XmlNode}
    (h : ChildrenEnd site node) : ∃ rest, filterRemaining site terms node = .ok rest := by
  cases node with
  | attr value => cases value <;> exact ⟨_, rfl⟩
  | node n =>
    obtain ⟨cell, cells, hcell, hchain, hchildren⟩ := h
    have hseen : ∀ m ∈ cells, ∃ texts, Texts site 1 m texts := by
      intro m hm
      by_cases htype : m.2.data.type = .element
      · obtain ⟨cells', hchain'⟩ := hchildren m hm htype
        obtain ⟨textss, hall⟩ := exists_forall₂ (R := Texts site 0) fun k _ => ⟨_, rfl⟩
        exact ⟨_, .inl ⟨htype, cells', textss, hchain', hall, rfl⟩⟩
      · exact ⟨_, .inr ⟨htype, rfl⟩⟩
    obtain ⟨textss, hall⟩ := exists_forall₂ hseen
    refine ⟨unmet textss.flatten terms, ?_⟩
    rw [filterRemaining, hcell]
    exact (filterMatchRecursive_eq_ok hcounted 1).mpr ⟨cells, textss, hchain, hall, rfl⟩

/-- CORRECT: in a loaded Site the filter answers whether each term occurs in a visible text, whatever
    an earlier call has left, exactly if the lists of children that it looks at end. -/
theorem filterMatch_iff {lib : Libxml} {rawxml : String} {site₀ site : Site}
    (hload : site₀.loadXmlDoc lib rawxml = .ok site) (filter : Filter) (node : XmlNode) :
    (∃ matched filter', filter.filterMatch site node = .ok (matched, filter') ∧
      filter'.filterTerms = filter.filterTerms ∧
      (matched ↔ ∀ term ∈ filter.filterTerms, ∃ text, Visible site node text ∧
        strcasestr text term)) ↔ ChildrenEnd site node := by
  have hcounted := loadXmlDoc_counted hload
  constructor
  · rintro ⟨matched, filter', h, -⟩
    obtain ⟨rest, hrest, -⟩ := bind_eq_ok.mp h
    exact (filterRemaining_eq_ok hcounted hrest).1
  · intro h
    obtain ⟨rest, hrest⟩ := exists_filterRemaining hcounted h
    obtain ⟨-, texts, htexts, rfl⟩ := filterRemaining_eq_ok hcounted hrest
    refine ⟨_, _, bind_eq_ok.mpr ⟨_, hrest, rfl⟩, rfl, ?_⟩
    rw [unmet_isEmpty]
    simp only [htexts]

/-! ### A feed where it does not end -/

/-- Link 4 names page 3. Link 5, the first child of page 3, names nothing and is taken out. -/
def filterFeed : Document :=
  [.element "website" [] [
    .element "content" [] [
      .element "page" [("id", some "1")] [
        .element "link" [("id", some "4"), ("type", some "9")] [.text "3"]],
      .element "page" [("id", some "3")] [
        .element "link" [("id", some "5"), ("type", some "9")] [.text "77"],
        .element "title" [] [.text "Some Text"]]],
    .element "design" [] [.element "link" [("id", some "9"), ("type", some "AssociationItem")] []],
    .element "generation" [] [.text "7"]]]

def filterLib : Libxml := { sampleLib with xmlReadMemory := fun _ => some filterFeed }

def filterSite : Site :=
  ((Site.blank "shop" false []).loadXmlDoc filterLib "feed").toOption.getD (Site.blank "shop" false [])

theorem filterSite_loaded :
    (Site.blank "shop" false []).loadXmlDoc filterLib "feed" = .ok filterSite :=
  ok_getD (by decide +kernel)

/-- The title of page 3 has one text. -/
theorem filterMatch_sample : ∃ matched filter',
    Filter.filterMatch filterSite ⟨["text", "SOME"], ["left"]⟩ (.node (.parsed [1, 1, 0, 0])) =
      .ok (matched, filter') ∧ filter'.filterTerms = ["text", "SOME"] ∧
    (matched ↔ ∀ term ∈ ["text", "SOME"], ∃ text,
      Visible filterSite (.node (.parsed [1, 1, 0, 0])) text ∧ strcasestr text term) := by
  refine (filterMatch_iff filterSite_loaded _ _).mpr ?_
  have htitle : (filterSite.doc (.parsed [1, 1, 0, 0])).map Cell.children =
      some (some (.parsed [0, 1, 1, 0, 0])) := by decide +kernel
  have htext : (filterSite.doc (.parsed [0, 1, 1, 0, 0])).map (fun c => (c.next, c.data.type)) =
      some (none, .text) := by decide +kernel
  obtain ⟨cell, hcell, hfirst⟩ := Option.map_eq_some_iff.mp htitle
  obtain ⟨c, hc, hpair⟩ := Option.map_eq_some_iff.mp htext
  obtain ⟨hnext, htype⟩ := Prod.mk.inj hpair
  have hchain : Chain filterSite.doc cell.children
      [(.parsed [0, 1, 1, 0, 0], c)] := by
    rw [hfirst]
    refine .cons hc ?_
    rw [hnext]
    exact .nil
  refine ⟨cell, [(_, c)], hcell, hchain, fun m hm helement => ?_⟩
  obtain rfl := List.mem_singleton.mp hm
  exact absurd (htype.symm.trans helement) (by decide)

/-- Page 1 has link 4 as its child; the list of link 4 goes on to the freed link 5. -/
theorem not_filterMatch : ¬ ∀ (lib : Libxml) (rawxml : String) (site₀ site : Site) (filter : Filter)
    (n : NodeId), site₀.loadXmlDoc lib rawxml = .ok site → (∃ cell, site.doc n = some cell) →
    ∃ matched filter', filter.filterMatch site (.node n) = .ok (matched, filter') ∧
      (matched ↔ ∀ term ∈ filter.filterTerms, ∃ text, Visible site (.node n) text ∧
        strcasestr text term) := by
  intro h
  have hpage : (filterSite.doc (.parsed [0, 0, 0])).isSome = true := by decide +kernel
  have hfails : ((Filter.filterMatch filterSite ⟨["text"], []⟩
      (.node (.parsed [0, 0, 0]))).toOption).isSome = false := by decide +kernel
  obtain ⟨matched, filter', hok, -⟩ := h filterLib "feed" _ filterSite ⟨["text"], []⟩ _
    filterSite_loaded (Option.isSome_iff_exists.mp hpage)
  rw [hok] at hfails
  cases hfails

end Response

end VaeDb
