import VaeDb.Site.Turns

/-! When loading a feed is safe.

    Loading answers exactly if every element that the walk comes to fits, and then every association
    item at its turn. The first can be read off the feed. So can the second, where the items name
    ordinary elements only: no item directly below the root may name one of the site.

        /website/content, /website/design    not there once ──▶ VaeDbInternalError
        walk                                 ✗ an element that does not fit
        associations                         ✗ an item that does not fit at its turn
        /website/generation                  not there once ──▶ VaeDbInternalError             -/

namespace VaeDb.LoadSafety
open Schemes Xml Walk Staging

variable {doc : Document} {sel : Selection} {S : Structures} {r d : List ℕ} {lib : Libxml}
  {site site' : Site} {rawxml : String}

/-! ### The elements of the content -/

/-- Every element that the walk comes to fits. -/
def ContentFits (doc : Document) (sel : Selection) (r : List ℕ) : Prop :=
  ∀ i p name properties children, Walked doc (structuresOf doc sel) r p →
    doc.at? (i :: p) = some (.element name properties children) → ElementFits doc sel properties

mutual

/-- An element that is visited is entered. -/
theorem enter_walkNode : ∀ (t : Tree) (p c : List ℕ), .visit c ∈ walkNode S p t →
    .enter c ∈ walkNode S p t
  | .text _, _, _ | .other _, _, _ => by simp [walkNode]
  | .element name properties children, p, c => by
      rw [walkNode]
      split
      · simp
      split
      · simp
      · simp only [List.cons_append, List.mem_cons, List.mem_append, List.not_mem_nil, or_false,
          Move.visit.injEq, Move.enter.injEq, reduceCtorEq, false_or]
        rintro (rfl | h)
        · exact .inr rfl
        · exact .inl (enter_walkKids children p 0 c h)

theorem enter_walkKids : ∀ (ts : List Tree) (p : List ℕ) (i : ℕ) (c : List ℕ),
    .visit c ∈ walkKids S p i ts → .enter c ∈ walkKids S p i ts
  | [], _, _, _ => by simp [walkKids]
  | t :: ts, p, i, c => by
      rw [walkKids, List.mem_append, List.mem_append]
      rintro (h | h)
      · exact .inl (enter_walkNode t (i :: p) c h)
      · exact .inr (enter_walkKids ts p (i + 1) c h)

end

/-- The moves of the walk fit if the elements do. -/
theorem moveFits_iff : (∀ m ∈ walkKids (structuresOf doc sel) r 0 (doc.kids r), MoveFits doc sel m) ↔
    ContentFits doc sel r := by
  constructor
  · intro h i p name properties children hp hat
    have hsub := walkNode_subset hp hat
    rw [walkNode] at hsub
    split at hsub
    · exact h _ (hsub (List.mem_singleton_self _)) _ hat
    split at hsub
    · exact h _ (hsub List.mem_cons_self) _ hat
    · exact h _ (hsub List.mem_cons_self) _ hat
  · intro h m hm
    have hfits : ∀ Q c, ElementWith doc (structuresOf doc sel) r Q c →
        ∀ t, doc.at? c = some t → ElementFits doc sel t.info.properties := by
      rintro Q _ ⟨i, p, name, properties, children, rfl, hp, hat, -⟩ t ht
      obtain rfl := Option.some.inj (hat.symm.trans ht)
      exact h i p name properties children hp hat
    have hplaced := placed_walkKids (S := structuresOf doc sel) (.root (r := r)) (@kidsFrom_kids doc r)
    cases m with
    | visit c => exact hfits _ c (hplaced _ (enter_walkKids _ _ _ c hm))
    | kill c => exact hfits _ c (hplaced _ hm)
    | defer c => trivial
    | enter c => trivial

/-! ### The walk -/

/-- The site once the roots of the content and of the design are found. -/
def begin (site : Site) (doc : Document) (r d : List ℕ) : Site :=
  { site with
    doc := doc.store, lists := .parsed, allocated := Tree.sizes doc + 1
    rootNode := some (.parsed r), rootDesignNode := some (.parsed d) }

variable {su : String} {keys : List String}

theorem begin_underway (hr : ∃ t, doc.at? r = some t) :
    Underway doc sel r (begin (Site.blank su false keys) doc r d) where
  parsed := asParsed_store doc r
  root := rfl
  ownLists := ownList_parsed rfl
  structures := by rintro _ _ ⟨⟩
  walking := ⟨inv_store (.inr hr), fun _ => rfl, ⟨by rintro _ _ ⟨⟩, by rintro _ _ ⟨⟩⟩,
    by rintro _ _ ⟨⟩⟩
  mode := rfl
  enclosed := ⟨region_store doc r, by rintro _ _ ⟨⟩, by rintro _ _ ⟨⟩⟩
  allocated := Nat.le_succ _

/-- The root of the content is an element of the document. -/
theorem content_found (hlib : Selects lib doc sel) (hr : r ∈ sel.content) :
    ∃ t, doc.at? r = some t := by
  obtain ⟨name, properties, children, hat⟩ := hlib.found r (.inl hr)
  exact ⟨_, hat⟩

theorem store_found (hr : ∃ t, doc.at? r = some t) : ∃ cell, doc.store (.parsed r) = some cell := by
  obtain ⟨t, hat⟩ := hr
  cases r with
  | nil => cases hat
  | cons i p => exact store_live hat

/-- The walk over the content. -/
theorem loadContent_returns (hlib : Selects lib doc sel) (hr : r ∈ sel.content) :
    ReturnsIff (ContentFits doc sel r)
        ((begin (Site.blank su false keys) doc r d).loadContent lib doc (.parsed r)) ∧
      ∀ site, (begin (Site.blank su false keys) doc r d).loadContent lib doc (.parsed r) = .ok site →
        Underway doc sel r site := by
  have hfound := content_found hlib hr
  obtain ⟨hreturns, hunderway⟩ := newContexts_returns hlib hr .root (@kidsFrom_kids doc r)
    (@begin_underway doc sel r d su keys hfound) fun c hc => by
      obtain ⟨i, p, name, ps, children, rfl, -, hat, -⟩ :=
        placed_walkKids .root (@kidsFrom_kids doc r) _ hc
      exact store_live hat
  rw [Site.loadContent]
  refine ⟨.after ?_ fun _ _ => hreturns.congr moveFits_iff, fun site hok => ?_⟩
  · obtain ⟨cell, hcell⟩ := store_found hfound
    exact ⟨cell, deref_eq_ok.mpr hcell⟩
  · obtain ⟨-, -, hok⟩ := bind_eq_ok.mp hok
    exact hunderway site hok

/-- The site when the first item has its turn. -/
theorem loadContent_between (hlib : Selects lib doc sel) (hr : r ∈ sel.content)
    (hok : (begin (Site.blank su false keys) doc r d).loadContent lib doc (.parsed r) = .ok site) :
    ∃ pend, Between doc (structuresOf doc sel) r pend site ∧ pend.Nodup ∧
      (∀ a, a ∈ pend ↔ Item doc (structuresOf doc sel) r a) ∧
      site.associationsToInitialize = pend.map .parsed := by
  have hunderway := (loadContent_returns hlib hr).2 site hok
  obtain ⟨-, -, hwalks⟩ := bind_eq_ok.mp hok
  have htrace := (newContexts_walks (kidsFrom_kids r) rfl hwalks).trace _ hunderway.structures
  obtain ⟨-, hindexed, pend, hpend, hnodup, hitems, hlinking, hdeferred⟩ :=
    walk_linking (.inr (content_found hlib hr)) rfl (fun _ => rfl) (fun _ => rfl) (fun _ => rfl) rfl
      htrace
  refine ⟨pend, ⟨hlinking, hindexed, (Indexes.trace_index htrace).1, hunderway.enclosed,
    hunderway.parsed, hunderway.allocated, fun c _ => hunderway.ownLists _, fun n ctxt hctxt m hm => ?_⟩,
    hnodup, fun a => ⟨hitems a, ?_⟩, hdeferred⟩
  · -- the walk makes no pointer nodes
    rw [hunderway.walking.ctxs n ctxt hctxt] at hm
    cases hm
  rintro ⟨i, p, name, ps, children, rfl, hp, hat, hstaged, hassoc⟩
  rw [hpend]
  refine mem_deferred.mpr (walkNode_subset hp hat ?_)
  rw [walkNode, if_neg hstaged, if_pos hassoc]
  simp

/-! ### The associations and the generation -/

/-- Every association item fits at its turn. -/
def PassFits (lib : Libxml) (doc : Document) (site : Site) (r : List ℕ) : Prop :=
  ∀ site', site.loadContent lib doc (.parsed r) = .ok site' →
    ∀ call ∈ calls Site.initializeAssociation site' site'.associationsToInitialize,
      ItemFits call.1 call.2

/-- What loading does after the walk. -/
def complete (lib : Libxml) (site : Site) : Result Site := do
  let site ← site.associationsToInitialize.foldlM Site.initializeAssociation site
  let site := { site with associationsToInitialize := [] }
  let query ← Query.runRawQuery lib site none "/website/generation" "website generation node"
  let generation ← query.single "Could not find feed generation node in XML file"
  pure { site with generation := Cpp.atoi (← Query.getSingleData site [generation]) }

/-- Some elements where there has to be one. -/
theorem elements_single (ps : List (List ℕ)) (message : String) :
    (∃ p, ps = [p] ∧
        Query.single (ps.map fun p => .node (.parsed p)) message = .ok (.node (.parsed p))) ∨
      (∀ p, ps ≠ [p]) ∧ Query.single (ps.map fun p => .node (.parsed p)) message =
        .error (.internalError message) := by
  rcases ps with _ | ⟨p, _ | ⟨q, ps⟩⟩
  · exact .inr ⟨by simp, rfl⟩
  · exact .inl ⟨p, rfl, rfl⟩
  · exact .inr ⟨by simp, rfl⟩

/-- The text of a node apart from the content can be read. -/
theorem firstText_apart (hr : ∃ t, doc.at? r = some t) (h : AsParsed doc r site.doc) {g : List ℕ}
    (hg : ∃ t, doc.at? g = some t) (hapart : ¬ r <:+ g) :
    ∃ text, site.firstText (.parsed g) = .ok text := by
  obtain ⟨cell, hcell⟩ := store_found hg
  obtain ⟨t, hat⟩ := hg
  obtain ⟨cell', hcell', hchildren, -⟩ := @Document.store_ends doc g (.inr ⟨t, hat⟩)
  obtain rfl := Option.some.inj (hcell.symm.trans hcell')
  refine (firstText_returns site _).returns
    ⟨cell, (h.outside g hapart).trans hcell, fun first hfirst => ?_⟩
  obtain ⟨i, u, hu, rfl⟩ := Document.mem_kidIds.mp (List.mem_of_mem_head? (hchildren ▸ hfirst))
  -- the first child is apart from the content too, or it is the root of the content
  by_cases hroot : r = i :: g
  · obtain ⟨root, hstore⟩ := store_found hr
    obtain ⟨c, hc, -⟩ := h.root root hstore
    exact ⟨c, hroot ▸ hc⟩
  · rw [h.outside _ fun hs => (List.suffix_cons_iff.mp hs).elim hroot hapart]
    exact store_live hu

/-- Once the associations are dealt with, the rest of loading answers. -/
theorem generation_answers (hlib : Selects lib doc sel) (hr : r ∈ sel.content)
    (hroot : site.rootNode = some (.parsed r)) (h : AsParsed doc r site.doc) :
    Answers (Query.runRawQuery lib site none "/website/generation" "website generation node" >>=
      fun query => Query.single query "Could not find feed generation node in XML file" >>=
        fun generation => Query.getSingleData site [generation] >>= fun text =>
          pure { site with generation := Cpp.atoi text }) := by
  have hquery : Query.runRawQuery lib site none "/website/generation" "website generation node" =
      .ok (sel.generation.map fun p => .node (.parsed p)) :=
    runRawQuery_elements hroot (hlib.generation r hr site.doc h) fun p hp =>
      hlib.apart r hr p (.inr (.inr hp))
  rw [hquery, ok_bind]
  rcases elements_single sel.generation "Could not find feed generation node in XML file" with
    ⟨g, hg, hsingle⟩ | ⟨-, hfail⟩
  · have hmem : g ∈ sel.generation := hg ▸ List.mem_singleton_self g
    obtain ⟨name, properties, children, hat⟩ := hlib.found g (.inr (.inr (.inr hmem)))
    obtain ⟨text, htext⟩ := firstText_apart (content_found hlib hr) h ⟨_, hat⟩
      (hlib.apart r hr g (.inr (.inr hmem)))
    rw [hsingle, ok_bind, Query.getSingleData, htext, ok_bind]
    exact .inl ⟨_, rfl⟩
  · rw [hfail]
    exact .inr ⟨_, rfl⟩

/-- After the walk, loading answers exactly if every association item fits at its turn. -/
theorem complete_defined (hlib : Selects lib doc sel) (hr : r ∈ sel.content)
    (h : Underway doc sel r site) (hitems : ∀ n ∈ site.associationsToInitialize, Inner r n) :
    DefinedIff (∀ call ∈ calls Site.initializeAssociation site site.associationsToInitialize,
      ItemFits call.1 call.2) (complete lib site) := by
  refine ((items_defined h.walking.indexed.parsed _).bind (Q := fun _ => True) fun site₂ hpass => ?_).congr ?_
  · have hstays := items_stay h.enclosed hitems hpass
    obtain ⟨-, -, -, hroot⟩ := sameIndex_run hpass
    have hanswers := @generation_answers doc sel r lib { site₂ with associationsToInitialize := [] }
      hlib hr (hroot.trans h.root) (h.parsed.within hstays.within)
    exact ⟨fun _ => hanswers, fun hnot => absurd trivial hnot⟩
  · exact and_iff_left fun _ _ => trivial

/-! ### Production mode -/

/-- Loading throws, or goes on from the root of the content. -/
theorem loadXmlDoc_cases (hdoc : lib.xmlReadMemory rawxml = some doc) (hlib : Selects lib doc sel)
    (site : Site) :
    (∃ r d, sel.content = [r] ∧ sel.design = [d] ∧ site.loadXmlDoc lib rawxml =
        (begin site doc r d).loadContent lib doc (.parsed r) >>= complete lib) ∨
      (∀ r d, sel.content = [r] → sel.design ≠ [d]) ∧
        ∃ message, site.loadXmlDoc lib rawxml = .error (.internalError message) := by
  have hcontent : Query.runRawQuery lib { site with
      doc := doc.store, lists := .parsed, allocated := Tree.sizes doc + 1, rootNode := none, rootDesignNode := none }
      none "/website/content" "website root node" =
        .ok (sel.content.map fun p => .node (.parsed p)) := by
    rw [Query.runRawQuery, hlib.content, elements]
    cases sel.content <;> rfl
  rw [Site.loadXmlDoc, hdoc]
  dsimp only
  rw [hcontent, ok_bind]
  rcases elements_single sel.content "Could not find root content node in XML file" with
    ⟨r, hr, hsingle⟩ | ⟨hnot, hfail⟩
  · have hmem : r ∈ sel.content := hr ▸ List.mem_singleton_self r
    have hdesign : Query.runRawQuery lib { site with
        doc := doc.store, lists := .parsed, allocated := Tree.sizes doc + 1
        rootNode := some (.parsed r), rootDesignNode := none }
        none "/website/design" "website design node" =
          .ok (sel.design.map fun p => .node (.parsed p)) :=
      runRawQuery_elements rfl hlib.design fun p hp => hlib.apart r hmem p (.inr (.inl hp))
    rw [hsingle, ok_bind, XmlNode.toNode, pure_bind, hdesign, ok_bind]
    rcases elements_single sel.design "Could not find root design node in XML file" with
      ⟨d, hd, hsingle'⟩ | ⟨hnot, hfail⟩
    · rw [hsingle', ok_bind]
      exact .inl ⟨r, d, hr, hd, rfl⟩
    · rw [hfail]
      exact .inr ⟨fun _ d _ hd => hnot d hd, _, rfl⟩
  · rw [hfail]
    exact .inr ⟨fun r _ hr => absurd hr (hnot r), _, rfl⟩

/-- A production site. -/
theorem production_defined (hdoc : lib.xmlReadMemory rawxml = some doc)
    (hlib : Selects lib doc sel) : DefinedIff (∀ r d, sel.content = [r] → sel.design = [d] →
      ContentFits doc sel r ∧ PassFits lib doc (begin (Site.blank su false keys) doc r d) r)
      ((Site.blank su false keys).loadXmlDoc lib rawxml) := by
  rcases loadXmlDoc_cases hdoc hlib (Site.blank su false keys) with
    ⟨r, d, hr, hd, hload⟩ | ⟨hnot, message, hload⟩
  · have hmem : r ∈ sel.content := hr ▸ List.mem_singleton_self r
    obtain ⟨hreturns, hunderway⟩ := @loadContent_returns doc sel r d lib su keys hlib hmem
    rw [hload]
    refine (hreturns.defined.bind fun site hok => complete_defined hlib hmem (hunderway site hok)
      fun n hn => ?_).congr ?_
    · obtain ⟨pend, -, -, hitems, hdeferred⟩ := loadContent_between hlib hmem hok
      rw [hdeferred] at hn
      obtain ⟨a, ha, rfl⟩ := List.mem_map.mp hn
      exact inner_child (ElementWith.child ((hitems a).mp ha))
    · constructor
      · intro hfits r' d' hr' hd'
        cases hr.symm.trans hr'
        cases hd.symm.trans hd'
        exact hfits
      · exact fun hfits => hfits r d hr hd
  · rw [hload]
    refine (DefinedIff.throw message).congr (iff_of_true trivial ?_)
    exact fun r d hr hd => absurd hd (hnot r d hr)

/-- A production site whose items name ordinary elements. -/
theorem production_passFits (hlib : Selects lib doc sel) (hr : r ∈ sel.content)
    (hfits : ContentFits doc sel r) (hord : TargetsOrdinary doc (structuresOf doc sel) r) :
    PassFits lib doc (begin (Site.blank su false keys) doc r d) r ↔
      ∀ a, Item doc (structuresOf doc sel) r a → Indexes.NamesKnown doc (structuresOf doc sel) r a →
        ¬ TopLevel r a := by
  obtain ⟨site, hok⟩ := (@loadContent_returns doc sel r d lib su keys hlib hr).1.returns hfits
  obtain ⟨pend, hbetween, hnodup, hitems, hdeferred⟩ := loadContent_between hlib hr hok
  have hpass : PassFits lib doc (begin (Site.blank su false keys) doc r d) r ↔
      ∀ call ∈ calls Site.initializeAssociation site (pend.map .parsed),
        ItemFits call.1 call.2 := by
    constructor
    · intro h
      exact hdeferred ▸ h site hok
    · intro h site' hok'
      obtain rfl := Except.ok.inj (hok.symm.trans hok')
      exact hdeferred ▸ h
  rw [hpass, ← (items_defined hbetween.indexed.parsed _).iff, (items_return (content_found hlib hr) hord hbetween
    hnodup fun a ha => (hitems a).mp ha).defined.iff]
  exact forall_congr' fun a => by rw [hitems a]

/-! ### Both modes -/

/-- Whether a computation answers is the same for one that goes alike. -/
theorem answers_alike {α β : Type} {R : α → β → Prop} {x : Result α} {y : Result β}
    (h : Alike R x y) : Answers x ↔ Answers y := by
  cases h with
  | error e => simp [Answers]
  | ok _ => simp [Answers]

theorem asParsed_restored {σ : Store} (h : AsParsed doc.unstaged r σ) :
    AsParsed doc r (Heap.map (Info.renamed restoredName) σ) := by
  have hback := congrFun (renamed_restored doc.store)
  refine ⟨fun p hp => ?_, fun c hc => ?_⟩
  · rw [← hback, ← Document.store_unstaged, Heap.map, h.outside p hp, Heap.map]
  · obtain ⟨c', hc', hsame⟩ := h.root (c.map (Info.renamed unstagedName)) (by
      rw [Document.store_unstaged, Heap.map_of_some hc])
    have hcell := hback (.parsed r)
    rw [Heap.map_of_some (Heap.map_of_some hc), hc, Option.some.injEq] at hcell
    refine ⟨_, Heap.map_of_some hc', hsame.parent, hsame.next, hsame.prev, ?_⟩
    rw [← congrArg Cell.data hcell]
    exact congrArg (Info.renamed restoredName) hsame.data

/-- What is selected does not depend on staging marks. -/
theorem selects_unstaged (hlib : Selects lib doc sel) : Selects lib.unstaged doc.unstaged sel := by
  have hstore : Heap.map (Info.renamed restoredName) doc.unstaged.store = doc.store := by
    rw [Document.store_unstaged, renamed_restored]
  refine ⟨?_, ?_, fun r hr σ h N => ?_, fun r hr σ h => ?_, fun p hp => ?_, hlib.apart⟩
  · dsimp only [Libxml.unstaged]
    rw [hstore]
    exact hlib.content
  · dsimp only [Libxml.unstaged]
    rw [hstore]
    exact hlib.design
  · exact hlib.structures r hr _ (asParsed_restored h) N
  · exact hlib.generation r hr _ (asParsed_restored h)
  · obtain ⟨name, properties, children, hat⟩ := hlib.found p hp
    exact ⟨name, renamed unstagedName properties, Tree.unstagedAll children, by
      rw [Document.at?_unstaged, hat]
      rfl⟩

theorem begin_seen : Seen (begin (Site.blank su true keys) doc r d)
    (begin (Site.blank su false keys) doc.unstaged r d) := by
  have hsizes : Tree.sizes doc.unstaged = Tree.sizes doc := Tree.sizes_unstaged doc
  refine ⟨rfl, ?_⟩
  rw [begin, begin, Document.store_unstaged, hsizes]
  rfl

/-- The items fit in a staging site as they do in the production site that goes along with it. -/
theorem passFits_unstaged (hlib : Selects lib doc sel) (hr : r ∈ sel.content) :
    PassFits lib doc (begin (Site.blank su true keys) doc r d) r ↔
      PassFits lib.unstaged doc.unstaged (begin (Site.blank su false keys) doc.unstaged r d) r := by
  have halike := @loadContent_seen lib doc _ _ (@begin_seen doc r d su keys) (.parsed r)
  have hindexed := fun site (hok : (begin (Site.blank su false keys) doc.unstaged r d).loadContent
      lib.unstaged doc.unstaged (.parsed r) = .ok site) =>
    ((loadContent_returns (selects_unstaged hlib) hr).2 site hok).walking.indexed
  rw [PassFits, PassFits]
  revert halike hindexed
  generalize (begin (Site.blank su true keys) doc r d).loadContent lib doc (.parsed r) = x
  generalize (begin (Site.blank su false keys) doc.unstaged r d).loadContent lib.unstaged
    doc.unstaged (.parsed r) = y
  intro halike hindexed
  cases halike with
  | error e => simp
  | @ok site site' hseen =>
    have hnodes := (hindexed site' rfl).parsed
    have hpass := Alike.foldlM (R := Seen) id (fun s s' n hs => initializeAssociation_seen hs n)
      site.associationsToInitialize site site' hseen
    have hnodes' : site.nodes = site'.nodes := by rw [hseen.2]; rfl
    have hdeferred : site.associationsToInitialize = site'.associationsToInitialize := by
      rw [hseen.2]
      rfl
    simp only [Except.ok.injEq, forall_eq']
    rw [← (items_defined (hnodes' ▸ hnodes) _).iff, ← (items_defined hnodes _).iff,
      answers_alike hpass, List.map_id, hdeferred]

/-- Loading answers, and an element whose structure the design does not know has none. -/
structure LoadsSafely (lib : Libxml) (doc : Document) (sel : Selection) (site : Site)
    (rawxml : String) : Prop where
  answers : Answers (site.loadXmlDoc lib rawxml)
  unknown : ∀ site', site.loadXmlDoc lib rawxml = .ok site' → ∀ r ∈ sel.content, ∀ c,
    ElementWith (Indexes.seenBy site.stagingMode doc)
      (structuresOf (Indexes.seenBy site.stagingMode doc) sel) r (fun ps => ¬ Staged ps ∧
        0 < (declared {} ps).structureId ∧ sel.structures (declared {} ps).structureId = []) c →
    ∃ ctxt, site'.contexts (.parsed c) = some ctxt ∧ ctxt.struct = none

/-- Either kind of site. -/
theorem loadXmlDoc_answers {stagingMode : Bool} (hdoc : lib.xmlReadMemory rawxml = some doc)
    (hlib : Selects lib doc sel) : Answers ((Site.blank su stagingMode keys).loadXmlDoc lib rawxml) ↔
      ∀ r d, sel.content = [r] → sel.design = [d] →
        ContentFits (Indexes.seenBy stagingMode doc) sel r ∧
          PassFits lib doc (begin (Site.blank su stagingMode keys) doc r d) r := by
  cases stagingMode with
  | false => exact (production_defined hdoc hlib).iff
  | true =>
    have hdoc' : lib.unstaged.xmlReadMemory rawxml = some doc.unstaged :=
      congrArg (Option.map Document.unstaged) hdoc
    have hseen : Seen (Site.blank su true keys) (Site.blank su false keys) := ⟨rfl, rfl⟩
    have halike := @loadXmlDoc_unstaged lib _ _ hseen rawxml
    rw [answers_alike halike, (production_defined hdoc' (selects_unstaged hlib)).iff]
    refine forall₂_congr fun r d => forall_congr' fun hr => forall_congr' fun _ => ?_
    exact and_congr_right fun _ => (passFits_unstaged hlib (hr ▸ List.mem_singleton_self r)).symm

/-- What libxml2 selects in the sample feed. -/
def sampleSelection : Selection where
  content := [[0, 0]]
  design := [[1, 0]]
  structures N := if Cpp.cStr (designPath N) = "/website/design//*[@id=9]" then [[0, 1, 0]] else []
  generation := [[2, 0]]

/-- The place of a structure is below the design. -/
theorem designPath_below (N : ℤ) :
    "/website/design//*[@id=".toList <+: (Cpp.cStr (designPath N)).toList := by
  have hcut : ∀ s, (Cpp.cStr s).toList = s.toList.takeWhile fun c => decide (c ≠ '\x00') :=
    fun _ => String.toList_ofList
  have hpath : (designPath N).toList =
      "/website/design//*[@id=".toList ++ ((toString N).toList ++ "]".toList) := by
    unfold designPath
    rw [String.toList_append, String.toList_append, List.append_assoc]
  have hall : ∀ c ∈ "/website/design//*[@id=".toList, decide (c ≠ '\x00') = true :=
    List.all_eq_true.mp rfl
  rw [hcut, hpath]
  rw [List.takeWhile_append_of_pos hall]
  exact List.prefix_append _ _

theorem designPath_ne (N : ℤ) {q : String}
    (hq : ¬ "/website/design//*[@id=".toList <+: q.toList) : Cpp.cStr (designPath N) ≠ q := by
  rintro rfl
  exact hq (designPath_below N)

theorem selects_sample {lib : Libxml} {doc : Document}
    (hlib : lib.xmlXPathEvalExpression = sampleLib.xmlXPathEvalExpression)
    (hfound : [[0, 0], [1, 0], [0, 1, 0], [2, 0]].Forall fun p => ∃ name properties children,
      doc.at? p = some (.element name properties children)) : Selects lib doc sampleSelection := by
  have hgeneration : Cpp.cStr "/website/generation" = "/website/generation" := by decide
  -- what is not the content
  have hothers : ∀ p, (∃ N, p ∈ sampleSelection.structures N) ∨ p ∈ sampleSelection.design ∨
      p ∈ sampleSelection.generation → p ∈ [[1, 0], [0, 1, 0], [2, 0]] := by
    rintro p (⟨N, hp⟩ | hp | hp)
    · rw [sampleSelection] at hp
      dsimp only at hp
      split at hp
      · simp [List.mem_singleton.mp hp]
      · cases hp
    · simp [List.mem_singleton.mp hp]
    · simp [List.mem_singleton.mp hp]
  refine ⟨by rw [hlib]; rfl, by rw [hlib]; rfl, fun r _ σ _ N => ?_, fun r _ σ _ => ?_,
    fun p hp => List.forall_iff_forall_mem.mp hfound p ?_, fun r hr p hp => ?_⟩
  · rw [hlib, sampleLib]
    dsimp only
    rw [if_neg (designPath_ne N (by decide)), if_neg (designPath_ne N (by decide))]
    rw [sampleSelection]
    dsimp only
    split
    · rfl
    · rw [if_neg (designPath_ne N (by decide)), if_neg (designPath_ne N (by decide))]
      rfl
  · rw [hlib, hgeneration, sampleLib]
    dsimp only
    rw [if_neg (by decide), if_neg (by decide), if_neg (by decide), if_pos rfl]
    rfl
  · rcases hp with hp | hp | hp | hp
    · exact List.mem_singleton.mp hp ▸ List.mem_cons_self
    · exact List.mem_cons_of_mem _ (hothers p (.inr (.inl hp)))
    · exact List.mem_cons_of_mem _ (hothers p (.inl hp))
    · exact List.mem_cons_of_mem _ (hothers p (.inr (.inr hp)))
  · obtain rfl := List.mem_singleton.mp hr
    have hapart : ∀ p ∈ [[1, 0], [0, 1, 0], [2, 0]], ¬ [0, 0] <:+ p := by decide
    exact hapart p (hothers p hp)

/-- Every page and the link can be read. -/
theorem sampleFeed_contentFits : ContentFits sampleFeed sampleSelection [0, 0] := by
  have hplain : ∀ id, ElementFits sampleFeed sampleSelection [("id", some id)] := fun id =>
    ⟨by simp [Valued, upToStaging], fun _ hpos => absurd hpos (by simp [declared])⟩
  intro i p name ps children hp hat
  rcases sampleFeed_walked hp with rfl | rfl | rfl | rfl
  · rcases i with _ | _ | _ | i
    · cases hat
      exact hplain "1"
    · cases hat
      exact ⟨by simp [Valued, upToStaging], fun hnot => absurd (by decide) hnot⟩
    · cases hat
      exact hplain "3"
    · cases hat
  · cases hat
  · rcases i with _ | i
    · cases hat
      have hnine : (declared {} [("id", some "4"), ("type", some "9")]).structureId = 9 := by decide
      refine ⟨by simp [Valued, upToStaging], fun _ _ => ?_⟩
      rw [hnine]
      exact ⟨[0, 1, 0], [], _, by decide, rfl, by simp [Valued, Tree.info]⟩
    · cases hat
  · rcases i with _ | i <;> cases hat

/-- A page with a structure that the design does not know. -/
def unknownFeed : Document :=
  [.element "website" [] [
    .element "content" [] [.element "page" [("id", some "1"), ("type", some "77")] []],
    .element "design" [] [.element "link" [("id", some "9"), ("type", some "AssociationItem")] []],
    .element "generation" [] [.text "7"]]]

def unknownLib : Libxml := { sampleLib with xmlReadMemory := fun _ => some unknownFeed }

/-- A link to a page, directly below the root of the content. -/
def topLevelFeed : Document :=
  [.element "website" [] [
    .element "content" [] [
      .element "page" [("id", some "1")] [],
      .element "link" [("id", some "4"), ("type", some "9")] [.text "1"]],
    .element "design" [] [.element "link" [("id", some "9"), ("type", some "AssociationItem")] []],
    .element "generation" [] [.text "7"]]]

def topLevelLib : Libxml := { sampleLib with xmlReadMemory := fun _ => some topLevelFeed }

theorem not_answers {x : Result Site} (h : (match x with
    | .error e => decide (e = .undefined)
    | .ok _ => false) = true) : ¬ Answers x := by
  rintro (⟨site, rfl⟩ | ⟨message, rfl⟩)
  · cases h
  · simp at h

end VaeDb.LoadSafety
