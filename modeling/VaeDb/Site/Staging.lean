import VaeDb.Site.Associations

/-! Staging content never leaks into a production site.

    Everything that child links reach in a loaded site is a pointer node, a child of a walked node
    that is not staged, or the text of an association item: none of these is staged content. The
    indexes hold elements entered by the walk only.

        root ── ordinary ── ordinary ── staged ✂
                    │           └────── association ── text ┈┈▶ children of an ordinary node
                    └── pointer ┈┈▶ children of an ordinary node -/

namespace VaeDb.Staging
open Schemes Xml Walk

variable {doc : Document} {S : Structures} {r : List ℕ}

/-! ### The loaded site -/

/-- At the end of the walk, every association item of the site is still to be dealt with. -/
theorem walking_linking {site₀ site : Site} {ms : List Move} (hmode : ms = walkKids S r 0 (doc.kids r))
    (htrace : Trace (Step doc) site₀ ms site) (h : Walking doc S r site) :
    Linking doc S r (deferred ms) site := by
  subst hmode
  have heffect : ∀ m ∈ walkKids S r 0 (doc.kids r), Effect m site :=
    fun m hm => htrace.effect effect_step effect_keep hm
  have hdead : NoStaged doc S r site.doc := by
    rintro c ⟨i, p, t, rfl, hp, ht⟩ ⟨name, ps, children, hat, hstaged⟩
    refine heffect (.kill (i :: p)) (walkNode_subset hp hat ?_)
    rw [walkNode, if_pos hstaged]
    exact List.mem_cons_self
  refine ⟨⟨?_, ?_, ?_, ?_, ?_⟩, hdead, fun k _ => h.noPointer k, fun n ctxt hn m hm => ?_,
    fun c hc hcr => ?_⟩
  · exact h.inv.lists
  · exact fun c hc hs _ => h.inv.alive c hc hs fun _ => trivial
  · exact fun c hc hw _ => h.inv.intact c hc hw fun _ => trivial
  · rintro a ⟨i, p, t, rfl, hp, ht⟩ hs ⟨name, ps, children, hat, hassoc⟩ hnot
    refine absurd (mem_deferred.mpr (walkNode_subset hp hat ?_)) hnot
    have hstaged : ¬ Staged ps := fun hstaged => hs ⟨name, ps, children, hat, hstaged⟩
    rw [walkNode, if_neg hstaged, if_pos hassoc]
    simp
  · exact h.inv.pointers
  · rw [h.ctxs n ctxt hn] at hm
    cases hm
  · cases hc with
    | root => exact absurd rfl hcr
    | @child p i name ps children hp hat hstaged hassoc =>
      refine heffect (.enter (i :: p)) (walkNode_subset hp hat ?_)
      rw [walkNode, if_neg hstaged, if_neg hassoc]
      simp

/-- In the loaded site, child links stay among the safe nodes. -/
theorem linking_closed {site : Site} (h : Linking doc S r [] site) :
    ClosedUnder site.doc (Safe doc S r) := by
  obtain ⟨ptrs, hlists, hlisted⟩ := h.inv.lists
  have hmember : ∀ p, Walked doc S r p → ∀ n ∈ liveKids doc site.doc p ++ ptrs p, ∀ cell,
      site.doc n = some cell → ∀ m ∈ cell.next, Safe doc S r m := by
    intro p hp n hn cell hcell m hm
    obtain ⟨cell', hcell', -, hnext⟩ := (hlists.linked p hp).member_of_mem hn
    rw [hcell, Option.some.injEq] at hcell'
    subst hcell'
    exact hlists.safe h.dead hp (hnext m hm)
  rintro n cell hn hcell
  rcases hn with ⟨k, rfl⟩ | ⟨c, rfl, hc, hs⟩ | ⟨a, content, rfl, ha, hs, hassoc, htext⟩
  · obtain ⟨p, hp, hmem⟩ := hlisted k cell hcell
    exact ⟨h.inv.pointers k cell hcell, hmember p hp _ (List.mem_append_right _ hmem) cell hcell⟩
  · obtain ⟨i, p, t, rfl, hp, ht⟩ := id hc
    have hmem : .parsed (i :: p) ∈ liveKids doc site.doc p ++ ptrs p :=
      List.mem_append_left _ (List.mem_filter.mpr
        ⟨Document.mem_kidIds.mpr ⟨i, t, ht, rfl⟩, by rw [hcell]; rfl⟩)
    refine ⟨?_, hmember p hp _ hmem cell hcell⟩
    by_cases hassoc : AssociationAt doc S (i :: p)
    · exact (h.inv.grafted _ hc hs hassoc (by simp)).1 cell hcell
    · by_cases hw : Walked doc S r (i :: p)
      · exact h.inv.children_safe h.dead hw hcell
      · -- neither walked nor an association item: not an element, so without children
        have hintact := h.inv.intact _ hc hw (fun ha => absurd ha hassoc) cell hcell
        have hkids : doc.kids (i :: p) = [] := by
          rw [kids_of_at? ht]
          cases t with
          | element name ps children =>
            refine absurd (.child hp ht ?_ ?_) hw
            · exact fun hstaged => hs ⟨name, ps, children, ht, hstaged⟩
            · exact fun ha => hassoc ⟨name, ps, children, ht, ha⟩
          | text => rfl
          | other => rfl
        rw [hintact.children cell hcell, Document.kidIds, hkids]
        intro m hm
        cases hm
  · exact (h.inv.grafted a ha hs hassoc (by simp)).2 cell hcell

/-- Every walked node is reached from the root by child links. -/
theorem linking_below {site : Site} {pend : List (List ℕ)} (h : Linking doc S r pend site)
    {q : List ℕ} (hq : Walked doc S r q) :
    q = r ∨ Below site.doc (.parsed r) (.parsed q) := by
  obtain ⟨ptrs, hlists, -⟩ := h.inv.lists
  induction hq with
  | root => exact Or.inl rfl
  | @child p i name ps children hp hat hstaged hassoc ih =>
    right
    have hq : Walked doc S r (i :: p) := .child hp hat hstaged hassoc
    obtain ⟨cell, hcell, -⟩ := (hlists.linked _ hq).ends
    refine (hlists.linked p hp).below (ih.imp (fun heq => by rw [heq]) id)
      (List.mem_append_left _ (List.mem_filter.mpr
        ⟨Document.mem_kidIds.mpr ⟨i, _, hat, rfl⟩, by rw [hcell]; rfl⟩))

/-- Below the root `r`, the node at `q` is a staged element or lies below one. -/
def Hidden (doc : Document) (r q : List ℕ) : Prop :=
  ∃ c, r <:+ c ∧ c ≠ r ∧ StagedAt doc c ∧ c <:+ q

/-- An element below the root `r` with no staged element and no association item on the way to it,
    itself included. -/
def Plain (doc : Document) (S : Structures) (r q : List ℕ) : Prop :=
  (∃ name ps children, doc.at? q = some (.element name ps children)) ∧ r <:+ q ∧ q ≠ r ∧
    ∀ c, r <:+ c → c ≠ r → c <:+ q → ¬ StagedAt doc c ∧ ¬ AssociationAt doc S c

theorem walked_of_plain : ∀ {q : List ℕ}, Plain doc S r q → Walked doc S r q
  | [], h => by
      obtain ⟨⟨name, ps, children, hat⟩, -⟩ := h
      cases hat
  | i :: p, ⟨⟨name, ps, children, hat⟩, hr, hne, hway⟩ => by
      have hrp : r <:+ p := by
        rcases List.suffix_cons_iff.mp hr with heq | hr
        · exact absurd heq.symm hne
        · exact hr
      have hp : Walked doc S r p := by
        rcases eq_or_ne p r with rfl | hpr
        · exact .root
        · -- a node with a child is an element
          refine walked_of_plain ⟨?_, hrp, hpr, fun c hc hcr hcp =>
            hway c hc hcr (hcp.trans (List.suffix_cons _ _))⟩
          cases p with
          | nil => exact absurd (List.suffix_nil.mp hrp).symm hpr
          | cons j p =>
            rw [Document.at?, Document.kids] at hat
            cases ht : (doc.kids p)[j]? with
            | none => simp [ht] at hat
            | some t =>
              cases t with
              | element name ps children => exact ⟨name, ps, children, ht⟩
              | text => simp [ht, Tree.children] at hat
              | other => simp [ht, Tree.children] at hat
      obtain ⟨hstaged, hassoc⟩ := hway (i :: p) hr hne List.suffix_rfl
      exact .child hp hat (fun h => hstaged ⟨name, ps, children, hat, h⟩)
        fun h => hassoc ⟨name, ps, children, hat, h⟩

/-- A child of a walked node that is not staged is not hidden. -/
theorem child_not_hidden {c : List ℕ} (hc : Child doc S r c) (hs : ¬ StagedAt doc c) :
    ¬ Hidden doc r c := by
  rintro ⟨d, hr, hne, hd, hdc⟩
  obtain ⟨i, p, t, rfl, hp, -⟩ := hc
  rcases List.suffix_cons_iff.mp hdc with rfl | hdp
  · exact hs hd
  · exact walked_not_staged (walked_of_suffix hp hdp hr) hne hd

theorem safe_not_hidden {q : List ℕ} (h : Safe doc S r (.parsed q)) : ¬ Hidden doc r q := by
  rcases h with ⟨k, ⟨⟩⟩ | ⟨c, ⟨⟩, hc, hs⟩ | ⟨a, content, ⟨⟩, ha, hs, -, htext⟩
  · exact child_not_hidden hc hs
  · rintro ⟨d, hr, hne, hd, hda⟩
    rcases List.suffix_cons_iff.mp hda with rfl | hda
    · obtain ⟨name, ps, children, hat, -⟩ := hd
      rw [htext] at hat
      cases hat
    · exact child_not_hidden ha hs ⟨d, hr, hne, hd, hda⟩

theorem elementWith_not_hidden {c : List ℕ} (h : ElementWith doc S r (fun ps => ¬ Staged ps) c) :
    ¬ Hidden doc r c := by
  refine child_not_hidden (ElementWith.child h) ?_
  obtain ⟨i, p, name, ps, children, -, -, hat, hstaged⟩ := h
  rintro ⟨name', ps', children', hat', hstaged'⟩
  rw [hat] at hat'
  cases hat'
  exact hstaged hstaged'

/-- The walk over the children of the root, from the parsed document on. -/
theorem loadContent_trace {lib : Libxml} {site₀ site : Site} {root : NodeId}
    (hmode : site₀.stagingMode = false) (hstore : site₀.doc = doc.store)
    (h : site₀.loadContent lib doc root = .ok site) :
    ∃ r, root = .parsed r ∧ (r = [] ∨ ∃ t, doc.at? r = some t) ∧
      Trace (Step doc) site₀ (walkKids site.structures r 0 (doc.kids r)) site := by
  cases root with
  | pointer k => exact absurd h throw_ne_ok
  | parsed r =>
    obtain ⟨cell, hcell, hkids⟩ := bind_eq_ok.mp h
    rw [deref_eq_ok, hstore] at hcell
    refine ⟨r, rfl, ?_, (newContexts_walks (kidsFrom_kids r) hmode hkids).trace _ (Grows.refl _)⟩
    cases r with
    | nil => exact Or.inl rfl
    | cons i p =>
      right
      cases hat : doc.at? (i :: p) with
      | none =>
        rw [Document.store, hat] at hcell
        cases hcell
      | some t => exact ⟨t, rfl⟩

section Walk

variable {site₀ site : Site}

/-- A site that has nothing but the parsed document. -/
theorem walking_start (hr : r = [] ∨ ∃ t, doc.at? r = some t)
    (hstore : site₀.doc = doc.store) (hnodes : ∀ id, site₀.nodes id = none)
    (hpermalinks : ∀ s, site₀.permalinks s = none) (hctxs : ∀ n, site₀.contexts n = none) :
    Walking doc S r site₀ := by
  refine ⟨hstore ▸ inv_store hr, fun k => by rw [hstore]; rfl, ⟨fun id n hn => ?_,
    fun s n hn => ?_⟩, fun n ctxt hn => ?_⟩
  · rw [hnodes] at hn
    cases hn
  · rw [hpermalinks] at hn
    cases hn
  · rw [hctxs] at hn
    cases hn

/-- The walk from there. -/
theorem walk_walking (hr : r = [] ∨ ∃ t, doc.at? r = some t)
    (hstore : site₀.doc = doc.store) (hnodes : ∀ id, site₀.nodes id = none)
    (hpermalinks : ∀ s, site₀.permalinks s = none) (hctxs : ∀ n, site₀.contexts n = none)
    (htrace : Trace (Step doc) site₀ (walkKids S r 0 (doc.kids r)) site) : Walking doc S r site := by
  have hplaced := placed_walkKids (S := S) (.root (r := r)) (@kidsFrom_kids doc r)
  exact htrace.invariant (fun s m t hm hs hstep => walking_step s m t (hplaced m hm) hs hstep)
    (walking_start hr hstore hnodes hpermalinks hctxs)

/-- What the walk leaves for the association phase. -/
theorem walk_linking (hr : r = [] ∨ ∃ t, doc.at? r = some t)
    (hstore : site₀.doc = doc.store) (hnodes : ∀ id, site₀.nodes id = none)
    (hpermalinks : ∀ s, site₀.permalinks s = none) (hctxs : ∀ n, site₀.contexts n = none)
    (hassoc : site₀.associationsToInitialize = [])
    (htrace : Trace (Step doc) site₀ (walkKids S r 0 (doc.kids r)) site) :
    site.rootNode = site₀.rootNode ∧ Indexed doc S r site ∧
      ∃ pend, pend = deferred (walkKids S r 0 (doc.kids r)) ∧ pend.Nodup ∧
        (∀ a ∈ pend, Item doc S r a) ∧ Linking doc S r pend site ∧
        site.associationsToInitialize = pend.map .parsed := by
  have hplaced := placed_walkKids (S := S) (.root (r := r)) (@kidsFrom_kids doc r)
  have hwalking := walk_walking hr hstore hnodes hpermalinks hctxs htrace
  obtain ⟨hroot, -, hdefer⟩ := trace_frame htrace
  rw [hassoc, List.nil_append] at hdefer
  refine ⟨hroot, hwalking.indexed, _, rfl, (deferred_walkKids _ r 0).1, fun a ha => ?_,
    walking_linking rfl htrace hwalking, hdefer⟩
  exact hplaced _ (mem_deferred.mp ha)

end Walk

/-- The phases of a load that returns. -/
theorem loadXmlDoc_phases {lib : Libxml} {rawxml : String} {site₀ site : Site}
    (hdoc : lib.xmlReadMemory rawxml = some doc) (hload : site₀.loadXmlDoc lib rawxml = .ok site) :
    ∃ root design site₁ site₂ generation,
      ({ site₀ with
          doc := doc.store, lists := .parsed, allocated := Tree.sizes doc + 1
          rootNode := some root, rootDesignNode := some design } : Site).loadContent lib doc root =
        .ok site₁ ∧
      site₁.associationsToInitialize.foldlM Site.initializeAssociation site₁ = .ok site₂ ∧
      site = { site₂ with associationsToInitialize := [], generation := generation } := by
  rw [Site.loadXmlDoc, hdoc] at hload
  obtain ⟨query₁, -, h₁⟩ := bind_eq_ok.mp hload
  obtain ⟨x, -, h₂⟩ := bind_eq_ok.mp h₁
  obtain ⟨root, -, h₃⟩ := bind_eq_ok.mp h₂
  obtain ⟨query₂, -, h₄⟩ := bind_eq_ok.mp h₃
  obtain ⟨y, -, h₅⟩ := bind_eq_ok.mp h₄
  obtain ⟨design, -, h₆⟩ := bind_eq_ok.mp h₅
  obtain ⟨site₁, hcontent, h₇⟩ := bind_eq_ok.mp h₆
  obtain ⟨site₂, hassoc, h₈⟩ := bind_eq_ok.mp h₇
  obtain ⟨query₃, -, h₉⟩ := bind_eq_ok.mp h₈
  obtain ⟨z, -, h₁₀⟩ := bind_eq_ok.mp h₉
  obtain ⟨text, -, h₁₁⟩ := bind_eq_ok.mp h₁₀
  cases h₁₁
  exact ⟨root, design, site₁, site₂, _, hcontent, hassoc, rfl⟩

/-- CORRECT: in a production site loaded from a feed whose association items name no association
    item, no staged element of the content and nothing below one is in the indexes or reached from
    the root by child links, while every other element outside the association items is reached and
    has its Context. -/
theorem loadXmlDoc_hides_staging {lib : Libxml} {su rawxml : String} {keys : List String}
    {doc : Document} {site : Site} (hdoc : lib.xmlReadMemory rawxml = some doc)
    (hload : (Site.blank su false keys).loadXmlDoc lib rawxml = .ok site) :
    ∃ r, site.rootNode = some (.parsed r) ∧ (TargetsOrdinary doc site.structures r →
      (∀ q, Hidden doc r q → (∀ id, site.nodes id ≠ some (.parsed q)) ∧
        (∀ s, site.permalinks s ≠ some (.parsed q)) ∧
        ¬ Below site.doc (.parsed r) (.parsed q)) ∧
      ∀ q, Plain doc site.structures r q → Below site.doc (.parsed r) (.parsed q) ∧
        ∃ cell ctxt, site.doc (.parsed q) = some cell ∧ cell.data.priv = some (.parsed q) ∧
          site.contexts (.parsed q) = some ctxt) := by
  obtain ⟨root, design, site₁, site₂, generation, hcontent, hassoc, rfl⟩ :=
    loadXmlDoc_phases hdoc hload
  obtain ⟨r, rfl, hr, htrace⟩ := loadContent_trace rfl rfl hcontent
  obtain ⟨hroot, hindexed, pend, -, hnodup, hitems, hlinking, hpend⟩ :=
    walk_linking hr rfl (fun _ => rfl) (fun _ => rfl) (fun _ => rfl) rfl htrace
  rw [hpend] at hassoc
  have hsame := sameIndex_run hassoc
  have hindexed' := hindexed.congr hsame
  obtain ⟨-, -, hstruct, hroot'⟩ := hsame
  refine ⟨r, hroot'.trans hroot, fun hord => ?_⟩
  dsimp only at hord ⊢
  rw [hstruct] at hord ⊢
  have hlinked := linking_run hord hindexed hlinking hnodup hitems hassoc
  refine ⟨fun q hq => ⟨fun id hid => ?_, fun s hs => ?_, fun hbelow => ?_⟩, fun q hq => ?_⟩
  · obtain ⟨c, a, heq, hc, -⟩ := hindexed'.nodes id _ hid
    cases heq
    exact elementWith_not_hidden hc hq
  · obtain ⟨c, heq, hc⟩ := hindexed'.permalinks s _ hs
    cases heq
    exact elementWith_not_hidden hc hq
  · refine safe_not_hidden (Below.mem_of_closed (linking_closed hlinked) ?_ hbelow) hq
    exact fun cell hcell => hlinked.inv.children_safe hlinked.dead .root hcell
  · have hw := walked_of_plain hq
    obtain ⟨⟨ctxt, hctxt⟩, hpriv⟩ := hlinked.held q hw hq.2.2.1
    obtain ⟨ptrs, hlists, -⟩ := hlinked.inv.lists
    obtain ⟨cell, hcell, -⟩ := (hlists.linked q hw).ends
    refine ⟨(linking_below hlinked hw).resolve_left hq.2.2.1, cell, ctxt, hcell, ?_, hctxt⟩
    exact hpriv cell hcell

/-! ### The sample feed -/

/-- The staged page is not walked. -/
theorem sampleFeed_walked {S : Structures} {p : List ℕ} (h : Walked sampleFeed S [0, 0] p) :
    p = [0, 0] ∨ p = [0, 0, 0] ∨ p = [2, 0, 0] ∨ p = [0, 2, 0, 0] := by
  induction h with
  | root => exact Or.inl rfl
  | @child p i _ _ _ _ hat hstaged _ ih =>
    rcases ih with rfl | rfl | rfl | rfl
    · rcases i with _ | _ | _ | i
      · simp
      · cases hat
        exact absurd (by decide) hstaged
      · simp
      · cases hat
    · cases hat
    · rcases i with _ | i
      · simp
      · cases hat
    · rcases i with _ | i <;> cases hat

/-- The link is the only association item of the sample feed. -/
theorem sampleFeed_item {S : Structures} {a : List ℕ} (h : Item sampleFeed S [0, 0] a) :
    a = [0, 2, 0, 0] := by
  obtain ⟨i, p, name, ps, children, rfl, hp, hat, hstaged, hassoc⟩ := h
  have hplain : ps ≠ [("id", some "1")] ∧ ps ≠ [("id", some "3")] := by
    constructor <;> rintro rfl <;>
      simp [Association, structureOf, declared, isAssociation] at hassoc
  rcases sampleFeed_walked hp with rfl | rfl | rfl | rfl
  · rcases i with _ | _ | _ | i
    · cases hat
      exact absurd rfl hplain.1
    · cases hat
      exact absurd (by decide) hstaged
    · cases hat
      exact absurd rfl hplain.2
    · cases hat
  · cases hat
  · rcases i with _ | i
    · rfl
    · cases hat
  · rcases i with _ | i <;> cases hat

/-- It has id 4, and names the item with id 1. -/
theorem sampleFeed_targetsOrdinary (S : Structures) : TargetsOrdinary sampleFeed S [0, 0] := by
  intro a b content attrs ha hcontent hpos hb hattrs
  obtain rfl := sampleFeed_item ha
  obtain rfl := sampleFeed_item hb
  have hid : (attrsAt sampleFeed [0, 2, 0, 0]).map Attrs.id = some 4 := by decide +kernel
  rw [hattrs, Option.map_some, Option.some.injEq] at hid
  obtain rfl : content = "1" := by
    cases hcontent
    rfl
  rw [hid]
  decide

/-- The staged page is out of the index and out of reach. -/
theorem loadXmlDoc_hides_sample : ∃ site,
    (Site.blank "shop" false []).loadXmlDoc sampleLib "feed" = .ok site ∧
    site.nodes 2 ≠ some (.parsed [1, 0, 0]) ∧
    ¬ Below site.doc (.parsed [0, 0]) (.parsed [1, 0, 0]) := by
  have hroot : ((Site.blank "shop" false []).loadXmlDoc sampleLib "feed").toOption.bind
      Site.rootNode = some (.parsed [0, 0]) := by decide +kernel
  have hstaged : StagedAt sampleFeed [1, 0, 0] := ⟨_, _, _, rfl, by decide⟩
  obtain ⟨site, hload, hsome⟩ := toOption_bind_eq_some.mp hroot
  obtain ⟨r, hr, hsite⟩ := loadXmlDoc_hides_staging (rfl : sampleLib.xmlReadMemory "feed" = _) hload
  cases hr.symm.trans hsome
  obtain ⟨hidden, -⟩ := hsite (sampleFeed_targetsOrdinary _)
  obtain ⟨hnodes, -, hbelow⟩ := hidden [1, 0, 0]
    ⟨[1, 0, 0], List.suffix_cons _ _, by decide, hstaged, List.suffix_rfl⟩
  exact ⟨site, hload, hnodes 2, hbelow⟩

end VaeDb.Staging
