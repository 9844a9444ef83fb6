import VaeDb.Site.LoadSafety
import VaeDb.Site.PointerNodes

/-! Pointer nodes all through the loop over the items.

    The loop is taken as its calls write down the pointer nodes they make. One call keeps them in step
    with their parents exactly if its item leaves none behind, and so do all of them. A staging site
    makes the same calls as the production site that goes along with it.

        items      1            99                 …
        made       (P, n₁)      (P, n₁)
        last       P = n₁       P ≠ n₁  ✗ left behind
        children   P = n₁       P = n₁             -/

namespace VaeDb.PointerNodes
open Schemes Xml Walk Staging

variable {doc : Document} {S : Structures} {r : List ℕ} {pend : List (List ℕ)} {a : List ℕ}
  {site site' : Site} {log : List (NodeId × NodeId)}

/-! ### An item at its turn -/

theorem pointerMade_some {text : String} {n : NodeId} {cell : Cell NodeId Info} {P : NodeId}
    (htext : site.firstText (.parsed a) = .ok text) (hnamed : named site text = some n)
    (hcell : site.doc (.parsed a) = some cell) (hparent : cell.parent = some P) :
    pointerMade site (.parsed a) = some (P, .pointer site.allocated) := by
  rw [pointerMade, htext]
  dsimp only
  rw [hnamed]
  dsimp only
  rw [hcell, Option.bind_some, hparent]
  rfl

theorem pointerMade_none {text : String} {n : NodeId} (htext : site.firstText n = .ok text)
    (hnamed : named site text = none) : pointerMade site n = none := by
  rw [pointerMade, htext]
  dsimp only
  rw [hnamed]

/-- The pointer nodes still mirror their parents after an item exactly if it leaves none behind. -/
theorem Mirroring.step (hord : TargetsOrdinary doc S r) (h : Mirroring doc S r (a :: pend) log site)
    (hlater : (a :: pend).Pairwise Later) (hnot : a ∉ pend) (ha : Item doc S r a)
    (hok : site.initializeAssociation (.parsed a) = .ok site') :
    Mirroring doc S r pend (log ++ (pointerMade site (.parsed a)).toList) site' ∧
      ((∀ made ∈ log, Mirrors site.doc made) →
        ((∀ made ∈ log ++ (pointerMade site (.parsed a)).toList, Mirrors site'.doc made) ↔
          ¬ LeavesBehind site (.parsed a))) := by
  have hchild := ElementWith.child ha
  obtain ⟨hstaged, hassoc⟩ := ha.associationAt
  obtain ⟨text, htext, ⟨n, hpos, hn, hassociate⟩ | ⟨hnone, site₁, hremove, rfl⟩⟩ :=
    initializeAssociation_cases hok
  · obtain ⟨hat, m, rfl, hm, hmr⟩ := target_walked h.indexed hord ha (h.linking.intact ha) htext hpos hn
    have hturn : AtTurn doc S r pend a m site :=
      ⟨h.linking, hnot, hchild, hstaged, hassoc, ⟨text, hat⟩, hm, hmr⟩
    have hnamed : named site text = some (.parsed m) := by
      rw [named, if_pos hpos, hn]
    obtain ⟨s, hs, rfl⟩ := associate_eq_ok hassociate
    obtain ⟨i, q, rfl, hlinked, hall⟩ := h.link hlater ha hturn hs
    obtain ⟨cell, hcell⟩ := hturn.alive
    rw [pointerMade_some htext hnamed hcell (parent_eq h.linking.inv hchild hcell), Option.toList_some]
    refine ⟨hlinked, fun hbefore => iff_of_true (hall hbefore) ?_⟩
    rintro ⟨hnothing, -⟩
    obtain ⟨text', htext', hnothing⟩ := namesNothing_iff.mp hnothing
    obtain rfl := Except.ok.inj (htext.symm.trans htext')
    rw [hnamed] at hnothing
    cases hnothing
  · have hnamed : named site text = none := by
      rw [named]
      split
      · next hpos => exact hnone hpos
      · rfl
    rw [pointerMade_none htext hnamed, Option.toList_none, List.append_nil]
    exact h.remove hnot ha (namesNothing_iff.mpr ⟨text, htext, hnamed⟩) hremove

/-- An item that names nothing is taken out without fail. -/
theorem Mirroring.leaves (h : Mirroring doc S r (a :: pend) log site) (ha : Item doc S r a)
    (hleaves : LeavesBehind site (.parsed a)) :
    ∃ site', site.initializeAssociation (.parsed a) = .ok site' := by
  have hchild := ElementWith.child ha
  obtain ⟨-, hassoc⟩ := ha.associationAt
  obtain ⟨hnothing, cell, hcell, -⟩ := hleaves
  obtain ⟨text, htext, hnamed⟩ := namesNothing_iff.mp hnothing
  obtain ⟨ptrs, hlists, -⟩ := h.linking.inv.lists
  have haw := not_walked_of_association hchild hassoc
  obtain ⟨site', hremove⟩ := removeNode_returns hlists hchild haw (h.linking.intact ha) hcell
    (h.own.below hchild haw List.mem_cons_self) h.allocated
  exact ⟨_, (initializeAssociation_none htext hnamed).trans (bind_of_ok hremove)⟩

/-- A walk over any of the copies sees the children of its parent. -/
theorem Mirroring.sees (h : Mirroring doc S r pend log site) :
    ∀ made ∈ log, SeesChildren site.doc made := by
  rintro ⟨P, n⟩ hmade
  obtain ⟨p, k, rfl, rfl, -, hp, -, -, e, e', he, he', hsame⟩ := h.made P n hmade
  obtain ⟨ptrs, hlists, -⟩ := h.linking.inv.lists
  have hlinked := hlists.linked p hp
  rw [hlinked.ends_eq, Option.some.injEq] at he
  obtain ⟨pointer, hpointer, hchildren, -⟩ := Heap.ends_eq_some.mp he'
  refine ⟨pointer, _, hpointer, hlinked, ?_⟩
  rw [hchildren, hsame, ← he]
  exact hlinked.spells

/-! ### Either kind of site -/

/-- A site and the production site that goes along with it, which is itself outside staging mode. -/
def Alongside (site site₀ : Site) : Prop := site₀ = site ∨ Seen site site₀

namespace Alongside

variable {site₀ site₀' : Site} {node : NodeId}

theorem step (h : Alongside site site₀) (hok : site.initializeAssociation node = .ok site') :
    ∃ site₀', site₀.initializeAssociation node = .ok site₀' ∧ Alongside site' site₀' := by
  rcases h with rfl | hseen
  · exact ⟨site', hok, .inl rfl⟩
  · have halike := initializeAssociation_seen hseen node
    rw [hok] at halike
    obtain ⟨site₀', hok', hseen'⟩ := halike.right
    exact ⟨site₀', hok', .inr hseen'⟩

theorem back (h : Alongside site site₀) (hok : site₀.initializeAssociation node = .ok site₀') :
    ∃ site', site.initializeAssociation node = .ok site' := by
  rcases h with rfl | hseen
  · exact ⟨site₀', hok⟩
  · have halike := initializeAssociation_seen hseen node
    rw [hok] at halike
    obtain ⟨site', hok', -⟩ := halike.left
    exact ⟨site', hok'⟩

/-- The links of the two are the same. -/
theorem links (h : Alongside site site₀) : site₀.doc = site.doc ∨
    site₀.doc = Heap.map (Info.renamed unstagedName) site.doc := by
  rcases h with rfl | ⟨-, rfl⟩
  · exact .inl rfl
  · exact .inr rfl

theorem mirrors (h : Alongside site site₀) {made : NodeId × NodeId} :
    Mirrors site₀.doc made ↔ Mirrors site.doc made := by
  obtain ⟨P, n⟩ := made
  rw [mirrors_iff, mirrors_iff]
  rcases h.links with hdoc | hdoc
  · rw [hdoc]
  · simp only [hdoc, Heap.ends_map]

theorem sees (h : Alongside site site₀) {made : NodeId × NodeId}
    (hsees : SeesChildren site₀.doc made) : SeesChildren site.doc made := by
  rcases h.links with hdoc | hdoc
  · exact hdoc ▸ hsees
  · obtain ⟨pointer, L, hpointer, hlinked, hspells⟩ := hsees
    rw [hdoc] at hpointer hlinked hspells
    obtain ⟨pointer, hpointer', rfl⟩ := Option.map_eq_some_iff.mp hpointer
    exact ⟨pointer, L, hpointer', linked_map.mp hlinked, Heap.spells_map.mp hspells⟩

theorem pointerMade (h : Alongside site site₀) (node : NodeId) :
    pointerMade site₀ node = PointerNodes.pointerMade site node := by
  rcases h with rfl | ⟨-, rfl⟩
  · rfl
  · have hparent : ((site.unstaged.doc node).bind fun cell =>
          cell.parent.map fun parent => (parent, NodeId.pointer site.allocated)) =
        (site.doc node).bind fun cell =>
          cell.parent.map fun parent => (parent, NodeId.pointer site.allocated) := by
      rw [Site.unstaged]
      dsimp only
      rw [Heap.map]
      cases site.doc node <;> rfl
    rw [PointerNodes.pointerMade, PointerNodes.pointerMade, ← firstText_unstaged, ← hparent]
    rfl

theorem leavesBehind (h : Alongside site site₀) (node : NodeId) :
    LeavesBehind site₀ node ↔ LeavesBehind site node := by
  rcases h with rfl | ⟨-, rfl⟩
  · rfl
  · rw [LeavesBehind, LeavesBehind, NamesNothing, NamesNothing, ← firstText_unstaged]
    refine and_congr Iff.rfl ⟨?_, ?_⟩
    · rintro ⟨_, hcell, parentPtr, hparent, _, hP, hrest⟩
      obtain ⟨cell, hcell', rfl⟩ := Option.map_eq_some_iff.mp hcell
      obtain ⟨parent, hP', rfl⟩ := Option.map_eq_some_iff.mp hP
      exact ⟨cell, hcell', parentPtr, hparent, parent, hP', hrest⟩
    · rintro ⟨cell, hcell, parentPtr, hparent, parent, hP, hrest⟩
      exact ⟨_, Heap.map_of_some hcell, parentPtr, hparent, _, Heap.map_of_some hP, hrest⟩

end Alongside

/-! ### The loop over the items -/

/-- The state of the loop: the items to come, in the order of the document, and the pointer nodes. -/
def InLoop (doc : Document) (S : Structures) (r : List ℕ) (nodes : List NodeId)
    (log : List (NodeId × NodeId)) (site : Site) : Prop :=
  ∃ site₀ pend, Alongside site site₀ ∧ nodes = pend.map .parsed ∧ Mirroring doc S r pend log site₀ ∧
    pend.Pairwise Later ∧ pend.Nodup ∧ ∀ a ∈ pend, Item doc S r a

namespace InLoop

variable {node : NodeId} {nodes : List NodeId}

theorem step (hord : TargetsOrdinary doc S r) (h : InLoop doc S r (node :: nodes) log site)
    (hok : site.initializeAssociation node = .ok site') :
    InLoop doc S r nodes (log ++ (pointerMade site node).toList) site' ∧
      ((∀ made ∈ log, Mirrors site.doc made) →
        ((∀ made ∈ log ++ (pointerMade site node).toList, Mirrors site'.doc made) ↔
          ¬ LeavesBehind site node)) := by
  obtain ⟨site₀, pend, halong, heq, h, hlater, hnodup, hitems⟩ := h
  cases pend with
  | nil => cases heq
  | cons a pend =>
    cases heq
    obtain ⟨hnot, hnodup⟩ := List.nodup_cons.mp hnodup
    obtain ⟨ha, hitems⟩ := List.forall_mem_cons.mp hitems
    obtain ⟨site₀', hok₀, halong'⟩ := halong.step hok
    obtain ⟨hnext, hiff⟩ := h.step hord hlater hnot ha hok₀
    simp only [halong.mirrors, halong'.mirrors, halong.leavesBehind, halong.pointerMade] at hiff
    rw [halong.pointerMade] at hnext
    exact ⟨⟨site₀', pend, halong', rfl, hnext, (List.pairwise_cons.mp hlater).2, hnodup, hitems⟩,
      hiff⟩

theorem leaves (h : InLoop doc S r (node :: nodes) log site) (hleaves : LeavesBehind site node) :
    ∃ site', site.initializeAssociation node = .ok site' := by
  obtain ⟨site₀, pend, halong, heq, h, -, -, hitems⟩ := h
  cases pend with
  | nil => cases heq
  | cons a pend =>
    cases heq
    obtain ⟨site₀', hok⟩ :=
      h.leaves (hitems a List.mem_cons_self) ((halong.leavesBehind _).mpr hleaves)
    exact halong.back hok

/-- A walk over any of the copies sees the children of its parent. -/
theorem sees (h : InLoop doc S r nodes log site) : ∀ made ∈ log, SeesChildren site.doc made := by
  obtain ⟨site₀, pend, halong, -, h, -⟩ := h
  exact fun made hmade => halong.sees (h.sees made hmade)

/-- The copies mirror their parents all along exactly if no item leaves some behind. -/
theorem alwaysMirrored_iff (hord : TargetsOrdinary doc S r) (h : InLoop doc S r nodes [] site) :
    AlwaysMirrored site nodes ↔ ∀ call ∈ calls Site.initializeAssociation site nodes,
      ¬ LeavesBehind call.1 call.2 :=
  forall_prefix_iff_calls (I := InLoop doc S r)
    (P := fun log site => ∀ made ∈ log, Mirrors site.doc made)
    (Q := fun site node => ¬ LeavesBehind site node) (fun _ _ _ _ _ h hok => h.step hord hok)
    (fun _ _ _ _ h hnot => h.leaves (not_not.mp hnot)) h (by simp)

/-- Whether or not they do, a walk over any of them sees the children of its parent. -/
theorem always_sees (hord : TargetsOrdinary doc S r) (h : InLoop doc S r nodes [] site)
    {before : List NodeId} (hbefore : before <+: nodes)
    (hok : before.foldlM Site.initializeAssociation site = .ok site') :
    ∀ made ∈ pointersMade site before, SeesChildren site'.doc made := by
  obtain ⟨behind, rfl⟩ := hbefore
  exact (written_invariant (I := InLoop doc S r) (fun _ _ _ _ _ h hok => (h.step hord hok).1) h hok).sees

end InLoop

/-! ### The start of the loop -/

variable {lib : Libxml} {d : List ℕ} {su : String} {keys : List String}

/-- The walk leaves the items in the order of the document, and no pointer node. -/
theorem loadContent_mirroring (hok : (LoadSafety.begin (Site.blank su false keys) doc r d).loadContent
    lib doc (.parsed r) = .ok site) :
    ∃ pend, site.associationsToInitialize = pend.map .parsed ∧
      Mirroring doc site.structures r pend [] site ∧ pend.Pairwise Later ∧ pend.Nodup ∧
      ∀ a ∈ pend, Item doc site.structures r a := by
  obtain ⟨r', heq, hr, htrace⟩ := loadContent_trace rfl rfl hok
  cases heq
  have hwalking := walk_walking hr rfl (fun _ => rfl) (fun _ => rfl) (fun _ => rfl) htrace
  obtain ⟨-, hindexed, pend, hpend, hnodup, hitems, hlinking, hdeferred⟩ :=
    walk_linking hr rfl (fun _ => rfl) (fun _ => rfl) (fun _ => rfl) rfl htrace
  have hplaced := placed_walkKids (S := site.structures) (.root (r := r)) (@kidsFrom_kids doc r)
  have hstays := trace_stays ⟨region_store doc r, by rintro _ _ ⟨⟩, by rintro _ _ ⟨⟩⟩ hplaced htrace
  have hbegin : Walking doc site.structures r
      (LoadSafety.begin (Site.blank su false keys) doc r d) :=
    ⟨inv_store hr, fun _ => rfl, ⟨by rintro _ _ ⟨⟩, by rintro _ _ ⟨⟩⟩, by rintro _ _ ⟨⟩⟩
  have hown := trace_ownList hbegin rfl hplaced htrace
  have hparsed : AsParsed doc r site.doc := (asParsed_store doc r).within hstays.within
  refine ⟨pend, hdeferred, ⟨hlinking, hindexed, ?_, fun c _ => hown _,
    fun _ hcell => hparsed.bare hr hcell, fun p hp hpr => ?_, by simp, by simp⟩, hpend ▸ later_walkKids _ r 0, hnodup, hitems⟩
  · rw [(trace_frame htrace).2.1]
    exact Nat.le_succ _
  · obtain ⟨ctxt, hctxt⟩ := (hlinking.held p hp hpr).1
    exact ⟨ctxt, hctxt, by simp [hwalking.ctxs _ ctxt hctxt]⟩

/-- Either kind of site is at the start of the loop when its walk is over. -/
theorem loadContent_inLoop {stagingMode : Bool}
    (hok : (LoadSafety.begin (Site.blank su stagingMode keys) doc r d).loadContent lib doc
      (.parsed r) = .ok site) :
    InLoop (Indexes.seenBy stagingMode doc) site.structures r site.associationsToInitialize []
      site := by
  cases stagingMode with
  | false =>
    obtain ⟨pend, h⟩ := loadContent_mirroring hok
    exact ⟨site, pend, .inl rfl, h⟩
  | true =>
    have halike := @loadContent_seen lib doc _ _ (@LoadSafety.begin_seen doc r d su keys) (.parsed r)
    rw [hok] at halike
    obtain ⟨site₀, hok₀, hmode, rfl⟩ := halike.right
    obtain ⟨pend, h⟩ := loadContent_mirroring hok₀
    exact ⟨site.unstaged, pend, .inr ⟨hmode, rfl⟩, h⟩

/-- CORRECT: once the content of a feed has its Contexts, and no item names another one, the pointer
    nodes have the `children` and the `last` of their parents all through the loop over the items
    exactly if no item leaves some behind: none that names nothing is the last child of a parent that
    has pointer nodes, at its turn. The `children` they have in any case: a walk over a pointer node
    sees the children of its parent. -/
theorem pointerNodes_mirror_iff {stagingMode : Bool}
    (hcontent : (LoadSafety.begin (Site.blank su stagingMode keys) doc r d).loadContent lib doc
      (.parsed r) = .ok site)
    (hord : TargetsOrdinary (Indexes.seenBy stagingMode doc) site.structures r) :
    (AlwaysMirrored site site.associationsToInitialize ↔
      ∀ call ∈ calls Site.initializeAssociation site site.associationsToInitialize,
        ¬ LeavesBehind call.1 call.2) ∧
    (∀ before, before <+: site.associationsToInitialize → ∀ site',
      before.foldlM Site.initializeAssociation site = .ok site' →
      ∀ made ∈ pointersMade site before, SeesChildren site'.doc made) ∧
    ∀ loaded, LoadSafety.complete lib site = .ok loaded →
      ∀ made ∈ pointersMade site site.associationsToInitialize, SeesChildren loaded.doc made := by
  have h := loadContent_inLoop hcontent
  refine ⟨h.alwaysMirrored_iff hord, fun before hbefore site' hok => h.always_sees hord hbefore hok,
    fun loaded hloaded => ?_⟩
  obtain ⟨site', hok, hrest⟩ := bind_eq_ok.mp hloaded
  obtain ⟨query, -, hrest⟩ := bind_eq_ok.mp hrest
  obtain ⟨generation, -, hrest⟩ := bind_eq_ok.mp hrest
  obtain ⟨text, -, hrest⟩ := bind_eq_ok.mp hrest
  obtain rfl := pure_eq_ok.mp hrest
  have hsees := h.always_sees hord (List.prefix_refl _) hok
  exact hsees

/-! ### Two links on a page -/

/-- A page, and a page with two links. -/
def linkFeed (first second : String) : Document :=
  [.element "website" [] [
    .element "content" [] [
      .element "page" [("id", some "1")] [],
      .element "page" [("id", some "3")] [
        .element "link" [("id", some "4"), ("type", some "9")] [.text first],
        .element "link" [("id", some "5"), ("type", some "9")] [.text second]]],
    .element "design" [] [.element "link" [("id", some "9"), ("type", some "AssociationItem")] []],
    .element "generation" [] [.text "7"]]]

variable {first second : String}

theorem linkFeed_walked {p : List ℕ} (h : Walked (linkFeed first second) S [0, 0] p) :
    p = [0, 0] ∨ p = [0, 0, 0] ∨ p = [1, 0, 0] ∨ p = [0, 1, 0, 0] ∨ p = [1, 1, 0, 0] := by
  induction h with
  | root => exact .inl rfl
  | @child p i _ _ _ _ hat _ _ ih =>
    rcases ih with rfl | rfl | rfl | rfl | rfl
    · rcases i with _ | _ | i
      · simp
      · simp
      · cases hat
    · cases hat
    · rcases i with _ | _ | i
      · simp
      · simp
      · cases hat
    · rcases i with _ | i <;> cases hat
    · rcases i with _ | i <;> cases hat

/-- The links are the items. -/
theorem linkFeed_item (h : Item (linkFeed first second) S [0, 0] a) :
    a = [0, 1, 0, 0] ∨ a = [1, 1, 0, 0] := by
  obtain ⟨i, p, name, ps, children, rfl, hp, hat, -, hassoc⟩ := h
  have hplain : ps ≠ [("id", some "1")] ∧ ps ≠ [("id", some "3")] := by
    constructor <;> rintro rfl <;>
      simp [Association, structureOf, declared, isAssociation] at hassoc
  rcases linkFeed_walked hp with rfl | rfl | rfl | rfl | rfl
  · rcases i with _ | _ | i
    · cases hat
      exact absurd rfl hplain.1
    · cases hat
      exact absurd rfl hplain.2
    · cases hat
  · cases hat
  · rcases i with _ | _ | i
    · exact .inl rfl
    · exact .inr rfl
    · cases hat
  · rcases i with _ | i <;> cases hat
  · rcases i with _ | i <;> cases hat

/-- They have the ids 4 and 5. -/
theorem linkFeed_targetsOrdinary (hfirst : Cpp.atoi first ∉ [4, 5])
    (hsecond : Cpp.atoi second ∉ [4, 5]) (S : Structures) :
    TargetsOrdinary (linkFeed first second) S [0, 0] := by
  intro a b content attrs ha hcontent _ hb hattrs
  have hids : attrs.id ∈ [4, 5] := by
    rcases linkFeed_item hb with rfl | rfl
    · have hattrs' : attrsAt (linkFeed first second) [0, 1, 0, 0] =
        some (declared {} [("id", some "4"), ("type", some "9")]) := rfl
      rw [hattrs, Option.some.injEq] at hattrs'
      rw [hattrs']
      decide
    · have hattrs' : attrsAt (linkFeed first second) [1, 1, 0, 0] =
        some (declared {} [("id", some "5"), ("type", some "9")]) := rfl
      rw [hattrs, Option.some.injEq] at hattrs'
      rw [hattrs']
      decide
  have hnames : Cpp.atoi content ∉ [4, 5] := by
    rcases linkFeed_item ha with rfl | rfl
    · cases hcontent
      exact hfirst
    · cases hcontent
      exact hsecond
  exact fun heq => hnames (heq ▸ hids)

/-- The site at the start of the loop. -/
def linkSite (first second : String) : Result Site :=
  (LoadSafety.begin (Site.blank "shop" false []) (linkFeed first second) [0, 0] [1, 0]).loadContent
    sampleLib (linkFeed first second) (.parsed [0, 0])

/-- A link that names nothing does no harm before the one that names the page. -/
theorem pointerNodes_mirror_links : ∃ site, linkSite "99" "1" = .ok site ∧
    AlwaysMirrored site site.associationsToInitialize := by
  have hcalls : (linkSite "99" "1").toOption.map (fun site =>
      (calls Site.initializeAssociation site site.associationsToInitialize).all
        fun call => decide (¬ LeavesBehind call.1 call.2)) = some true := by
    decide +kernel
  obtain ⟨site, hsite, hall⟩ := toOption_map_eq_some.mp hcalls
  refine ⟨site, hsite, (pointerNodes_mirror_iff hsite
    (linkFeed_targetsOrdinary (by decide) (by decide) _)).1.mpr fun call hcall => ?_⟩
  exact of_decide_eq_true (List.all_eq_true.mp hall call hcall)

/-- After it, it leaves the pointer node for its page behind. -/
theorem pointerNodes_stranded : ∃ site, linkSite "1" "99" = .ok site ∧
    TargetsOrdinary (linkFeed "1" "99") site.structures [0, 0] ∧
    ¬ AlwaysMirrored site site.associationsToInitialize := by
  have hrun : (linkSite "1" "99").toOption.bind (fun site =>
      (site.associationsToInitialize.foldlM Site.initializeAssociation site).toOption.map
        fun site' => (pointersMade site site.associationsToInitialize).all
          fun made => decide (Mirrors site'.doc made)) = some false := by
    decide +kernel
  obtain ⟨site, hsite, hrun⟩ := toOption_bind_eq_some.mp hrun
  obtain ⟨site', hok, hnot⟩ := toOption_map_eq_some.mp hrun
  refine ⟨site, hsite, linkFeed_targetsOrdinary (by decide) (by decide) _, fun hall => ?_⟩
  refine absurd (List.all_eq_true.mpr fun made hmade => ?_) (ne_true_of_eq_false hnot)
  exact decide_eq_true (hall _ (List.prefix_refl _) site' hok made hmade)

end VaeDb.PointerNodes
