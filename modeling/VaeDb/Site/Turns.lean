import VaeDb.Site.Indexes
import VaeDb.Site.Progress

/-! What an association item needs at its turn.

    The items are dealt with one after the other, and each finds the tree as the ones before have left
    it. An item that names nothing is taken out and freed, with what is below it. One that names an
    element frees its attributes and what follows its text, follows the Context of its parent and the
    Context of that element, with no check of either, and puts a pointer node behind the last child of
    the element; the root of the content has no Context, and an item that was dealt with before has
    lost its own, its attributes are those of its target, and its last child may be freed.

        names nothing     ✂ itself, its children
        names m           ✂ its attributes, what follows its text
                          parent ──▶ Context     m ──▶ Context     m ──▶ last ──▶ pointer node   -/

namespace VaeDb.Staging
open Schemes Xml Walk

/-- The element that a text names. -/
def named (site : Site) (text : String) : Option NodeId :=
  if 0 < Cpp.atoi text then site.nodes (Cpp.atoi text) else none

/-- The node is there, and its `_private` leads to a Context that is there. -/
def Owned (site : Site) (σ : Store) (n : NodeId) : Prop :=
  ∃ cell, σ n = some cell ∧ ∃ ptr, cell.data.priv = some ptr ∧ ∃ ctxt, site.contexts ptr = some ctxt

/-- What a node needs to take a pointer node below it: its last child, if it has children, a Context,
    and the pointer nodes that this Context knows. -/
structure Hosts (site : Site) (σ : Store) (m : NodeId) : Prop where
  last : ∀ cell, σ m = some cell → cell.children ≠ none →
    ∃ last c, cell.last = some last ∧ σ last = some c
  owned : Owned site σ m
  told : ∀ cell ptr ctxt, σ m = some cell → cell.data.priv = some ptr →
    site.contexts ptr = some ctxt → ∀ n ∈ ctxt.pointerNodes, ∃ c, σ n = some c

/-- The copy of the parent is there, as a new node. -/
def withCopy (site : Site) (σ : Store) (parent : Cell NodeId Info) : Store :=
  Function.update σ (.pointer site.allocated) (some (pointerCell parent))

/-- What an item needs of the site at its turn. -/
structure ItemFits (site : Site) (node : NodeId) : Prop where
  /-- Neither the item nor its text has been freed. -/
  text : ∃ text, site.firstText node = .ok text
  /-- If it names nothing, its parent and its neighbours are there, nothing below it has been freed,
      and no node and no list of attributes is there twice. -/
  removed : ∀ text, site.firstText node = .ok text → named site text = none →
    ∃ σ, site.doc.unlink? node = some σ ∧
      ∃ freed, xmlFreeNode site.allocated σ site.lists node = some freed
  /-- If it names an element, the same is true of its attributes and of what follows its text; after
      that it, its text and the element are still there, its parent has a Context, and the element can
      take a pointer node. -/
  linked : ∀ text m, site.firstText node = .ok text → named site text = some m →
    ∃ σ lists cell, site.graft node m = .ok (σ, lists) ∧ σ node = some cell ∧
      ∀ p ∈ cell.parent, Owned site σ p ∧
        ∀ parent, σ p = some parent → Hosts site (withCopy site σ parent) m

variable {site site' : Site} {node : NodeId} {σ : Store}

/-! ### One item -/

/-- The graft only follows pointers, apart from freeing. -/
theorem graft_follows (site : Site) (n m : NodeId) :
    ReturnsIff (∃ cell, site.doc n = some cell ∧
      ∃ lists, site.lists.xmlFreePropList n cell.data.properties = some lists ∧
      ∃ first, cell.children = some first ∧ ∃ firstCell, site.doc first = some firstCell ∧
      ∃ freed, xmlFreeNodeList site.allocated site.doc lists firstCell.next = some freed ∧
      ∃ item, freed.1 n = some item ∧ ∃ target, freed.1 m = some target ∧
      ∃ text, freed.1 first = some text) (site.graft n m) :=
  .follow fun _ _ => .follow fun _ _ => .follow fun _ _ => .follow fun _ _ => .follow fun _ _ =>
    .follow fun _ _ => .follow fun _ _ => (ReturnsIff.deref _).before fun _ _ => ⟨_, rfl⟩

/-- A Context that is changed is there as before. -/
theorem told_iff {ptr aptr : NodeId} {ctxt : Context} (hctxt : site.contexts ptr = some ctxt)
    {k : ℕ} {τ : Store} (hcopy : ∃ d, τ (.pointer k) = some d) :
    (∃ actxt, Function.update site.contexts ptr
          (some { ctxt with pointerNodes := ctxt.pointerNodes ++ [.pointer k] }) aptr = some actxt ∧
        ∀ n ∈ actxt.pointerNodes, ∃ d, τ n = some d) ↔
      ∃ actxt, site.contexts aptr = some actxt ∧ ∀ n ∈ actxt.pointerNodes, ∃ d, τ n = some d := by
  rcases eq_or_ne aptr ptr with rfl | hne
  · rw [Function.update_self, hctxt]
    simp only [Option.some.injEq, exists_eq_left', List.forall_mem_append,
      List.forall_mem_singleton, and_iff_left hcopy]
  · rw [Function.update_of_ne hne]

/-- The pointer node is put in its place, and the others are told, exactly if the target can take it. -/
theorem hosts_iff {τ : Store} {c : List ℕ} {k : ℕ} (hcopy : ∃ d, τ (.pointer k) = some d)
    {ptr : NodeId} {ctxt : Context} (hctxt : site.contexts ptr = some ctxt) :
    (∃ placed, Heap.addChild? τ (.parsed c) (.pointer k) = some placed ∧
      ∃ associated, placed (.parsed c) = some associated ∧
      ∃ aptr, associated.data.priv = some aptr ∧
      ∃ actxt, Function.update site.contexts ptr
        (some { ctxt with pointerNodes := ctxt.pointerNodes ++ [.pointer k] }) aptr = some actxt ∧
      ∃ done, setLast? placed actxt.pointerNodes associated.last = some done) ↔
      Hosts site τ (.parsed c) := by
  have hne : NodeId.parsed c ≠ .pointer k := by simp
  have hthere : ∀ {cell}, τ (.parsed c) = some cell → ∀ n,
      (∃ d, Heap.addChild τ (.parsed c) (.pointer k) n = some d) ↔ ∃ d, τ n = some d := by
    intro cell hcell n
    rw [← Option.isSome_iff_exists, addChild_apply hcell hne, Option.isSome_map,
      Option.isSome_iff_exists]
  simp only [addChild?_eq_some, setLast?_eq_some]
  constructor
  · rintro ⟨_, ⟨⟨cell, hcell, -, hlast⟩, rfl⟩, associated, hassociated, aptr, hpriv, actxt, hactxt,
      _, htold, -⟩
    have hdata := addChild_data τ (.parsed c) (.pointer k) (.parsed c)
    rw [hassociated, hcell, Option.map_some, Option.map_some, Option.some.injEq] at hdata
    rw [hdata] at hpriv
    obtain ⟨actxt, hactxt, htold⟩ := (told_iff hctxt hcopy).mp
      ⟨actxt, hactxt, fun n hn => (hthere hcell n).mp (htold n hn)⟩
    refine ⟨fun cell' hcell' => ?_, ⟨cell, hcell, aptr, hpriv, actxt, hactxt⟩, ?_⟩
    · obtain rfl := Option.some.inj (hcell.symm.trans hcell')
      exact hlast
    · intro cell' ptr' ctxt' hcell' hpriv' hctxt'
      obtain rfl := Option.some.inj (hcell.symm.trans hcell')
      obtain rfl := Option.some.inj (hpriv.symm.trans hpriv')
      obtain rfl := Option.some.inj (hactxt.symm.trans hctxt')
      exact htold
  · rintro ⟨hlast, ⟨cell, hcell, aptr, hpriv, actxt, hactxt⟩, htold⟩
    obtain ⟨actxt', hactxt', htold'⟩ := (told_iff hctxt hcopy).mpr
      ⟨actxt, hactxt, htold cell aptr actxt hcell hpriv hactxt⟩
    obtain ⟨associated, hassociated⟩ := (hthere hcell (.parsed c)).mpr ⟨cell, hcell⟩
    have hdata := addChild_data τ (.parsed c) (.pointer k) (.parsed c)
    rw [hassociated, hcell, Option.map_some, Option.map_some, Option.some.injEq] at hdata
    refine ⟨_, ⟨⟨cell, hcell, hcopy, hlast cell hcell⟩, rfl⟩, associated, hassociated, aptr, ?_,
      actxt', hactxt', _, fun n hn => (hthere hcell n).mpr (htold' n hn), rfl⟩
    rw [hdata, hpriv]

/-- After the graft, an item with a parent follows two Contexts, and its target takes the pointer
    node. -/
theorem associate_returns {cell : Cell NodeId Info} {lists : AttrLists} {p : NodeId} {c : List ℕ}
    (hgraft : site.graft node (.parsed c) = .ok (σ, lists)) (hcell : σ node = some cell)
    (hparent : cell.parent = some p) :
    ReturnsIff (Owned site σ p ∧
      ∀ parent, σ p = some parent → Hosts site (withCopy site σ parent) (.parsed c))
      (site.associate node (.parsed c)) := by
  rw [Site.associate]
  refine .after ⟨_, hgraft⟩ fun grafted hσ' => ?_
  obtain rfl := Except.ok.inj (hgraft.symm.trans hσ')
  refine .after ⟨cell, deref_eq_ok.mpr hcell⟩ fun cell' hcell' => ?_
  obtain rfl := Option.some.inj (hcell.symm.trans (deref_eq_ok.mp hcell'))
  rw [hparent, xmlCopyNode]
  refine (ReturnsIff.follow fun parent _ => .follow fun placed _ => .follow fun ptr _ =>
    .follow fun ctxt _ => .follow fun associated _ => .follow fun associatedPtr _ =>
    .follow fun associatedContext _ => (ReturnsIff.deref _).before fun _ _ => ⟨_, rfl⟩).congr ?_
  have hcopy : ∀ parent, ∃ d, withCopy site σ parent (.pointer site.allocated) = some d :=
    fun parent => ⟨_, Function.update_self ..⟩
  constructor
  · rintro ⟨parent, hp, placed, hplaced, ptr, hptr, ctxt, hctxt, hrest⟩
    refine ⟨⟨parent, hp, ptr, hptr, ctxt, hctxt⟩, fun parent' hp' => ?_⟩
    obtain rfl := Option.some.inj (hp.symm.trans hp')
    exact (hosts_iff (hcopy parent) hctxt).mp ⟨placed, hplaced, hrest⟩
  · rintro ⟨⟨parent, hp, ptr, hptr, ctxt, hctxt⟩, hhosts⟩
    obtain ⟨placed, hplaced, hrest⟩ := (hosts_iff (hcopy parent) hctxt).mpr (hhosts parent hp)
    exact ⟨parent, hp, placed, hplaced, ptr, hptr, ctxt, hctxt, hrest⟩

/-- An item that names an element. -/
theorem associate_defined (site : Site) (node : NodeId) (c : List ℕ) :
    DefinedIff (∃ σ lists cell, site.graft node (.parsed c) = .ok (σ, lists) ∧ σ node = some cell ∧
      ∀ p ∈ cell.parent, Owned site σ p ∧
        ∀ parent, σ p = some parent → Hosts site (withCopy site σ parent) (.parsed c))
      (site.associate node (.parsed c)) := by
  by_cases hgraft : ∃ grafted, site.graft node (.parsed c) = .ok grafted
  · obtain ⟨⟨σ, lists⟩, hgraft⟩ := hgraft
    cases hcell : σ node with
    | none =>
      refine ⟨?_, fun _ => ?_⟩
      · rintro ⟨σ', lists', cell, hσ', hcell', -⟩
        cases Except.ok.inj (hgraft.symm.trans hσ')
        rw [hcell] at hcell'
        cases hcell'
      · rw [Site.associate, hgraft, ok_bind]
        change (deref (σ node) >>= _) = _
        rw [hcell]
        rfl
    | some cell =>
      have hiff : (∃ σ' lists' cell', site.graft node (.parsed c) = .ok (σ', lists') ∧
          σ' node = some cell' ∧ ∀ p ∈ cell'.parent, Owned site σ' p ∧
            ∀ parent, σ' p = some parent → Hosts site (withCopy site σ' parent) (.parsed c)) ↔
          ∀ p ∈ cell.parent, Owned site σ p ∧
            ∀ parent, σ p = some parent → Hosts site (withCopy site σ parent) (.parsed c) := by
        constructor
        · rintro ⟨σ', lists', cell', hσ', hcell', hall⟩
          cases Except.ok.inj (hgraft.symm.trans hσ')
          obtain rfl := Option.some.inj (hcell.symm.trans hcell')
          exact hall
        · exact fun hall => ⟨σ, lists, cell, hgraft, hcell, hall⟩
      refine DefinedIff.congr ?_ hiff.symm
      cases hparent : cell.parent with
      | none =>
        refine ⟨fun _ => .inr ⟨"xmlCopyNode returned NULL", ?_⟩, fun hnot => ?_⟩
        · rw [Site.associate, hgraft, ok_bind]
          change (deref (σ node) >>= _) = _
          rw [hcell]
          change (xmlCopyNode σ cell.parent >>= _) = _
          rw [hparent]
          rfl
        · simp at hnot
      | some p =>
        refine (associate_returns hgraft hcell hparent).defined.congr ?_
        simp
  · refine ⟨?_, fun _ => ?_⟩
    · rintro ⟨σ, lists, cell, hσ, -⟩
      exact absurd ⟨_, hσ⟩ hgraft
    · have hfollows := graft_follows site node (.parsed c)
      exact bind_of_error (hfollows.undefined (mt hfollows.iff.mpr hgraft))

/-- Once its text is known, an item is linked or taken out. -/
theorem initializeAssociation_some {text : String} {m : NodeId}
    (htext : site.firstText node = .ok text) (hnamed : named site text = some m) :
    site.initializeAssociation node = site.associate node m := by
  rw [named] at hnamed
  rw [Site.initializeAssociation, htext, ok_bind]
  dsimp only
  rw [hnamed]

theorem initializeAssociation_none {text : String} (htext : site.firstText node = .ok text)
    (hnamed : named site text = none) : site.initializeAssociation node =
      site.removeNode node >>= fun site' =>
        pure { site' with contexts := Function.update site'.contexts node none } := by
  rw [named] at hnamed
  rw [Site.initializeAssociation, htext, ok_bind]
  dsimp only
  rw [hnamed]

/-- An item at its turn answers exactly if it fits. -/
theorem initializeAssociation_defined (hnodes : ∀ id n, site.nodes id = some n → ∃ c, n = .parsed c)
    (node : NodeId) : DefinedIff (ItemFits site node) (site.initializeAssociation node) := by
  by_cases htext : ∃ text, site.firstText node = .ok text
  · obtain ⟨text, htext⟩ := htext
    have hunique : ∀ text', site.firstText node = .ok text' → text' = text :=
      fun text' h => Except.ok.inj (h.symm.trans htext)
    cases hnamed : named site text with
    | none =>
      rw [initializeAssociation_none htext hnamed]
      have hremove : ReturnsIff (∃ σ, site.doc.unlink? node = some σ ∧
            ∃ freed, xmlFreeNode site.allocated σ site.lists node = some freed)
          (site.removeNode node) :=
        .follow fun _ _ => (ReturnsIff.deref _).before fun _ _ => ⟨_, rfl⟩
      refine (hremove.before fun _ _ => ⟨_, rfl⟩).defined.congr ?_
      constructor
      · refine fun hfree => ⟨⟨text, htext⟩, fun _ _ _ => hfree, fun text' m h' hm => ?_⟩
        rw [hunique text' h', hnamed] at hm
        cases hm
      · exact fun hfits => hfits.removed text htext hnamed
    | some m =>
      rw [initializeAssociation_some htext hnamed]
      obtain ⟨c, rfl⟩ : ∃ c, m = .parsed c := by
        rw [named] at hnamed
        split at hnamed
        · exact hnodes _ _ hnamed
        · cases hnamed
      refine (associate_defined site node c).congr ?_
      constructor
      · refine fun hlinked => ⟨⟨text, htext⟩, fun text' h' hnone => ?_, fun text' m' h' hm' => ?_⟩
        · rw [hunique text' h', hnamed] at hnone
          cases hnone
        · rw [hunique text' h', hnamed, Option.some.injEq] at hm'
          exact hm' ▸ hlinked
      · exact fun hfits => hfits.linked text _ htext hnamed
  · refine ⟨fun hfits => absurd hfits.text htext, fun _ => ?_⟩
    have hreturns := firstText_returns site node
    exact bind_of_error (hreturns.undefined (mt hreturns.iff.mpr htext))

/-! ### Items that name ordinary elements -/

variable {doc : Document} {S : Structures} {r : List ℕ} {pend : List (List ℕ)} {a : List ℕ}

/-- The item is a child of the root of the content. -/
def TopLevel (r a : List ℕ) : Prop := ∃ i, a = i :: r

/-- The graft of an item that is as parsed onto a walked node. -/
theorem graft_returns {Pend : List ℕ → Prop} (hσ : Inv doc S r Pend site.doc)
    (ha : Child doc S r a) (haw : ¬ Walked doc S r a) (hintact : Intact doc site.doc a)
    (halive : Alive site a) {content : String} (hat : doc.at? (0 :: a) = some (.text content))
    (hown : ∀ q, a <:+ q → OwnList site (.parsed q)) (hallocated : Tree.sizes doc ≤ site.allocated)
    {m : List ℕ} (hm : Walked doc S r m) :
    ∃ σ lists, site.graft (.parsed a) (.parsed m) = .ok (σ, lists) := by
  obtain ⟨cell, hcell⟩ := halive
  have hfirst : cell.children = some (.parsed (0 :: a)) :=
    (hintact.children cell hcell).trans (kidIds_head hat)
  have hin : Inside a (.parsed (0 :: a)) := inside_cons List.suffix_rfl
  obtain ⟨firstCell, hfirstCell, hnext⟩ : ∃ firstCell, site.doc (.parsed (0 :: a)) = some firstCell ∧
      firstCell.next = (doc.kidIds a)[1]? := by
    rw [hintact.below _ (List.suffix_cons _ _) (by simp), Document.store, hat]
    exact ⟨_, rfl, rfl⟩
  -- what follows the text is neither the item nor the text, and has its own lists
  have hbehind : ∀ n ∈ (pathsFrom a 1 ((doc.kids a).drop 1)).map NodeId.parsed,
      ∃ q j, n = .parsed q ∧ j :: a <:+ q ∧ 1 ≤ j := by
    intro n hn
    obtain ⟨q, hq, rfl⟩ := List.mem_map.mp hn
    obtain ⟨j, hj, hjq⟩ := (nodup_pathsFrom a 1 _).2 q hq
    exact ⟨q, j, rfl, hjq, hj⟩
  have hnot : .parsed a ∉ (pathsFrom a 1 ((doc.kids a).drop 1)).map NodeId.parsed := by
    intro hin
    obtain ⟨q, j, ⟨⟩, hj, -⟩ := hbehind _ hin
    exact absurd hj.length_le (by simp)
  have hnotFirst : .parsed (0 :: a) ∉ (pathsFrom a 1 ((doc.kids a).drop 1)).map NodeId.parsed := by
    intro hin
    obtain ⟨q, j, ⟨⟩, hj, hpos⟩ := hbehind _ hin
    have := child_unique hj (List.suffix_refl (0 :: a))
    omega
  obtain ⟨lists₁, hprops, hkept⟩ := freeProps_own site.lists _ cell ((hown a List.suffix_rfl).has hcell)
  obtain ⟨σ, lists, hfree, hout, -⟩ := (hnext ▸ hintact.forest 1).freeListEach
    (fun lists n cell _ => freeProps_own lists n cell) (fun _ _ => rfl) (nodup_below a 1)
    (show _ ≤ site.allocated by
      rw [List.length_map]
      exact (length_pathsFrom_drop a 1).trans hallocated)
    (fun n hn => by
      obtain ⟨d, hd⟩ := (hintact.forest 1).there n hn
      obtain ⟨q, j, rfl, hj, -⟩ := hbehind n hn
      refine hkept _ (fun heq => hnot (heq ▸ hn)) ((hown q ((List.suffix_cons j a).trans hj)).has hd))
  -- the target is not below the item
  have hma : ¬ Inside a (.parsed m) := by
    rintro ⟨q, ⟨⟩, hq, -⟩
    exact not_suffix_walked ha haw hm hq
  obtain ⟨ptrs, hlists, -⟩ := hσ.lists
  obtain ⟨target, htarget, -⟩ := (hlists.linked m hm).ends
  rw [← freeList_frame hintact.closed (hintact.closed _ _ hin hfirstCell).2 (freeList_of_each hfree) _
    hma] at htarget
  obtain ⟨⟨σ', lists'⟩, hok⟩ := (graft_follows site _ _).returns
    ⟨cell, hcell, lists₁, hprops, _, hfirst, firstCell, hfirstCell, (σ, lists), hfree, cell,
      (hout _ hnot).trans hcell, target, htarget, firstCell, (hout _ hnotFirst).trans hfirstCell⟩
  exact ⟨σ', lists', hok⟩

/-- The state between two items, while only ordinary elements have been named. -/
structure Between (doc : Document) (S : Structures) (r : List ℕ) (pend : List (List ℕ))
    (site : Site) : Prop where
  linking : Linking doc S r pend site
  indexed : Indexed doc S r site
  nodes : site.nodes = Indexes.feedNodes doc S r
  enclosed : Enclosed r site
  parsed : AsParsed doc r site.doc
  allocated : Tree.sizes doc ≤ site.allocated
  own : OwnLists doc S r pend site
  /-- The pointer nodes that the Contexts know are there. -/
  pointed : PointerNodesIn (fun n => ∃ cell, site.doc n = some cell) site.contexts

theorem owned_walked {σ : Store} {pend : List (List ℕ)} (h : Linking doc S r pend site) {c : List ℕ}
    (hc : Walked doc S r c) (hcr : c ≠ r) (hσ : σ (.parsed c) = site.doc (.parsed c)) :
    Owned site σ (.parsed c) := by
  obtain ⟨⟨ctxt, hctxt⟩, hpriv⟩ := h.held c hc hcr
  obtain ⟨ptrs, hlists, -⟩ := h.inv.lists
  obtain ⟨cell, hcell, -⟩ := (hlists.linked c hc).ends
  exact ⟨cell, hσ.trans hcell, _, hpriv cell hcell, ctxt, hctxt⟩

/-- The `_private` of the root leads nowhere. -/
theorem AsParsed.bare {σ : Store} (h : AsParsed doc r σ) (hr : r = [] ∨ ∃ t, doc.at? r = some t)
    {cell : Cell NodeId Info} (hcell : σ (.parsed r) = some cell) : cell.data.priv = none := by
  have hstore : ∃ c, doc.store (.parsed r) = some c ∧ c.data.priv = none := by
    cases r with
    | nil => exact ⟨_, rfl, rfl⟩
    | cons i p =>
      obtain ⟨t, hat⟩ := hr.resolve_left (by simp)
      refine ⟨_, by rw [Document.store, hat], ?_⟩
      cases t <;> rfl
  obtain ⟨c, hc, hnone⟩ := hstore
  obtain ⟨c', hc', hsame⟩ := h.root c hc
  rw [hcell, Option.some.injEq] at hc'
  rw [hc', hsame.data, hnone]

/-- The root has no Context. -/
theorem not_owned_root {σ : Store} (hr : ∃ t, doc.at? r = some t) (h : AsParsed doc r site.doc)
    (hσ : σ (.parsed r) = site.doc (.parsed r)) : ¬ Owned site σ (.parsed r) := by
  rintro ⟨cell, hcell, ptr, hpriv, -⟩
  rw [hσ] at hcell
  rw [h.bare (.inr hr) hcell] at hpriv
  cases hpriv

/-- A walked node that has its Context can take a pointer node. -/
theorem hosts_walked {σ : Store} {ptrs : List ℕ → List NodeId} {c : List ℕ}
    (hlists : Lists doc S r σ ptrs) (hc : Walked doc S r c) (howned : Owned site σ (.parsed c))
    (hpointed : PointerNodesIn (fun n => ∃ cell, σ n = some cell) site.contexts)
    (parent : Cell NodeId Info) : Hosts site (withCopy site σ parent) (.parsed c) := by
  have hthere : ∀ {n cell}, σ n = some cell → ∃ cell, withCopy site σ parent n = some cell := by
    intro n cell hcell
    rw [withCopy, Function.update_apply]
    split
    · exact ⟨_, rfl⟩
    · exact ⟨cell, hcell⟩
  have hparsed : withCopy site σ parent (.parsed c) = σ (.parsed c) :=
    Function.update_of_ne (by simp) ..
  refine ⟨fun cell hcell hchildren => ?_, ?_, fun cell ptr ctxt hcell _ hctxt n hn => ?_⟩
  · rw [hparsed] at hcell
    obtain ⟨cell', hcell', hhead, hlast⟩ := (hlists.linked c hc).ends
    obtain rfl := Option.some.inj (hcell.symm.trans hcell')
    -- the children end with the last one
    have hne : liveKids doc σ c ++ ptrs c ≠ [] := by
      intro hnil
      rw [hnil] at hhead
      exact hchildren hhead
    obtain ⟨last, hmem⟩ := Option.ne_none_iff_exists'.mp
      (mt List.getLast?_eq_none_iff.mp hne)
    obtain ⟨d, hd, -⟩ := (hlists.linked c hc).member_of_mem (List.mem_of_getLast? hmem)
    obtain ⟨d', hd'⟩ := hthere hd
    exact ⟨last, d', hlast.trans hmem, hd'⟩
  · obtain ⟨cell, hcell, howned⟩ := howned
    exact ⟨cell, hparsed.trans hcell, howned⟩
  · obtain ⟨d, hd⟩ := hpointed ptr ctxt hctxt n hn
    exact hthere hd

/-- An item that names nothing is taken out. -/
theorem removed_returns (h : Between doc S r (a :: pend) site) (ha : Item doc S r a) {text : String}
    (htext : site.firstText (.parsed a) = .ok text) (hnamed : named site text = none) :
    ¬ Indexes.NamesKnown doc S r a ∧ ∃ site', site.initializeAssociation (.parsed a) = .ok site' := by
  have hchild := ElementWith.child ha
  obtain ⟨hstaged, hassoc⟩ := ha.associationAt
  have hintact := h.linking.intact ha
  constructor
  · rintro ⟨content, n, hat, hpos, hfeed⟩
    rw [named, Indexes.firstText_of_text hintact htext hat, if_pos hpos, h.nodes, hfeed] at hnamed
    cases hnamed
  · obtain ⟨ptrs, hlists, -⟩ := h.linking.inv.lists
    obtain ⟨cell, hcell⟩ := h.linking.inv.alive a hchild hstaged fun _ => List.mem_cons_self
    have haw := not_walked_of_association hchild hassoc
    obtain ⟨site', hremove⟩ := removeNode_returns hlists hchild haw hintact hcell
      (h.own.below hchild haw List.mem_cons_self) h.allocated
    exact ⟨_, (initializeAssociation_none htext hnamed).trans (bind_of_ok hremove)⟩

/-- An item that names an ordinary element goes wrong exactly if it is a child of the root. -/
theorem linked_returns (hr : ∃ t, doc.at? r = some t) (hord : TargetsOrdinary doc S r)
    (h : Between doc S r (a :: pend) site) (ha : Item doc S r a) {text : String} {n : NodeId}
    (htext : site.firstText (.parsed a) = .ok text) (hnamed : named site text = some n) :
    Indexes.NamesKnown doc S r a ∧
      ReturnsIff (¬ TopLevel r a) (site.initializeAssociation (.parsed a)) := by
  have hchild := ElementWith.child ha
  obtain ⟨hstaged, hassoc⟩ := ha.associationAt
  have haw := not_walked_of_association hchild hassoc
  have hintact := h.linking.intact ha
  have halive : Alive site a := h.linking.inv.alive a hchild hstaged fun _ => List.mem_cons_self
  obtain ⟨hpos, hn⟩ : 0 < Cpp.atoi text ∧ site.nodes (Cpp.atoi text) = some n := by
    rw [named] at hnamed
    split at hnamed
    · next hpos => exact ⟨hpos, hnamed⟩
    · cases hnamed
  obtain ⟨hat, c, rfl, hwalked, hcr⟩ := target_walked h.indexed hord ha hintact htext hpos hn
  refine ⟨⟨text, .parsed c, hat, hpos, by rw [← h.nodes, hn]⟩, ?_⟩
  rw [initializeAssociation_some htext hnamed]
  obtain ⟨σ, lists, hgraft⟩ := graft_returns h.linking.inv hchild haw hintact halive hat
    (h.own.below hchild haw List.mem_cons_self) h.allocated hwalked
  have hca : ¬ Inside a (.parsed c) := by
    rintro ⟨q, ⟨⟩, hq, -⟩
    exact not_suffix_walked hchild haw hwalked hq
  have hgrafted :=
    graft_grafted h.linking.inv h.linking.dead hintact hca hwalked (kidIds_head hat) hgraft
  -- walked nodes are as they were before the graft
  have hsame : ∀ q, Walked doc S r q → σ (.parsed q) = site.doc (.parsed q) := by
    intro q hq
    refine hgrafted.outside _ ?_ ?_
    · rintro ⟨⟩
      exact haw hq
    · rintro ⟨q', ⟨⟩, hq', -⟩
      exact not_suffix_walked hchild haw hq hq'
  obtain ⟨i, p, t, rfl, hp, -⟩ := id hchild
  obtain ⟨cell₀, hcell₀⟩ := halive
  obtain ⟨cell, hcell, hlinks⟩ := hgrafted.item cell₀ hcell₀
  have hparent : cell.parent = some (.parsed p) :=
    hlinks.parent.trans (parent_eq h.linking.inv hchild hcell₀)
  refine (associate_returns hgraft hcell hparent).congr ?_
  -- the target is walked and has its Context
  obtain ⟨ptrs, hlists, -⟩ := h.linking.inv.lists
  have hpointed : PointerNodesIn (fun n => ∃ cell, σ n = some cell) site.contexts := by
    intro n ctxt hctxt m hm
    obtain ⟨cell, hcell⟩ := h.pointed n ctxt hctxt m hm
    obtain ⟨j, rfl⟩ := h.linking.ctxs n ctxt hctxt m hm
    exact ⟨cell, (hgrafted.outside _ (by simp) (by rintro ⟨q, ⟨⟩, -⟩)).trans hcell⟩
  have hhosts : ∀ parent, σ (.parsed p) = some parent →
      Hosts site (withCopy site σ parent) (.parsed c) := fun parent _ =>
    hosts_walked (hgrafted.lists hchild haw hlists) hwalked
      (owned_walked h.linking hwalked hcr (hsame c hwalked)) hpointed parent
  rw [and_iff_left hhosts]
  constructor
  · rintro howned ⟨j, hj⟩
    cases hj
    exact not_owned_root hr h.parsed (hsame _ hp) howned
  · intro htop
    refine owned_walked h.linking hp ?_ (hsame p hp)
    rintro rfl
    exact htop ⟨i, rfl⟩

/-- An item at its turn, while only ordinary elements are named. -/
theorem item_returns (hr : ∃ t, doc.at? r = some t) (hord : TargetsOrdinary doc S r)
    (h : Between doc S r (a :: pend) site) (ha : Item doc S r a) :
    ReturnsIff (Indexes.NamesKnown doc S r a → ¬ TopLevel r a)
      (site.initializeAssociation (.parsed a)) := by
  obtain ⟨hstaged, -⟩ := ha.associationAt
  obtain ⟨text, htext⟩ := firstText_parsed (h.linking.intact ha)
    (h.linking.inv.alive a (ElementWith.child ha) hstaged fun _ => List.mem_cons_self)
  cases hnamed : named site text with
  | none =>
    obtain ⟨hunknown, site', hok⟩ := removed_returns h ha htext hnamed
    rw [hok]
    exact (ReturnsIff.pure site').congr (iff_of_true trivial fun hknown => absurd hknown hunknown)
  | some n =>
    obtain ⟨hknown, hreturns⟩ := linked_returns hr hord h ha htext hnamed
    exact hreturns.congr (imp_iff_right hknown).symm

/-! ### All items -/

theorem initializeAssociation_allocated (h : site.initializeAssociation node = .ok site') :
    site.allocated ≤ site'.allocated := by
  obtain ⟨text, -, ⟨m, -, -, hassociate⟩ | ⟨-, site₁, hremove, rfl⟩⟩ :=
    initializeAssociation_cases h
  · obtain ⟨s, -, rfl⟩ := associate_eq_ok hassociate
    exact Nat.le_succ _
  · obtain ⟨σ, lists, -, -, rfl⟩ := removeNode_eq_ok hremove
    exact Nat.le_refl _

/-- The pointer nodes that Contexts know stay, as items free no pointer nodes. -/
theorem Between.pointed_step (hord : TargetsOrdinary doc S r)
    (h : Between doc S r (a :: pend) site) (hnot : a ∉ pend) (ha : Item doc S r a)
    (hok : site.initializeAssociation (.parsed a) = .ok site') :
    PointerNodesIn (fun n => ∃ cell, site'.doc n = some cell) site'.contexts := by
  have hchild := ElementWith.child ha
  obtain ⟨hstaged, hassoc⟩ := ha.associationAt
  have hintact := h.linking.intact ha
  obtain ⟨ptrs, hlists, -⟩ := h.linking.inv.lists
  obtain ⟨text, htext, ⟨n, hpos, hn, hassociate⟩ | ⟨-, site₁, hremove, rfl⟩⟩ :=
    initializeAssociation_cases hok
  · obtain ⟨hat, m, rfl, hm, hmr⟩ := target_walked h.indexed hord ha hintact htext hpos hn
    have hturn : AtTurn doc S r pend a m site :=
      ⟨h.linking, hnot, hchild, hstaged, hassoc, ⟨text, hat⟩, hm, hmr⟩
    obtain ⟨s, hs, rfl⟩ := associate_eq_ok hassociate
    obtain ⟨ptrs, hgrafted, -⟩ := (hturn.inv_grafted hs).lists
    have hlive : ∀ n, (s.result.doc n).isSome = (s.copied n).isSome := fun n =>
      ((hturn.result hs).2.2 n).trans
        ((((hgrafted.alloc (hturn.fresh hs le_rfl) _).1).linked m hm).addChild_isSome (by simp) n)
    refine PointerNodesIn.drop (PointerNodesIn.stages (fun n ctxt hctxt x hx => ?_) hs ?_) _
    · obtain ⟨cell, hcell⟩ := h.pointed n ctxt hctxt x hx
      obtain ⟨j, rfl⟩ := h.linking.ctxs n ctxt hctxt x hx
      rw [← Option.isSome_iff_exists, hlive, Stages.copied, Function.update_apply]
      split
      · rfl
      · rw [hturn.grafted_pointer hs, hcell]
        rfl
    · rw [← Option.isSome_iff_exists, hlive, Stages.copied, Function.update_self]
      rfl
  · obtain ⟨σ, lists, -, hσ, rfl⟩ := removeNode_eq_ok hremove
    have hremoved := free_removed hlists hchild (not_walked_of_association hchild hassoc) hintact hσ
    refine PointerNodesIn.drop (fun n ctxt hctxt x hx => ?_) _
    obtain ⟨cell, hcell⟩ := h.pointed n ctxt hctxt x hx
    obtain ⟨j, rfl⟩ := h.linking.ctxs n ctxt hctxt x hx
    obtain ⟨cell', hcell', -⟩ := hremoved.keeps _ cell (by simp) (by rintro ⟨q, ⟨⟩, -⟩) hcell
    exact ⟨cell', hcell'⟩

theorem Between.step (hord : TargetsOrdinary doc S r) (h : Between doc S r (a :: pend) site)
    (hnot : a ∉ pend) (ha : Item doc S r a)
    (hok : site.initializeAssociation (.parsed a) = .ok site') : Between doc S r pend site' := by
  have hsame := initializeAssociation_sameIndex hok
  have hstays := initializeAssociation_stays h.enclosed (inner_child (ElementWith.child ha)) hok
  exact ⟨linking_step h.indexed hord h.linking hnot ha hok, h.indexed.congr hsame,
    hsame.1.trans h.nodes, hstays.enclosed, h.parsed.within hstays.within,
    h.allocated.trans (initializeAssociation_allocated hok),
    h.own.step h.indexed hord h.linking hnot ha hok, h.pointed_step hord hnot ha hok⟩

/-- The loop over the items, where only ordinary elements are named. -/
theorem items_return (hr : ∃ t, doc.at? r = some t) (hord : TargetsOrdinary doc S r)
    (h : Between doc S r pend site) (hnodup : pend.Nodup) (hitems : ∀ a ∈ pend, Item doc S r a) :
    ReturnsIff (∀ a ∈ pend, Indexes.NamesKnown doc S r a → ¬ TopLevel r a)
      ((pend.map NodeId.parsed).foldlM Site.initializeAssociation site) := by
  refine (ReturnsIff.foldlM (R := fun n => ∀ a, n = .parsed a → Indexes.NamesKnown doc S r a →
    ¬ TopLevel r a) (fun site nodes => ∃ pend : List (List ℕ), nodes = pend.map NodeId.parsed ∧
      Between doc S r pend site ∧ pend.Nodup ∧ ∀ a ∈ pend, Item doc S r a)
    (fun site n nodes hI => ?_) ⟨pend, rfl, h, hnodup, hitems⟩).congr ?_
  · obtain ⟨pend, heq, h, hnodup, hitems⟩ := hI
    cases pend with
    | nil => cases heq
    | cons a pend =>
      cases heq
      obtain ⟨hnot, hnodup⟩ := List.nodup_cons.mp hnodup
      obtain ⟨ha, hitems⟩ := List.forall_mem_cons.mp hitems
      refine ⟨(item_returns hr hord h ha).congr ⟨?_, fun hR => hR a rfl⟩, fun site' hok => ?_⟩
      · rintro hR b ⟨⟩
        exact hR
      · exact ⟨pend, rfl, h.step hord hnot ha hok, hnodup, hitems⟩
  · simp only [List.forall_mem_map, NodeId.parsed.injEq]
    exact ⟨fun hR a ha => hR a ha a rfl, fun hR a ha b hb => hb ▸ hR a ha⟩

/-- The index by id leads to nodes of the document. -/
theorem Indexed.parsed (h : Indexed doc S r site) (id : ℤ) (n : NodeId)
    (hn : site.nodes id = some n) : ∃ c, n = .parsed c := by
  obtain ⟨c, -, rfl, -⟩ := h.nodes id n hn
  exact ⟨c, rfl⟩

/-- The loop over the items, whatever they name. -/
theorem items_defined (hnodes : ∀ id n, site.nodes id = some n → ∃ c, n = .parsed c)
    (nodes : List NodeId) :
    DefinedIff (∀ call ∈ calls Site.initializeAssociation site nodes, ItemFits call.1 call.2)
      (nodes.foldlM Site.initializeAssociation site) := by
  refine DefinedIff.foldlM (R := ItemFits) (fun site _ => ∀ id n, site.nodes id = some n →
    ∃ c, n = .parsed c) (fun site n _ hI => ⟨initializeAssociation_defined hI n, fun site' hok => ?_⟩)
    hnodes
  rw [(initializeAssociation_sameIndex hok).1]
  exact hI

theorem items_stay : ∀ {nodes : List NodeId} {site site' : Site}, Enclosed r site →
    (∀ n ∈ nodes, Inner r n) → nodes.foldlM Site.initializeAssociation site = .ok site' →
    Stays r site site'
  | [], site, site', h, _, hok => by
      cases hok
      exact ⟨h, .refl h.region⟩
  | n :: nodes, site, site', h, hnodes, hok => by
      obtain ⟨hn, hnodes⟩ := List.forall_mem_cons.mp hnodes
      obtain ⟨site₁, hstep, hrest⟩ := bind_eq_ok.mp hok
      have hfirst := initializeAssociation_stays h hn hstep
      exact hfirst.trans (items_stay hfirst.enclosed hnodes hrest)

end VaeDb.Staging
