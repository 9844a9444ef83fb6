import VaeDb.Schemes.Chains
import VaeDb.Site.Associations

/-! Whose attributes a node has.

    After parsing every node has a list of attributes of its own. Freeing a node frees the list that
    its `properties` leads to; so does an association item at its turn, which then shares the list of
    its target, as its pointer node shares that of its parent. Nodes that have not been grafted keep
    their own lists, and those are there as long as the nodes are.

        item ── properties ──▶ ✂      item ┈┈▶ attributes of the target
                                       pointer ┈┈▶ attributes of the parent -/

namespace VaeDb.Staging
open Schemes Xml Walk

variable {doc : Document} {S : Structures} {r : List ℕ} {site site' : Site} {n : NodeId}

/-- The list of a node is its own, and is only freed with it. -/
structure OwnList (site : Site) (n : NodeId) : Prop where
  own : site.lists.of n = n
  freed : n ∈ site.lists.freed → site.doc n = none

theorem ownList_parsed (hlists : site.lists = .parsed) (n : NodeId) : OwnList site n := by
  rw [AttrLists.parsed] at hlists
  refine ⟨by rw [hlists]; rfl, fun hfreed => ?_⟩
  rw [hlists] at hfreed
  cases hfreed

/-- The node has its own list, and that is there. -/
def Has (lists : AttrLists) (n : NodeId) : Prop := lists.of n = n ∧ n ∉ lists.freed

theorem OwnList.has {cell : Cell NodeId Info} (h : OwnList site n) (hcell : site.doc n = some cell) :
    Has site.lists n := by
  refine ⟨h.own, fun hfreed => ?_⟩
  rw [h.freed hfreed] at hcell
  cases hcell

/-- The attributes of a node with its own list can be read. -/
theorem OwnList.properties {cell : Cell NodeId Info} (h : OwnList site n)
    (hcell : site.doc n = some cell) : site.properties n = .ok cell.data.properties := by
  have hnot := (h.has hcell).2
  rw [Site.properties, hcell]
  change deref (site.lists.read n cell.data.properties) = _
  rw [AttrLists.read, h.own, if_neg (by simp [hnot])]
  rfl

/-- So can they be freed, which takes no other list away. -/
theorem freeProps_own (lists : AttrLists) (n : NodeId) (cell : Cell NodeId Info) (h : Has lists n) :
    ∃ lists', freeProps lists n cell = some lists' ∧ ∀ m, m ≠ n → Has lists m → Has lists' m := by
  obtain ⟨hown, hnot⟩ := h
  rw [freeProps, AttrLists.xmlFreePropList, hown, if_neg hnot]
  split
  · exact ⟨lists, rfl, fun _ _ hm => hm⟩
  · refine ⟨_, rfl, fun m hne hm => ⟨hm.1, fun hfreed => ?_⟩⟩
    rcases List.mem_cons.mp hfreed with rfl | hfreed
    · exact hne rfl
    · exact hm.2 hfreed

/-! ### Freeing -/

/-- What was freed on the way from one document to another: lists of nodes that are gone. -/
structure Freed (σ₀ : Store) (lists₀ : AttrLists) (σ : Store) (lists : AttrLists) : Prop where
  sub : ∀ n cell, σ n = some cell → σ₀ n = some cell
  of : lists.of = lists₀.of
  freed : ∀ l ∈ lists.freed, l ∈ lists₀.freed ∨
    ∃ n, (∃ cell, σ₀ n = some cell) ∧ lists₀.of n = l ∧ σ n = none

theorem xmlFreePropList_eq_some {lists lists' : AttrLists} {properties : Properties}
    (h : lists.xmlFreePropList n properties = some lists') :
    lists'.of = lists.of ∧ ∀ l ∈ lists'.freed, l ∈ lists.freed ∨ l = lists.of n := by
  rw [AttrLists.xmlFreePropList] at h
  split at h
  · cases h
    exact ⟨rfl, fun l hl => .inl hl⟩
  split at h
  · cases h
  · cases h
    exact ⟨rfl, fun l hl => (List.mem_cons.mp hl).symm⟩

theorem Freed.step {σ₀ : Store} {lists₀ : AttrLists} (σ : Store) (lists : AttrLists) (n : NodeId)
    (cell : Cell NodeId Info) (lists' : AttrLists) (h : Freed σ₀ lists₀ σ lists)
    (hfree : freeProps lists n cell = some lists')
    (hthere : ∃ τ lists, Freed σ₀ lists₀ τ lists ∧ τ n = some cell) :
    Freed σ₀ lists₀ (σ.erase n) lists' := by
  obtain ⟨hof, hfreed⟩ := xmlFreePropList_eq_some hfree
  obtain ⟨τ, _, hτ, hn⟩ := hthere
  refine ⟨fun m d hd => ?_, hof.trans h.of, fun l hl => ?_⟩
  · exact erase_sub h.sub m d hd
  · rcases hfreed l hl with hl | rfl
    · refine (h.freed l hl).imp_right ?_
      rintro ⟨m, hm, heq, hnone⟩
      refine ⟨m, hm, heq, ?_⟩
      rcases eq_or_ne m n with rfl | hne
      · exact Heap.erase_self ..
      · rw [Heap.erase_of_ne _ hne, hnone]
    · exact .inr ⟨n, ⟨cell, hτ.sub n cell hn⟩, by rw [h.of], Heap.erase_self ..⟩

theorem freed_refl (σ : Store) (lists : AttrLists) : Freed σ lists σ lists :=
  ⟨fun _ _ h => h, rfl, fun _ hl => .inl hl⟩

theorem xmlFreeNodeList_freed {fuel : ℕ} {σ σ' : Store} {lists lists' : AttrLists}
    {l : Option NodeId} (h : xmlFreeNodeList fuel σ lists l = some (σ', lists')) :
    Freed σ lists σ' lists' :=
  freeListEach_keeps Freed.step h (freed_refl σ lists)

theorem xmlFreeNode_freed {fuel : ℕ} {σ σ' : Store} {lists lists' : AttrLists}
    (h : xmlFreeNode fuel σ lists n = some (σ', lists')) : Freed σ lists σ' lists' :=
  freeEach_keeps Freed.step h (freed_refl σ lists)

theorem OwnList.after (h : OwnList site n) (hof : site'.lists.of n = site.lists.of n)
    (hnone : site.doc n = none → site'.doc n = none)
    (hfreed : n ∈ site'.lists.freed → n ∈ site.lists.freed ∨ site'.doc n = none) :
    OwnList site' n :=
  ⟨hof.trans h.own, fun hn => (hfreed hn).elim (fun hn => hnone (h.freed hn)) id⟩

/-! ### The steps of loading -/

/-- Taking out a child of a walked node that is as parsed below. -/
theorem removeNode_ownList {ptrs : List ℕ → List NodeId} {c : List ℕ}
    (hlists : Lists doc S r site.doc ptrs) (hc : Child doc S r c) (hnot : ¬ Walked doc S r c)
    (hintact : Intact doc site.doc c) (hbelow : ∀ q, c <:+ q → OwnList site (.parsed q))
    (hok : site.removeNode (.parsed c) = .ok site') (h : OwnList site n) : OwnList site' n := by
  obtain ⟨σ, lists, hfree, hσ, rfl⟩ := removeNode_eq_ok hok
  have hfreed := xmlFreeNode_freed hfree
  have hremoved := free_removed hlists hc hnot hintact hσ
  refine h.after (congrFun hfreed.of n) (noNew_free_unlink hσ n) fun hn => ?_
  refine (hfreed.freed n hn).imp_right ?_
  rintro ⟨m, ⟨cell', hcell'⟩, rfl, hgone⟩
  -- what is gone is the child, or below it
  have hm : ∃ q, m = .parsed q ∧ c <:+ q := by
    by_contra hout
    obtain ⟨cell, hcell, -⟩ := unlink_eq_some hcell'
    obtain ⟨d, hd, -⟩ := hremoved.keeps m cell (fun heq => hout ⟨c, heq, List.suffix_rfl⟩)
      (fun ⟨q, hq, hcq, _⟩ => hout ⟨q, hq, hcq⟩) hcell
    rw [hgone] at hd
    cases hd
  obtain ⟨q, rfl, hq⟩ := hm
  rw [(hbelow q hq).own]
  exact hgone

/-- During the walk every node has a list of its own. -/
theorem step_ownList {m : Move} (h : Walking doc S r site) (hm : Placed doc S r m)
    (hall : ∀ n, OwnList site n) (hstep : Step doc site m site') (n : NodeId) : OwnList site' n := by
  cases hstep with
  | visit _ => exact ⟨(hall n).own, (hall n).freed⟩
  | defer => exact ⟨(hall n).own, (hall n).freed⟩
  | @enter _ p _ _ _ _ henter =>
    obtain ⟨⟨permalinks, rfl, -⟩, -⟩ := enter_eq_ok henter
    exact (hall n).after rfl (noNew_modify site.doc (.parsed p) _ n) .inl
  | @kill _ p hremove =>
    obtain ⟨i, q, name, ps, children, -, -, hat, hstaged⟩ := id hm
    have hp := ElementWith.child hm
    have hnot := not_walked_of_staged hp ⟨name, ps, children, hat, hstaged⟩
    obtain ⟨ptrs, hlists, -⟩ := h.inv.lists
    obtain ⟨σ, lists, -, hσ, rfl⟩ := removeNode_eq_ok hremove
    obtain ⟨cell', hcell', -⟩ := free_eq_some hσ
    obtain ⟨cell, hcell, -⟩ := unlink_eq_some hcell'
    exact removeNode_ownList hlists hp hnot (h.inv.intact p hp hnot (fun _ => trivial) cell hcell)
      (fun q _ => hall _) hremove (hall n)

/-- After the walk every node has a list of its own. -/
theorem trace_ownList {ms : List Move} (h : Walking doc S r site) (hlists : site.lists = .parsed)
    (hplaced : ∀ m ∈ ms, Placed doc S r m) (htrace : Trace (Step doc) site ms site') :
    ∀ n, OwnList site' n :=
  (htrace.invariant (I := fun site => Walking doc S r site ∧ ∀ n, OwnList site n)
    (fun _ m _ hm hs hstep => ⟨walking_step _ m _ (hplaced m hm) hs.1 hstep,
      step_ownList hs.1 (hplaced m hm) hs.2 hstep⟩) ⟨h, ownList_parsed hlists⟩).2

/-! ### The items -/

/-- Only the items that have had their turn may have lists of others. -/
def OwnLists (doc : Document) (S : Structures) (r : List ℕ) (pend : List (List ℕ)) (site : Site) :
    Prop := ∀ c, (Item doc S r c → c ∈ pend) → OwnList site (.parsed c)

namespace OwnLists

variable {pend : List (List ℕ)} {a m : List ℕ}

/-- There are no items below an item. -/
theorem below (h : OwnLists doc S r pend site) (ha : Child doc S r a) (haw : ¬ Walked doc S r a)
    (hin : a ∈ pend) : ∀ q, a <:+ q → OwnList site (.parsed q) := by
  refine fun q hq => h q fun hitem => ?_
  by_cases hqa : q = a
  · exact hqa ▸ hin
  · exact absurd ⟨q, rfl, hq, hqa⟩ (child_not_inside (ElementWith.child hitem) a ha haw)

/-- An item that is linked frees its own list, and those of nodes that go with what followed its
    text. -/
theorem link (h : OwnLists doc S r (a :: pend) site) (hturn : AtTurn doc S r pend a m site)
    (hitem : Item doc S r a) {s : Stages site (.parsed a) (.parsed m)} (hs : s.Sound) :
    OwnLists doc S r pend s.result := by
  intro c hc
  have hca : NodeId.parsed c ≠ .parsed a := by
    rintro ⟨⟩
    exact hturn.later (hc hitem)
  have hbelow := h.below hturn.child hturn.notWalked List.mem_cons_self
  obtain ⟨cell, firstCell, target, first, σ₁, lists₁, lists₂, hcell, hchildren, hfirstCell,
    ⟨hprops, hfree, hlists, -⟩, -, hgrafted⟩ := graft_eq_ok hs.graft
  obtain ⟨hof, hown⟩ := xmlFreePropList_eq_some hprops
  have hfreed := xmlFreeNodeList_freed hfree
  have hresult : s.result.lists.of (.parsed c) = site.lists.of (.parsed c) ∧
      s.result.lists.freed = lists₂.freed := by
    obtain ⟨-, q, -, -, hparent, -⟩ := hturn.parent hs
    dsimp only [Stages.result]
    rw [hparent, AttrLists.share, hlists, AttrLists.share]
    dsimp only
    rw [Function.update_of_ne (by simp), Function.update_of_ne hca, hfreed.of, hof]
    exact ⟨rfl, rfl⟩
  refine (h c fun hitem => List.mem_cons_of_mem _ (hc hitem)).after hresult.1
    ((hturn.kept hs).none c) fun hn => ?_
  rw [hresult.2] at hn
  rcases hfreed.freed _ hn with hn | ⟨n, ⟨d, hd⟩, hlist, hgone⟩
  · refine (hown _ hn).imp_right fun heq => ?_
    rw [(hbelow a List.suffix_rfl).own] at heq
    exact absurd heq hca
  · refine .inr ?_
    -- only nodes below the item go
    have hin : Inside a (.parsed (0 :: a)) := inside_cons List.suffix_rfl
    obtain rfl : first = .parsed (0 :: a) := by
      rw [hturn.intact.children cell hcell, hturn.first] at hchildren
      exact (Option.some.inj hchildren).symm
    have hinside : Inside a n := by
      by_contra hout
      rw [freeList_frame hturn.intact.closed (hturn.intact.closed _ _ hin hfirstCell).2
        (freeList_of_each hfree) n hout, hd] at hgone
      cases hgone
    obtain ⟨q, rfl, hq, -⟩ := hinside
    rw [hof, (hbelow q hq).own] at hlist
    obtain rfl := NodeId.parsed.inj hlist
    have hnone : s.grafted (.parsed q) = none := by
      rw [hgrafted]
      simp only [Heap.modify, hgone]
      split <;> split <;> rfl
    rw [(hturn.result hs).2.1, ← Option.not_isSome_iff_eq_none, (hturn.pointed hs).live, hnone]
    simp

/-- An item that is taken out. -/
theorem remove (h : OwnLists doc S r (a :: pend) site) (hlinking : Linking doc S r (a :: pend) site)
    (hitem : Item doc S r a) (hok : site.removeNode (.parsed a) = .ok site') :
    OwnLists doc S r pend
      { site' with contexts := Function.update site'.contexts (.parsed a) none } := by
  have ha := ElementWith.child hitem
  have haw := not_walked_of_association ha hitem.associationAt.2
  obtain ⟨ptrs, hlists, -⟩ := hlinking.inv.lists
  intro c hc
  have hkept := removeNode_ownList hlists ha haw (hlinking.intact hitem)
    (h.below ha haw List.mem_cons_self) hok (h c fun hitem => List.mem_cons_of_mem _ (hc hitem))
  exact ⟨hkept.own, hkept.freed⟩

/-- An item at its turn. -/
theorem step (h : OwnLists doc S r (a :: pend) site) (hidx : Indexed doc S r site)
    (hord : TargetsOrdinary doc S r) (hlinking : Linking doc S r (a :: pend) site) (hnot : a ∉ pend)
    (ha : Item doc S r a) (hok : site.initializeAssociation (.parsed a) = .ok site') :
    OwnLists doc S r pend site' := by
  obtain ⟨text, htext, ⟨n, hpos, hn, hassociate⟩ | ⟨-, site₁, hremove, rfl⟩⟩ :=
    initializeAssociation_cases hok
  · obtain ⟨hat, m, rfl, hm, hmr⟩ := target_walked hidx hord ha (hlinking.intact ha) htext hpos hn
    obtain ⟨hstaged, hassoc⟩ := ha.associationAt
    obtain ⟨s, hs, rfl⟩ := associate_eq_ok hassociate
    exact h.link ⟨hlinking, hnot, ElementWith.child ha, hstaged, hassoc, ⟨text, hat⟩, hm, hmr⟩ ha hs
  · exact h.remove hlinking ha hremove

/-- All items. -/
theorem run (hord : TargetsOrdinary doc S r) : ∀ {pend : List (List ℕ)} {site site' : Site},
    OwnLists doc S r pend site → Indexed doc S r site → Linking doc S r pend site → pend.Nodup →
    (∀ a ∈ pend, Item doc S r a) →
    (pend.map NodeId.parsed).foldlM Site.initializeAssociation site = .ok site' →
    OwnLists doc S r [] site'
  | [], site, site', h, _, _, _, _, hok => by
      cases hok
      exact h
  | a :: pend, site, site', h, hidx, hlinking, hnodup, hitems, hok => by
      obtain ⟨site₁, hfirst, hrest⟩ := bind_eq_ok.mp hok
      obtain ⟨hnot, hnodup⟩ := List.nodup_cons.mp hnodup
      obtain ⟨ha, hitems⟩ := List.forall_mem_cons.mp hitems
      exact run hord (h.step hidx hord hlinking hnot ha hfirst)
        (hidx.congr (initializeAssociation_sameIndex hfirst))
        (linking_step hidx hord hlinking hnot ha hfirst) hnodup hitems hrest

end OwnLists

end VaeDb.Staging
