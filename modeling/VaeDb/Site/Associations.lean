import VaeDb.Site.Invariant

/-! The association phase of loading.

    Each association item is grafted onto the walked node its text names, and a pointer node that
    shares the children of the item's parent is added to that node; an item whose text names nothing
    is taken out. Either way the invariant is kept, with one item less to come.

        ordinary ── association ── text ┈┈▶ children of the target
        target ──── pointer ┈┈▶ children of the item's parent -/

namespace VaeDb.Staging
open Schemes Xml Walk

variable {doc : Document} {S : Structures} {r : List ℕ}

/-! ### The second phase: associations -/

/-- Every staged child of a walked node is gone. -/
def NoStaged (doc : Document) (S : Structures) (r : List ℕ) (σ : Store) : Prop :=
  ∀ c, Child doc S r c → StagedAt doc c → σ (.parsed c) = none

theorem Lists.safe {σ : Store} {ptrs : List ℕ → List NodeId} (h : Lists doc S r σ ptrs)
    (hdead : NoStaged doc S r σ) {p : List ℕ} (hp : Walked doc S r p) {n : NodeId}
    (hn : n ∈ liveKids doc σ p ++ ptrs p) : Safe doc S r n := by
  rcases List.mem_append.mp hn with hn | hn
  · obtain ⟨hkid, hlive⟩ := List.mem_filter.mp hn
    obtain ⟨i, t, ht, rfl⟩ := Document.mem_kidIds.mp hkid
    have hc : Child doc S r (i :: p) := ⟨i, p, t, rfl, hp, ht⟩
    refine Or.inr (Or.inl ⟨i :: p, rfl, hc, fun hs => ?_⟩)
    rw [hdead _ hc hs] at hlive
    cases hlive
  · exact Or.inl (h.pointers p n hn)

theorem Inv.children_safe {Pend : List ℕ → Prop} {σ : Store} (h : Inv doc S r Pend σ)
    (hdead : NoStaged doc S r σ) {p : List ℕ} (hp : Walked doc S r p) {cell : Cell NodeId Info}
    (hcell : σ (.parsed p) = some cell) : ∀ m ∈ cell.children, Safe doc S r m := by
  obtain ⟨ptrs, hlists, -⟩ := h.lists
  obtain ⟨cell', hcell', hhead, -⟩ := (hlists.linked p hp).ends
  rw [hcell, Option.some.injEq] at hcell'
  subst hcell'
  intro m hm
  rw [hhead] at hm
  exact hlists.safe hdead hp (List.mem_of_mem_head? hm)

/-- What a step of the second phase does not do: it makes no node of the document, and leaves the
    data of walked nodes alone. -/
structure Kept (doc : Document) (S : Structures) (r : List ℕ) (σ σ' : Store) : Prop where
  none : ∀ c, σ (.parsed c) = none → σ' (.parsed c) = none
  data : ∀ p, Walked doc S r p → ∀ cell', σ' (.parsed p) = some cell' →
    ∃ cell, σ (.parsed p) = some cell ∧ cell'.data = cell.data

theorem Kept.trans {σ σ' σ'' : Store} (h : Kept doc S r σ σ') (h' : Kept doc S r σ' σ'') :
    Kept doc S r σ σ'' := by
  refine ⟨fun c hc => h'.none c (h.none c hc), fun p hp cell hcell => ?_⟩
  obtain ⟨cell', hcell', hdata'⟩ := h'.data p hp cell hcell
  obtain ⟨cell'', hcell'', hdata''⟩ := h.data p hp cell' hcell'
  exact ⟨cell'', hcell'', hdata'.trans hdata''⟩

theorem Kept.noStaged {σ σ' : Store} (h : Kept doc S r σ σ') (hdead : NoStaged doc S r σ) :
    NoStaged doc S r σ' := fun c hc hs => h.none c (hdead c hc hs)

theorem kept_of_eq {σ σ' : Store} (h : ∀ c, σ' (.parsed c) = σ (.parsed c)) : Kept doc S r σ σ' :=
  ⟨fun c hc => by rw [h, hc], fun p _ cell hcell => ⟨cell, by rw [← h, hcell], rfl⟩⟩

/-- Only nodes of the document are among the live children. -/
theorem liveKids_parsed {σ σ' : Store} (h : ∀ c, σ' (.parsed c) = σ (.parsed c)) (p : List ℕ) :
    liveKids doc σ' p = liveKids doc σ p := by
  refine liveKids_congr fun n hn => ?_
  obtain ⟨i, t, -, rfl⟩ := Document.mem_kidIds.mp hn
  rw [h]

/-- A cell that is not there yet is in no list, and putting it there changes no list. -/
theorem Lists.alloc {σ : Store} {ptrs : List ℕ → List NodeId} (h : Lists doc S r σ ptrs) {k : ℕ}
    (hfresh : σ (.pointer k) = none) (cell : Cell NodeId Info) :
    Lists doc S r (Function.update σ (.pointer k) (some cell)) ptrs ∧
      ∀ p, Walked doc S r p → .pointer k ∉ liveKids doc σ p ++ ptrs p := by
  have hnot : ∀ p, Walked doc S r p → .pointer k ∉ liveKids doc σ p ++ ptrs p := by
    intro p hp hin
    obtain ⟨c, hc, -⟩ := (h.linked p hp).member_of_mem hin
    rw [hfresh] at hc
    cases hc
  refine ⟨⟨fun p hp => ?_, h.pointers⟩, hnot⟩
  rw [liveKids_parsed fun c => Function.update_of_ne (by simp) ..]
  refine (h.linked p hp).congr (fun d hd => ⟨d, ?_, rfl, rfl⟩)
    fun n hn d hd => ⟨d, ?_, rfl, rfl, rfl⟩
  · rw [Function.update_of_ne (by simp), hd]
  · have hne : n ≠ .pointer k := fun heq => hnot p hp (heq ▸ hn)
    rw [Function.update_of_ne hne, hd]

/-- A new cell becomes the last child of the walked node `m`. -/
theorem Lists.addPointer {σ : Store} {ptrs : List ℕ → List NodeId} (h : Lists doc S r σ ptrs)
    {k : ℕ} {cell : Cell NodeId Info} (hcell : σ (.pointer k) = some cell)
    (hnext : cell.next = none) (hprev : cell.prev = none)
    (hnot : ∀ p, Walked doc S r p → .pointer k ∉ liveKids doc σ p ++ ptrs p) {m : List ℕ}
    (hm : Walked doc S r m) :
    Lists doc S r (Heap.addChild σ (.parsed m) (.pointer k))
      (Function.update ptrs m (ptrs m ++ [.pointer k])) := by
  have hmk : NodeId.parsed m ≠ .pointer k := by simp
  refine ⟨fun p hp => ?_, fun p n hn => ?_⟩
  · rw [liveKids_congr fun n _ => (h.linked m hm).addChild_isSome hmk n]
    rcases eq_or_ne p m with rfl | hne
    · rw [Function.update_self, ← List.append_assoc]
      exact (h.linked p hp).addChild hcell hnext hprev (hnot p hp) hmk
    · rw [Function.update_of_ne hne]
      exact (h.linked m hm).addChild_other (h.linked p hp) (by simpa using hne) (hnot p hp) hmk
  · rcases eq_or_ne p m with rfl | hne
    · rw [Function.update_self] at hn
      rcases List.mem_append.mp hn with hn | hn
      · exact h.pointers p n hn
      · exact ⟨k, List.mem_singleton.mp hn⟩
    · rw [Function.update_of_ne hne] at hn
      exact h.pointers p n hn

/-- What adding a pointer node to the walked node `m` does to the store. -/
structure Pointed (doc : Document) (S : Structures) (r : List ℕ) (m : List ℕ) (k : ℕ)
    (cell : Cell NodeId Info) (σ σ' : Store) : Prop where
  live : ∀ c, (σ' (.parsed c)).isSome = (σ (.parsed c)).isSome
  parsed : ∀ c d', σ' (.parsed c) = some d' → ∃ d, σ (.parsed c) = some d ∧ d'.data = d.data ∧
    (c ≠ m → d'.children = d.children)
  pointer : ∀ j d', σ' (.pointer j) = some d' →
    j = k ∧ d'.children = cell.children ∨ ∃ d, σ (.pointer j) = some d ∧ d'.children = d.children
  inside : ∀ c, Child doc S r c → ¬ Walked doc S r c → ∀ n, Inside c n → σ' n = σ n

/-- A new cell becomes the last child of the walked node `m`, and is in no other list. -/
theorem Lists.pointed {σ : Store} {ptrs : List ℕ → List NodeId} (h : Lists doc S r σ ptrs) {k : ℕ}
    (hfresh : σ (.pointer k) = none) {cell : Cell NodeId Info} (hnext : cell.next = none)
    (hprev : cell.prev = none) {m : List ℕ} (hm : Walked doc S r m) :
    Lists doc S r (Heap.addChild (Function.update σ (.pointer k) (some cell))
        (.parsed m) (.pointer k)) (Function.update ptrs m (ptrs m ++ [.pointer k])) ∧
      Pointed doc S r m k cell σ (Heap.addChild (Function.update σ (.pointer k) (some cell))
        (.parsed m) (.pointer k)) := by
  obtain ⟨hlists, hnot⟩ := h.alloc hfresh cell
  have hparsed : ∀ c, Function.update σ (.pointer k) (some cell) (.parsed c) = σ (.parsed c) :=
    fun c => Function.update_of_ne (by simp) ..
  have hlinked := hlists.linked m hm
  have hmk : NodeId.parsed m ≠ .pointer k := by simp
  refine ⟨hlists.addPointer (Function.update_self ..) hnext hprev (fun p hp => ?_) hm,
    fun c => ?_, fun c d' hd' => ?_, fun j d' hd' => ?_, fun c hc hcw n hn => ?_⟩
  · rw [liveKids_parsed hparsed]
    exact hnot p hp
  · rw [hlinked.addChild_isSome hmk, hparsed]
  · obtain ⟨d, hd, hdata, hchildren⟩ := hlinked.addChild_keeps hmk hd'
    exact ⟨d, hparsed c ▸ hd, hdata, fun hne => hchildren (by simpa using hne)⟩
  · obtain ⟨d, hd, -, hchildren⟩ := hlinked.addChild_keeps hmk hd'
    rw [hchildren (by simp)]
    rw [Function.update_apply] at hd
    split at hd
    · next hjk =>
      cases hd
      exact Or.inl ⟨NodeId.pointer.inj hjk, rfl⟩
    · exact Or.inr ⟨d, hd, rfl⟩
  · have hout := fun hin => hlists.not_inside hc hcw hm hin hn
    obtain ⟨q, rfl, hq⟩ := hn
    rw [hlinked.addChild_outside hmk (fun heq => hout (Or.inl heq)) (by simp)
      fun hin => hout (Or.inr hin)]
    exact hparsed q

/-- A pointer node shares the children of a walked node `q` and becomes the last child of a walked
    node `m`. -/
theorem inv_pointer {Pend : List ℕ → Prop} {σ : Store} {m q : List ℕ} {k : ℕ}
    {parent : Cell NodeId Info} (hσ : Inv doc S r Pend σ) (hdead : NoStaged doc S r σ)
    (hfresh : σ (.pointer k) = none) (hm : Walked doc S r m) (hq : Walked doc S r q)
    (hparent : σ (.parsed q) = some parent) :
    Inv doc S r Pend (Heap.addChild
      (Function.update σ (.pointer k) (some (pointerCell parent))) (.parsed m) (.pointer k)) := by
  obtain ⟨ptrs, hlists, hlisted⟩ := hσ.lists
  obtain ⟨hlists', h⟩ :=
    hlists.pointed hfresh (show (pointerCell parent).next = none from rfl) rfl hm
  -- a child of a walked node that is not walked has its children as before
  have hchildren : ∀ c, ¬ Walked doc S r c → ∀ d', Heap.addChild (Function.update σ (.pointer k)
      (some (pointerCell parent))) (.parsed m) (.pointer k) (.parsed c) = some d' →
      ∃ d, σ (.parsed c) = some d ∧ d'.children = d.children := by
    intro c hcw d' hd'
    obtain ⟨d, hd, -, hsame⟩ := h.parsed c d' hd'
    exact ⟨d, hd, hsame fun heq => hcw (heq ▸ hm)⟩
  refine ⟨⟨_, hlists', fun j cell hcell => ?_⟩, fun d hd hstaged hassoc => ?_,
    fun d hd hdw hassoc cell hcell => ?_, fun a ha hstaged hassoc hpend => ?_,
    fun j cell hcell => ?_⟩
  · rcases h.pointer j cell hcell with ⟨rfl, -⟩ | ⟨cell₀, hcell₀, -⟩
    · exact ⟨m, hm, by simp⟩
    · obtain ⟨p, hp, hmem⟩ := hlisted j cell₀ hcell₀
      refine ⟨p, hp, ?_⟩
      rw [Function.update_apply]
      split
      · next hpm => exact List.mem_append_left _ (hpm ▸ hmem)
      · exact hmem
  · rw [← Option.isSome_iff_exists, h.live, Option.isSome_iff_exists]
    exact hσ.alive d hd hstaged hassoc
  · obtain ⟨cell₀, hcell₀, -⟩ := h.parsed d cell hcell
    have hd₀ := hσ.intact d hd hdw hassoc cell₀ hcell₀
    refine ⟨fun p hp hpd => ?_, fun cell' hcell' => ?_⟩
    · rw [h.inside d hd hdw _ ⟨p, rfl, hp, hpd⟩, hd₀.below p hp hpd]
    · obtain ⟨cell₁, hcell₁, hsame⟩ := hchildren d hdw cell' hcell'
      rw [hsame, hd₀.children cell₁ hcell₁]
  · have haw := not_walked_of_association ha hassoc
    obtain ⟨hitem, hfirst⟩ := hσ.grafted a ha hstaged hassoc hpend
    refine ⟨fun cell hcell => ?_, fun cell hcell => ?_⟩
    · obtain ⟨cell₀, hcell₀, hsame⟩ := hchildren a haw cell hcell
      rw [hsame]
      exact hitem cell₀ hcell₀
    · rw [h.inside a ha haw _ (inside_cons List.suffix_rfl)] at hcell
      exact hfirst cell hcell
  · rcases h.pointer j cell hcell with ⟨-, hsame⟩ | ⟨cell₀, hcell₀, hsame⟩
    · rw [hsame]
      intro n hn
      exact hσ.children_safe hdead hq hparent n hn
    · rw [hsame]
      exact hσ.pointers j cell₀ hcell₀

theorem Pointed.kept {σ σ' : Store} {m : List ℕ} {k : ℕ} {cell : Cell NodeId Info}
    (h : Pointed doc S r m k cell σ σ') : Kept doc S r σ σ' := by
  refine ⟨fun c hc => ?_, fun p _ cell' hcell' => ?_⟩
  · rw [← Option.not_isSome_iff_eq_none, h.live, hc]
    simp
  · obtain ⟨cell₀, hcell₀, hdata, -⟩ := h.parsed p cell' hcell'
    exact ⟨cell₀, hcell₀, hdata⟩

/-- What grafting the children of a walked node onto the association item `a` does to the store. -/
structure Grafted (doc : Document) (S : Structures) (r : List ℕ) (a : List ℕ) (σ σ' : Store) :
    Prop where
  outside : ∀ n, n ≠ .parsed a → ¬ Inside a n → σ' n = σ n
  item : ∀ cell, σ (.parsed a) = some cell → ∃ cell', σ' (.parsed a) = some cell' ∧
    SameLinks cell cell'
  first : ∀ cell', σ' (.parsed (0 :: a)) = some cell' → ∃ cell, σ (.parsed (0 :: a)) = some cell ∧
    cell'.children = cell.children ∧ ∀ m ∈ cell'.next, Safe doc S r m
  none : ∀ c, σ (.parsed c) = none → σ' (.parsed c) = none

/-- A graft that succeeds: the attributes of `n` and what follows its first child are freed, the
    children of `m` take their place, and `n` takes over the data of `m`. -/
theorem graft_eq_ok {site : Site} {n m : NodeId} {σ' : Store} {lists' : AttrLists}
    (h : site.graft n m = .ok (σ', lists')) :
    ∃ (cell firstCell target : Cell NodeId Info) (first : NodeId) (σ₁ : Store)
      (lists₁ lists₂ : AttrLists),
      site.doc n = some cell ∧ cell.children = some first ∧ site.doc first = some firstCell ∧
      (site.lists.xmlFreePropList n cell.data.properties = some lists₁ ∧
        xmlFreeNodeList site.allocated site.doc lists₁ firstCell.next = some (σ₁, lists₂) ∧
        lists' = lists₂.share n (some m) ∧ ∃ d, σ₁ first = some d) ∧ σ₁ m = some target ∧
      σ' = (σ₁.modify first fun c => { c with next := target.children }).modify n fun c =>
        { c with
          last := target.last
          data := { c.data with
            properties := target.data.properties, priv := target.data.priv } } := by
  obtain ⟨cell, hcell, h₁⟩ := bind_eq_ok.mp h
  obtain ⟨lists₁, hprops, h₂⟩ := bind_eq_ok.mp h₁
  obtain ⟨first, hchildren, h₃⟩ := bind_eq_ok.mp h₂
  obtain ⟨firstCell, hfirstCell, h₄⟩ := bind_eq_ok.mp h₃
  obtain ⟨⟨σ₁, lists₂⟩, hfree, h₅⟩ := bind_eq_ok.mp h₄
  obtain ⟨_, -, h₆⟩ := bind_eq_ok.mp h₅
  obtain ⟨target, htarget, h₇⟩ := bind_eq_ok.mp h₆
  obtain ⟨d, hd, h₈⟩ := bind_eq_ok.mp h₇
  rw [deref_eq_ok] at hcell hprops hchildren hfirstCell hfree htarget hd
  cases h₈
  exact ⟨cell, firstCell, target, first, σ₁, lists₁, lists₂, hcell, hchildren, hfirstCell,
    ⟨hprops, hfree, rfl, d, hd⟩, htarget, rfl⟩

/-- A graft onto an intact item `a` frees nothing outside `a`. -/
theorem graft_intact {site : Site} {σ' : Store} {lists' : AttrLists} {a m : List ℕ}
    (hintact : Intact doc site.doc a)
    (hma : ¬ Inside a (.parsed m)) (hfirst : (doc.kidIds a).head? = some (.parsed (0 :: a)))
    (h : site.graft (.parsed a) (.parsed m) = .ok (σ', lists')) :
    ∃ (σ₁ : Store) (target : Cell NodeId Info), (∀ n c, σ₁ n = some c → site.doc n = some c) ∧
      (∀ n, ¬ Inside a n → σ₁ n = site.doc n) ∧ site.doc (.parsed m) = some target ∧
      (∃ d, σ₁ (.parsed (0 :: a)) = some d) ∧
      σ' = (σ₁.modify (.parsed (0 :: a)) fun c => { c with next := target.children }).modify
        (.parsed a) fun c => { c with
          last := target.last
          data := { c.data with
            properties := target.data.properties, priv := target.data.priv } } := by
  obtain ⟨cell, firstCell, target, first, σ₁, lists₁, lists₂, hcell, hchildren, hfirstCell,
    ⟨-, hfree, -, hthere⟩, htarget, rfl⟩ := graft_eq_ok h
  replace hfree := freeList_of_each hfree
  obtain rfl : first = .parsed (0 :: a) := by
    rw [hintact.children cell hcell, hfirst] at hchildren
    exact (Option.some.inj hchildren).symm
  have hin : Inside a (.parsed (0 :: a)) := inside_cons List.suffix_rfl
  have hout := freeList_frame hintact.closed (hintact.closed _ _ hin hfirstCell).2 hfree
  rw [hout _ hma] at htarget
  exact ⟨σ₁, target, freeList_sub hfree, hout, htarget, hthere, rfl⟩

theorem graft_grafted {Pend : List ℕ → Prop} {site : Site} {σ' : Store} {lists' : AttrLists}
    {a m : List ℕ}
    (hσ : Inv doc S r Pend site.doc) (hdead : NoStaged doc S r site.doc)
    (hintact : Intact doc site.doc a) (hma : ¬ Inside a (.parsed m))
    (hm : Walked doc S r m) (hfirst : (doc.kidIds a).head? = some (.parsed (0 :: a)))
    (h : site.graft (.parsed a) (.parsed m) = .ok (σ', lists')) : Grafted doc S r a site.doc σ' := by
  obtain ⟨σ₁, target, hsub, hout, htarget, -, rfl⟩ := graft_intact hintact hma hfirst h
  have hin : Inside a (.parsed (0 :: a)) := inside_cons List.suffix_rfl
  have hne : NodeId.parsed (0 :: a) ≠ .parsed a := by simp
  refine ⟨fun n hna hn => ?_, fun acell hacell => ?_, fun cell' hcell' => ?_, fun c hc => ?_⟩
  · have hn0 : n ≠ .parsed (0 :: a) := fun heq => hn (heq ▸ hin)
    rw [Heap.modify_of_ne _ _ hna, Heap.modify_of_ne _ _ hn0, hout n hn]
  · have haa : ¬ Inside a (.parsed a) := by
      rintro ⟨q, ⟨⟩, -, hqa⟩
      exact hqa rfl
    rw [Heap.modify_self, Heap.modify_of_ne _ _ hne.symm, hout _ haa, hacell]
    exact ⟨_, rfl, rfl, rfl, rfl, rfl⟩
  · rw [Heap.modify_of_ne _ _ hne, Heap.modify_self] at hcell'
    obtain ⟨cell₁, hcell₁, rfl⟩ := Option.map_eq_some_iff.mp hcell'
    exact ⟨cell₁, hsub _ _ hcell₁, rfl, hσ.children_safe hdead hm htarget⟩
  · have hc₁ : σ₁ (.parsed c) = none := by
      cases hc' : σ₁ (.parsed c) with
      | none => rfl
      | some d =>
        rw [hsub _ _ hc'] at hc
        cases hc
    simp only [Heap.modify, hc₁]
    split <;> split <;> rfl

/-- The item takes over the Context of its target. -/
theorem graft_priv {site : Site} {σ' : Store} {lists' : AttrLists} {a m : List ℕ}
    (hintact : Intact doc site.doc a)
    (hma : ¬ Inside a (.parsed m)) (hfirst : (doc.kidIds a).head? = some (.parsed (0 :: a)))
    (h : site.graft (.parsed a) (.parsed m) = .ok (σ', lists')) :
    ∃ target, site.doc (.parsed m) = some target ∧
      ∀ cell', σ' (.parsed a) = some cell' → cell'.data.priv = target.data.priv := by
  obtain ⟨σ₁, target, -, -, htarget, -, rfl⟩ := graft_intact hintact hma hfirst h
  refine ⟨target, htarget, fun cell' hcell' => ?_⟩
  rw [Heap.modify_self] at hcell'
  obtain ⟨cell₁, -, rfl⟩ := Option.map_eq_some_iff.mp hcell'
  rfl

/-- The item keeps its place among the children, so the lists stay as they are. -/
theorem Grafted.lists {σ σ' : Store} {a : List ℕ} {ptrs : List ℕ → List NodeId}
    (h : Grafted doc S r a σ σ') (ha : Child doc S r a) (haw : ¬ Walked doc S r a)
    (hlists : Lists doc S r σ ptrs) : Lists doc S r σ' ptrs := by
  refine ⟨fun p hp => ?_, hlists.pointers⟩
  have hpa : NodeId.parsed p ≠ .parsed a := by
    rintro ⟨⟩
    exact haw hp
  have hkids : liveKids doc σ' p = liveKids doc σ p := by
    refine liveKids_congr fun n hn => ?_
    rcases eq_or_ne n (.parsed a) with rfl | hna
    · cases hcell : σ (.parsed a) with
      | none => rw [h.none a hcell]
      | some cell =>
        obtain ⟨cell', hcell', -⟩ := h.item cell hcell
        rw [hcell']
        rfl
    · rw [h.outside n hna (kid_not_inside ha haw hp hn)]
  rw [hkids]
  refine (hlists.linked p hp).congr (fun d hd => ⟨d, ?_, rfl, rfl⟩) fun n hn d hd => ?_
  · rw [h.outside _ hpa (hlists.not_inside ha haw hp (Or.inl rfl)), hd]
  · rcases eq_or_ne n (.parsed a) with rfl | hna
    · obtain ⟨d', hd', hlinks⟩ := h.item d hd
      exact ⟨d', hd', hlinks.parent, hlinks.prev, hlinks.next⟩
    · refine ⟨d, ?_, rfl, rfl, rfl⟩
      rw [h.outside n hna (hlists.not_inside ha haw hp (Or.inr hn)), hd]

/-- The item still begins with its text. -/
theorem Grafted.children_eq {σ σ' : Store} {a : List ℕ} {cell : Cell NodeId Info}
    (h : Grafted doc S r a σ σ') (hintact : Intact doc σ a) (hcell : σ' (.parsed a) = some cell) :
    cell.children = (doc.kidIds a).head? := by
  cases ha₀ : σ (.parsed a) with
  | none =>
    rw [h.none a ha₀] at hcell
    cases hcell
  | some cell₀ =>
    obtain ⟨cell', hcell', hlinks⟩ := h.item cell₀ ha₀
    rw [hcell, Option.some.injEq] at hcell'
    rw [hcell', hlinks.children, hintact.children cell₀ ha₀]

/-- The text of the item has no children, and what follows it is safe. -/
theorem Grafted.first_safe {σ σ' : Store} {a : List ℕ} {cell : Cell NodeId Info} {content : String}
    (h : Grafted doc S r a σ σ') (hintact : Intact doc σ a)
    (htext : doc.at? (0 :: a) = some (.text content)) (hcell : σ' (.parsed (0 :: a)) = some cell) :
    (∀ m ∈ cell.children, Safe doc S r m) ∧ ∀ m ∈ cell.next, Safe doc S r m := by
  obtain ⟨cell₀, hcell₀, hchildren, hnext⟩ := h.first cell hcell
  refine ⟨fun n hn => ?_, hnext⟩
  rw [hintact.below _ (List.suffix_cons _ _) (by simp)] at hcell₀
  obtain ⟨cell₁, hcell₁, hchildren₁, -⟩ := @Document.store_ends doc _ (Or.inr ⟨_, htext⟩)
  rw [hcell₀, Option.some.injEq] at hcell₁
  rw [hchildren, hcell₁, hchildren₁, Document.kidIds, kids_of_at? htext] at hn
  cases hn

/-- After the graft the item is dealt with. -/
theorem inv_grafted {Pend Pend' : List ℕ → Prop} {σ σ' : Store} {a : List ℕ} {content : String}
    (hσ : Inv doc S r Pend σ) (ha : Child doc S r a) (hstaged : ¬ StagedAt doc a)
    (hassoc : AssociationAt doc S a) (hintact : Intact doc σ a)
    (hne : ∀ b, b ≠ a → (Pend' b ↔ Pend b)) (hgone : ¬ Pend' a)
    (htext : doc.at? (0 :: a) = some (.text content)) (h : Grafted doc S r a σ σ') :
    Inv doc S r Pend' σ' := by
  obtain ⟨ptrs, hlists, hlisted⟩ := hσ.lists
  have haw := not_walked_of_association ha hassoc
  have hchild : ∀ d, Child doc S r d → d ≠ a → σ' (.parsed d) = σ (.parsed d) :=
    fun d hd hda => h.outside _ (by simpa using hda) (child_not_inside hd a ha haw)
  have hinside : ∀ d, Child doc S r d → ¬ Walked doc S r d → d ≠ a → ∀ q, d <:+ q → q ≠ d →
      σ' (.parsed q) = σ (.parsed q) := by
    intro d hd hdw hda q hq hqd
    have haq := not_inside_both ha haw hd hdw hda hq
    refine h.outside _ ?_ ?_
    · rintro ⟨⟩
      exact haq List.suffix_rfl
    · rintro ⟨q', ⟨⟩, hq', -⟩
      exact haq hq'
  have hptr : ∀ k, σ' (.pointer k) = σ (.pointer k) :=
    fun k => h.outside _ (by simp) (by rintro ⟨q, ⟨⟩, -⟩)
  refine ⟨⟨ptrs, h.lists ha haw hlists, fun k cell hcell => hlisted k cell (hptr k ▸ hcell)⟩,
    fun d hd hs hpend => ?_, fun d hd hdw hpend cell hcell => ?_, fun b hb hs hb' hpend => ?_,
    fun k cell hcell => hσ.pointers k cell (hptr k ▸ hcell)⟩
  · have hda : d ≠ a := fun heq => hgone (heq ▸ hpend (heq ▸ hassoc))
    rw [hchild d hd hda]
    exact hσ.alive d hd hs fun hd' => (hne d hda).mp (hpend hd')
  · have hda : d ≠ a := fun heq => hgone (heq ▸ hpend (heq ▸ hassoc))
    rw [hchild d hd hda] at hcell
    have hd₀ := hσ.intact d hd hdw (fun hd' => (hne d hda).mp (hpend hd')) cell hcell
    refine ⟨fun q hq hqd => ?_, fun cell' hcell' => ?_⟩
    · rw [hinside d hd hdw hda q hq hqd, hd₀.below q hq hqd]
    · rw [hchild d hd hda] at hcell'
      exact hd₀.children cell' hcell'
  · rcases eq_or_ne b a with rfl | hba
    · refine ⟨fun cell hcell n hn => ?_, fun cell hcell => h.first_safe hintact htext hcell⟩
      rw [h.children_eq hintact hcell, kidIds_head htext, Option.mem_def, Option.some.injEq] at hn
      exact Or.inr (Or.inr ⟨b, content, hn.symm, ha, hstaged, hassoc, htext⟩)
    · have hbw := not_walked_of_association hb hb'
      obtain ⟨hitem, hfirst⟩ := hσ.grafted b hb hs hb' fun h => hpend ((hne b hba).mpr h)
      refine ⟨fun cell hcell => ?_, fun cell hcell => ?_⟩
      · rw [hchild b hb hba] at hcell
        exact hitem cell hcell
      · rw [hinside b hb hbw hba _ (List.suffix_cons _ _) (by simp)] at hcell
        exact hfirst cell hcell

theorem setLast_apply (last : Option NodeId) (ns : List NodeId) (σ : Store) (n : NodeId) :
    setLast σ ns last n = if n ∈ ns then (σ n).map fun c => { c with last := last } else σ n := by
  induction ns generalizing σ with
  | nil => rfl
  | cons u ns ih =>
    have hstep : setLast σ (u :: ns) last =
        setLast (σ.modify u fun c => { c with last := last }) ns last := rfl
    rw [hstep, ih, Heap.modify]
    by_cases hu : n = u
    · cases σ n <;> simp [hu]
    · simp [hu]

/-- Setting `last` in pointer nodes is no change of the tree. -/
theorem setLast_inv {Pend : List ℕ → Prop} (last : Option NodeId) :
    ∀ {ns : List NodeId} {σ : Store}, (∀ n ∈ ns, ∃ k, n = .pointer k) → Inv doc S r Pend σ →
    Inv doc S r Pend (setLast σ ns last) ∧ (∀ c, setLast σ ns last (.parsed c) = σ (.parsed c)) ∧
      ∀ n, (setLast σ ns last n).isSome = (σ n).isSome
  | [], σ, _, hσ => ⟨hσ, fun _ => rfl, fun _ => rfl⟩
  | n :: ns, σ, hns, hσ => by
      obtain ⟨k, rfl⟩ := hns n List.mem_cons_self
      have hstep : Inv doc S r Pend (σ.modify (.pointer k) fun c => { c with last := last }) :=
        inv_modify hσ (fun _ => ⟨rfl, rfl, rfl, rfl⟩) (fun _ _ h => by cases h)
          (by rintro c - - ⟨q, ⟨⟩, -⟩)
      obtain ⟨hinv, hparsed, hsome⟩ :=
        setLast_inv last (fun m hm => hns m (List.mem_cons_of_mem _ hm)) hstep
      refine ⟨hinv, fun c => ?_, fun m => ?_⟩
      · refine (hparsed c).trans ?_
        rw [Heap.modify_of_ne _ _ (by simp)]
      · refine (hsome m).trans ?_
        rw [Heap.modify]
        split <;> simp

/-- The site while associations are dealt with; `pend` are those still to come. -/
structure Linking (doc : Document) (S : Structures) (r : List ℕ) (pend : List (List ℕ))
    (site : Site) : Prop where
  inv : Inv doc S r (· ∈ pend) site.doc
  dead : NoStaged doc S r site.doc
  fresh : ∀ k, site.allocated ≤ k → site.doc (.pointer k) = none
  ctxs : ∀ n ctxt, site.contexts n = some ctxt → ∀ m ∈ ctxt.pointerNodes, ∃ k, m = .pointer k
  held : ∀ c, Walked doc S r c → c ≠ r → (∃ ctxt, site.contexts (.parsed c) = some ctxt) ∧
    ∀ cell, site.doc (.parsed c) = some cell → cell.data.priv = some (.parsed c)

/-- The parent link of a child of a walked node. -/
theorem parent_eq {Pend : List ℕ → Prop} {σ : Store} (hσ : Inv doc S r Pend σ) {i : ℕ} {p : List ℕ}
    (hc : Child doc S r (i :: p)) {cell : Cell NodeId Info} (hcell : σ (.parsed (i :: p)) = some cell) :
    cell.parent = some (.parsed p) := by
  obtain ⟨ptrs, hlists, -⟩ := hσ.lists
  obtain ⟨q, A, B, -, -, hmem, -, hlinked, -⟩ := hlists.parent_split hc hcell
  obtain ⟨j, t, -, heq⟩ := Document.mem_kidIds.mp (List.mem_filter.mp hmem).1
  cases heq
  obtain ⟨cell', hcell', hparent, -⟩ := hlinked.member A _ B rfl
  rw [hcell, Option.some.injEq] at hcell'
  exact hcell' ▸ hparent

/-- What an association does to the children of walked nodes: the item has the Context of its target,
    the others keep their data. -/
structure Associated (doc : Document) (S : Structures) (r : List ℕ) (a m : List ℕ)
    (site site' : Site) : Prop where
  item : ∃ cell, site'.doc (.parsed a) = some cell ∧ cell.data.priv = some (.parsed m)
  others : ∀ c, Child doc S r c → c ≠ a → ∀ cell, site.doc (.parsed c) = some cell →
    ∃ cell', site'.doc (.parsed c) = some cell' ∧ cell'.data = cell.data
  none : ∀ c, site.doc (.parsed c) = none → site'.doc (.parsed c) = none

/-- The stages of an association that succeeds: the graft, the copy of the parent that is put below
    the target, and the two Contexts. -/
structure Stages (site : Site) (n m : NodeId) where
  grafted : Store
  lists : AttrLists
  cell : Cell NodeId Info
  parent : Cell NodeId Info
  parentPtr : NodeId
  parentContext : Context
  associated : Cell NodeId Info
  associatedPtr : NodeId
  associatedContext : Context

namespace Stages

variable {site : Site} {n m : NodeId}

/-- The store with the pointer node in it, not yet in its place. -/
def copied (s : Stages site n m) : Store :=
  Function.update s.grafted (.pointer site.allocated) (some (pointerCell s.parent))

/-- The store with the pointer node in its place. -/
def placed (s : Stages site n m) : Store := Heap.addChild s.copied m (.pointer site.allocated)

/-- The Contexts once the pointer node is entered with the parent's. -/
def contexts (s : Stages site n m) : NodeId → Option Context :=
  Function.update site.contexts s.parentPtr (some { s.parentContext with
    pointerNodes := s.parentContext.pointerNodes ++ [.pointer site.allocated] })

/-- The site that the stages lead to. -/
def result (s : Stages site n m) : Site :=
  { site with
    doc := setLast s.placed s.associatedContext.pointerNodes s.associated.last
    lists := s.lists.share (.pointer site.allocated) s.cell.parent
    allocated := site.allocated + 1
    contexts := Function.update s.contexts n none }

/-- Each stage finds what it follows. -/
structure Sound (s : Stages site n m) : Prop where
  graft : site.graft n m = .ok (s.grafted, s.lists)
  item : s.grafted n = some s.cell
  parent : xmlCopyNode s.grafted s.cell.parent = .ok s.parent
  added : Heap.addChild? s.copied m (.pointer site.allocated) = some s.placed
  parentPtr : s.parent.data.priv = some s.parentPtr
  parentContext : site.contexts s.parentPtr = some s.parentContext
  associated : s.placed m = some s.associated
  associatedPtr : s.associated.data.priv = some s.associatedPtr
  associatedContext : s.contexts s.associatedPtr = some s.associatedContext
  told : ∀ n ∈ s.associatedContext.pointerNodes, ∃ cell, s.placed n = some cell

end Stages

theorem associate_eq_ok {site site' : Site} {n m : NodeId} (h : site.associate n m = .ok site') :
    ∃ s : Stages site n m, s.Sound ∧ site' = s.result := by
  rw [Site.associate] at h
  obtain ⟨⟨σ₁, lists⟩, hgraft, h₁⟩ := bind_eq_ok.mp h
  obtain ⟨cell, hcell, h₂⟩ := bind_eq_ok.mp h₁
  obtain ⟨parent, hparent, h₃⟩ := bind_eq_ok.mp h₂
  obtain ⟨σ₂, hadded, h₄⟩ := bind_eq_ok.mp h₃
  obtain ⟨parentPtr, hparentPtr, h₅⟩ := bind_eq_ok.mp h₄
  obtain ⟨parentContext, hparentContext, h₆⟩ := bind_eq_ok.mp h₅
  obtain ⟨associated, hassociated, h₇⟩ := bind_eq_ok.mp h₆
  obtain ⟨associatedPtr, hassociatedPtr, h₈⟩ := bind_eq_ok.mp h₇
  obtain ⟨associatedContext, hassociatedContext, h₉⟩ := bind_eq_ok.mp h₈
  obtain ⟨σ₃, htold, h₁₀⟩ := bind_eq_ok.mp h₉
  rw [deref_eq_ok] at hcell hadded hparentPtr hparentContext
  rw [deref_eq_ok] at hassociated hassociatedPtr hassociatedContext htold
  obtain rfl := (addChild?_eq_some.mp hadded).2
  obtain ⟨hthere, rfl⟩ := setLast?_eq_some.mp htold
  cases h₁₀
  exact ⟨⟨σ₁, lists, cell, parent, parentPtr, parentContext, associated, associatedPtr,
    associatedContext⟩, ⟨hgraft, hcell, hparent, hadded, hparentPtr, hparentContext, hassociated,
      hassociatedPtr, hassociatedContext, hthere⟩, rfl⟩

/-- The pointer nodes that the Contexts know are all in `Q`. -/
def PointerNodesIn (Q : NodeId → Prop) (contexts : NodeId → Option Context) : Prop :=
  ∀ n ctxt, contexts n = some ctxt → ∀ m ∈ ctxt.pointerNodes, Q m

namespace PointerNodesIn

variable {Q : NodeId → Prop} {contexts : NodeId → Option Context}

theorem update (h : PointerNodesIn Q contexts) {n : NodeId} {ctxt : Option Context}
    (hctxt : ∀ c ∈ ctxt, ∀ m ∈ c.pointerNodes, Q m) :
    PointerNodesIn Q (Function.update contexts n ctxt) := by
  intro n' ctxt' hn'
  rw [Function.update_apply] at hn'
  split at hn'
  · exact hctxt ctxt' hn'
  · exact h n' ctxt' hn'

theorem drop (h : PointerNodesIn Q contexts) (n : NodeId) :
    PointerNodesIn Q (Function.update contexts n none) :=
  h.update (by rintro _ ⟨⟩)

/-- The new pointer node is entered with the parent's. -/
theorem stages {site : Site} {n m : NodeId} {s : Stages site n m} (h : PointerNodesIn Q site.contexts)
    (hs : s.Sound) (hnew : Q (.pointer site.allocated)) : PointerNodesIn Q s.contexts := by
  refine h.update ?_
  rintro _ ⟨⟩ x hx
  rcases List.mem_append.mp hx with hx | hx
  · exact h _ _ hs.parentContext x hx
  · exact List.mem_singleton.mp hx ▸ hnew

end PointerNodesIn

theorem Grafted.kept {σ σ' : Store} {a : List ℕ} (h : Grafted doc S r a σ σ')
    (ha : Child doc S r a) (haw : ¬ Walked doc S r a) : Kept doc S r σ σ' := by
  refine ⟨h.none, fun p hp cell' hcell' => ⟨cell', ?_, rfl⟩⟩
  rw [← h.outside _ (by rintro ⟨⟩; exact haw hp)
    (by rintro ⟨q, ⟨⟩, hq, -⟩; exact not_suffix_walked ha haw hp hq), hcell']

/-- An item at its turn that names the walked node `m`. -/
structure AtTurn (doc : Document) (S : Structures) (r : List ℕ) (pend : List (List ℕ))
    (a m : List ℕ) (site : Site) : Prop where
  linking : Linking doc S r (a :: pend) site
  later : a ∉ pend
  child : Child doc S r a
  staged : ¬ StagedAt doc a
  assoc : AssociationAt doc S a
  text : ∃ content, doc.at? (0 :: a) = some (.text content)
  target : Walked doc S r m
  notRoot : m ≠ r

namespace AtTurn

variable {site : Site} {pend : List (List ℕ)} {a m : List ℕ}

theorem notWalked (h : AtTurn doc S r pend a m site) : ¬ Walked doc S r a :=
  not_walked_of_association h.child h.assoc

theorem alive (h : AtTurn doc S r pend a m site) : ∃ cell, site.doc (.parsed a) = some cell :=
  h.linking.inv.alive a h.child h.staged fun _ => List.mem_cons_self

theorem intact (h : AtTurn doc S r pend a m site) : Intact doc site.doc a := by
  obtain ⟨cell, hcell⟩ := h.alive
  exact h.linking.inv.intact a h.child h.notWalked (fun _ => List.mem_cons_self) cell hcell

theorem target_not_inside (h : AtTurn doc S r pend a m site) : ¬ Inside a (.parsed m) := by
  rintro ⟨q, ⟨⟩, hq, -⟩
  exact not_suffix_walked h.child h.notWalked h.target hq

theorem first (h : AtTurn doc S r pend a m site) :
    (doc.kidIds a).head? = some (.parsed (0 :: a)) := by
  obtain ⟨content, htext⟩ := h.text
  exact kidIds_head htext

variable {s : Stages site (.parsed a) (.parsed m)}

theorem grafted (h : AtTurn doc S r pend a m site) (hs : s.Sound) :
    Grafted doc S r a site.doc s.grafted :=
  graft_grafted h.linking.inv h.linking.dead h.intact h.target_not_inside h.target h.first hs.graft

theorem inv_grafted (h : AtTurn doc S r pend a m site) (hs : s.Sound) :
    Inv doc S r (· ∈ pend) s.grafted := by
  obtain ⟨content, htext⟩ := h.text
  exact Staging.inv_grafted h.linking.inv h.child h.staged h.assoc h.intact (fun b hb => by simp [hb])
    h.later htext (h.grafted hs)

/-- The graft leaves walked nodes alone. -/
theorem grafted_walked (h : AtTurn doc S r pend a m site) (hs : s.Sound) {p : List ℕ}
    (hp : Walked doc S r p) : s.grafted (.parsed p) = site.doc (.parsed p) := by
  refine (h.grafted hs).outside _ ?_ ?_
  · rintro ⟨⟩
    exact h.notWalked hp
  · rintro ⟨q, ⟨⟩, hq, -⟩
    exact not_suffix_walked h.child h.notWalked hp hq

/-- The graft leaves pointer nodes alone. -/
theorem grafted_pointer (h : AtTurn doc S r pend a m site) (hs : s.Sound) (k : ℕ) :
    s.grafted (.pointer k) = site.doc (.pointer k) :=
  (h.grafted hs).outside _ (by simp) (by rintro ⟨q, ⟨⟩, -⟩)

/-- The node that is copied is the walked node that the item is a child of. -/
theorem parent (h : AtTurn doc S r pend a m site) (hs : s.Sound) :
    ∃ i q, a = i :: q ∧ Walked doc S r q ∧ s.cell.parent = some (.parsed q) ∧
      s.grafted (.parsed q) = some s.parent := by
  obtain ⟨i, q, t, rfl, hq, -⟩ := id h.child
  have hparent := parent_eq (h.inv_grafted hs) h.child hs.item
  have hcopied := hs.parent
  rw [hparent, xmlCopyNode, deref_eq_ok] at hcopied
  exact ⟨i, q, rfl, hq, hparent, hcopied⟩

theorem fresh (h : AtTurn doc S r pend a m site) (hs : s.Sound) {k : ℕ} (hk : site.allocated ≤ k) :
    s.grafted (.pointer k) = none :=
  (h.grafted_pointer hs k).trans (h.linking.fresh k hk)

theorem pointed (h : AtTurn doc S r pend a m site) (hs : s.Sound) :
    Pointed doc S r m site.allocated (pointerCell s.parent) s.grafted s.placed := by
  obtain ⟨ptrs, hlists, -⟩ := (h.inv_grafted hs).lists
  exact (hlists.pointed (h.fresh hs le_rfl) rfl rfl h.target).2

theorem inv_placed (h : AtTurn doc S r pend a m site) (hs : s.Sound) :
    Inv doc S r (· ∈ pend) s.placed := by
  obtain ⟨-, q, -, hq, -, hparent⟩ := h.parent hs
  exact inv_pointer (h.inv_grafted hs)
    (((h.grafted hs).kept h.child h.notWalked).noStaged h.linking.dead) (h.fresh hs le_rfl) h.target hq
    hparent

theorem contexts_listed (h : AtTurn doc S r pend a m site) (hs : s.Sound) :
    PointerNodesIn (fun n => ∃ k, n = .pointer k) s.contexts :=
  PointerNodesIn.stages h.linking.ctxs hs ⟨_, rfl⟩

theorem result (h : AtTurn doc S r pend a m site) (hs : s.Sound) :
    Inv doc S r (· ∈ pend) s.result.doc ∧ (∀ c, s.result.doc (.parsed c) = s.placed (.parsed c)) ∧
      ∀ n, (s.result.doc n).isSome = (s.placed n).isSome :=
  setLast_inv s.associated.last (h.contexts_listed hs _ _ hs.associatedContext) (h.inv_placed hs)

theorem kept (h : AtTurn doc S r pend a m site) (hs : s.Sound) :
    Kept doc S r site.doc s.result.doc :=
  (((h.grafted hs).kept h.child h.notWalked).trans (h.pointed hs).kept).trans
    (kept_of_eq (h.result hs).2.1)

/-- Past the graft, the data of nodes of the document stay. -/
theorem data (h : AtTurn doc S r pend a m site) (hs : s.Sound) {c : List ℕ} {cell : Cell NodeId Info}
    (hcell : s.grafted (.parsed c) = some cell) :
    ∃ cell', s.result.doc (.parsed c) = some cell' ∧ cell'.data = cell.data := by
  have hlive := (h.pointed hs).live c
  rw [hcell] at hlive
  obtain ⟨cell', hcell'⟩ := Option.isSome_iff_exists.mp hlive
  obtain ⟨cell'', hcell'', hdata, -⟩ := (h.pointed hs).parsed c cell' hcell'
  rw [hcell, Option.some.injEq] at hcell''
  exact ⟨cell', ((h.result hs).2.1 c).trans hcell', by rw [hdata, hcell'']⟩

theorem linking_result (h : AtTurn doc S r pend a m site) (hs : s.Sound) :
    Linking doc S r pend s.result where
  inv := (h.result hs).1
  dead := (h.kept hs).noStaged h.linking.dead
  fresh k hk := by
    have hk' : site.allocated + 1 ≤ k := hk
    rw [← Option.not_isSome_iff_eq_none, (h.result hs).2.2]
    intro hlive
    obtain ⟨d', hd'⟩ := Option.isSome_iff_exists.mp hlive
    rcases (h.pointed hs).pointer k d' hd' with ⟨rfl, -⟩ | ⟨d, hd, -⟩
    · omega
    · rw [h.fresh hs (by omega)] at hd
      cases hd
  ctxs := (h.contexts_listed hs).drop _
  held c hc hcr := by
    obtain ⟨⟨ctxt, hctxt⟩, hpriv⟩ := h.linking.held c hc hcr
    have hca : NodeId.parsed c ≠ .parsed a := by
      rintro ⟨⟩
      exact h.notWalked hc
    refine ⟨?_, fun cell' hcell' => ?_⟩
    · dsimp only [Stages.result]
      rw [Function.update_of_ne hca, Stages.contexts, Function.update_apply]
      split
      · exact ⟨_, rfl⟩
      · exact ⟨ctxt, hctxt⟩
    · obtain ⟨cell'', hcell'', hdata⟩ := (h.kept hs).data c hc cell' hcell'
      rw [hdata, hpriv cell'' hcell'']

theorem associated (h : AtTurn doc S r pend a m site) (hs : s.Sound) :
    Associated doc S r a m site s.result where
  item := by
    obtain ⟨target, htarget, hpriv⟩ := graft_priv h.intact h.target_not_inside h.first hs.graft
    obtain ⟨cell', hcell', hdata⟩ := h.data hs hs.item
    refine ⟨cell', hcell', ?_⟩
    rw [hdata, hpriv s.cell hs.item]
    exact (h.linking.held m h.target h.notRoot).2 target htarget
  others c hc hca cell hcell := by
    rw [← (h.grafted hs).outside _ (by simpa using hca) (child_not_inside hc a h.child h.notWalked)]
      at hcell
    exact h.data hs hcell
  none := (h.kept hs).none

end AtTurn

/-- An association whose target is walked. -/
theorem linking_associate {site site' : Site} {pend : List (List ℕ)} {a m : List ℕ}
    {content : String} (h : Linking doc S r (a :: pend) site) (hnot : a ∉ pend)
    (ha : Child doc S r a) (hstaged : ¬ StagedAt doc a) (hassoc : AssociationAt doc S a)
    (htext : doc.at? (0 :: a) = some (.text content)) (hm : Walked doc S r m) (hmr : m ≠ r)
    (hok : site.associate (.parsed a) (.parsed m) = .ok site') :
    Linking doc S r pend site' ∧ Associated doc S r a m site site' := by
  obtain ⟨s, hs, rfl⟩ := associate_eq_ok hok
  have hturn : AtTurn doc S r pend a m site := ⟨h, hnot, ha, hstaged, hassoc, ⟨content, htext⟩, hm, hmr⟩
  exact ⟨hturn.linking_result hs, hturn.associated hs⟩

/-- An association that is taken out. -/
theorem linking_remove {site site' : Site} {pend : List (List ℕ)} {a : List ℕ}
    (h : Linking doc S r (a :: pend) site) (hnot : a ∉ pend) (ha : Child doc S r a)
    (hassoc : AssociationAt doc S a) (hok : site.removeNode (.parsed a) = .ok site') :
    Linking doc S r pend
      { site' with contexts := Function.update site'.contexts (.parsed a) none } := by
  have haw := not_walked_of_association ha hassoc
  obtain ⟨σ, lists, -, hσ, rfl⟩ := removeNode_eq_ok hok
  have hsub : ∀ n cell, σ n = some cell → ∃ cell₀, site.doc n = some cell₀ ∧
      cell.data = cell₀.data := by
    obtain ⟨-, -, -, -, hsub, -⟩ := free_eq_some hσ
    exact fun n cell hcell => unlink_eq_some (hsub n cell hcell)
  have hnone : ∀ n, site.doc n = none → σ n = none := by
    intro n hn
    cases hcell : σ n with
    | none => rfl
    | some cell =>
      obtain ⟨cell₀, hcell₀, -⟩ := hsub n cell hcell
      rw [hn] at hcell₀
      cases hcell₀
  refine ⟨?_, fun c hc hs => hnone _ (h.dead c hc hs), fun k hk => hnone _ (h.fresh k hk),
    PointerNodesIn.drop h.ctxs _, fun c hc hcr => ?_⟩
  · exact inv_remove h.inv ha haw (fun _ => List.mem_cons_self) (fun b hb => by simp [hb])
      (Or.inr ⟨hassoc, hnot⟩) hσ
  · obtain ⟨hctxt, hpriv⟩ := h.held c hc hcr
    have hca : NodeId.parsed c ≠ .parsed a := by
      rintro ⟨⟩
      exact haw hc
    refine ⟨?_, fun cell hcell => ?_⟩
    · dsimp only
      rw [Function.update_of_ne hca]
      exact hctxt
    · obtain ⟨cell₀, hcell₀, hdata⟩ := hsub _ cell hcell
      rw [hdata, hpriv cell₀ hcell₀]

/-- A child of a walked node that is an association item of the site. -/
def Item (doc : Document) (S : Structures) (r : List ℕ) (a : List ℕ) : Prop :=
  ElementWith doc S r (fun ps => ¬ Staged ps ∧ Association S ps) a

/-- No association item of the site carries the id that the text of one of them names. -/
def TargetsOrdinary (doc : Document) (S : Structures) (r : List ℕ) : Prop :=
  ∀ a b content attrs, Item doc S r a → doc.at? (0 :: a) = some (.text content) →
    0 < Cpp.atoi content → Item doc S r b → attrsAt doc b = some attrs →
    attrs.id ≠ Cpp.atoi content

/-- The text of an association item is its first child in the document. -/
theorem firstText_intact {site : Site} {a : List ℕ} {text : String}
    (hintact : Intact doc site.doc a) (h : site.firstText (.parsed a) = .ok text)
    (hne : text ≠ "") : doc.at? (0 :: a) = some (.text text) := by
  rw [Site.firstText] at h
  obtain ⟨cell, hcell, h₁⟩ := bind_eq_ok.mp h
  rw [deref_eq_ok] at hcell
  cases hchildren : cell.children with
  | none =>
    rw [hchildren] at h₁
    exact absurd (pure_eq_ok.mp h₁).symm hne
  | some child =>
    rw [hchildren] at h₁
    obtain ⟨childCell, hchild, h₂⟩ := bind_eq_ok.mp h₁
    rw [deref_eq_ok] at hchild
    rw [pure_eq_ok] at h₂
    rw [hintact.children cell hcell] at hchildren
    have hkid := List.mem_of_mem_head? hchildren
    obtain ⟨i, t, ht, rfl⟩ := Document.mem_kidIds.mp hkid
    have h0 : ∃ u, doc.at? (0 :: a) = some u := by
      rw [Document.at?_eq_some_iff]
      have := Document.at?_eq_some_iff.mp ⟨t, ht⟩
      omega
    obtain ⟨u, hu⟩ := h0
    rw [kidIds_head hu] at hchildren
    cases hchildren
    rw [hintact.below _ (List.suffix_cons _ _) (by simp), Document.store, hu] at hchild
    cases hchild
    rw [hu]
    cases u with
    | element name ps children =>
      rw [if_neg (by simp [Tree.info])] at h₂
      exact absurd h₂.symm hne
    | text content =>
      obtain rfl : content = text := h₂
      rfl
    | other content =>
      rw [if_neg (by simp [Tree.info])] at h₂
      exact absurd h₂.symm hne

theorem atoi_empty : Cpp.atoi "" = 0 := by decide

/-- An element of the site that is no association item is walked. -/
theorem walked_of_not_item {c : List ℕ} (hc : ElementWith doc S r (fun ps => ¬ Staged ps) c)
    (hnot : ¬ Item doc S r c) : Walked doc S r c := by
  obtain ⟨i, p, name, ps, children, rfl, hp, hat, hstaged⟩ := hc
  refine .child hp hat hstaged fun hassoc => hnot ?_
  exact ⟨i, p, name, ps, children, rfl, hp, hat, hstaged, hassoc⟩

theorem Item.associationAt {a : List ℕ} (h : Item doc S r a) :
    ¬ StagedAt doc a ∧ AssociationAt doc S a := by
  obtain ⟨i, p, name, ps, children, -, -, hat, hstaged, hassoc⟩ := h
  refine ⟨?_, name, ps, children, hat, hassoc⟩
  rintro ⟨name', ps', children', hat', hstaged'⟩
  rw [hat] at hat'
  cases hat'
  exact hstaged hstaged'

/-- What an association step leaves alone. -/
def SameIndex (site site' : Site) : Prop :=
  site'.nodes = site.nodes ∧ site'.permalinks = site.permalinks ∧
    site'.structures = site.structures ∧ site'.rootNode = site.rootNode

/-- `initializeAssociation` links the item to the node that its text names, or takes it out. -/
theorem initializeAssociation_cases {site site' : Site} {n : NodeId}
    (h : site.initializeAssociation n = .ok site') :
    ∃ text, site.firstText n = .ok text ∧
      ((∃ m, 0 < Cpp.atoi text ∧ site.nodes (Cpp.atoi text) = some m ∧
          site.associate n m = .ok site') ∨
        ((0 < Cpp.atoi text → site.nodes (Cpp.atoi text) = none) ∧
          ∃ site₁, site.removeNode n = .ok site₁ ∧
            site' = { site₁ with contexts := Function.update site₁.contexts n none })) := by
  rw [Site.initializeAssociation] at h
  obtain ⟨text, htext, h₁⟩ := bind_eq_ok.mp h
  refine ⟨text, htext, ?_⟩
  dsimp only at h₁
  split at h₁
  · next m hm =>
    split at hm
    · next hpos => exact Or.inl ⟨m, hpos, hm, h₁⟩
    · cases hm
  · next hnone =>
    obtain ⟨site₁, hremove, h₂⟩ := bind_eq_ok.mp h₁
    cases h₂
    refine Or.inr ⟨fun hpos => ?_, site₁, hremove, rfl⟩
    rwa [if_pos hpos] at hnone

theorem initializeAssociation_sameIndex {site site' : Site} {n : NodeId}
    (h : site.initializeAssociation n = .ok site') : SameIndex site site' := by
  obtain ⟨text, -, ⟨m, -, -, hassociate⟩ | ⟨-, site₁, hremove, rfl⟩⟩ :=
    initializeAssociation_cases h
  · obtain ⟨s, -, rfl⟩ := associate_eq_ok hassociate
    exact ⟨rfl, rfl, rfl, rfl⟩
  · obtain ⟨σ, lists, -, -, rfl⟩ := removeNode_eq_ok hremove
    exact ⟨rfl, rfl, rfl, rfl⟩

/-- An item still to come is as parsed. -/
theorem Linking.intact {site : Site} {pend : List (List ℕ)} {a : List ℕ}
    (h : Linking doc S r (a :: pend) site) (ha : Item doc S r a) : Intact doc site.doc a := by
  have hchild := ElementWith.child ha
  obtain ⟨hstaged, hassoc⟩ := ha.associationAt
  obtain ⟨cell, hcell⟩ := h.inv.alive a hchild hstaged fun _ => List.mem_cons_self
  exact h.inv.intact a hchild (not_walked_of_association hchild hassoc)
    (fun _ => List.mem_cons_self) cell hcell

/-- The node that the text of an item names is walked. -/
theorem target_walked {site : Site} {a : List ℕ} {text : String} {n : NodeId}
    (hidx : Indexed doc S r site) (hord : TargetsOrdinary doc S r) (ha : Item doc S r a)
    (hintact : Intact doc site.doc a) (htext : site.firstText (.parsed a) = .ok text)
    (hpos : 0 < Cpp.atoi text) (hn : site.nodes (Cpp.atoi text) = some n) :
    doc.at? (0 :: a) = some (.text text) ∧ ∃ c, n = .parsed c ∧ Walked doc S r c ∧ c ≠ r := by
  have hne : text ≠ "" := by
    rintro rfl
    rw [atoi_empty] at hpos
    omega
  have hat := firstText_intact hintact htext hne
  obtain ⟨c, attrs, rfl, hc, hattrs, hid⟩ := hidx.nodes _ n hn
  have hwalked := walked_of_not_item hc fun hitem =>
    hord a c text attrs ha hat hpos hitem hattrs hid
  exact ⟨hat, c, rfl, hwalked, child_ne_root (ElementWith.child hc)⟩

theorem linking_step {site site' : Site} {pend : List (List ℕ)} {a : List ℕ}
    (hidx : Indexed doc S r site) (hord : TargetsOrdinary doc S r)
    (h : Linking doc S r (a :: pend) site) (hnot : a ∉ pend) (ha : Item doc S r a)
    (hok : site.initializeAssociation (.parsed a) = .ok site') : Linking doc S r pend site' := by
  have hchild := ElementWith.child ha
  obtain ⟨hstaged, hassoc⟩ := ha.associationAt
  obtain ⟨text, htext, ⟨n, hpos, hn, hassociate⟩ | ⟨-, site₁, hremove, rfl⟩⟩ :=
    initializeAssociation_cases hok
  · obtain ⟨hat, c, rfl, hwalked, hroot⟩ :=
      target_walked hidx hord ha (h.intact ha) htext hpos hn
    exact (linking_associate h hnot hchild hstaged hassoc hat hwalked hroot hassociate).1
  · exact linking_remove h hnot hchild hassoc hremove

theorem sameIndex_run : ∀ {ns : List NodeId} {site site' : Site},
    ns.foldlM Site.initializeAssociation site = .ok site' → SameIndex site site'
  | [], site, site', hok => by
      cases hok
      exact ⟨rfl, rfl, rfl, rfl⟩
  | n :: ns, site, site', hok => by
      obtain ⟨site₁, hstep, hrest⟩ := bind_eq_ok.mp hok
      obtain ⟨hnodes, hperm, hstruct, hroot⟩ := initializeAssociation_sameIndex hstep
      obtain ⟨hnodes', hperm', hstruct', hroot'⟩ := sameIndex_run hrest
      exact ⟨hnodes'.trans hnodes, hperm'.trans hperm, hstruct'.trans hstruct, hroot'.trans hroot⟩

theorem Indexed.congr {site site' : Site} (h : Indexed doc S r site) (hsame : SameIndex site site') :
    Indexed doc S r site' := by
  obtain ⟨hnodes, hperm, -, -⟩ := hsame
  exact ⟨by rw [hnodes]; exact h.nodes, by rw [hperm]; exact h.permalinks⟩

theorem linking_run (hord : TargetsOrdinary doc S r) : ∀ {pend : List (List ℕ)}
    {site site' : Site}, Indexed doc S r site → Linking doc S r pend site → pend.Nodup →
    (∀ a ∈ pend, Item doc S r a) →
    (pend.map NodeId.parsed).foldlM Site.initializeAssociation site = .ok site' →
    Linking doc S r [] site'
  | [], site, site', _, h, _, _, hok => by
      cases hok
      exact h
  | a :: pend, site, site', hidx, h, hnodup, hitems, hok => by
      obtain ⟨site₁, hstep, hrest⟩ := bind_eq_ok.mp hok
      obtain ⟨hnot, hnodup'⟩ := List.nodup_cons.mp hnodup
      have h₁ := linking_step hidx hord h hnot (hitems a List.mem_cons_self) hstep
      exact linking_run hord (hidx.congr (initializeAssociation_sameIndex hstep)) h₁ hnodup'
        (fun b hb => hitems b (List.mem_cons_of_mem _ hb)) hrest

end VaeDb.Staging
