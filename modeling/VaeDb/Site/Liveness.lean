import VaeDb.Site.Tangles

/-! Whether the entries of a loaded site lead to nodes of the tree.

    An ordinary element stays where it is, and so does an item that resolves: it comes to have the
    Context of an ordinary element. All other items that an id or a permalink leads to are dangling,
    or have a Context that is deleted.

        nodes 4 ──▶ link 4 "1" ──▶ Context of page 1       nodes 5 ──▶ ✂ link 5 "99" -/

namespace VaeDb.Indexes
open Schemes Xml Walk Staging

variable {doc : Document} {S : Structures} {r : List ℕ} {site site' : Site} {a b t : List ℕ}
  {pend done : List (List ℕ)}

/-! ### While associations are dealt with -/

/-- The site while associations are dealt with, if every item that is named resolves; `done` are those
    that were, and `pend` those to come. -/
structure Resolving (doc : Document) (S : Structures) (r : List ℕ) (done pend : List (List ℕ))
    (site : Site) : Prop where
  worded : Worded doc S r site
  orderly : Orderly doc S r (fun t => t ∈ done ∧ Resolves doc S r t) site.doc
  held : ∀ c, Walked doc S r c → c ≠ r → (∃ ctxt, site.contexts (.parsed c) = some ctxt) ∧
    ∀ cell, site.doc (.parsed c) = some cell → cell.data.priv = some (.parsed c)
  fresh : ∀ k, site.allocated ≤ k → site.doc (.pointer k) = none
  pending : ∀ b ∈ pend, (∃ cell, site.doc (.parsed b) = some cell) ∧
    (Untouched doc site.doc b ∨ Resolves doc S r b ∧ Tangled doc S r done site.doc b)
  settled : ∀ b ∈ done, Resolves doc S r b → ∃ cell m, site.doc (.parsed b) = some cell ∧
    cell.data.priv = some (.parsed m) ∧ Walked doc S r m ∧ m ≠ r

/-- An item that another turn spares keeps its `_private`. -/
theorem Spares.owned {E F : List ℕ → Prop} {Q : List ℕ → Prop} {σ σ' : Store}
    (h : Spares doc S r a E F σ σ') (hb : Item doc S r b) (hba : b ≠ a)
    (howned : ∃ cell m, σ (.parsed b) = some cell ∧ cell.data.priv = some (.parsed m) ∧ Q m) :
    ∃ cell m, σ' (.parsed b) = some cell ∧ cell.data.priv = some (.parsed m) ∧ Q m := by
  obtain ⟨cell, m, hcell, hpriv, hm⟩ := howned
  obtain ⟨cell', hcell', hdata, -⟩ := h.item b hb hba cell hcell
  exact ⟨cell', m, hcell', by rw [hdata, hpriv], hm⟩

/-- An item that names nothing is taken out. -/
theorem Resolving.remove {site₁ : Site} (h : Resolving doc S r done (a :: pend) site)
    (hturn : Turn doc S r done a pend) (hnames : ¬ ∃ t, Names doc S r a t)
    (hremove : site.removeNode (.parsed a) = .ok site₁)
    (hw : Worded doc S r
      { site₁ with contexts := Function.update site₁.contexts (.parsed a) none }) :
    Resolving doc S r (done ++ [a]) pend
      { site₁ with contexts := Function.update site₁.contexts (.parsed a) none } := by
  have ha := hturn.item
  have hachild := ElementWith.child ha
  have haw := item_not_walked ha
  have hres : ¬ Resolves doc S r a := fun hres => hnames hres.names
  have hun : Untouched doc site.doc a :=
    (h.pending a List.mem_cons_self).2.resolve_right fun htangled => hres htangled.1
  obtain ⟨σ, lists, -, hσ, rfl⟩ := removeNode_eq_ok hremove
  obtain ⟨u, p, tree, rfl, hp, -⟩ := id hachild
  have hout : TakenOut site.doc σ (u :: p) := (h.orderly.chain p hp).takenOut hun.intact hσ
  have hspares := spares_takenOut h.orderly.chain ha hout
  have horderly : Orderly doc S r (fun t => t ∈ done ∧ Resolves doc S r t) σ :=
    h.orderly.remove hachild haw (fun t ht => ElementWith.child (hturn.done_item ht.1)) hout
  refine ⟨hw, ⟨horderly.chain, fun t ht => horderly.ends t (ht.imp id ?_)⟩, fun c hc hcr => ?_,
    fun k hk => hout.none _ (h.fresh k hk), fun b hb => ?_, fun b hb hbres => ?_⟩
  · rintro ⟨ht, htres⟩
    rcases List.mem_append.mp ht with ht | ht
    · exact ⟨ht, htres⟩
    · exact absurd (List.mem_singleton.mp ht ▸ htres) hres
  · obtain ⟨hctxt, hpriv⟩ := h.held c hc hcr
    have hca : NodeId.parsed c ≠ .parsed (u :: p) := by
      rintro ⟨⟩
      exact haw hc
    refine ⟨?_, fun cell' hcell' => ?_⟩
    · dsimp only
      rwa [Function.update_of_ne hca]
    · obtain ⟨cell, hcell, hdata⟩ := hspares.walked c hc cell' hcell'
      rw [hdata, hpriv cell hcell]
  · have hba := hturn.pend_ne hb
    have hbitem := hturn.pend_item hb
    obtain ⟨⟨cell, hcell⟩, hcase⟩ := h.pending b (List.mem_cons_of_mem _ hb)
    obtain ⟨cell', hcell', -, -, hlast⟩ := hspares.item b hbitem hba cell hcell
    refine ⟨⟨cell', hcell'⟩, ?_⟩
    rcases hcase with hcase | ⟨hbres, htangled⟩
    · exact .inl (hspares.untouched hbitem hba id id hcell hcase)
    · refine .inr ⟨hbres, hspares.tangled hbitem hba id (fun _ _ hor => (or_self_iff.mp hor).elim)
        hturn.notDone (fun d hd => ?_) htangled⟩
      obtain rfl := Option.some.inj (hcell'.symm.trans hd)
      rw [hlast id]
      exact htangled.last cell hcell
  · rcases List.mem_append.mp hb with hb | hb
    · exact hspares.owned (hturn.done_item hb) (hturn.done_ne hb) (h.settled b hb hbres)
    · exact absurd (List.mem_singleton.mp hb ▸ hbres) hres

/-- Where the last child of the target may be. -/
theorem Resolving.lastAt {target : Cell NodeId Info} (h : Resolving doc S r done (a :: pend) site)
    (hturn : Turn doc S r done a pend) (ht : Walked doc S r t ∨ Item doc S r t)
    (hres : Item doc S r t → Resolves doc S r t) (hta : t ≠ a)
    (htarget : site.doc (.parsed t) = some target) : LastAt doc S r t site.doc target := by
  intro n hn
  rcases ht with hwalked | hitem
  · exact .inl (h.orderly.ends t (.inl hwalked) target htarget n hn)
  · rcases hturn.others hitem hta with htd | htp
    · exact .inl (h.orderly.ends t (.inr ⟨htd, hres hitem⟩) target htarget n hn)
    · rcases (h.pending t (List.mem_cons_of_mem _ htp)).2 with hun | ⟨-, htangled⟩
      · refine .inr ⟨hitem, ?_⟩
        rw [hun.last target htarget] at hn
        obtain ⟨i, tree, -, rfl⟩ := Document.mem_kidIds.mp (List.mem_of_getLast? hn)
        exact inside_cons List.suffix_rfl
      · exact .inl (.inl (htangled.last target htarget n hn))

/-- The item `u :: p` is associated with the node at `t` at its turn. -/
structure Meeting (doc : Document) (S : Structures) (r : List ℕ) (done pend : List (List ℕ)) (u : ℕ)
    (p t : List ℕ) (target : Cell NodeId Info) (site site' : Site) : Prop where
  turn : Turn doc S r done (u :: p) pend
  names : Names doc S r (u :: p) t
  walkedOrItem : Walked doc S r t ∨ Item doc S r t
  resolves : Item doc S r t → Resolves doc S r t
  ne : t ≠ u :: p
  parent : Walked doc S r p
  untouched : Untouched doc site.doc (u :: p)
  lastAt : LastAt doc S r t site.doc target
  joined : Joined (u :: p) t p site.allocated target site.doc site'.doc

/-- An item that names an element is as parsed, and does not name itself. -/
theorem Resolving.meeting {s : Stages site (.parsed a) (.parsed t)}
    (h : Resolving doc S r done (a :: pend) site) (hturn : Turn doc S r done a pend)
    (hentries : EntriesResolve doc S r) (hnames : Names doc S r a t) (hs : s.Sound) :
    ∃ u p target, a = u :: p ∧ Meeting doc S r done pend u p t target site s.result := by
  have ha := hturn.item
  obtain ⟨content, hat, -⟩ := id hnames
  have ht := hnames.walked_or_item h.worded
  have hres : Item doc S r t → Resolves doc S r t := fun hitem => hentries t hitem hnames.entry
  have hun : Untouched doc site.doc a :=
    (h.pending a List.mem_cons_self).2.resolve_right fun htangled =>
      htangled.2.stuck h.orderly.chain h.worded ha hat hs
  have hta : t ≠ a := by
    rintro rfl
    rcases hturn.resolves (hres ha) hnames with hwalked | ⟨hdone, -⟩
    · exact item_not_walked ha hwalked
    · exact hturn.notDone hdone
  obtain ⟨u, p, tree, rfl, hp, -⟩ := ElementWith.child ha
  obtain ⟨target, hj⟩ := joined hs h.worded.ctxs hun.intact hta (target_outside ht ha)
    (kidIds_head hat) rfl ((h.orderly.chain p hp).parent u)
  exact ⟨u, p, target, rfl, hturn, hnames, ht, hres, hta, hp, hun,
    h.lastAt hturn ht hres hta hj.there, hj⟩

namespace Meeting

variable {u : ℕ} {p : List ℕ} {target : Cell NodeId Info}

theorem spares (h : Meeting doc S r done pend u p t target site site')
    (hr : Resolving doc S r done ((u :: p) :: pend) site) :
    Spares doc S r (u :: p) (fun b => b = t) (fun b => b = t ∧ ∃ n ∈ target.last, Inside t n)
      site.doc site'.doc :=
  spares_joined h.turn.item h.walkedOrItem h.lastAt (hr.fresh _ le_rfl) h.joined

theorem orderly (h : Meeting doc S r done pend u p t target site site')
    (hr : Resolving doc S r done ((u :: p) :: pend) site) :
    Orderly doc S r (fun t => t ∈ done ++ [u :: p] ∧ Resolves doc S r t) site'.doc := by
  refine orderly_joined hr.orderly h.turn.item h.lastAt h.joined (fun x hx => ?_) fun hx n hn => ?_
  · rcases List.mem_append.mp hx.1 with hxd | hxa
    · exact .inl ⟨⟨hxd, hx.2⟩, h.turn.done_item hxd⟩
    · exact .inr (List.mem_singleton.mp hxa)
  · exact hr.orderly.ends t (h.turn.resolves hx.2 h.names) target h.joined.there n hn

/-- The last child of the target is the pointer node now. -/
theorem last (h : Meeting doc S r done pend u p t target site site') {cell : Cell NodeId Info}
    (hcell : site'.doc (.parsed t) = some cell) : ∀ n ∈ cell.last, ∃ k, n = .pointer k := by
  intro n hn
  obtain ⟨cell', hcell', hhung⟩ :=
    h.joined.parsed t h.ne (target_outside h.walkedOrItem h.turn.item) target h.joined.there
  obtain rfl := Option.some.inj (hcell.symm.trans hcell')
  rw [hhung.last, if_pos rfl, Option.mem_def, Option.some.injEq] at hn
  exact ⟨_, hn.symm⟩

/-- If the item that is named is to come, a circle closes. -/
theorem closes (h : Meeting doc S r done pend u p t target site site')
    (hr : Resolving doc S r done ((u :: p) :: pend) site) (ht : t ∈ pend)
    (hun : Untouched doc site.doc t) :
    Resolves doc S r t ∧ Tangled doc S r (done ++ [u :: p]) site'.doc t := by
  have hitem := h.turn.pend_item ht
  have hres := h.resolves hitem
  obtain ⟨content, hat, -⟩ := h.names
  obtain ⟨m, content', hat', -⟩ := hres.names
  obtain ⟨i, htangle⟩ := tangle_joined h.turn.item hitem h.ne (hr.orderly.chain p h.parent) hun
    (kidIds_head hat) h.untouched.intact (Document.at?_eq_some_iff.mp ⟨_, hat'⟩) h.joined
  refine ⟨hres, fun d hd => h.last hd, _, p, i, u, h.parent, h.turn.item, by simp, fun hares => ?_,
    htangle⟩
  rcases h.turn.resolves hares h.names with hwalked | ⟨hdone, -⟩
  · exact item_not_walked hitem hwalked
  · exact h.turn.apart hdone ht

/-- The items to come are as parsed or on circles. -/
theorem pending (h : Meeting doc S r done pend u p t target site site')
    (hr : Resolving doc S r done ((u :: p) :: pend) site) (hb : b ∈ pend) :
    (∃ cell, site'.doc (.parsed b) = some cell) ∧ (Untouched doc site'.doc b ∨
      Resolves doc S r b ∧ Tangled doc S r (done ++ [u :: p]) site'.doc b) := by
  have hba := h.turn.pend_ne hb
  have hbitem := h.turn.pend_item hb
  have hspares := h.spares hr
  obtain ⟨⟨cell, hcell⟩, hcase⟩ := hr.pending b (List.mem_cons_of_mem _ hb)
  obtain ⟨cell', hcell', -, -, hkeep⟩ := hspares.item b hbitem hba cell hcell
  refine ⟨⟨cell', hcell'⟩, ?_⟩
  rcases hcase with hun | ⟨hbres, htangled⟩
  · by_cases hbt : b = t
    · subst hbt
      exact .inr (h.closes hr hb hun)
    · exact .inl (hspares.untouched hbitem hba hbt (fun hF => hbt hF.1) hcell hun)
  · refine .inr ⟨hbres, hspares.tangled hbitem hba ?_ ?_ h.turn.notDone (fun d hd n hn => ?_)
      htangled⟩
    · rintro ⟨rfl, n, hn, q, rfl, -⟩
      obtain ⟨k, ⟨⟩⟩ := htangled.last target h.joined.there _ hn
    · rintro c hc (rfl | ⟨rfl, -⟩)
      · exact h.resolves hc
      · exact h.resolves hc
    · by_cases hbt : b = t
      · exact h.last (hbt ▸ hd) n hn
      · obtain rfl := Option.some.inj (hcell'.symm.trans hd)
        rw [hkeep hbt] at hn
        exact htangled.last cell hcell n hn

/-- An item that resolves comes to have the Context of an ordinary element. -/
theorem settled (h : Meeting doc S r done pend u p t target site site')
    (hr : Resolving doc S r done ((u :: p) :: pend) site) (hres : Resolves doc S r (u :: p)) :
    ∃ cell m, site'.doc (.parsed (u :: p)) = some cell ∧ cell.data.priv = some (.parsed m) ∧
      Walked doc S r m ∧ m ≠ r := by
  obtain ⟨-, cell', -, hcell', -, -, -, -, hpriv, -⟩ := h.joined.item
  rcases h.turn.resolves hres h.names with hwalked | ⟨hdone, htres⟩
  · have htr := child_ne_root (h.names.child hr.worded)
    exact ⟨cell', t, hcell', hpriv.trans ((hr.held t hwalked htr).2 target h.joined.there),
      hwalked, htr⟩
  · obtain ⟨cell, m, hcell, hown, hm⟩ := hr.settled t hdone htres
    obtain rfl := Option.some.inj (hcell.symm.trans h.joined.there)
    exact ⟨cell', m, hcell', hpriv.trans hown, hm⟩

end Meeting

/-- An item that names an element is associated with it. -/
theorem Resolving.associate {s : Stages site (.parsed a) (.parsed t)}
    (h : Resolving doc S r done (a :: pend) site) (hturn : Turn doc S r done a pend)
    (hentries : EntriesResolve doc S r) (hnames : Names doc S r a t) (hs : s.Sound)
    (hw : Worded doc S r s.result) : Resolving doc S r (done ++ [a]) pend s.result := by
  obtain ⟨u, p, target, rfl, hmeet⟩ := h.meeting hturn hentries hnames hs
  have hspares := hmeet.spares h
  refine ⟨hw, hmeet.orderly h, fun c hc hcr => ?_, fun k hk => ?_, fun b hb => hmeet.pending h hb,
    fun b hb hbres => ?_⟩
  · obtain ⟨⟨ctxt, hctxt⟩, hpriv⟩ := h.held c hc hcr
    have hca : NodeId.parsed c ≠ .parsed (u :: p) := by
      rintro ⟨⟩
      exact item_not_walked hturn.item hc
    refine ⟨?_, fun cell' hcell' => ?_⟩
    · dsimp only [Stages.result]
      rw [Function.update_of_ne hca, Stages.contexts, Function.update_apply]
      split
      · exact ⟨_, rfl⟩
      · exact ⟨ctxt, hctxt⟩
    · obtain ⟨cell, hcell, hdata⟩ := hspares.walked c hc cell' hcell'
      rw [hdata, hpriv cell hcell]
  · have hk' : site.allocated + 1 ≤ k := hk
    exact hmeet.joined.fresh k (by omega) (h.fresh k (by omega))
  · rcases List.mem_append.mp hb with hb | hb
    · exact hspares.owned (hturn.done_item hb) (hturn.done_ne hb) (h.settled b hb hbres)
    · obtain rfl := List.mem_singleton.mp hb
      exact hmeet.settled h hbres

/-! ### All items -/

theorem Resolving.step (h : Resolving doc S r done (a :: pend) site)
    (hturn : Turn doc S r done a pend) (hentries : EntriesResolve doc S r)
    (hok : site.initializeAssociation (.parsed a) = .ok site') :
    Resolving doc S r (done ++ [a]) pend site' := by
  have hw := h.worded.step hturn.item hok
  rcases h.worded.cases hturn.item hok with ⟨t, hnames, s, hs, rfl⟩ | ⟨hnames, site₁, hremove, rfl⟩
  · exact h.associate hturn hentries hnames hs hw
  · exact h.remove hturn hnames hremove hw

theorem resolving_run (hentries : EntriesResolve doc S r) : ∀ {pend done : List (List ℕ)}
    {site site' : Site}, items doc S r = done ++ pend → Resolving doc S r done pend site →
    (pend.map NodeId.parsed).foldlM Site.initializeAssociation site = .ok site' →
    Resolving doc S r (items doc S r) [] site'
  | [], done, site, site', hitems, h, hok => by
      cases hok
      rwa [hitems, List.append_nil]
  | a :: pend, done, site, site', hitems, h, hok => by
      obtain ⟨site₁, hstep, hrest⟩ := bind_eq_ok.mp hok
      refine resolving_run hentries ?_ (h.step (turn hitems) hentries hstep) hrest
      rw [hitems, List.append_assoc, List.singleton_append]

theorem fated_run : ∀ {pend done : List (List ℕ)} {site site' : Site},
    items doc S r = done ++ pend → Worded doc S r site → Fated doc S r done site →
    (pend.map NodeId.parsed).foldlM Site.initializeAssociation site = .ok site' →
    Fated doc S r (items doc S r) site'
  | [], done, site, site', hitems, _, h, hok => by
      cases hok
      rwa [hitems, List.append_nil]
  | a :: pend, done, site, site', hitems, hw, h, hok => by
      obtain ⟨site₁, hstep, hrest⟩ := bind_eq_ok.mp hok
      have ha := (turn hitems).item
      refine fated_run ?_ (hw.step ha hstep) (h.step hw hitems hstep) hrest
      rw [hitems, List.append_assoc, List.singleton_append]

/-- After the walk, all items are as parsed, with their own Contexts. -/
theorem walk_resolving {site₀ : Site} (hr : r = [] ∨ ∃ t, doc.at? r = some t)
    (hstore : site₀.doc = doc.store) (hnodes : site₀.nodes = fun _ => none)
    (hpermalinks : ∀ s, site₀.permalinks s = none) (hctxs : ∀ n, site₀.contexts n = none)
    (htrace : Trace (Step doc) site₀ (walkKids S r 0 (doc.kids r)) site) :
    Resolving doc S r [] (items doc S r) site ∧ Fated doc S r [] site := by
  have hnodes₀ : ∀ id, site₀.nodes id = none := fun id => by rw [hnodes]
  have hwalking := walk_walking hr hstore hnodes₀ hpermalinks hctxs htrace
  have hlinking := walking_linking rfl htrace hwalking
  obtain ⟨horderly, hlast⟩ := walk_orderly hr hstore hnodes₀ hpermalinks hctxs htrace
  have hintact : ∀ a, Item doc S r a → Intact doc site.doc a ∧
      ∃ cell, site.doc (.parsed a) = some cell := by
    intro a ha
    have hachild := ElementWith.child ha
    obtain ⟨cell, hcell⟩ := hwalking.inv.alive a hachild ha.associationAt.1 fun _ => trivial
    exact ⟨hwalking.inv.intact a hachild (item_not_walked ha) (fun _ => trivial) cell hcell,
      cell, hcell⟩
  refine ⟨⟨⟨?_, hwalking.indexed, hlinking.ctxs, fun i p cell ha hcell m hm => ?_,
      fun a cell ha hcell => .inl ((hintact a ha).1.children cell hcell),
      fun a cell ha hcell => ⟨cell, ?_, rfl⟩, fun k cell hcell => ?_⟩,
      ⟨horderly.chain, fun t ht => horderly.ends t (ht.imp id fun ht => absurd ht.1 (by simp))⟩,
      hlinking.held, fun k _ => hwalking.noPointer k, fun a ha => ?_, fun a ha => by simp at ha⟩,
    fun a ha => by simp at ha, fun a ha _ cell hcell => ?_, fun a ha => by simp at ha⟩
  · rw [(trace_index htrace).1, hnodes]
    rfl
  · rw [parent_eq hwalking.inv (ElementWith.child ha) hcell] at hm
    exact (Option.some.inj hm).symm
  · rwa [← (hintact a ha).1.below _ (List.suffix_cons _ _) (by simp)]
  · rw [hwalking.noPointer] at hcell
    cases hcell
  · obtain ⟨hsame, hcell⟩ := hintact a (mem_items.mp ha)
    exact ⟨hcell, .inl ⟨hsame, hlast a (mem_items.mp ha)⟩⟩
  · obtain ⟨i, p, name, ps, children, rfl, hp, hat, hstaged, hassoc⟩ := ha
    have henter : .enter (i :: p) ∈ walkKids S r 0 (doc.kids r) := by
      refine walkNode_subset hp hat ?_
      rw [walkNode, if_neg hstaged, if_pos hassoc]
      simp
    have heffect : Effect (.enter (i :: p)) site := htrace.effect effect_step effect_keep henter
    exact heffect.2 cell hcell

/-! ### The entries -/

/-- The node is linked below the root, and its `_private` is a Context that was not deleted. -/
def Live (site : Site) (n : NodeId) : Prop :=
  ∃ root cell p ctxt, site.rootNode = some root ∧ Below site.doc root n ∧
    site.doc n = some cell ∧ cell.data.priv = some p ∧ site.contexts p = some ctxt

/-- Every node in the two indexes is live. -/
def IndexesLive (site : Site) : Prop :=
  (∀ id n, site.nodes id = some n → Live site n) ∧
    ∀ s n, site.permalinks s = some n → Live site n

/-- Walked nodes stay linked. -/
theorem walked_below (h : ∀ p, Walked doc S r p → KidChain site.doc p) {q : List ℕ}
    (hq : Walked doc S r q) : q = r ∨ Below site.doc (.parsed r) (.parsed q) := by
  induction hq with
  | root => exact .inl rfl
  | @child p i name ps children hp hat hstaged hassoc ih =>
    obtain ⟨cell, hcell⟩ := (h _ (.child hp hat hstaged hassoc)).here
    exact .inr ((h p hp).below (ih.imp (fun heq => by rw [heq]) id) i cell hcell)

/-- An element of the site is live at the end, if it is walked or resolves. -/
theorem Resolving.live (h : Resolving doc S r (items doc S r) [] site)
    (hroot : site.rootNode = some (.parsed r)) {c : List ℕ}
    (hc : ElementWith doc S r (fun ps => ¬ Staged ps) c)
    (hres : Item doc S r c → Resolves doc S r c) : Live site (.parsed c) := by
  obtain ⟨i, p, t, rfl, hp, ht⟩ := ElementWith.child hc
  have hbelow := (h.orderly.chain p hp).below
    ((walked_below h.orderly.chain hp).imp (fun heq => by rw [heq]) id) i
  by_cases hitem : Item doc S r (i :: p)
  · obtain ⟨cell, m, hcell, hpriv, hm, hmr⟩ :=
      h.settled (i :: p) (mem_items.mpr hitem) (hres hitem)
    obtain ⟨⟨ctxt, hctxt⟩, -⟩ := h.held m hm hmr
    exact ⟨_, cell, _, ctxt, hroot, hbelow cell hcell, hcell, hpriv, hctxt⟩
  · have hw := walked_of_not_item hc hitem
    obtain ⟨⟨ctxt, hctxt⟩, hpriv⟩ := h.held _ hw (child_ne_root (ElementWith.child hc))
    obtain ⟨cell, hcell⟩ := (h.orderly.chain _ hw).here
    exact ⟨_, cell, _, ctxt, hroot, hbelow cell hcell, hcell, hpriv cell hcell, hctxt⟩

/-- A production site. -/
theorem indexesLive_production {lib : Libxml} {su rawxml : String} {keys : List String}
    (hdoc : lib.xmlReadMemory rawxml = some doc)
    (hload : (Site.blank su false keys).loadXmlDoc lib rawxml = .ok site) :
    ∃ r, site.rootNode = some (.parsed r) ∧
      (IndexesLive site ↔ EntriesResolve doc site.structures r) := by
  obtain ⟨root, design, site₁, site₂, generation, hcontent, hassoc, rfl⟩ :=
    loadXmlDoc_phases hdoc hload
  obtain ⟨r, rfl, hr, htrace⟩ := loadContent_trace rfl rfl hcontent
  obtain ⟨hroot, hindexed, pend, rfl, -, -, -, hpend⟩ :=
    walk_linking hr rfl (fun _ => rfl) (fun _ => rfl) (fun _ => rfl) rfl htrace
  obtain ⟨hresolving, hfated⟩ := walk_resolving hr rfl rfl (fun _ => rfl) (fun _ => rfl) htrace
  obtain ⟨hnodes, hpermalinks⟩ := trace_index htrace
  rw [hpend] at hassoc
  have hsame := sameIndex_run hassoc
  have hindexed' := hindexed.congr hsame
  obtain ⟨hnodes', hpermalinks', hstruct, hroot'⟩ := hsame
  have hfeed : site₂.nodes = feedNodes doc site₁.structures r := hnodes'.trans hnodes
  have hfeed' : site₂.permalinks = feedPermalinks doc site₁.structures r :=
    hpermalinks'.trans hpermalinks
  refine ⟨r, hroot'.trans hroot, ?_⟩
  dsimp only
  rw [hstruct]
  change IndexesLive site₂ ↔ _
  constructor
  · rintro ⟨hids, hlinks⟩
    refine (fated_run rfl hresolving.worded hfated hassoc).resolve fun a ha hentry => ?_
    have hlive : Live site₂ (.parsed a) := by
      rcases hentry with ⟨id, hid⟩ | ⟨s, hs⟩
      · exact hids id _ (hfeed ▸ hid)
      · exact hlinks s _ (hfeed' ▸ hs)
    obtain ⟨-, cell, p, ctxt, -, -, hcell, hpriv, hctxt⟩ := hlive
    exact ⟨cell, p, ctxt, hcell, hpriv, hctxt⟩
  · intro hentries
    have hend := resolving_run hentries rfl hresolving hassoc
    refine ⟨fun id n hn => ?_, fun s n hn => ?_⟩
    · obtain ⟨c, attrs, rfl, hc, -⟩ := hindexed'.nodes id n hn
      exact hend.live (hroot'.trans hroot) hc fun hitem =>
        hentries c hitem (.inl ⟨id, hfeed ▸ hn⟩)
    · obtain ⟨c, rfl, hc⟩ := hindexed'.permalinks s n hn
      exact hend.live (hroot'.trans hroot) hc fun hitem =>
        hentries c hitem (.inr ⟨s, hfeed' ▸ hn⟩)

/-! ### Both modes -/

theorem live_unstaged {n : NodeId} : Live site.unstaged n ↔ Live site n := by
  constructor
  · rintro ⟨root, cell, p, ctxt, hroot, hbelow, hcell, hpriv, hctxt⟩
    obtain ⟨cell, hcell', rfl⟩ := Option.map_eq_some_iff.mp hcell
    exact ⟨root, cell, p, ctxt, hroot, Heap.below_map.mp hbelow, hcell', hpriv, hctxt⟩
  · rintro ⟨root, cell, p, ctxt, hroot, hbelow, hcell, hpriv, hctxt⟩
    exact ⟨root, _, p, ctxt, hroot, Heap.below_map.mpr hbelow, Heap.map_of_some hcell, hpriv, hctxt⟩

theorem indexesLive_unstaged : IndexesLive site.unstaged ↔ IndexesLive site := by
  constructor
  · exact fun ⟨hids, hlinks⟩ => ⟨fun id n hn => live_unstaged.mp (hids id n hn),
      fun s n hn => live_unstaged.mp (hlinks s n hn)⟩
  · exact fun ⟨hids, hlinks⟩ => ⟨fun id n hn => live_unstaged.mpr (hids id n hn),
      fun s n hn => live_unstaged.mpr (hlinks s n hn)⟩

/-- CORRECT: the indexes of a loaded site hold live nodes only, exactly if every association item that
    an id or a permalink leads to resolves. -/
theorem loadXmlDoc_indexesLive {lib : Libxml} {su rawxml : String} {keys : List String}
    {stagingMode : Bool} (hdoc : lib.xmlReadMemory rawxml = some doc)
    (hload : (Site.blank su stagingMode keys).loadXmlDoc lib rawxml = .ok site) :
    ∃ r, site.rootNode = some (.parsed r) ∧
      (IndexesLive site ↔ EntriesResolve (seenBy stagingMode doc) site.structures r) := by
  cases stagingMode with
  | false => exact indexesLive_production hdoc hload
  | true =>
    have hdoc' : lib.unstaged.xmlReadMemory rawxml = some doc.unstaged :=
      congrArg (Option.map Document.unstaged) hdoc
    obtain ⟨r, hroot, hiff⟩ := indexesLive_production hdoc' (loadXmlDoc_staging hload)
    refine ⟨r, hroot, ?_⟩
    rw [← indexesLive_unstaged]
    exact hiff

/-- A feed in which link 6 names link 4, and that one page 1. -/
def chainedFeed : Document :=
  [.element "website" [] [
    .element "content" [] [
      .element "page" [("id", some "1")] [.element "title" [("id", some "2")] []],
      .element "page" [("id", some "3")] [
        .element "link" [("id", some "4"), ("type", some "9")] [.text "1"]],
      .element "page" [("id", some "7")] [
        .element "link" [("id", some "6"), ("type", some "9")] [.text "4"]]],
    .element "design" [] [.element "link" [("id", some "9"), ("type", some "AssociationItem")] []],
    .element "generation" [] [.text "7"]]]

def chainedLib : Libxml := { sampleLib with xmlReadMemory := fun _ => some chainedFeed }

/-- Its links are association items or not, as structure 9 says. -/
theorem chainedFeed_items (S : Structures) : items chainedFeed S [0, 0] = [] ∨
    items chainedFeed S [0, 0] = [[0, 1, 0, 0], [0, 2, 0, 0]] ∧
      feedNodes chainedFeed S [0, 0] 1 = some (.parsed [0, 0, 0]) ∧
      feedNodes chainedFeed S [0, 0] 4 = some (.parsed [0, 1, 0, 0]) := by
  have hkids : chainedFeed.kids [0, 0] = [
      .element "page" [("id", some "1")] [.element "title" [("id", some "2")] []],
      .element "page" [("id", some "3")] [
        .element "link" [("id", some "4"), ("type", some "9")] [.text "1"]],
      .element "page" [("id", some "7")] [
        .element "link" [("id", some "6"), ("type", some "9")] [.text "4"]]] := rfl
  have hplain : ∀ id, ¬ Association S [("id", some id)] := by
    simp [Association, structureOf, declared, isAssociation]
  have hsame : Association S [("id", some "6"), ("type", some "9")] ↔
      Association S [("id", some "4"), ("type", some "9")] := by
    simp [Association, structureOf, declared]
  rw [items, feedNodes, hkids]
  simp only [walkKids, walkNode, hplain, hsame, Staged, List.map_cons, List.map_nil]
  by_cases hlink : Association S [("id", some "4"), ("type", some "9")]
  · simp only [hlink]
    exact .inr (by decide +kernel)
  · simp only [hlink]
    exact .inl (by decide +kernel)

theorem chainedFeed_entriesResolve (S : Structures) : EntriesResolve chainedFeed S [0, 0] := by
  intro a ha _
  rw [← mem_items] at ha
  rcases chainedFeed_items S with hitems | ⟨hitems, hone, hfour⟩
  · rw [hitems] at ha
    cases ha
  · have hpage : Walked chainedFeed S [0, 0] [0, 0, 0] :=
      .child .root rfl (by decide) (by simp [Association, structureOf, declared, isAssociation])
    have hfirst : Resolves chainedFeed S [0, 0] [0, 1, 0, 0] := by
      refine .ordinary ⟨"1", rfl, by decide, ?_⟩ hpage
      rwa [show Cpp.atoi "1" = 1 by decide]
    rw [hitems, List.mem_pair] at ha
    rcases ha with rfl | rfl
    · exact hfirst
    · refine .item ⟨"4", rfl, by decide, ?_⟩ ⟨_, _, hitems, List.mem_singleton_self _⟩ hfirst
      rwa [show Cpp.atoi "4" = 4 by decide]

theorem loadXmlDoc_indexesLive_sample : ∃ site,
    (Site.blank "shop" false []).loadXmlDoc chainedLib "feed" = .ok site ∧ IndexesLive site := by
  have hroot : ((Site.blank "shop" false []).loadXmlDoc chainedLib "feed").toOption.bind
      Site.rootNode = some (.parsed [0, 0]) := by decide +kernel
  obtain ⟨site, hload, hsome⟩ := toOption_bind_eq_some.mp hroot
  obtain ⟨r, hr, hiff⟩ := loadXmlDoc_indexesLive (rfl : chainedLib.xmlReadMemory "feed" = _) hload
  cases hr.symm.trans hsome
  exact ⟨site, hload, hiff.mpr (chainedFeed_entriesResolve _)⟩

/-- The sample feed with a link that names no item. -/
def danglingFeed : Document :=
  [.element "website" [] [
    .element "content" [] [
      .element "page" [("id", some "1")] [],
      .element "page" [("id", some "2"), ("staging", some "1")] [],
      .element "page" [("id", some "3")] [
        .element "link" [("id", some "4"), ("type", some "9")] [.text "5"]]],
    .element "design" [] [.element "link" [("id", some "9"), ("type", some "AssociationItem")] []],
    .element "generation" [] [.text "7"]]]

def danglingLib : Libxml := { sampleLib with xmlReadMemory := fun _ => some danglingFeed }

/-- Item 4 is in the index, and its node is gone. -/
theorem loadXmlDoc_dangles : ∃ site,
    (Site.blank "shop" false []).loadXmlDoc danglingLib "feed" = .ok site ∧
    site.nodes 4 = some (.parsed [0, 2, 0, 0]) ∧ site.doc (.parsed [0, 2, 0, 0]) = none ∧
    ¬ IndexesLive site := by
  have hindex : ((Site.blank "shop" false []).loadXmlDoc danglingLib "feed").toOption.bind
      (fun site => site.nodes 4) = some (.parsed [0, 2, 0, 0]) := by decide +kernel
  have hgone : ((Site.blank "shop" false []).loadXmlDoc danglingLib "feed").toOption.map
      (fun site => (site.doc (.parsed [0, 2, 0, 0])).isSome) = some false := by decide +kernel
  obtain ⟨site, hload, hnode⟩ := toOption_bind_eq_some.mp hindex
  rw [hload, Except.toOption, Option.map_some, Option.some.injEq, Option.isSome_eq_false_iff,
    Option.isNone_iff_eq_none] at hgone
  refine ⟨site, hload, hnode, hgone, fun hlive => ?_⟩
  obtain ⟨-, cell, -, -, -, -, hcell, -⟩ := hlive.1 4 _ hnode
  rw [hgone] at hcell
  cases hcell

end VaeDb.Indexes

