import VaeDb.Site.Destruction
import VaeDb.Site.Mirroring

/-! What is left of the content while it is loaded.

    A staged element goes with all that is below it, and so does an item that names nothing. Of a
    linked item what is below it goes, but for its text. Every pointer node is noted down, and so is
    every linked item, and only walked elements and the items to come have a Context.

        staged ✂ all        item "99" ✂ all        item "1" ── text ✂ the rest         -/

namespace VaeDb.Teardown
open Schemes Xml Walk Staging PointerNodes

variable {doc : Document} {S : Structures} {r : List ℕ} {pend : List (List ℕ)} {a c m : List ℕ}
  {site site' : Site} {σ σ' : Store}

/-- The node at a path is gone, with all that was below it. -/
def Gone (σ : Store) (c : List ℕ) : Prop := ∀ q, c <:+ q → σ (.parsed q) = none

/-- Of what was below the item only its text is left. -/
structure Emptied (σ : Store) (a : List ℕ) : Prop where
  item : ∃ cell, σ (.parsed a) = some cell ∧ cell.children = some (.parsed (0 :: a))
  text : ∃ cell, σ (.parsed (0 :: a)) = some cell ∧ cell.children = none
  rest : ∀ q, a <:+ q → q ≠ a → q ≠ 0 :: a → σ (.parsed q) = none

/-- Every node comes from the document, and is of the type it has there. -/
def FromDoc (doc : Document) (σ : Store) : Prop :=
  ∀ p cell, σ (.parsed p) = some cell →
    p = [] ∨ ∃ t, doc.at? p = some t ∧ cell.data.type = t.info.type

theorem Gone.mono (h : Gone σ c) (hnone : ∀ q, σ (.parsed q) = none → σ' (.parsed q) = none) :
    Gone σ' c := fun q hq => hnone q (h q hq)

theorem Emptied.mono (h : Emptied σ a)
    (hitem : ∀ cell, σ (.parsed a) = some cell →
      ∃ cell', σ' (.parsed a) = some cell' ∧ cell'.children = cell.children)
    (hinside : ∀ q, a <:+ q → q ≠ a → σ' (.parsed q) = σ (.parsed q)) : Emptied σ' a where
  item := by
    obtain ⟨cell, hcell, hchildren⟩ := h.item
    obtain ⟨cell', hcell', hsame⟩ := hitem cell hcell
    exact ⟨cell', hcell', hsame.trans hchildren⟩
  text := by
    rw [hinside _ (List.suffix_cons _ _) (by simp)]
    exact h.text
  rest q hq hqa hq0 := by
    rw [hinside q hq hqa]
    exact h.rest q hq hqa hq0

/-! ### Nodes below a path -/

/-- What is at a path below `c` is listed among the nodes below `c`. -/
theorem pathsAt_below : ∀ {q : List ℕ} {t : Tree}, doc.at? q = some t → c <:+ q → q ≠ c →
    pathsAt q t ⊆ pathsFrom c 0 (doc.kids c)
  | [], _, h, _, _ => by cases h
  | i :: q, t, h, hq, hne => by
      have hcq : c <:+ q := (List.suffix_cons_iff.mp hq).resolve_left fun heq => hne heq.symm
      have hhere : pathsAt (i :: q) t ⊆ pathsFrom q 0 (doc.kids q) := by
        simpa using pathsAt_subset (i := 0) (p := q) h
      rcases eq_or_ne q c with rfl | hqc
      · exact hhere
      · cases q with
        | nil => exact absurd (List.suffix_nil.mp hcq).symm hqc
        | cons j q =>
          rw [Document.at?, Document.kids] at h
          cases hu : (doc.kids q)[j]? with
          | none =>
            rw [hu] at h
            simp at h
          | some u =>
            have hat : doc.at? (j :: q) = some u := hu
            rw [kids_of_at? hat] at hhere
            exact List.Subset.trans (List.Subset.trans hhere (pathsFrom_children _ u))
              (pathsAt_below hat hcq hqc)

theorem mem_below {q : List ℕ} {t : Tree} (h : doc.at? q = some t) (hq : c <:+ q) (hne : q ≠ c) :
    q ∈ pathsFrom c 0 (doc.kids c) := pathsAt_below h hq hne (mem_pathsAt_self q t)

/-- Where the document has no node the store has none, as long as it is as parsed. -/
theorem store_none {q : List ℕ} (hq : q ≠ []) (h : doc.at? q = none) :
    doc.store (.parsed q) = none := by
  cases q with
  | nil => exact absurd rfl hq
  | cons i q => rw [Document.store, h]

/-- A child of a walked node that is taken out is gone with all that is below it. -/
theorem removed_gone {ptrs : List ℕ → List NodeId} {fuel : ℕ} (hlists : Lists doc S r σ ptrs)
    (hc : Child doc S r c) (hnot : ¬ Walked doc S r c) (hintact : Intact doc σ c)
    (h : Heap.free fuel (σ.unlink (.parsed c)) (.parsed c) = some σ') : Gone σ' c := by
  obtain ⟨cell', hcell', hgone, -, hsub, -⟩ := free_eq_some h
  obtain ⟨cell, hcell, -⟩ := unlink_eq_some hcell'
  obtain ⟨cell'', hcell'', hchildren⟩ := hlists.unlink_child hc hcell
  obtain rfl := Option.some.inj (hcell'.symm.trans hcell'')
  have hsame : ∀ n ∈ (pathsFrom c 0 ((doc.kids c).drop 0)).map NodeId.parsed,
      σ.unlink (.parsed c) n = σ n := by
    intro n hn
    obtain ⟨q, hq, rfl⟩ := List.mem_map.mp hn
    obtain ⟨j, -, hj⟩ := (nodup_pathsFrom c 0 _).2 q hq
    refine hlists.unlink_inside hc hnot hcell ⟨q, rfl, (List.suffix_cons j c).trans hj, ?_⟩
    rintro rfl
    exact absurd hj.length_le (by simp)
  intro q hq
  rcases eq_or_ne q c with rfl | hqc
  · exact hgone
  cases hat : doc.at? q with
  | none =>
    cases hq' : σ' (.parsed q) with
    | none => rfl
    | some d =>
      obtain ⟨d₀, hd₀, -⟩ := unlink_eq_some (hsub _ d hq')
      have hempty : q ≠ [] := by
        rintro rfl
        exact hqc (List.suffix_nil.mp hq).symm
      rw [hintact.below q hq hqc, store_none hempty hat] at hd₀
      cases hd₀
  | some t =>
    rw [Heap.free, hcell'] at h
    dsimp only at h
    split at h
    · cases h
    next σ₁ hfree =>
    cases h
    rw [hchildren, hintact.children cell hcell, List.head?_eq_getElem?] at hfree
    have hforest := hintact.forest 0
    obtain ⟨hbelow, -⟩ := hforest.freed hsame (nodup_below c 0) hfree
    have hmem := hbelow (.parsed q) (List.mem_map_of_mem (by simpa using mem_below hat hq hqc))
    cases hd : σ₁.erase (.parsed c) (.parsed q) with
    | none => rfl
    | some d =>
      rw [erase_sub (fun _ _ hx => hx) _ d hd] at hmem
      cases hmem

/-- Of what is below an item, the graft leaves the text. -/
theorem graft_emptied {content : String} (hintact : Intact doc site.doc a)
    (htext : doc.at? (0 :: a) = some (.text content)) {m : NodeId} {lists : AttrLists}
    (h : site.graft (.parsed a) m = .ok (σ', lists)) : Emptied σ' a := by
  obtain ⟨cell, firstCell, target, first, σ₁, lists₁, lists₂, hcell, hchildren, hfirstCell,
    ⟨-, hfreed, -⟩, -, rfl⟩ := graft_eq_ok h
  have hfree := freeList_of_each hfreed
  obtain rfl : first = .parsed (0 :: a) := by
    rw [hintact.children cell hcell, kidIds_head htext] at hchildren
    exact (Option.some.inj hchildren).symm
  -- the text, and what follows it, are as parsed
  have hstore := (hintact.below (0 :: a) (List.suffix_cons _ _) (by simp)).symm.trans hfirstCell
  rw [Document.store, htext] at hstore
  cases hstore
  obtain ⟨hgone, hkeep⟩ := (hintact.forest 1).freed (fun _ _ => rfl) (nodup_below a 1) hfree
  have hlater : ∀ q ∈ pathsFrom a 1 ((doc.kids a).drop 1), q ≠ a ∧ q ≠ 0 :: a := by
    intro q hq
    obtain ⟨j, hj, hjq⟩ := (nodup_pathsFrom a 1 _).2 q hq
    constructor
    · rintro rfl
      exact absurd hjq.length_le (by simp)
    · rintro rfl
      obtain ⟨rfl, -⟩ := List.cons.inj (hjq.eq_of_length (by simp))
      omega
  have hkept : ∀ q, q = a ∨ q = 0 :: a → σ₁ (.parsed q) = site.doc (.parsed q) := by
    intro q hq
    refine hkeep _ fun hmem => ?_
    obtain ⟨q', hq', heq⟩ := List.mem_map.mp hmem
    cases heq
    exact hq.elim (hlater q hq').1 (hlater q hq').2
  have hne : NodeId.parsed (0 :: a) ≠ .parsed a := by simp
  have hleaf : (doc.kidIds (0 :: a)).head? = none := by
    simp [Document.kidIds, kids_of_at? htext, Tree.children]
  refine ⟨?_, ?_, fun q hq hqa hq0 => ?_⟩
  · rw [Heap.modify_self, Heap.modify_of_ne _ _ hne.symm, hkept a (.inl rfl), hcell]
    exact ⟨_, rfl, hchildren⟩
  · rw [Heap.modify_of_ne _ _ hne, Heap.modify_self, hkept _ (.inr rfl), hfirstCell]
    exact ⟨_, rfl, hleaf⟩
  · rw [Heap.modify_of_ne _ _ (by simpa using hqa), Heap.modify_of_ne _ _ (by simpa using hq0)]
    cases hq' : σ₁ (.parsed q) with
    | none => rfl
    | some d =>
      exfalso
      have hd := freeList_sub hfree _ d hq'
      rw [hintact.below q hq hqa] at hd
      cases hat : doc.at? q with
      | none =>
        have hempty : q ≠ [] := by
          rintro rfl
          exact hqa (List.suffix_nil.mp hq).symm
        rw [store_none hempty hat] at hd
        cases hd
      | some t =>
        have hmem := mem_below hat hq hqa
        have hkids : doc.kids a = .text content :: (doc.kids a).drop 1 := by
          obtain ⟨hlt, hget⟩ := List.getElem?_eq_some_iff.mp htext
          rw [← List.drop_zero (l := doc.kids a), List.drop_eq_getElem_cons hlt, hget]
          rfl
        rw [hkids, pathsFrom, pathsAt, List.singleton_append, List.mem_cons] at hmem
        have hnone := hgone (.parsed q) (List.mem_map_of_mem (hmem.resolve_left hq0))
        rw [hq'] at hnone
        cases hnone

/-! ### Nodes come from the document -/

theorem fromDoc_store (doc : Document) : FromDoc doc doc.store := by
  intro p cell hcell
  cases p with
  | nil => exact .inl rfl
  | cons i p =>
    rw [Document.store] at hcell
    cases hat : doc.at? (i :: p) with
    | none =>
      rw [hat] at hcell
      cases hcell
    | some t =>
      rw [hat] at hcell
      cases hcell
      exact .inr ⟨t, rfl, rfl⟩

/-- A change that makes no node of the document and keeps the types. -/
theorem FromDoc.of (h : FromDoc doc σ) (hback : ∀ p cell', σ' (.parsed p) = some cell' →
    ∃ cell, σ (.parsed p) = some cell ∧ cell'.data.type = cell.data.type) : FromDoc doc σ' := by
  intro p cell' hcell'
  obtain ⟨cell, hcell, htype⟩ := hback p cell' hcell'
  exact (h p cell hcell).imp_right fun ⟨t, hat, heq⟩ => ⟨t, hat, htype.trans heq⟩

theorem FromDoc.modify (h : FromDoc doc σ) (n : NodeId) {f : Cell NodeId Info → Cell NodeId Info}
    (hf : ∀ c, (f c).data.type = c.data.type) : FromDoc doc (σ.modify n f) := by
  refine h.of fun p cell' hcell' => ?_
  rw [Heap.modify] at hcell'
  split at hcell'
  · obtain ⟨cell, hcell, rfl⟩ := Option.map_eq_some_iff.mp hcell'
    exact ⟨cell, hcell, hf cell⟩
  · exact ⟨cell', hcell', rfl⟩

theorem FromDoc.sub (h : FromDoc doc σ) (hsub : ∀ n cell, σ' n = some cell → σ n = some cell) :
    FromDoc doc σ' := h.of fun _ cell hcell => ⟨cell, hsub _ cell hcell, rfl⟩

theorem FromDoc.sameData (h : FromDoc doc σ)
    (hdata : ∀ n, (σ' n).map Cell.data = (σ n).map Cell.data) : FromDoc doc σ' := by
  refine h.of fun p cell' hcell' => ?_
  have heq := hdata (.parsed p)
  rw [hcell', Option.map_some] at heq
  obtain ⟨cell, hcell, hsame⟩ := Option.map_eq_some_iff.mp heq.symm
  exact ⟨cell, hcell, by rw [hsame]⟩

theorem FromDoc.told (last : Option NodeId) : ∀ {ns : List NodeId} {σ : Store}, FromDoc doc σ →
    FromDoc doc (setLast σ ns last)
  | [], _, h => h
  | n :: ns, σ, h => by
      have hstep : FromDoc doc (σ.modify n fun c => { c with last := last }) :=
        h.modify n fun _ => rfl
      exact @FromDoc.told last ns _ hstep

/-- No step of loading makes a node of the document. -/
theorem stable_fromDoc (doc : Document) : Stable fun site => FromDoc doc site.doc where
  learn _ h := h
  defer _ h := h
  remove n h := by
    intro site' hok
    obtain ⟨σ, lists, -, hfree, rfl⟩ := removeNode_eq_ok hok
    obtain ⟨-, -, -, -, hsub, -⟩ := free_eq_some hfree
    refine h.of fun p cell hcell => ?_
    obtain ⟨cell₀, hcell₀, hdata⟩ := unlink_eq_some (hsub _ cell hcell)
    exact ⟨cell₀, hcell₀, by rw [hdata]⟩
  enter _ _ _ h := .after fun _ => .pure h
  setPrivate n _ h := h.modify n fun _ => rfl
  associate n m h := by
    intro site' hok
    obtain ⟨s, hs, rfl⟩ := associate_eq_ok hok
    obtain ⟨_, _, _, first, σ₁, _, _, -, -, -, ⟨-, hfree, -⟩, -, hgraft⟩ := graft_eq_ok hs.graft
    have hgrafted : FromDoc doc s.grafted := by
      rw [hgraft]
      refine FromDoc.modify (FromDoc.modify (h.sub (freeList_sub (freeList_of_each hfree))) first ?_) n ?_
      · exact fun _ => rfl
      · exact fun _ => rfl
    refine FromDoc.told _ (FromDoc.sameData ?_ (addChild_data _ m _))
    refine hgrafted.of fun p cell hcell => ⟨cell, ?_, rfl⟩
    rwa [Stages.copied, Function.update_of_ne (by simp)] at hcell
  forget _ h := h
  finish _ h := h

/-! ### The walk -/

/-- During the walk: a staged element that is no longer there is gone with all that was below it, and
    only elements that were walked or deferred have a Context. -/
structure Clearing (doc : Document) (S : Structures) (r : List ℕ) (site : Site) : Prop where
  walking : Walking doc S r site
  staged : ∀ c, Child doc S r c → StagedAt doc c → site.doc (.parsed c) = none → Gone site.doc c
  contexts : ∀ n ctxt, site.contexts n = some ctxt →
    ∃ c, n = .parsed c ∧ ElementWith doc S r (fun ps => ¬ Staged ps) c

theorem Clearing.step {mv : Move} (h : Clearing doc S r site) (hm : Placed doc S r mv)
    (hstep : Step doc site mv site') : Clearing doc S r site' := by
  have hwalking := walking_step site mv site' hm h.walking hstep
  cases hstep with
  | visit _ => exact ⟨hwalking, h.staged, h.contexts⟩
  | defer => exact ⟨hwalking, h.staged, h.contexts⟩
  | @enter _ p _ _ _ _ henter =>
    obtain ⟨⟨permalinks, rfl, -⟩, -⟩ := enter_eq_ok henter
    have hnone : ∀ n, (site.doc.modify (.parsed p) fun cell =>
        { cell with data := { cell.data with priv := some (.parsed p) } }) n = none ↔
          site.doc n = none := by
      intro n
      rw [Heap.modify]
      split <;> simp
    refine ⟨hwalking, fun c hc hs hgone => ?_, fun n ctxt hn => ?_⟩
    · exact (h.staged c hc hs ((hnone _).mp hgone)).mono fun q hq => (hnone _).mpr hq
    · simp only [Site.setPrivate, Function.update_apply] at hn
      split at hn
      · next heq => exact ⟨p, heq, hm⟩
      · exact h.contexts n ctxt hn
  | @kill _ p hremove =>
    obtain ⟨σ, lists, -, hσ, rfl⟩ := removeNode_eq_ok hremove
    obtain ⟨i, q, name, ps, children, -, -, hat, hstaged⟩ := id hm
    have hp := ElementWith.child hm
    have hpw := not_walked_of_staged hp ⟨name, ps, children, hat, hstaged⟩
    obtain ⟨cell', hcell', -⟩ := free_eq_some hσ
    obtain ⟨cell, hcell, -⟩ := unlink_eq_some hcell'
    obtain ⟨ptrs, hlists, -⟩ := h.walking.inv.lists
    have hintact := h.walking.inv.intact p hp hpw (fun _ => trivial) cell hcell
    have hrem := free_removed hlists hp hpw hintact hσ
    refine ⟨hwalking, fun c hc hs hgone => ?_, h.contexts⟩
    rcases eq_or_ne c p with rfl | hcp
    · exact removed_gone hlists hp hpw hintact hσ
    · dsimp only at hgone ⊢
      have hbefore : site.doc (.parsed c) = none := by
        cases hccell : site.doc (.parsed c) with
        | none => rfl
        | some ccell =>
          obtain ⟨ccell', hccell', -⟩ := hrem.keeps _ ccell (by simpa using hcp)
            (child_not_inside hc p hp hpw) hccell
          rw [hgone] at hccell'
          cases hccell'
      refine (h.staged c hc hs hbefore).mono fun q hq => ?_
      cases hq' : σ (.parsed q) with
      | none => rfl
      | some d =>
        obtain ⟨d₀, hd₀, -⟩ := hrem.sub _ d hq'
        rw [hq] at hd₀
        cases hd₀

/-! ### The loop over the items -/

/-- While the items have their turns: `pend` are those to come, and the other lists what was noted
    down. -/
structure Accounted (doc : Document) (S : Structures) (r : List ℕ) (pend : List (List ℕ))
    (ps ls : List NodeId) (site : Site) : Prop where
  staged : ∀ c, Child doc S r c → StagedAt doc c → Gone site.doc c
  items : ∀ a, Item doc S r a → a ∈ pend ∨ Gone site.doc a ∨ .parsed a ∈ ls
  linked : ∀ n ∈ ls, ∃ a content, n = .parsed a ∧ Item doc S r a ∧ a ∉ pend ∧
    doc.at? (0 :: a) = some (.text content) ∧ Emptied site.doc a
  pointers : ∀ n ∈ ps, ∃ k cell, n = .pointer k ∧ site.doc n = some cell
  made : ∀ k cell, site.doc (.pointer k) = some cell → .pointer k ∈ ps
  contexts : ∀ n ctxt, site.contexts n = some ctxt →
    ∃ c, n = .parsed c ∧ (Walked doc S r c ∧ c ≠ r ∨ c ∈ pend)

variable {pointers linked : List NodeId}

/-- An item that names nothing. -/
theorem Accounted.remove (h : Accounted doc S r (a :: pend) pointers linked site)
    (hlinking : Linking doc S r (a :: pend) site) (hnot : a ∉ pend) (ha : Item doc S r a)
    (hok : site.removeNode (.parsed a) = .ok site') : Accounted doc S r pend pointers linked
      { site' with contexts := Function.update site'.contexts (.parsed a) none } := by
  have hchild := ElementWith.child ha
  obtain ⟨hstaged, hassoc⟩ := ha.associationAt
  have haw := not_walked_of_association hchild hassoc
  have hintact := hlinking.intact ha
  obtain ⟨σ, lists, -, hσ, rfl⟩ := removeNode_eq_ok hok
  obtain ⟨ptrs, hlists, -⟩ := hlinking.inv.lists
  have hrem := free_removed hlists hchild haw hintact hσ
  have hnone : ∀ n, site.doc n = none → σ n = none := by
    intro n hn
    cases hn' : σ n with
    | none => rfl
    | some d =>
      obtain ⟨d₀, hd₀, -⟩ := hrem.sub n d hn'
      rw [hn] at hd₀
      cases hd₀
  refine ⟨fun c hc hs => ?_, fun b hb => ?_, fun n hn => ?_, fun n hn => ?_, fun k cell hcell => ?_,
    fun n ctxt hn => ?_⟩
  · exact (h.staged c hc hs).mono fun q hq => hnone _ hq
  · rcases h.items b hb with hb' | hb' | hb'
    · rcases List.mem_cons.mp hb' with rfl | hb'
      · exact .inr (.inl (removed_gone hlists hchild haw hintact hσ))
      · exact .inl hb'
    · exact .inr (.inl (hb'.mono fun q hq => hnone _ hq))
    · exact .inr (.inr hb')
  · obtain ⟨b, content, rfl, hb, hbpend, hbtext, hempty⟩ := h.linked n hn
    rw [List.mem_cons, not_or] at hbpend
    have hbc := ElementWith.child hb
    have hbw := not_walked_of_association hbc hb.associationAt.2
    refine ⟨b, content, rfl, hb, hbpend.2, hbtext, hempty.mono (fun cell hcell => ?_) fun q hq hqb => ?_⟩
    · obtain ⟨cell', hcell', -, hchildren⟩ := hrem.keeps _ cell (by simpa using hbpend.1)
        (child_not_inside hbc a hchild haw) hcell
      refine ⟨cell', hcell', hchildren ?_⟩
      rintro p hp ⟨⟩
      exact hbw hp
    · exact hrem.same_inside hlists hchild haw hbc hbw hbpend.1 hq hqb
  · obtain ⟨k, cell, rfl, hcell⟩ := h.pointers n hn
    obtain ⟨cell', hcell', -⟩ := hrem.keeps _ cell (by simp) (by rintro ⟨q, ⟨⟩, -⟩) hcell
    exact ⟨k, cell', rfl, hcell'⟩
  · obtain ⟨cell₀, hcell₀, -⟩ := hrem.sub _ cell hcell
    exact h.made k cell₀ hcell₀
  · simp only [Function.update_apply] at hn
    split at hn
    · cases hn
    · next hna =>
      obtain ⟨c, rfl, hc⟩ := h.contexts n ctxt hn
      refine ⟨c, rfl, hc.imp_right fun hmem => ?_⟩
      exact (List.mem_cons.mp hmem).resolve_left fun heq => hna (heq ▸ rfl)

/-- An item that is linked. -/
theorem Accounted.link (h : Accounted doc S r (a :: pend) pointers linked site)
    (ha : Item doc S r a) (hturn : AtTurn doc S r pend a m site)
    {s : Stages site (.parsed a) (.parsed m)} (hs : s.Sound) :
    Accounted doc S r pend (pointers ++ [.pointer site.allocated]) (linked ++ [.parsed a])
      s.result := by
  have hnone := (hturn.kept hs).none
  have hgrafted := hturn.grafted hs
  have hpointed := hturn.pointed hs
  have hparsed := (hturn.result hs).2.1
  have hlive := (hturn.result hs).2.2
  obtain ⟨content, htext⟩ := hturn.text
  -- what a node that is not walked has below it stays through the last two stages
  have hafter : ∀ b, Child doc S r b → ¬ Walked doc S r b → Emptied s.grafted b →
      Emptied s.result.doc b := by
    intro b hb hbw hempty
    refine hempty.mono (fun cell hcell => ?_) fun q hq hqb => ?_
    · have hsome := hpointed.live b
      rw [hcell] at hsome
      obtain ⟨cell', hcell'⟩ := Option.isSome_iff_exists.mp hsome
      obtain ⟨cell₀, hcell₀, -, hchildren⟩ := hpointed.parsed b cell' hcell'
      obtain rfl := Option.some.inj (hcell.symm.trans hcell₀)
      refine ⟨cell', (hparsed b).trans hcell', hchildren ?_⟩
      rintro rfl
      exact hbw hturn.target
    · rw [hparsed, hpointed.inside b hb hbw _ ⟨q, rfl, hq, hqb⟩]
  have hplaced : ∀ k, (s.result.doc (.pointer k)).isSome = (s.copied (.pointer k)).isSome := by
    intro k
    rw [hlive, Stages.placed, ← Option.isSome_map (f := Cell.data), addChild_data, Option.isSome_map]
  refine ⟨fun c hc hs' => ?_, fun b hb => ?_, fun n hn => ?_, fun n hn => ?_, fun k cell hcell => ?_,
    fun n ctxt hn => ?_⟩
  · exact (h.staged c hc hs').mono hnone
  · rcases h.items b hb with hb' | hb' | hb'
    · rcases List.mem_cons.mp hb' with rfl | hb'
      · exact .inr (.inr (by simp))
      · exact .inl hb'
    · exact .inr (.inl (hb'.mono hnone))
    · exact .inr (.inr (List.mem_append_left _ hb'))
  · rcases List.mem_append.mp hn with hn | hn
    · obtain ⟨b, content, rfl, hb, hbpend, hbtext, hempty⟩ := h.linked n hn
      rw [List.mem_cons, not_or] at hbpend
      have hbc := ElementWith.child hb
      have hbw := not_walked_of_association hbc hb.associationAt.2
      refine ⟨b, content, rfl, hb, hbpend.2, hbtext, hafter b hbc hbw (hempty.mono (fun cell hcell => ?_)
        fun q hq hqb => ?_)⟩
      · refine ⟨cell, ?_, rfl⟩
        rwa [hgrafted.outside _ (by simpa using hbpend.1)
          (child_not_inside hbc a hturn.child hturn.notWalked)]
      · have hout := not_inside_both hturn.child hturn.notWalked hbc hbw hbpend.1 hq
        refine hgrafted.outside _ ?_ ?_
        · rintro ⟨⟩
          exact hout List.suffix_rfl
        · rintro ⟨q', ⟨⟩, hq', -⟩
          exact hout hq'
    · obtain rfl := List.mem_singleton.mp hn
      exact ⟨a, content, rfl, ha, hturn.later, htext, hafter a hturn.child hturn.notWalked
        (graft_emptied hturn.intact htext hs.graft)⟩
  · obtain ⟨k, rfl, hk⟩ : ∃ k, n = .pointer k ∧ (s.result.doc (.pointer k)).isSome = true := by
      rcases List.mem_append.mp hn with hn | hn
      · obtain ⟨k, cell, rfl, hcell⟩ := h.pointers n hn
        refine ⟨k, rfl, ?_⟩
        rw [hplaced, Stages.copied, Function.update_apply, hturn.grafted_pointer hs, hcell]
        split <;> rfl
      · refine ⟨_, List.mem_singleton.mp hn, ?_⟩
        rw [hplaced, Stages.copied, Function.update_self]
        rfl
    obtain ⟨cell, hcell⟩ := Option.isSome_iff_exists.mp hk
    exact ⟨k, cell, rfl, hcell⟩
  · have hsome := hplaced k
    rw [hcell, Stages.copied, Function.update_apply, hturn.grafted_pointer hs] at hsome
    split at hsome
    · next heq => exact List.mem_append_right _ (List.mem_singleton.mpr heq)
    · obtain ⟨cell₀, hcell₀⟩ := Option.isSome_iff_exists.mp hsome.symm
      exact List.mem_append_left _ (h.made k cell₀ hcell₀)
  · have hbefore : n ≠ .parsed a ∧ ∃ ctxt', site.contexts n = some ctxt' := by
      simp only [Stages.result, Stages.contexts, Function.update_apply] at hn
      split at hn
      · cases hn
      · next hna =>
        refine ⟨hna, ?_⟩
        split at hn
        · next heq => exact ⟨_, heq ▸ hs.parentContext⟩
        · exact ⟨_, hn⟩
    obtain ⟨hna, ctxt', hctxt'⟩ := hbefore
    obtain ⟨c, rfl, hc⟩ := h.contexts n ctxt' hctxt'
    refine ⟨c, rfl, hc.imp_right fun hmem => ?_⟩
    exact (List.mem_cons.mp hmem).resolve_left fun heq => hna (heq ▸ rfl)

/-- The item, as far as its text names an element. -/
theorem itemLinked_of_text {text : String} {node : NodeId} (htext : site.firstText node = .ok text) :
    itemLinked site node = (named site text).map fun _ => node := by
  rw [itemLinked, htext]

/-- One item at its turn. -/
theorem Accounted.step (hord : TargetsOrdinary doc S r) (hindexed : Indexed doc S r site)
    (hlinking : Linking doc S r (a :: pend) site)
    (h : Accounted doc S r (a :: pend) pointers linked site) (hnot : a ∉ pend) (ha : Item doc S r a)
    (hok : site.initializeAssociation (.parsed a) = .ok site') :
    Accounted doc S r pend (pointers ++ ((pointerMade site (.parsed a)).map Prod.snd).toList)
      (linked ++ (itemLinked site (.parsed a)).toList) site' := by
  have hchild := ElementWith.child ha
  obtain ⟨hstaged, hassoc⟩ := ha.associationAt
  obtain ⟨text, htext, ⟨n, hpos, hn, hassociate⟩ | ⟨hnone, site₁, hremove, rfl⟩⟩ :=
    initializeAssociation_cases hok
  · obtain ⟨hat, m, rfl, hm, hmr⟩ :=
      target_walked hindexed hord ha (hlinking.intact ha) htext hpos hn
    have hturn : AtTurn doc S r pend a m site :=
      ⟨hlinking, hnot, hchild, hstaged, hassoc, ⟨text, hat⟩, hm, hmr⟩
    have hnamed : named site text = some (.parsed m) := by
      rw [named, if_pos hpos, hn]
    obtain ⟨s, hs, rfl⟩ := associate_eq_ok hassociate
    obtain ⟨i, q, rfl, -⟩ := hturn.parent hs
    obtain ⟨cell, hcell⟩ := hturn.alive
    rw [pointerMade_some htext hnamed hcell (parent_eq hlinking.inv hchild hcell),
      itemLinked_of_text htext, hnamed]
    exact h.link ha hturn hs
  · have hnamed : named site text = none := by
      rw [named]
      split
      · next hpos => exact hnone hpos
      · rfl
    rw [pointerMade_none htext hnamed, itemLinked_of_text htext, hnamed]
    simp only [Option.map_none, Option.toList_none, List.append_nil]
    exact h.remove hlinking hnot ha hremove

/-- All items. -/
theorem Accounted.run (hord : TargetsOrdinary doc S r) (hindexed : Indexed doc S r site)
    (hlinking : Linking doc S r pend site) (h : Accounted doc S r pend pointers linked site)
    (hnodup : pend.Nodup) (hitems : ∀ a ∈ pend, Item doc S r a)
    (hok : (pend.map NodeId.parsed).foldlM Site.initializeAssociation site = .ok site') :
    Linking doc S r [] site' ∧ Accounted doc S r []
      (pointers ++ (pointersMade site (pend.map .parsed)).map Prod.snd)
      (linked ++ itemsLinked site (pend.map .parsed)) site' := by
  induction pend generalizing pointers linked site with
  | nil =>
    cases hok
    rw [pointersMade, itemsLinked, List.map_nil, written_nil, written_nil, List.map_nil,
      List.append_nil, List.append_nil]
    exact ⟨hlinking, h⟩
  | cons a pend ih =>
    obtain ⟨hnot, hnodup⟩ := List.nodup_cons.mp hnodup
    obtain ⟨ha, hitems⟩ := List.forall_mem_cons.mp hitems
    obtain ⟨site₁, hfirst, hrest⟩ := bind_eq_ok.mp hok
    have hall := ih (hindexed.congr (initializeAssociation_sameIndex hfirst))
      (linking_step hindexed hord hlinking hnot ha hfirst)
      (h.step hord hindexed hlinking hnot ha hfirst) hnodup hitems hrest
    rw [pointersMade, itemsLinked, List.map_cons, written_cons_ok hfirst, written_cons_ok hfirst,
      List.map_append, ← List.append_assoc, ← List.append_assoc]
    cases hmade : pointerMade site (.parsed a) <;> rw [hmade] at hall <;> exact hall

/-! ### The start and the end of the loop -/

/-- The site once the walk is over. -/
theorem Clearing.accounted (h : Clearing doc S r site) (hdead : NoStaged doc S r site.doc)
    (hpend : ∀ a, a ∈ pend ↔ Item doc S r a) : Accounted doc S r pend [] [] site := by
  refine ⟨fun c hc hs => h.staged c hc hs (hdead c hc hs), fun a ha => .inl ((hpend a).mpr ha), by simp,
    by simp, fun k cell hcell => ?_, fun n ctxt hn => ?_⟩
  · rw [h.walking.noPointer k] at hcell
    cases hcell
  · obtain ⟨c, rfl, hc⟩ := h.contexts n ctxt hn
    refine ⟨c, rfl, ?_⟩
    by_cases hitem : Item doc S r c
    · exact .inr ((hpend c).mpr hitem)
    · exact .inl ⟨walked_of_not_item hc hitem, child_ne_root (ElementWith.child hc)⟩

/-- A production site when all items have had their turns; the lists are what was noted down. -/
structure Settled (doc : Document) (S : Structures) (r : List ℕ) (ps ls : List NodeId) (site : Site) :
    Prop where
  exists_root : r = [] ∨ ∃ t, doc.at? r = some t
  root : site.rootNode = some (.parsed r)
  linking : Linking doc S r [] site
  accounted : Accounted doc S r [] ps ls site
  own : OwnLists doc S r [] site
  fromDoc : FromDoc doc site.doc
  parsed : AsParsed doc r site.doc
  counted : site.Counted

variable {lib : Libxml} {d : List ℕ} {su : String} {keys : List String}

/-- Loading in production mode settles the site, where no item names another one. -/
theorem settled_production (hcontent : (LoadSafety.begin (Site.blank su false keys) doc r d).loadContent
      lib doc (.parsed r) = .ok site) (hord : TargetsOrdinary doc site.structures r)
    (hok : site.associationsToInitialize.foldlM Site.initializeAssociation site = .ok site') :
    Settled doc site.structures r
      ((pointersMade site site.associationsToInitialize).map Prod.snd)
      (itemsLinked site site.associationsToInitialize) site' := by
  obtain ⟨r', heq, hr, htrace⟩ := loadContent_trace rfl rfl hcontent
  cases heq
  have hplaced := placed_walkKids (S := site.structures) (.root (r := r)) (@kidsFrom_kids doc r)
  obtain ⟨hroot, hindexed, pend, hpend, hnodup, hitems, hlinking, hdeferred⟩ :=
    walk_linking hr rfl (fun _ => rfl) (fun _ => rfl) (fun _ => rfl) rfl htrace
  have hstays := trace_stays ⟨region_store doc r, by rintro _ _ ⟨⟩, by rintro _ _ ⟨⟩⟩ hplaced htrace
  have hparsed : AsParsed doc r site.doc := (asParsed_store doc r).within hstays.within
  have hbegin : Walking doc site.structures r
      (LoadSafety.begin (Site.blank su false keys) doc r d) :=
    ⟨inv_store hr, fun _ => rfl, ⟨by rintro _ _ ⟨⟩, by rintro _ _ ⟨⟩⟩, by rintro _ _ ⟨⟩⟩
  have hown : OwnLists doc site.structures r pend site :=
    fun c _ => trace_ownList hbegin rfl hplaced htrace _
  have hclearing : Clearing doc site.structures r site :=
    htrace.invariant (fun _ m _ hm hs hstep => hs.step (hplaced m hm) hstep)
      ⟨hbegin, fun c hc _ hgone => ?_, by rintro _ _ ⟨⟩⟩
  · have haccounted : Accounted doc site.structures r pend [] [] site :=
      hclearing.accounted hlinking.dead fun a => ⟨hitems a, ?_⟩
    · rw [hdeferred] at hok ⊢
      obtain ⟨hlinking', haccounted'⟩ := haccounted.run hord hindexed hlinking hnodup hitems hok
      have hstays' := items_stay hstays.enclosed (fun n hn => by
        obtain ⟨a, ha, rfl⟩ := List.mem_map.mp hn
        exact inner_child (ElementWith.child (hitems a ha))) hok
      obtain ⟨-, -, -, hroot'⟩ := sameIndex_run hok
      have hstable : ∀ {P : Site → Prop}, Stable P →
          P (LoadSafety.begin (Site.blank su false keys) doc r d) → P site' := by
        intro P hP hbegin
        have hsite := hP.loadContent hbegin doc (.parsed r) site hcontent
        exact Ends.foldlM (fun s n h => hP.initializeAssociation h n) _ site hsite site' hok
      exact ⟨hr, hroot'.trans hroot, hlinking', haccounted',
        hown.run hord hindexed hlinking hnodup hitems hok, hstable (stable_fromDoc doc) (fromDoc_store doc), hparsed.within hstays'.within,
        hstable stable_counted (counted_store doc _ rfl rfl)⟩
    · rintro ⟨i, p, name, ps, children, rfl, hp, hat, hstaged, hassoc⟩
      rw [hpend]
      refine mem_deferred.mpr (walkNode_subset hp hat ?_)
      rw [walkNode, if_neg hstaged, if_pos hassoc]
      simp
  · -- at first every child is there
    obtain ⟨i, p, t, rfl, -, hat⟩ := hc
    obtain ⟨cell, hcell⟩ := store_live hat
    exact absurd (hcell.symm.trans hgone) (by simp)

end VaeDb.Teardown
