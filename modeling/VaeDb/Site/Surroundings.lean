import VaeDb.Schemes.Regions
import VaeDb.Site.Staging

/-! Loading stays below the content.

    Only nodes below the root, pointer nodes among them, are ever entered, taken out or linked, and
    their links stay there. So the rest of the document is as parsed throughout, whatever becomes of
    the content: what the program looks up in the design and in the generation does not change.

        website ─┬─ content ──▶ elements, pointer nodes ⟲
                 ├─ design         as parsed
                 └─ generation     as parsed                                                   -/

namespace VaeDb.Staging
open Schemes Xml Walk

variable {doc : Document} {S : Structures} {r : List ℕ}

/-! ### The nodes below the root -/

/-- A pointer node, or a node of the document below the root. -/
def Inner (r : List ℕ) (n : NodeId) : Prop := (∃ k, n = .pointer k) ∨ Inside r n

theorem not_inner_root (r : List ℕ) : ¬ Inner r (.parsed r) := by
  rintro (⟨k, hk⟩ | ⟨q, hq, -, hne⟩)
  · cases hk
  · cases hq
    exact hne rfl

theorem inner_pointer (r : List ℕ) (k : ℕ) : Inner r (.pointer k) := .inl ⟨k, rfl⟩

theorem inner_child {c : List ℕ} (h : Child doc S r c) : Inner r (.parsed c) :=
  .inr ⟨c, rfl, child_suffix h, child_ne_root h⟩

theorem inner_kid {p : List ℕ} {n : NodeId} (hp : r <:+ p) (hn : n ∈ doc.kidIds p) : Inner r n :=
  .inr (inside_of_kid hp hn)

/-- Outside of the content the tree is as parsed, and the root keeps its place and its data. -/
structure AsParsed (doc : Document) (r : List ℕ) (σ : Store) : Prop where
  outside : ∀ p, ¬ r <:+ p → σ (.parsed p) = doc.store (.parsed p)
  root : ∀ c, doc.store (.parsed r) = some c →
    ∃ c', σ (.parsed r) = some c' ∧ SameButEnds c c'

theorem asParsed_store (doc : Document) (r : List ℕ) : AsParsed doc r doc.store :=
  ⟨fun _ _ => rfl, fun c hc => ⟨c, hc, rfl, rfl, rfl, rfl⟩⟩

theorem AsParsed.within {σ σ' : Store} (h : AsParsed doc r σ)
    (hσ : Within (Inner r) (.parsed r) σ σ') : AsParsed doc r σ' := by
  refine ⟨fun p hp => ?_, fun c hc => ?_⟩
  · rw [← h.outside p hp]
    refine hσ.outside _ ?_ ?_
    · rintro (⟨k, hk⟩ | ⟨q, hq, hrq, -⟩)
      · cases hk
      · cases hq
        exact hp hrq
    · rintro ⟨⟩
      exact hp List.suffix_rfl
  · obtain ⟨c', hc', hsame⟩ := h.root c hc
    obtain ⟨c'', hc'', hsame'⟩ := hσ.border c' hc'
    exact ⟨c'', hc'', hsame'.parent.trans hsame.parent, hsame'.next.trans hsame.next,
      hsame'.prev.trans hsame.prev, hsame'.data.trans hsame.data⟩

/-- In the parsed document links do not leave the content. -/
theorem region_store (doc : Document) (r : List ℕ) :
    Region (Inner r) (.parsed r) doc.store := by
  have hends : ∀ p c, r <:+ p → doc.store (.parsed p) = some c → EndsIn (Inner r) c := by
    intro p c hp hc
    have hexists : p = [] ∨ ∃ t, doc.at? p = some t := by
      cases p with
      | nil => exact .inl rfl
      | cons i p =>
        right
        rw [Document.store] at hc
        cases hat : doc.at? (i :: p) with
        | none => simp [hat] at hc
        | some t => exact ⟨t, rfl⟩
    obtain ⟨c', hc', hchildren, hlast⟩ := Document.store_ends hexists
    rw [hc, Option.some.injEq] at hc'
    subst hc'
    refine ⟨fun m hm => ?_, fun m hm => ?_⟩
    · rw [hchildren] at hm
      exact inner_kid hp (List.mem_of_mem_head? hm)
    · rw [hlast] at hm
      exact inner_kid hp (List.mem_of_mem_getLast? hm)
  refine ⟨?_, fun c hc => hends r c List.suffix_rfl hc⟩
  rintro n c (⟨k, rfl⟩ | ⟨q, rfl, hq, hne⟩) hc
  · cases hc
  · have hc₀ := hc
    cases q with
    | nil => exact absurd (List.suffix_nil.mp hq).symm hne
    | cons i p =>
      have hp : r <:+ p := (List.suffix_cons_iff.mp hq).resolve_left fun heq => hne heq.symm
      rw [Document.store] at hc
      cases hat : doc.at? (i :: p) with
      | none => simp [hat] at hc
      | some t =>
        simp only [hat, Option.some.injEq] at hc
        subst hc
        refine ⟨hends _ _ hq hc₀, fun m hm => ?_, fun m hm => ?_, fun m hm => ?_⟩
        · cases hm
          rcases eq_or_ne p r with rfl | hpr
          · exact .inr rfl
          · exact .inl (.inr ⟨p, rfl, hp, hpr⟩)
        · exact inner_kid hp (List.mem_of_getElem? hm)
        · exact inner_kid hp (List.mem_of_mem_take (List.mem_of_mem_getLast? hm))

/-! ### Sites -/

/-- The links, the index by id and the Contexts of a site lead to nodes below the root. -/
structure Enclosed (r : List ℕ) (site : Site) : Prop where
  region : Region (Inner r) (.parsed r) site.doc
  nodes : ∀ id n, site.nodes id = some n → Inner r n
  pointerNodes : ∀ n ctxt, site.contexts n = some ctxt → ∀ m ∈ ctxt.pointerNodes, Inner r m

/-- What a step does to a site and to its surroundings. -/
structure Stays (r : List ℕ) (site site' : Site) : Prop where
  enclosed : Enclosed r site'
  within : Within (Inner r) (.parsed r) site.doc site'.doc

theorem Stays.trans {site site' site'' : Site} (h : Stays r site site')
    (h' : Stays r site' site'') : Stays r site site'' :=
  ⟨h'.enclosed, h.within.trans h'.within⟩

theorem removeNode_stays {site site' : Site} {n : NodeId} (h : Enclosed r site) (hn : Inner r n)
    (hok : site.removeNode n = .ok site') : Stays r site site' := by
  obtain ⟨σ, lists, -, hσ, rfl⟩ := removeNode_eq_ok hok
  have hunlink := Within.unlink (not_inner_root r) h.region hn
  have hfree := hunlink.trans (.free (not_inner_root r) hunlink.region hn hσ)
  exact ⟨⟨hfree.region, h.nodes, h.pointerNodes⟩, hfree⟩

/-- A move of the walk. -/
theorem step_stays {site site' : Site} {m : Move} (h : Enclosed r site) (hm : Placed doc S r m)
    (hstep : Step doc site m site') : Stays r site site' := by
  cases hstep with
  | visit _ => exact ⟨⟨h.region, h.nodes, h.pointerNodes⟩, .refl h.region⟩
  | defer => exact ⟨⟨h.region, h.nodes, h.pointerNodes⟩, .refl h.region⟩
  | @kill _ p hremove => exact removeNode_stays h (inner_child (ElementWith.child hm)) hremove
  | @enter _ p a s ctxt ha henter =>
    have hp := inner_child (ElementWith.child hm)
    obtain ⟨⟨permalinks, rfl, -⟩, hpointers⟩ := enter_eq_ok henter
    have hwithin := Within.modify (not_inner_root r) h.region hp
      (f := fun cell => { cell with data := { cell.data with priv := some (.parsed p) } })
      fun c hc => ⟨⟨hc.children, hc.last⟩, hc.parent, hc.next, hc.prev⟩
    refine ⟨⟨hwithin.region, fun id n hn => ?_, PointerNodesIn.update h.pointerNodes ?_⟩, hwithin⟩
    · simp only [Site.setPrivate, Function.update_apply] at hn
      split at hn
      · cases hn
        exact hp
      · exact h.nodes id n hn
    · rintro _ ⟨⟩
      rw [hpointers]
      simp

/-- The moves of the walk. -/
theorem trace_stays {site site' : Site} {ms : List Move} (h : Enclosed r site)
    (hplaced : ∀ m ∈ ms, Placed doc S r m) (htrace : Trace (Step doc) site ms site') :
    Stays r site site' :=
  htrace.invariant (fun _ m _ hm hs hstep => hs.trans (step_stays hs.enclosed (hplaced m hm) hstep))
    ⟨h, .refl h.region⟩

theorem setLast_within {last : Option NodeId} (hlast : ∀ m ∈ last, Inner r m) :
    ∀ {ns : List NodeId} {σ : Store}, (∀ n ∈ ns, Inner r n) → Region (Inner r) (.parsed r) σ →
      Within (Inner r) (.parsed r) σ (setLast σ ns last)
  | [], _, _, h => .refl h
  | n :: ns, σ, hns, h => by
      obtain ⟨hn, hns⟩ := List.forall_mem_cons.mp hns
      have hfirst := Within.modify (not_inner_root r) h hn (f := fun c => { c with last := last })
        fun c hc => ⟨⟨hc.children, hlast⟩, hc.parent, hc.next, hc.prev⟩
      exact hfirst.trans (setLast_within hlast hns hfirst.region)

theorem graft_within {site : Site} {n m : NodeId} {σ : Store} {lists : AttrLists}
    (h : Enclosed r site) (hn : Inner r n) (hm : Inner r m)
    (hok : site.graft n m = .ok (σ, lists)) : Within (Inner r) (.parsed r) site.doc σ := by
  obtain ⟨cell, firstCell, target, first, σ₁, lists₁, lists₂, hcell, hchildren, hfirstCell,
    ⟨-, hfree, -⟩, htarget, rfl⟩ := graft_eq_ok hok
  have hfirst : Inner r first := (h.region.links _ _ hn hcell).children _ hchildren
  have hfreed := Within.freeList (not_inner_root r) h.region
    (h.region.links _ _ hfirst hfirstCell).next (freeList_of_each hfree)
  have hlinks := hfreed.region.links _ _ hm htarget
  have hnext := Within.modify (not_inner_root r) hfreed.region hfirst
    (f := fun c => { c with next := target.children })
    fun c hc => ⟨⟨hc.children, hc.last⟩, hc.parent, hlinks.children, hc.prev⟩
  have hitem := Within.modify (not_inner_root r) hnext.region hn
    (f := fun c => { c with last := target.last, data := { c.data with
      properties := target.data.properties, priv := target.data.priv } })
    fun c hc => ⟨⟨hc.children, hlinks.last⟩, hc.parent, hc.next, hc.prev⟩
  exact (hfreed.trans hnext).trans hitem

/-- The ends of the parent that is copied stay below the root. -/
theorem copied_ends {site : Site} {n m : NodeId} {s : Stages site n m} (hs : s.Sound)
    (hn : Inner r n) (hgrafted : Region (Inner r) (.parsed r) s.grafted) :
    EndsIn (Inner r) s.parent := by
  have hcopied := hs.parent
  cases hp : s.cell.parent with
  | none =>
    rw [hp] at hcopied
    exact absurd hcopied throw_ne_ok
  | some p =>
    rw [hp, xmlCopyNode, deref_eq_ok] at hcopied
    rcases (hgrafted.links _ _ hn hs.item).parent p hp with hin | rfl
    · exact (hgrafted.links _ _ hin hcopied).toEndsIn
    · exact hgrafted.border _ hcopied

theorem associate_stays {site site' : Site} {n m : NodeId} (h : Enclosed r site) (hn : Inner r n)
    (hm : Inner r m) (hok : site.associate n m = .ok site') : Stays r site site' := by
  obtain ⟨s, hs, rfl⟩ := associate_eq_ok hok
  have hgrafted := graft_within h hn hm hs.graft
  have hnew := inner_pointer r site.allocated
  -- the pointer node shares the list of the parent
  have hends := copied_ends hs hn hgrafted.region
  have hadded := Within.update (not_inner_root r) hgrafted.region hnew
    (x := some (pointerCell s.parent)) fun c hc => Option.some.inj hc ▸
      ⟨⟨hends.children, hends.last⟩, by simp [pointerCell], by simp [pointerCell],
        by simp [pointerCell]⟩
  have hlinked := Within.addChild (not_inner_root r) hadded.region hm hnew
  have hcontexts := PointerNodesIn.stages h.pointerNodes hs hnew
  have hset := setLast_within (hlinked.region.links _ _ hm hs.associated).last
    (hcontexts _ _ hs.associatedContext) hlinked.region
  have hall := ((hgrafted.trans hadded).trans hlinked).trans hset
  exact ⟨⟨hall.region, h.nodes, hcontexts.drop n⟩, hall⟩

/-- An association, whatever has become of its target. -/
theorem initializeAssociation_stays {site site' : Site} {n : NodeId} (h : Enclosed r site)
    (hn : Inner r n) (hok : site.initializeAssociation n = .ok site') : Stays r site site' := by
  obtain ⟨text, -, ⟨m, -, hm, hassociate⟩ | ⟨-, site₁, hremove, rfl⟩⟩ :=
    initializeAssociation_cases hok
  · exact associate_stays h hn (h.nodes _ _ hm) hassociate
  · have hstays := removeNode_stays h hn hremove
    exact ⟨⟨hstays.enclosed.region, hstays.enclosed.nodes,
      PointerNodesIn.drop hstays.enclosed.pointerNodes n⟩, hstays.within⟩

end VaeDb.Staging
