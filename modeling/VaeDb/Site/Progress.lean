import VaeDb.Site.Elements
import VaeDb.Site.Freeing

/-! The walk comes to its end exactly if every element that it comes to fits.

    Whatever else the walk does cannot go wrong: an element that is entered has its list of children,
    a staged element is still there and as parsed when the loop comes to it, and nothing below it has
    been freed.

        staged        read, take out
        association   read, defer, enter
        ordinary      read, (its children), enter         what can go wrong is reading        -/

namespace VaeDb.Staging
open Schemes Xml Walk

variable {doc : Document} {sel : Selection} {S : Structures} {r : List ℕ} {lib : Libxml}
  {site site' : Site}

/-! ### What is there -/

/-- Where a move is made. -/
def pathOf : Move → List ℕ
  | .visit p | .defer p | .enter p | .kill p => p

mutual

/-- The moves for an element are made at it and below it. -/
theorem walkNode_below : ∀ (t : Tree) (p : List ℕ), ∀ m ∈ walkNode S p t, p <:+ pathOf m
  | .text _, _ | .other _, _ => by simp [walkNode]
  | .element name properties children, p => by
      rw [walkNode]
      split
      · simp [pathOf]
      split
      · simp [pathOf]
      · intro m hm
        simp only [List.cons_append, List.mem_cons, List.mem_append, List.not_mem_nil, or_false] at hm
        rcases hm with rfl | hm | rfl
        · exact List.suffix_rfl
        · obtain ⟨j, -, hj⟩ := walkKids_below children p 0 m hm
          exact (List.suffix_cons j p).trans hj
        · exact List.suffix_rfl

theorem walkKids_below : ∀ (ts : List Tree) (p : List ℕ) (i : ℕ), ∀ m ∈ walkKids S p i ts,
    ∃ j, i ≤ j ∧ j :: p <:+ pathOf m
  | [], _, _ => by simp [walkKids]
  | t :: ts, p, i => by
      intro m hm
      rw [walkKids, List.mem_append] at hm
      rcases hm with hm | hm
      · exact ⟨i, Nat.le_refl i, walkNode_below t _ m hm⟩
      · obtain ⟨j, hj, hjm⟩ := walkKids_below ts p (i + 1) m hm
        exact ⟨j, by omega, hjm⟩

end

/-- The node is there. -/
def Alive (site : Site) (c : List ℕ) : Prop := ∃ cell, site.doc (.parsed c) = some cell

/-- A move takes out the element that it kills, and no other child of a walked node. -/
theorem step_alive {m : Move} (h : Walking doc S r site) (hm : Placed doc S r m)
    (hstep : Step doc site m site') {c : List ℕ} (hc : Child doc S r c) (hne : m ≠ .kill c)
    (halive : Alive site c) : Alive site' c := by
  obtain ⟨cell, hcell⟩ := halive
  cases hstep with
  | visit _ => exact ⟨cell, hcell⟩
  | defer => exact ⟨cell, hcell⟩
  | @enter _ p _ _ _ _ henter =>
    obtain ⟨⟨permalinks, rfl, -⟩, -⟩ := enter_eq_ok henter
    rw [Alive, Site.setPrivate]
    rcases eq_or_ne (NodeId.parsed c) (.parsed p) with heq | hcp
    · rw [heq] at hcell ⊢
      exact ⟨_, by dsimp only; rw [Heap.modify_self, hcell]; rfl⟩
    · exact ⟨cell, by dsimp only; rw [Heap.modify_of_ne _ _ hcp, hcell]⟩
  | @kill _ p hremove =>
    obtain ⟨i, q, name, ps, children, -, -, hat, hstaged⟩ := id hm
    have hp := ElementWith.child hm
    have hnot := not_walked_of_staged hp ⟨name, ps, children, hat, hstaged⟩
    obtain ⟨ptrs, hlists, -⟩ := h.inv.lists
    obtain ⟨σ, lists, -, hσ, rfl⟩ := removeNode_eq_ok hremove
    obtain ⟨pcell', hpcell', -⟩ := free_eq_some hσ
    obtain ⟨pcell, hpcell, -⟩ := unlink_eq_some hpcell'
    have hremoved := free_removed hlists hp hnot (h.inv.intact p hp hnot (fun _ => trivial) pcell hpcell) hσ
    have hcp : NodeId.parsed c ≠ .parsed p := by
      rintro ⟨⟩
      exact hne rfl
    obtain ⟨cell', hcell', -⟩ :=
      hremoved.keeps _ cell hcp (child_not_inside hc p hp hnot) hcell
    exact ⟨cell', hcell'⟩

theorem trace_alive {ms : List Move} (htrace : Trace (Step doc) site ms site')
    (hplaced : ∀ m ∈ ms, Placed doc S r m) (h : Walking doc S r site) {c : List ℕ}
    (hc : Child doc S r c) (hnot : .kill c ∉ ms) (halive : Alive site c) : Alive site' c := by
  induction htrace with
  | nil => exact halive
  | cons hstep _ ih =>
    obtain ⟨hm, hplaced⟩ := List.forall_mem_cons.mp hplaced
    rw [List.mem_cons, not_or] at hnot
    exact ih hplaced (walking_step _ _ _ hm h hstep) hnot.2
      (step_alive h hm hstep hc (Ne.symm hnot.1) halive)

/-- Reading a text only follows pointers. -/
theorem firstText_returns (site : Site) (n : NodeId) :
    ReturnsIff (∃ cell, site.doc n = some cell ∧ ∀ child, cell.children = some child →
      ∃ c, site.doc child = some c) (site.firstText n) := by
  refine ReturnsIff.follow fun cell _ => ?_
  cases hchildren : cell.children with
  | none => exact (ReturnsIff.pure _).congr (by simp)
  | some child =>
    exact ((ReturnsIff.deref (site.doc child)).before fun _ _ => ⟨_, rfl⟩).congr (by simp)

/-- A walked node has its list of children. -/
theorem firstText_walked (h : Walking doc S r site) {p : List ℕ} (hp : Walked doc S r p) :
    ∃ text, site.firstText (.parsed p) = .ok text := by
  obtain ⟨ptrs, hlists, -⟩ := h.inv.lists
  have hlinked := hlists.linked p hp
  obtain ⟨cell, hcell, hchildren, -⟩ := hlinked.ends
  refine (firstText_returns site _).returns ⟨cell, hcell, fun first hfirst => ?_⟩
  rw [hfirst] at hchildren
  obtain ⟨L, hL⟩ := List.head?_eq_some_iff.mp hchildren.symm
  obtain ⟨child, hchild, -⟩ := hlinked.member [] first L (by rw [hL]; rfl)
  exact ⟨child, hchild⟩

/-- So has a node that is as parsed. -/
theorem firstText_parsed {p : List ℕ} (hintact : Intact doc site.doc p) (halive : Alive site p) :
    ∃ text, site.firstText (.parsed p) = .ok text := by
  obtain ⟨cell, hcell⟩ := halive
  refine (firstText_returns site _).returns ⟨cell, hcell, fun first hfirst => ?_⟩
  have hkid : first ∈ doc.kidIds p :=
    List.mem_of_mem_head? ((hintact.children cell hcell).symm.trans hfirst)
  obtain ⟨i, t, ht, rfl⟩ := Document.mem_kidIds.mp hkid
  rw [hintact.below _ (List.suffix_cons i p) (by simp)]
  exact store_live ht

theorem enter_returns {n : NodeId} (h : ∃ text, site.firstText n = .ok text) (a : Attrs)
    (s : Option VaeDbStructure) : ∃ entered, site.enter n a s = .ok entered := by
  obtain ⟨text, htext⟩ := h
  rw [Site.enter, htext]
  split <;> exact ⟨_, rfl⟩

/-! ### The state of the walk -/

/-- The site while the walk is under way. -/
structure Underway (doc : Document) (sel : Selection) (r : List ℕ) (site : Site) : Prop
    extends Ready doc sel r site where
  walking : Walking doc (structuresOf doc sel) r site
  mode : site.stagingMode = false
  enclosed : Enclosed r site
  allocated : Tree.sizes doc ≤ site.allocated

theorem step_mode {m : Move} (hstep : Step doc site m site') :
    site'.stagingMode = site.stagingMode := by
  cases hstep with
  | visit _ => rfl
  | defer => rfl
  | enter _ henter =>
    obtain ⟨⟨permalinks, rfl, -⟩, -⟩ := enter_eq_ok henter
    rfl
  | kill hremove =>
    obtain ⟨σ, lists, -, -, rfl⟩ := removeNode_eq_ok hremove
    rfl

theorem Underway.step {m : Move} (h : Underway doc sel r site)
    (hm : Placed doc (structuresOf doc sel) r m) (hstep : Step doc site m site')
    (hgrows : Grows site'.structures (structuresOf doc sel)) : Underway doc sel r site' := by
  have hstays := step_stays h.enclosed hm hstep
  obtain ⟨hroot, hallocated, -⟩ := step_frame hstep
  exact ⟨⟨h.parsed.within hstays.within, hroot.trans h.root,
      step_ownList h.walking hm h.ownLists hstep, hgrows⟩,
    walking_step _ _ _ hm h.walking hstep, (step_mode hstep).trans h.mode, hstays.enclosed,
    h.allocated.trans_eq hallocated.symm⟩

/-- What the moves ask of the document. -/
def MoveFits (doc : Document) (sel : Selection) : Move → Prop
  | .visit p | .kill p => ∀ t, doc.at? p = some t → ElementFits doc sel t.info.properties
  | .defer _ | .enter _ => True

/-- The elements that are still to be taken out are there. -/
def Ahead (site : Site) (ms : List Move) : Prop := ∀ c, .kill c ∈ ms → Alive site c

/-- The constructor for an element, and what the loop does with its Context. -/
def construct (lib : Libxml) (p : List ℕ) (t : Tree) (site : Site) : Result Site :=
  newContext lib p t site >>= fun entered => entered.1.keepOrKill (.parsed p) entered.2

theorem newContexts_element {name : String} {properties : Properties} {children ts : List Tree}
    {p : List ℕ} {i : ℕ} : newContexts lib p i (.element name properties children :: ts) site =
      construct lib (i :: p) (.element name properties children) site >>=
        newContexts lib p (i + 1) ts := by
  rw [newContexts, construct, bind_assoc]

theorem construct_eq_ok {p : List ℕ} {t : Tree} (h : construct lib p t site = .ok site') :
    ∃ site₁ ctxt, newContext lib p t site = .ok (site₁, ctxt) ∧
      site₁.keepOrKill (.parsed p) ctxt = .ok site' := by
  obtain ⟨⟨site₁, ctxt⟩, hnew, hkeep⟩ := bind_eq_ok.mp h
  exact ⟨site₁, ctxt, hnew, hkeep⟩

/-- What is still to be taken out after an element is still there. -/
theorem ahead_tail {t : Tree} {ts : List Tree} {p : List ℕ} {i : ℕ}
    (hp : Walked doc (structuresOf doc sel) r p) (hkids : KidsFrom doc p i (t :: ts))
    (h : Underway doc sel r site) (h' : Underway doc sel r site')
    (hok : construct lib (i :: p) t site = .ok site')
    (hahead : Ahead site (walkKids (structuresOf doc sel) p i (t :: ts))) :
    Ahead site' (walkKids (structuresOf doc sel) p (i + 1) ts) := by
  obtain ⟨site₁, ctxt, hnew, hkeep⟩ := construct_eq_ok hok
  have htrace := (newContext_walks hkids.head h.mode hnew hkeep).trace _ h'.structures
  intro c hc
  have hplaced := placed_walkKids hp hkids.tail _ hc
  refine trace_alive htrace (placed_walkNode hp hkids.head) h.walking (ElementWith.child hplaced)
    (fun hkill => ?_) (hahead c ?_)
  · obtain ⟨j, hj, hjc⟩ := walkKids_below ts p (i + 1) _ hc
    have := child_unique (walkNode_below t _ _ hkill) hjc
    omega
  · rw [walkKids]
    exact List.mem_append_right _ hc

theorem moveFits_visit {p : List ℕ} {t : Tree} (hat : doc.at? p = some t) :
    MoveFits doc sel (.visit p) ↔ ElementFits doc sel t.info.properties := by
  rw [MoveFits, hat]
  exact ⟨fun h => h t rfl, fun h t' ht' => Option.some.inj ht' ▸ h⟩

/-- A staged element. -/
theorem construct_staged (hlib : Selects lib doc sel) (hr : r ∈ sel.content) {name : String}
    {properties : Properties} {children : List Tree} {p : List ℕ} {i : ℕ}
    (hp : Walked doc (structuresOf doc sel) r p)
    (hat : doc.at? (i :: p) = some (.element name properties children)) (hstaged : Staged properties)
    (h : Underway doc sel r site) (halive : Alive site (i :: p)) :
    ReturnsIff (ElementFits doc sel properties)
        (construct lib (i :: p) (.element name properties children) site) ∧
      ∀ site', construct lib (i :: p) (.element name properties children) site = .ok site' →
        Underway doc sel r site' := by
  have hc : ElementWith doc (structuresOf doc sel) r (fun ps => Staged ps) (i :: p) :=
    ⟨i, p, name, properties, children, rfl, hp, hat, hstaged⟩
  have hchild := ElementWith.child hc
  have hnot := not_walked_of_staged hchild ⟨name, properties, children, hat, hstaged⟩
  obtain ⟨ptrs, hlists, -⟩ := h.walking.inv.lists
  obtain ⟨cell, hcell⟩ := halive
  have hintact := h.walking.inv.intact _ hchild hnot (fun _ => trivial) cell hcell
  -- reading a staged element learns nothing
  have hread : ∀ site₁ a, populateAttrs lib site properties = .ok (site₁, a) →
      site₁ = site ∧ a = none := by
    intro site₁ a ha
    rcases populateAttrs_cases h.mode ha with ⟨-, rfl, rfl⟩ | ⟨hunstaged, -⟩
    · exact ⟨rfl, rfl⟩
    · exact absurd hstaged hunstaged
  rw [construct, newContext, bind_assoc]
  constructor
  · refine (populateAttrs_returns hlib hr h.mode h.toReady properties).1.before fun a ha => ?_
    obtain ⟨rfl, hnone⟩ := hread a.1 a.2 ha
    obtain ⟨site₁, rfl⟩ : ∃ site₁, a = (site₁, none) := ⟨a.1, Prod.ext rfl hnone⟩
    exact removeNode_returns hlists hchild hnot hintact hcell (fun q _ => h.ownLists _) h.allocated
  · intro site' hok
    obtain ⟨⟨site₁, a⟩, ha, hrest⟩ := bind_eq_ok.mp hok
    obtain ⟨rfl, rfl⟩ := hread site₁ a ha
    have hplaced : Placed doc (structuresOf doc sel) r (.kill (i :: p)) := hc
    refine h.step hplaced (.kill hrest) ?_
    obtain ⟨σ, lists, -, -, rfl⟩ := removeNode_eq_ok hrest
    exact h.structures

/-- The last part of the constructor, once the element has been read and its children have Contexts. -/
def finish (p : List ℕ) (a : Attrs) (s : Option VaeDbStructure) (site : Site) : Result Site :=
  site.enter (.parsed p) a s >>= fun entered => pure (entered.1.setPrivate (.parsed p) entered.2)

theorem finish_returns {p : List ℕ} (h : ∃ text, site.firstText (.parsed p) = .ok text) (a : Attrs)
    (s : Option VaeDbStructure) : ∃ site', finish p a s site = .ok site' := by
  obtain ⟨entered, hentered⟩ := enter_returns h a s
  exact ⟨_, by rw [finish, hentered]; rfl⟩

theorem finish_underway {p : List ℕ} {a : Attrs} {s : Option VaeDbStructure}
    (hp : ElementWith doc (structuresOf doc sel) r (fun ps => ¬ Staged ps) p)
    (ha : attrsAt doc p = some a) (h : Underway doc sel r site)
    (hok : finish p a s site = .ok site') : Underway doc sel r site' := by
  obtain ⟨⟨site₁, ctxt⟩, hentered, hsite⟩ := bind_eq_ok.mp hok
  cases hsite
  have hplaced : Placed doc (structuresOf doc sel) r (.enter p) := hp
  refine h.step hplaced (.enter ha hentered) ?_
  obtain ⟨⟨permalinks, rfl, -⟩, -⟩ := enter_eq_ok hentered
  exact h.structures

/-- An element that stays is read, gets its children or waits for the associations, and is entered. -/
theorem construct_kept {name : String} {properties : Properties} {children : List Tree} {p : List ℕ}
    (hgrows : ∀ site₁ a, populateAttrs lib site properties = .ok (site₁, a) →
      Grows site₁.structures (structuresOf doc sel))
    (hmode : site.stagingMode = false) (hstaged : ¬ Staged properties) :
    construct lib p (.element name properties children) site =
      populateAttrs lib site properties >>= fun read =>
        (if Association (structuresOf doc sel) properties then pure (read.1.defer (.parsed p))
          else newContexts lib p 0 children read.1) >>=
        finish p (declared {} properties)
          (structureOf (structuresOf doc sel) (declared {} properties)) := by
  rw [construct, newContext, bind_assoc]
  cases hread : populateAttrs lib site properties with
  | error e => rfl
  | ok read =>
    obtain ⟨site₁, a⟩ := read
    rcases populateAttrs_cases hmode hread with ⟨hstaged', -⟩ | ⟨-, S, rfl, -, hS⟩
    · exact absurd hstaged' hstaged
    · obtain rfl := hS _ (hgrows _ _ hread)
      rw [ok_bind, ok_bind]
      simp only [bind_assoc]
      rfl

/-- The site after an element that stays has been read. -/
theorem read_underway (hlib : Selects lib doc sel) (hr : r ∈ sel.content) (h : Underway doc sel r site)
    {properties : Properties} (hstaged : ¬ Staged properties) {site₁ : Site}
    {a : Option (Attrs × Option VaeDbStructure)}
    (hread : populateAttrs lib site properties = .ok (site₁, a)) :
    Underway doc sel r site₁ ∧ ∀ c, Alive site₁ c ↔ Alive site c := by
  have hgrows := (populateAttrs_returns hlib hr h.mode h.toReady properties).2 _ _ hread
  rcases populateAttrs_cases h.mode hread with ⟨hstaged', -⟩ | ⟨-, S, rfl, hS, -⟩
  · exact absurd hstaged' hstaged
  · have hplaced : Placed doc (structuresOf doc sel) r (.visit r) := trivial
    exact ⟨h.step hplaced (.visit hS) hgrows, fun c => Iff.rfl⟩

variable {name : String} {properties : Properties} {children : List Tree} {p : List ℕ} {i : ℕ}

/-- An association item. -/
theorem construct_association (hlib : Selects lib doc sel) (hr : r ∈ sel.content)
    (hp : Walked doc (structuresOf doc sel) r p)
    (hat : doc.at? (i :: p) = some (.element name properties children))
    (hstaged : ¬ Staged properties) (hassoc : Association (structuresOf doc sel) properties)
    (h : Underway doc sel r site) :
    ReturnsIff (ElementFits doc sel properties)
        (construct lib (i :: p) (.element name properties children) site) ∧
      ∀ site', construct lib (i :: p) (.element name properties children) site = .ok site' →
        Underway doc sel r site' := by
  obtain ⟨hread, hgrows⟩ := populateAttrs_returns hlib hr h.mode h.toReady properties
  have hitem : Item doc (structuresOf doc sel) r (i :: p) :=
    ⟨i, p, name, properties, children, rfl, hp, hat, hstaged, hassoc⟩
  have hchild := ElementWith.child hitem
  have hdefer : ∀ site₁, Underway doc sel r site₁ →
      Underway doc sel r (site₁.defer (.parsed (i :: p))) := by
    intro site₁ h₁
    have hplaced : Placed doc (structuresOf doc sel) r (.defer (i :: p)) := hitem
    exact h₁.step hplaced .defer h₁.structures
  rw [construct_kept hgrows h.mode hstaged]
  simp only [if_pos hassoc]
  constructor
  · refine hread.before fun a ha => finish_returns ?_ _ _
    have h₁ := hdefer _ (read_underway hlib hr h hstaged ha).1
    obtain ⟨cell, hcell⟩ := h₁.walking.inv.alive _ hchild hitem.associationAt.1 fun _ => trivial
    have hnot := not_walked_of_association hchild hitem.associationAt.2
    exact firstText_parsed (h₁.walking.inv.intact _ hchild hnot (fun _ => trivial) cell hcell)
      ⟨cell, hcell⟩
  · intro site' hok
    obtain ⟨⟨site₁, a⟩, ha, hok⟩ := bind_eq_ok.mp hok
    have hattrs : attrsAt doc (i :: p) = some (declared {} properties) := by rw [attrsAt, hat]
    exact finish_underway ⟨i, p, name, properties, children, rfl, hp, hat, hstaged⟩ hattrs
      (hdefer _ (read_underway hlib hr h hstaged ha).1) hok

/-- An ordinary element, given what its children ask for. -/
theorem construct_ordinary (hlib : Selects lib doc sel) (hr : r ∈ sel.content)
    (hp : Walked doc (structuresOf doc sel) r p)
    (hat : doc.at? (i :: p) = some (.element name properties children))
    (hstaged : ¬ Staged properties) (hassoc : ¬ Association (structuresOf doc sel) properties)
    (h : Underway doc sel r site) {P : Prop}
    (hkids : ∀ site₁, Underway doc sel r site₁ → (∀ c, Alive site₁ c ↔ Alive site c) →
      ReturnsIff P (newContexts lib (i :: p) 0 children site₁) ∧
        ∀ site₂, newContexts lib (i :: p) 0 children site₁ = .ok site₂ →
          Underway doc sel r site₂) :
    ReturnsIff (ElementFits doc sel properties ∧ P)
        (construct lib (i :: p) (.element name properties children) site) ∧
      ∀ site', construct lib (i :: p) (.element name properties children) site = .ok site' →
        Underway doc sel r site' := by
  obtain ⟨hread, hgrows⟩ := populateAttrs_returns hlib hr h.mode h.toReady properties
  have hwalked : Walked doc (structuresOf doc sel) r (i :: p) := .child hp hat hstaged hassoc
  have hrest := fun site₁ a (ha : populateAttrs lib site properties = .ok (site₁, a)) =>
    hkids site₁ (read_underway hlib hr h hstaged ha).1 (read_underway hlib hr h hstaged ha).2
  rw [construct_kept hgrows h.mode hstaged]
  simp only [if_neg hassoc]
  constructor
  · refine hread.andThen fun a ha => (hrest a.1 a.2 ha).1.before fun site₂ h₂ => ?_
    exact finish_returns (firstText_walked ((hrest a.1 a.2 ha).2 site₂ h₂).walking hwalked) _ _
  · intro site' hok
    obtain ⟨⟨site₁, a⟩, ha, hok⟩ := bind_eq_ok.mp hok
    obtain ⟨site₂, h₂, hok⟩ := bind_eq_ok.mp hok
    have hattrs : attrsAt doc (i :: p) = some (declared {} properties) := by rw [attrsAt, hat]
    exact finish_underway ⟨i, p, name, properties, children, rfl, hp, hat, hstaged⟩ hattrs
      ((hrest site₁ a ha).2 site₂ h₂) hok

mutual

/-- An element of the content is taken out or entered exactly if all that the walk reads for it
    fits. -/
theorem construct_returns (hlib : Selects lib doc sel) (hr : r ∈ sel.content) :
    ∀ {t : Tree} {p : List ℕ} {i : ℕ} {site : Site}, (∃ name properties children,
      t = .element name properties children) → Walked doc (structuresOf doc sel) r p →
      doc.at? (i :: p) = some t → Underway doc sel r site →
      Ahead site (walkNode (structuresOf doc sel) (i :: p) t) →
      ReturnsIff (∀ m ∈ walkNode (structuresOf doc sel) (i :: p) t, MoveFits doc sel m)
          (construct lib (i :: p) t site) ∧
        ∀ site', construct lib (i :: p) t site = .ok site' → Underway doc sel r site'
  | .text _, p, i, site, ⟨_, _, _, ht⟩, _, _, _, _ => by cases ht
  | .other _, p, i, site, ⟨_, _, _, ht⟩, _, _, _, _ => by cases ht
  | .element name properties children, p, i, site, _, hp, hat, h, hahead => by
      have hvisit : MoveFits doc sel (.visit (i :: p)) ↔ ElementFits doc sel properties :=
        moveFits_visit hat
      rw [walkNode] at hahead ⊢
      by_cases hstaged : Staged properties
      · rw [if_pos hstaged] at hahead ⊢
        obtain ⟨hreturns, hunderway⟩ := construct_staged hlib hr hp hat hstaged h
          (hahead _ (List.mem_singleton_self _))
        refine ⟨hreturns.congr ?_, hunderway⟩
        rw [List.forall_mem_singleton]
        exact hvisit.symm
      rw [if_neg hstaged] at hahead ⊢
      by_cases hassoc : Association (structuresOf doc sel) properties
      · rw [if_pos hassoc]
        obtain ⟨hreturns, hunderway⟩ := construct_association hlib hr hp hat hstaged hassoc h
        refine ⟨hreturns.congr ?_, hunderway⟩
        rw [List.forall_mem_cons, hvisit]
        simp [MoveFits]
      rw [if_neg hassoc] at hahead ⊢
      have hwalked : Walked doc (structuresOf doc sel) r (i :: p) := .child hp hat hstaged hassoc
      have hfrom : KidsFrom doc (i :: p) 0 children := by
        have hfrom := @kidsFrom_kids doc (i :: p)
        rwa [kids_of_at? hat] at hfrom
      obtain ⟨hreturns, hunderway⟩ := construct_ordinary hlib hr hp hat hstaged hassoc h
        fun site₁ h₁ halive => newContexts_returns hlib hr hwalked hfrom h₁ fun c hkill =>
          (halive c).mpr (hahead c (List.mem_append_left _ (List.mem_cons_of_mem _ hkill)))
      refine ⟨hreturns.congr ?_, hunderway⟩
      simp only [List.cons_append, List.forall_mem_cons, List.forall_mem_append, hvisit]
      simp [MoveFits]

/-- The loop over the children of a walked node, from child `i` on. -/
theorem newContexts_returns (hlib : Selects lib doc sel) (hr : r ∈ sel.content) :
    ∀ {ts : List Tree} {p : List ℕ} {i : ℕ} {site : Site},
      Walked doc (structuresOf doc sel) r p → KidsFrom doc p i ts → Underway doc sel r site →
      Ahead site (walkKids (structuresOf doc sel) p i ts) →
      ReturnsIff (∀ m ∈ walkKids (structuresOf doc sel) p i ts, MoveFits doc sel m)
          (newContexts lib p i ts site) ∧
        ∀ site', newContexts lib p i ts site = .ok site' → Underway doc sel r site'
  | [], p, i, site, _, _, h, _ => by
      rw [newContexts]
      refine ⟨(ReturnsIff.pure _).congr (by simp [walkKids]), fun site' hok => ?_⟩
      cases hok
      exact h
  | .text _ :: ts, p, i, site, hp, hkids, h, hahead
  | .other _ :: ts, p, i, site, hp, hkids, h, hahead => by
      rw [walkKids, walkNode, List.nil_append] at hahead ⊢
      rw [newContexts]
      exact newContexts_returns hlib hr hp hkids.tail h hahead
  | .element name properties children :: ts, p, i, site, hp, hkids, h, hahead => by
      have hfirst : Ahead site (walkNode (structuresOf doc sel) (i :: p)
          (.element name properties children)) := by
        intro c hc
        refine hahead c ?_
        rw [walkKids]
        exact List.mem_append_left _ hc
      obtain ⟨hreturns, hunderway⟩ :=
        construct_returns hlib hr ⟨name, properties, children, rfl⟩ hp hkids.head h hfirst
      have hrest := fun site₁ h₁ => newContexts_returns hlib hr hp hkids.tail (hunderway site₁ h₁)
        (ahead_tail hp hkids h (hunderway site₁ h₁) h₁ hahead)
      rw [newContexts_element]
      refine ⟨(hreturns.andThen fun site₁ h₁ => (hrest site₁ h₁).1).congr ?_, fun site' hok => ?_⟩
      · rw [walkKids, List.forall_mem_append]
      · obtain ⟨site₁, h₁, hok⟩ := bind_eq_ok.mp hok
        exact (hrest site₁ h₁).2 site' hok

end

end VaeDb.Staging
