import VaeDb.Schemes.Runs
import VaeDb.Site.Load

/-! The walk over the content of a production feed.

    `newContext` and `newContexts` recurse over the tree while they change the node store and the
    two indexes. Read as a list of moves, the recursion becomes flat: each element below the root is
    killed, or entered (after its children, unless it is an association item). The list can be
    written down from the tree alone (`walkNode`, `walkKids`), and loading is a trace of it.

        staged        kill
        association   visit, defer, enter
        ordinary      visit, (its children), enter -/

namespace VaeDb.Walk
open Schemes Xml

/-! ### What the attributes of an element declare -/

/-- The element carries a `staging` attribute. -/
def Staged (properties : Properties) : Prop := "staging" ∈ properties.map Prod.fst

instance (properties : Properties) : Decidable (Staged properties) :=
  inferInstanceAs (Decidable (_ ∈ _))

/-- The last `id`, `type` and `permalink` attributes, over the values in `a`. -/
def declared (a : Attrs) : Properties → Attrs
  | [] => a
  | (name, value) :: rest =>
    if name = "id" then declared { a with id := Cpp.atoi (value.getD "") } rest
    else if name = "type" then declared { a with structureId := Cpp.atoi (value.getD "") } rest
    else if name = "permalink" then declared { a with permalink := value } rest
    else declared a rest

/-- Outside staging mode, reading the attributes finds `staging` or what the element declares. -/
theorem read_cases : ∀ {properties : Properties} {a : Attrs} {r : Option Attrs},
    a.read false properties = .ok r →
    (r = none ∧ Staged properties) ∨ (r = some (declared a properties) ∧ ¬ Staged properties)
  | [], a, r, h => by
      rw [Attrs.read, pure_eq_ok] at h
      exact Or.inr ⟨h.symm, by simp [Staged]⟩
  | (name, value) :: rest, a, r, h => by
      rw [Attrs.read] at h
      rw [declared]
      have htail : name ≠ "staging" → (Staged ((name, value) :: rest) ↔ Staged rest) := by
        intro hname
        simp [Staged, hname.symm]
      split at h
      · next hname =>
        obtain ⟨v, hv, h⟩ := bind_eq_ok.mp h
        rw [deref_eq_ok] at hv
        rw [if_pos hname, htail (by simp [hname]), hv]
        exact read_cases h
      split at h
      · next hid hname =>
        obtain ⟨v, hv, h⟩ := bind_eq_ok.mp h
        rw [deref_eq_ok] at hv
        rw [if_neg hid, if_pos hname, htail (by simp [hname]), hv]
        exact read_cases h
      split at h
      · next hid htype hname =>
        obtain ⟨v, hv, h⟩ := bind_eq_ok.mp h
        rw [deref_eq_ok] at hv
        rw [if_neg hid, if_neg htype, if_pos hname, htail (by simp [hname]), hv]
        exact read_cases h
      split at h
      · next hname =>
        rw [pure_eq_ok] at h
        exact Or.inl ⟨h.symm, by simp_all [Staged]⟩
      · next hid htype hpermalink hname =>
        rw [if_neg hid, if_neg htype, if_neg hpermalink, htail (by simpa using hname)]
        exact read_cases h

abbrev Structures := ℤ → Option VaeDbStructure

/-- Every structure known to `S` is known to `S'`, and is the same there. -/
def Grows (S S' : Structures) : Prop := ∀ N s, S N = some s → S' N = some s

theorem Grows.refl (S : Structures) : Grows S S := fun _ _ h => h

theorem Grows.trans {S S' S'' : Structures} (h : Grows S S') (h' : Grows S' S'') : Grows S S'' :=
  fun N s hs => h' N s (h N s hs)

/-- The structure of an element, by its `type` attribute. -/
def structureOf (S : Structures) (a : Attrs) : Option VaeDbStructure :=
  if 0 < a.structureId then S a.structureId else none

theorem structureFromStructureId_eq {lib : Libxml} {site site' : Site} {N : ℤ} {s : VaeDbStructure}
    (h : site.structureFromStructureId lib N = .ok (site', s)) :
    ∃ S, site' = { site with structures := S } ∧ Grows site.structures S ∧ S N = some s := by
  rw [Site.structureFromStructureId] at h
  split at h
  · next hN =>
    cases h
    exact ⟨site.structures, rfl, Grows.refl _, hN⟩
  · next hN =>
    obtain ⟨query, -, h⟩ := bind_eq_ok.mp h
    obtain ⟨x, -, h⟩ := bind_eq_ok.mp h
    cases x with
    | attr => exact absurd h throw_ne_ok
    | node n =>
      obtain ⟨cell, -, h⟩ := bind_eq_ok.mp h
      obtain ⟨s', -, h⟩ := bind_eq_ok.mp h
      cases h
      refine ⟨_, rfl, fun N' s' hs' => ?_, Function.update_self ..⟩
      have hne : N' ≠ N := by
        rintro rfl
        rw [hN] at hs'
        cases hs'
      rwa [Function.update_of_ne hne]

theorem populateAttrs_cases {lib : Libxml} {site site' : Site} {properties : Properties}
    {r : Option (Attrs × Option VaeDbStructure)} (hmode : site.stagingMode = false)
    (h : populateAttrs lib site properties = .ok (site', r)) :
    (Staged properties ∧ r = none ∧ site' = site) ∨
      (¬ Staged properties ∧ ∃ S, site' = { site with structures := S } ∧
        Grows site.structures S ∧ ∀ S', Grows S S' →
          r = some (declared {} properties, structureOf S' (declared {} properties))) := by
  rw [populateAttrs, hmode] at h
  obtain ⟨ra, hra, h⟩ := bind_eq_ok.mp h
  rcases read_cases hra with ⟨rfl, hstaged⟩ | ⟨rfl, hstaged⟩
  · cases h
    exact Or.inl ⟨hstaged, rfl, rfl⟩
  · refine Or.inr ⟨hstaged, ?_⟩
    dsimp only at h
    split at h
    · next hpos =>
      obtain ⟨⟨site₁, s⟩, hs, h⟩ := bind_eq_ok.mp h
      cases h
      obtain ⟨S, rfl, hgrows, hS⟩ := structureFromStructureId_eq hs
      refine ⟨S, rfl, hgrows, fun S' hS' => ?_⟩
      rw [structureOf, if_pos hpos, hS' _ _ hS]
    · next hpos =>
      cases h
      refine ⟨site.structures, rfl, Grows.refl _, fun S' _ => ?_⟩
      rw [structureOf, if_neg hpos]

/-! ### Moves -/

/-- The element is an association item, by the structures known to `S`. -/
def Association (S : Structures) (properties : Properties) : Prop :=
  isAssociation (structureOf S (declared {} properties)) = true

instance (S : Structures) (properties : Properties) : Decidable (Association S properties) :=
  inferInstanceAs (Decidable (_ = _))

/-- One thing that loading does with the element at a path. -/
inductive Move where
  | visit (p : List ℕ)
  | defer (p : List ℕ)
  | enter (p : List ℕ)
  | kill (p : List ℕ)
  deriving DecidableEq

mutual

def walkNode (S : Structures) (p : List ℕ) : Tree → List Move
  | .text _ | .other _ => []
  | .element _ properties children =>
    if Staged properties then [.kill p]
    else if Association S properties then [.visit p, .defer p, .enter p]
    else .visit p :: walkKids S p 0 children ++ [.enter p]

/-- The moves for the children of the node at `p`, from child `i` on. -/
def walkKids (S : Structures) (p : List ℕ) (i : ℕ) : List Tree → List Move
  | [] => []
  | t :: ts => walkNode S (i :: p) t ++ walkKids S p (i + 1) ts

end

/-- What the element at a path declares. -/
def attrsAt (doc : Document) (p : List ℕ) : Option Attrs :=
  match doc.at? p with
  | some (.element _ properties _) => some (declared {} properties)
  | _ => none

/-- What a move does to the site. -/
inductive Step (doc : Document) : Site → Move → Site → Prop
  | visit {site : Site} {p : List ℕ} {S : Structures} : Grows site.structures S →
      Step doc site (.visit p) { site with structures := S }
  | defer {site : Site} {p : List ℕ} :
      Step doc site (.defer p) (site.defer (.parsed p))
  | enter {site site' : Site} {p : List ℕ} {a : Attrs} {s : Option VaeDbStructure}
      {ctxt : Context} : attrsAt doc p = some a →
      site.enter (.parsed p) a s = .ok (site', ctxt) →
      Step doc site (.enter p) (site'.setPrivate (.parsed p) ctxt)
  | kill {site site' : Site} {p : List ℕ} : site.removeNode (.parsed p) = .ok site' →
      Step doc site (.kill p) site'

theorem enter_eq_ok {site site' : Site} {n : NodeId} {a : Attrs} {s : Option VaeDbStructure}
    {ctxt : Context} (h : site.enter n a s = .ok (site', ctxt)) :
    (∃ permalinks, site' = { site with
        nodes := Function.update site.nodes a.id (some n), permalinks := permalinks } ∧
      ∀ k m, permalinks k = some m → site.permalinks k = some m ∨ m = n) ∧
      ctxt.pointerNodes = [] := by
  rw [Site.enter] at h
  obtain ⟨data, -, hentered⟩ := bind_eq_ok.mp h
  cases hentered
  refine ⟨⟨_, rfl, fun k m hm => ?_⟩, rfl⟩
  cases hperm : a.permalink with
  | none =>
    rw [hperm] at hm
    exact Or.inl hm
  | some permalink =>
    simp only [hperm, Function.update_apply] at hm
    split at hm
    · exact Or.inr (Option.some.inj hm).symm
    · exact Or.inl hm

variable {lib : Libxml} {doc : Document}

/-- What a run of the constructors does: it only adds structures, stays in production mode, and is
    a trace of the moves that the tree and the structures known in the end determine. -/
structure Walks (doc : Document) (site : Site) (moves : Structures → List Move) (site' : Site) :
    Prop where
  grows : Grows site.structures site'.structures
  mode : site'.stagingMode = false
  trace : ∀ S, Grows site'.structures S → Trace (Step doc) site (moves S) site'

theorem Walks.trans {site site' site'' : Site} {ms ms' : Structures → List Move}
    (h : Walks doc site ms site') (h' : Walks doc site' ms' site'') :
    Walks doc site (fun S => ms S ++ ms' S) site'' where
  grows := h.grows.trans h'.grows
  mode := h'.mode
  trace := fun S hS => (h.trace S (h'.grows.trans hS)).append (h'.trace S hS)

theorem walks_visit {site : Site} {p : List ℕ} {S : Structures} (hmode : site.stagingMode = false)
    (h : Grows site.structures S) :
    Walks doc site (fun _ => [.visit p]) { site with structures := S } :=
  ⟨h, hmode, fun _ _ => Trace.single (.visit h)⟩

theorem walks_defer {site : Site} {p : List ℕ} (hmode : site.stagingMode = false) :
    Walks doc site (fun _ => [.defer p]) (site.defer (.parsed p)) :=
  ⟨Grows.refl _, hmode, fun _ _ => Trace.single .defer⟩

theorem walks_enter {site site' : Site} {p : List ℕ} {a : Attrs} {s : Option VaeDbStructure}
    {ctxt : Context} (hmode : site.stagingMode = false) (ha : attrsAt doc p = some a)
    (h : site.enter (.parsed p) a s = .ok (site', ctxt)) :
    Walks doc site (fun _ => [.enter p]) (site'.setPrivate (.parsed p) ctxt) := by
  obtain ⟨⟨permalinks, rfl, -⟩, -⟩ := enter_eq_ok h
  exact ⟨Grows.refl _, hmode, fun _ _ => Trace.single (.enter ha h)⟩

theorem walks_kill {site site' : Site} {p : List ℕ} (hmode : site.stagingMode = false)
    (h : site.removeNode (.parsed p) = .ok site') : Walks doc site (fun _ => [.kill p]) site' := by
  obtain ⟨σ, lists, -, -, rfl⟩ := removeNode_eq_ok h
  exact ⟨Grows.refl _, hmode, fun _ _ => Trace.single (.kill h)⟩

theorem Walks.congr {site site' : Site} {ms ms' : Structures → List Move}
    (h : Walks doc site ms site') (heq : ∀ S, Grows site'.structures S → ms S = ms' S) :
    Walks doc site ms' site' :=
  ⟨h.grows, h.mode, fun S hS => heq S hS ▸ h.trace S hS⟩

/-- The moves for an element, once its structure is settled. -/
theorem walkNode_eq {S S' : Structures} {name : String} {properties : Properties}
    {children : List Tree} {p : List ℕ} (hstaged : ¬ Staged properties)
    (hS : structureOf S (declared {} properties) = structureOf S' (declared {} properties)) :
    walkNode S p (.element name properties children) =
      if isAssociation (structureOf S' (declared {} properties))
      then [.visit p] ++ ([.defer p] ++ [.enter p])
      else [.visit p] ++ (walkKids S p 0 children ++ [.enter p]) := by
  simp only [walkNode, if_neg hstaged, Association, hS]
  rfl

theorem kids_of_at? {p : List ℕ} {t : Tree} (hp : doc.at? p = some t) :
    doc.kids p = t.children := by
  cases p with
  | nil => cases hp
  | cons i p =>
    rw [Document.at?] at hp
    rw [Document.kids, hp]

/-- `ts` are the children of the node at `p`, from child `i` on. -/
def KidsFrom (doc : Document) (p : List ℕ) (i : ℕ) (ts : List Tree) : Prop :=
  ∀ j t, ts[j]? = some t → doc.at? ((i + j) :: p) = some t

theorem KidsFrom.head {p : List ℕ} {i : ℕ} {t : Tree} {ts : List Tree}
    (h : KidsFrom doc p i (t :: ts)) : doc.at? (i :: p) = some t := h 0 t rfl

theorem KidsFrom.tail {p : List ℕ} {i : ℕ} {t : Tree} {ts : List Tree}
    (h : KidsFrom doc p i (t :: ts)) : KidsFrom doc p (i + 1) ts := by
  intro j u hj
  rw [Nat.add_assoc, Nat.add_comm 1]
  exact h (j + 1) u hj

theorem kidsFrom_kids (p : List ℕ) : KidsFrom doc p 0 (doc.kids p) := by
  intro j t hj
  rw [Nat.zero_add]
  exact hj

mutual

/-- The constructor for an element, together with what the loop does with the Context it gets. -/
theorem newContext_walks : ∀ {t : Tree} {p : List ℕ} {site site₁ site' : Site} {r : Option Context},
    doc.at? p = some t → site.stagingMode = false → newContext lib p t site = .ok (site₁, r) →
    site₁.keepOrKill (.parsed p) r = .ok site' → Walks doc site (fun S => walkNode S p t) site'
  | .text _, p, site, site₁, site', r, _, _, h, _ => by
      rw [newContext] at h
      exact absurd h throw_ne_ok
  | .other _, p, site, site₁, site', r, _, _, h, _ => by
      rw [newContext] at h
      exact absurd h throw_ne_ok
  | .element name properties children, p, site, site₁, site', r, hp, hmode, h, hkeep => by
      rw [newContext] at h
      obtain ⟨⟨site₂, r₂⟩, hattrs, hrest⟩ := bind_eq_ok.mp h
      rcases populateAttrs_cases hmode hattrs with ⟨hstaged, rfl, rfl⟩ | ⟨hstaged, S₂, rfl, hS₂, hr₂⟩
      · cases hrest
        refine (walks_kill hmode hkeep).congr fun S _ => ?_
        rw [walkNode, if_pos hstaged]
      · obtain rfl := hr₂ S₂ (Grows.refl _)
        obtain ⟨site₃, hkids, hrest'⟩ := bind_eq_ok.mp hrest
        obtain ⟨⟨site₄, ctxt⟩, henter, hctxt⟩ := bind_eq_ok.mp hrest'
        cases hctxt
        cases hkeep
        have hstruct : ∀ S, Grows S₂ S → structureOf S (declared {} properties) =
            structureOf S₂ (declared {} properties) := fun S hS => by simpa using (hr₂ S hS).symm
        have hvisit := @walks_visit doc _ p _ hmode hS₂
        have hattr : attrsAt doc p = some (declared {} properties) := by rw [attrsAt, hp]
        split at hkids
        · next hassoc =>
          cases hkids
          have hrun := (walks_defer hvisit.mode).trans (walks_enter hvisit.mode hattr henter)
          refine (hvisit.trans hrun).congr fun S hS => ?_
          rw [walkNode_eq hstaged (hstruct S (hrun.grows.trans hS)), if_pos hassoc]
        · next hassoc =>
          have hfrom : KidsFrom doc p 0 children := by
            have hfrom := @kidsFrom_kids doc p
            rwa [kids_of_at? hp] at hfrom
          have hwalk := newContexts_walks hfrom hvisit.mode hkids
          have hrun := hwalk.trans (walks_enter hwalk.mode hattr henter)
          refine (hvisit.trans hrun).congr fun S hS => ?_
          rw [walkNode_eq hstaged (hstruct S (hrun.grows.trans hS)), if_neg hassoc]

theorem newContexts_walks : ∀ {ts : List Tree} {p : List ℕ} {i : ℕ} {site site' : Site},
    KidsFrom doc p i ts → site.stagingMode = false → newContexts lib p i ts site = .ok site' →
    Walks doc site (fun S => walkKids S p i ts) site'
  | [], p, i, site, site', _, hmode, h => by
      cases h
      exact ⟨Grows.refl _, hmode, fun _ _ => .nil _⟩
  | .text _ :: ts, p, i, site, site', hkids, hmode, h => by
      rw [newContexts] at h
      have hwalk := newContexts_walks hkids.tail hmode h
      exact hwalk
  | .other _ :: ts, p, i, site, site', hkids, hmode, h => by
      rw [newContexts] at h
      have hwalk := newContexts_walks hkids.tail hmode h
      exact hwalk
  | .element name properties children :: ts, p, i, site, site', hkids, hmode, h => by
      rw [newContexts] at h
      obtain ⟨⟨site₁, r⟩, hnew, hrest⟩ := bind_eq_ok.mp h
      obtain ⟨site₂, hkeep, htail⟩ := bind_eq_ok.mp hrest
      have hwalk := newContext_walks hkids.head hmode hnew hkeep
      exact hwalk.trans (newContexts_walks hkids.tail hwalk.mode htail)

end

/-! ### Which moves there are -/

/-- The node at a path is the root of the walk, or an ordinary element the walk goes through. -/
inductive Walked (doc : Document) (S : Structures) (r : List ℕ) : List ℕ → Prop
  | root : Walked doc S r r
  | child {p : List ℕ} {i : ℕ} {name : String} {properties : Properties} {children : List Tree} :
      Walked doc S r p → doc.at? (i :: p) = some (.element name properties children) →
      ¬ Staged properties → ¬ Association S properties → Walked doc S r (i :: p)

/-- A child of a walked node that is an element with attributes as in `Q`. -/
def ElementWith (doc : Document) (S : Structures) (r : List ℕ) (Q : Properties → Prop)
    (c : List ℕ) : Prop :=
  ∃ i p name properties children, c = i :: p ∧ Walked doc S r p ∧
    doc.at? c = some (.element name properties children) ∧ Q properties

/-- Where each kind of move is made. -/
def Placed (doc : Document) (S : Structures) (r : List ℕ) : Move → Prop
  | .visit _ => True
  | .defer c => ElementWith doc S r (fun ps => ¬ Staged ps ∧ Association S ps) c
  | .enter c => ElementWith doc S r (fun ps => ¬ Staged ps) c
  | .kill c => ElementWith doc S r (fun ps => Staged ps) c

variable {S : Structures} {r : List ℕ}

mutual

theorem placed_walkNode : ∀ {t : Tree} {p : List ℕ} {i : ℕ}, Walked doc S r p →
    doc.at? (i :: p) = some t → ∀ m ∈ walkNode S (i :: p) t, Placed doc S r m
  | .text _, p, i, _, _ => by simp [walkNode]
  | .other _, p, i, _, _ => by simp [walkNode]
  | .element name properties children, p, i, hp, ht => by
      have hplace : ∀ Q : Properties → Prop, Q properties → ElementWith doc S r Q (i :: p) :=
        fun Q hQ => ⟨i, p, name, properties, children, rfl, hp, ht, hQ⟩
      rw [walkNode]
      split
      · next hstaged =>
        rintro m hm
        obtain rfl := List.mem_singleton.mp hm
        exact hplace _ hstaged
      split
      · next hstaged hassoc =>
        rintro m hm
        simp only [List.mem_cons, List.not_mem_nil, or_false] at hm
        rcases hm with rfl | rfl | rfl
        · trivial
        · exact hplace _ ⟨hstaged, hassoc⟩
        · exact hplace _ hstaged
      · next hstaged hassoc =>
        rintro m hm
        simp only [List.cons_append, List.mem_cons, List.mem_append, List.not_mem_nil,
          or_false] at hm
        rcases hm with rfl | hm | rfl
        · trivial
        · refine placed_walkKids (.child hp ht hstaged hassoc) ?_ m hm
          have hfrom := @kidsFrom_kids doc (i :: p)
          rwa [kids_of_at? ht] at hfrom
        · exact hplace _ hstaged

theorem placed_walkKids : ∀ {ts : List Tree} {p : List ℕ} {i : ℕ}, Walked doc S r p →
    KidsFrom doc p i ts → ∀ m ∈ walkKids S p i ts, Placed doc S r m
  | [], p, i, _, _ => by simp [walkKids]
  | t :: ts, p, i, hp, hkids => by
      intro m hm
      rw [walkKids, List.mem_append] at hm
      rcases hm with hm | hm
      · exact placed_walkNode hp hkids.head m hm
      · exact placed_walkKids hp hkids.tail m hm

end

theorem walkNode_subset_walkKids {p : List ℕ} : ∀ {ts : List Tree} {i j : ℕ} {t : Tree},
    ts[j]? = some t → walkNode S ((i + j) :: p) t ⊆ walkKids S p i ts
  | [], i, j, t, h => by cases h
  | u :: ts, i, 0, t, h => by
      cases h
      rw [walkKids]
      exact List.subset_append_left _ _
  | u :: ts, i, j + 1, t, h => by
      rw [walkKids, Nat.add_comm j, ← Nat.add_assoc]
      exact List.Subset.trans (walkNode_subset_walkKids h) (List.subset_append_right _ _)

/-- The walk comes by every child of every walked node. -/
theorem walkNode_subset {q : List ℕ} (hq : Walked doc S r q) : ∀ {j : ℕ} {t : Tree},
    doc.at? (j :: q) = some t → walkNode S (j :: q) t ⊆ walkKids S r 0 (doc.kids r) := by
  induction hq with
  | root =>
    intro j t ht
    rw [Document.at?] at ht
    simpa using walkNode_subset_walkKids (i := 0) ht
  | @child p i name properties children hp hat hstaged hassoc ih =>
    intro j t ht
    rw [Document.at?, kids_of_at? hat] at ht
    refine List.Subset.trans ?_ (ih hat)
    rw [walkNode, if_neg hstaged, if_neg hassoc]
    refine List.Subset.trans (List.Subset.trans ?_ (List.subset_cons_self _ _))
      (List.subset_append_left _ _)
    have hsub := walkNode_subset_walkKids (S := S) (p := i :: p) (i := 0) ht
    rw [Nat.zero_add] at hsub
    exact hsub

/-! ### No element is deferred twice -/

/-- The association items that the moves defer, in order. -/
def deferred (ms : List Move) : List (List ℕ) :=
  ms.filterMap fun
    | .defer p => some p
    | _ => none

theorem deferred_append (ms ms' : List Move) :
    deferred (ms ++ ms') = deferred ms ++ deferred ms' := List.filterMap_append

theorem mem_deferred {ms : List Move} {p : List ℕ} : p ∈ deferred ms ↔ .defer p ∈ ms := by
  simp only [deferred, List.mem_filterMap]
  constructor
  · rintro ⟨m, hm, hp⟩
    cases m <;> simp_all
  · exact fun h => ⟨_, h, rfl⟩

/-- A path ends below at most one child of a node. -/
theorem child_unique {p q : List ℕ} {i j : ℕ} (hi : i :: p <:+ q) (hj : j :: p <:+ q) : i = j := by
  rcases List.suffix_or_suffix_of_suffix hi hj with h | h
  · exact (List.cons.inj (h.eq_of_length rfl)).1
  · exact (List.cons.inj (h.eq_of_length rfl)).1.symm

mutual

theorem deferred_walkNode : ∀ (t : Tree) (p : List ℕ),
    (deferred (walkNode S p t)).Nodup ∧ ∀ q ∈ deferred (walkNode S p t), p <:+ q
  | .text _, p => by simp [walkNode, deferred]
  | .other _, p => by simp [walkNode, deferred]
  | .element name properties children, p => by
      rw [walkNode]
      split
      · simp [deferred]
      split
      · simp [deferred]
      · obtain ⟨hnodup, hbelow⟩ := deferred_walkKids children p 0
        have heq : deferred (.visit p :: walkKids S p 0 children ++ [.enter p]) =
            deferred (walkKids S p 0 children) := by
          simp [deferred]
        rw [heq]
        refine ⟨hnodup, fun q hq => ?_⟩
        obtain ⟨j, -, hj⟩ := hbelow q hq
        exact (List.suffix_cons j p).trans hj

theorem deferred_walkKids : ∀ (ts : List Tree) (p : List ℕ) (i : ℕ),
    (deferred (walkKids S p i ts)).Nodup ∧
      ∀ q ∈ deferred (walkKids S p i ts), ∃ j, i ≤ j ∧ j :: p <:+ q
  | [], p, i => by simp [walkKids, deferred]
  | t :: ts, p, i => by
      obtain ⟨hnodup, hbelow⟩ := deferred_walkNode t (i :: p)
      obtain ⟨hnodup', hbelow'⟩ := deferred_walkKids ts p (i + 1)
      rw [walkKids, deferred_append]
      refine ⟨List.nodup_append.mpr ⟨hnodup, hnodup', ?_⟩, fun q hq => ?_⟩
      · rintro q hq _ hq' rfl
        obtain ⟨j, hj, hjq⟩ := hbelow' q hq'
        have := child_unique (hbelow q hq) hjq
        omega
      · rcases List.mem_append.mp hq with hq | hq
        · exact ⟨i, Nat.le_refl i, hbelow q hq⟩
        · obtain ⟨j, hj, hjq⟩ := hbelow' q hq
          exact ⟨j, by omega, hjq⟩

end

/-- Of two children of one node, the second comes behind the first. -/
def Later (a b : List ℕ) : Prop := ∀ i j p, a = i :: p → b = j :: p → i < j

/-- What lies below one child of a node, and what lies below a later child. -/
theorem later_of_below {a b p : List ℕ} {i j : ℕ} (ha : i :: p <:+ a) (hb : j :: p <:+ b)
    (hij : i < j) : Later a b := by
  rintro x y q rfl rfl
  rcases List.suffix_cons_iff.mp ha with heq | ha
  · obtain ⟨rfl, rfl⟩ := List.cons.inj heq
    obtain ⟨rfl, -⟩ := List.cons.inj (hb.eq_of_length rfl)
    exact hij
  · exfalso
    rcases List.suffix_cons_iff.mp hb with heq | hb
    · obtain ⟨rfl, rfl⟩ := List.cons.inj heq
      have hlength := ha.length_le
      rw [List.length_cons] at hlength
      omega
    · have := child_unique ha hb
      omega

mutual

/-- The association items of one parent are deferred in the order of the document. -/
theorem later_walkNode : ∀ (t : Tree) (p : List ℕ), (deferred (walkNode S p t)).Pairwise Later
  | .text _, p => by simp [walkNode, deferred]
  | .other _, p => by simp [walkNode, deferred]
  | .element name properties children, p => by
      rw [walkNode]
      split
      · simp [deferred]
      split
      · simp [deferred]
      · have heq : deferred (.visit p :: walkKids S p 0 children ++ [.enter p]) =
            deferred (walkKids S p 0 children) := by
          simp [deferred]
        rw [heq]
        exact later_walkKids children p 0

theorem later_walkKids : ∀ (ts : List Tree) (p : List ℕ) (i : ℕ),
    (deferred (walkKids S p i ts)).Pairwise Later
  | [], p, i => by simp [walkKids, deferred]
  | t :: ts, p, i => by
      rw [walkKids, deferred_append]
      refine List.pairwise_append.mpr ⟨later_walkNode t (i :: p), later_walkKids ts p (i + 1),
        fun a ha b hb => ?_⟩
      obtain ⟨j, hj, hb⟩ := (deferred_walkKids ts p (i + 1)).2 b hb
      exact later_of_below ((deferred_walkNode t (i :: p)).2 a ha) hb hj

end

end VaeDb.Walk
