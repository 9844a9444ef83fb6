import VaeDb.Schemes.Calls
import VaeDb.Schemes.Ends
import VaeDb.Site.Turns

/-! Pointer nodes and the elements they stand for.

    An item that names an element is given a pointer node for its parent, a copy that shares the
    parent's children by its two ends. Where a later item adds a pointer node to the parent, `last` is
    set in the copies as well. Where a later item is taken out of the parent, nobody tells the copies.

        parent ── children ──▶ item "1" ◀──▶ item "99" ◀── last ── parent
                               ▲             ▲
        pointer ── children ───┘             └── last ── pointer

    With item "99" the `last` of the parent moves to item "1", and that of the pointer node is left at
    a node that was freed. `children` does not move: the items of a parent have their turns in the
    order of the document, so one that was linked stands before every one still to come. -/

namespace VaeDb.PointerNodes
open Schemes Xml Walk Staging

/-! ### Pointer nodes and what they mirror -/

/-- The pointer node that an item makes at its turn, and the parent it stands for. -/
def pointerMade (site : Site) (node : NodeId) : Option (NodeId × NodeId) :=
  match site.firstText node with
  | .error _ => none
  | .ok text => match named site text with
    | none => none
    | some _ => (site.doc node).bind fun cell =>
      cell.parent.map fun parent => (parent, .pointer site.allocated)

/-- The pointer nodes that a run of items makes. -/
def pointersMade (site : Site) (nodes : List NodeId) : List (NodeId × NodeId) :=
  written Site.initializeAssociation pointerMade site nodes

/-- The pointer node has the `children` and the `last` of its parent. -/
def Mirrors (σ : Store) (made : NodeId × NodeId) : Prop :=
  ∃ parent ∈ σ made.1, ∃ pointer ∈ σ made.2,
    pointer.children = parent.children ∧ pointer.last = parent.last

instance (σ : Store) (made : NodeId × NodeId) : Decidable (Mirrors σ made) := by
  unfold Mirrors
  infer_instance

/-- A walk from the `children` of the pointer node comes by the children of the parent. -/
def SeesChildren (σ : Store) (made : NodeId × NodeId) : Prop :=
  ∃ pointer L, σ made.2 = some pointer ∧ Linked σ made.1 L ∧ σ.Spells pointer.children L

/-- Whenever some of the items have had their turns, the pointer nodes mirror their parents. -/
def AlwaysMirrored (site : Site) (nodes : List NodeId) : Prop :=
  ∀ before, before <+: nodes → ∀ site', before.foldlM Site.initializeAssociation site = .ok site' →
    ∀ made ∈ pointersMade site before, Mirrors site'.doc made

/-- The text of the item names no element. -/
def NamesNothing (site : Site) (node : NodeId) : Prop :=
  ∃ text ∈ (site.firstText node).toOption, named site text = none

/-- The item names nothing, and is the last child of a parent that has pointer nodes. -/
def LeavesBehind (site : Site) (node : NodeId) : Prop :=
  NamesNothing site node ∧ ∃ cell ∈ site.doc node, ∃ parentPtr ∈ cell.parent,
    ∃ parent ∈ site.doc parentPtr, parent.last = some node ∧
      ∃ contextPtr ∈ parent.data.priv, ∃ ctxt ∈ site.contexts contextPtr, ctxt.pointerNodes ≠ []

instance (site : Site) (node : NodeId) : Decidable (LeavesBehind site node) := by
  unfold LeavesBehind NamesNothing
  infer_instance

theorem namesNothing_iff {site : Site} {node : NodeId} : NamesNothing site node ↔
    ∃ text, site.firstText node = .ok text ∧ named site text = none := by
  rw [NamesNothing]
  cases site.firstText node with
  | error e => simp [Except.toOption]
  | ok text => simp [Except.toOption]

theorem mirrors_iff {σ : Store} {P n : NodeId} :
    Mirrors σ (P, n) ↔ ∃ e, σ.ends P = some e ∧ σ.ends n = some e := by
  constructor
  · rintro ⟨parent, hparent, pointer, hpointer, hchildren, hlast⟩
    refine ⟨_, Heap.ends_of_eq hparent, ?_⟩
    rw [Heap.ends_of_eq hpointer, hchildren, hlast]
  · rintro ⟨e, hP, hn⟩
    obtain ⟨parent, hparent, hchildren, hlast⟩ := Heap.ends_eq_some.mp hP
    obtain ⟨pointer, hpointer, hchildren', hlast'⟩ := Heap.ends_eq_some.mp hn
    exact ⟨parent, hparent, pointer, hpointer, hchildren'.trans hchildren.symm,
      hlast'.trans hlast.symm⟩

variable {doc : Document} {S : Structures} {r : List ℕ} {pend : List (List ℕ)} {a m : List ℕ}
  {site site' : Site} {log : List (NodeId × NodeId)}

/-! ### What an item does to the ends -/

theorem ends_setLast (last : Option NodeId) (ns : List NodeId) (σ : Store) (n : NodeId) :
    (setLast σ ns last).ends n =
      if n ∈ ns then (σ.ends n).map fun e => (e.1, last) else σ.ends n := by
  rw [Heap.ends, Heap.ends, setLast_apply]
  split
  · cases σ n <;> rfl
  · rfl

variable {s : Stages site (.parsed a) (.parsed m)}

/-- The ends once the pointer node is placed: the new last child of the target, and the copy. -/
theorem ends_placed (h : AtTurn doc S r pend a m site) (hs : s.Sound) (n : NodeId)
    {e : Option NodeId × Option NodeId} (he : site.doc.ends (.parsed m) = some e) :
    s.placed.ends n = if n = .parsed m then
        some (if e.1 = none then some (.pointer site.allocated) else e.1,
          some (.pointer site.allocated))
      else if n = .pointer site.allocated then some (s.parent.children, s.parent.last)
      else s.grafted.ends n := by
  obtain ⟨target, htarget, hchildren, -⟩ := Heap.ends_eq_some.mp he
  rw [← h.grafted_walked hs h.target, ← Function.update_of_ne (show NodeId.parsed m ≠ .pointer _ by simp)
    (some (pointerCell s.parent)) s.grafted] at htarget
  rw [Stages.placed, Stages.copied, Heap.ends_addChild htarget (by simp), Heap.ends_update, hchildren]
  rfl

/-- The target ends with the pointer node. -/
theorem associated_last (h : AtTurn doc S r pend a m site) (hs : s.Sound) :
    s.associated.last = some (.pointer site.allocated) := by
  obtain ⟨ptrs, hlists, -⟩ := h.linking.inv.lists
  have he := ends_placed h hs (.parsed m) (hlists.linked m h.target).ends_eq
  rw [if_pos rfl, Heap.ends_of_eq hs.associated, Option.some.injEq, Prod.mk.injEq] at he
  exact he.2

/-! ### The pointer nodes made so far -/

/-- A child of `p` that is there, before every item of `p` that is still to come. -/
def Standing (doc : Document) (pend : List (List ℕ)) (σ : Store) (p : List ℕ) : Prop :=
  ∃ i t, doc.at? (i :: p) = some t ∧ (∃ cell, σ (.parsed (i :: p)) = some cell) ∧
    ∀ j, j :: p ∈ pend → i < j

/-- The pointer node has the `children` of its parent. -/
def Shares (σ : Store) (P n : NodeId) : Prop :=
  ∃ e e', σ.ends P = some e ∧ σ.ends n = some e' ∧ e'.1 = e.1

/-- `n` is a pointer node that was made for the walked node `P`. -/
def Made (doc : Document) (S : Structures) (r : List ℕ) (pend : List (List ℕ)) (site : Site)
    (P n : NodeId) : Prop :=
  ∃ p k, P = .parsed p ∧ n = .pointer k ∧ k < site.allocated ∧ Walked doc S r p ∧ p ≠ r ∧
    Standing doc pend site.doc p ∧ Shares site.doc P n

/-- The Contexts know the pointer nodes that were made. -/
def Registered (doc : Document) (S : Structures) (r : List ℕ) (contexts : NodeId → Option Context)
    (log : List (NodeId × NodeId)) : Prop :=
  ∀ p, Walked doc S r p → p ≠ r → ∃ ctxt, contexts (.parsed p) = some ctxt ∧
    ∀ n, n ∈ ctxt.pointerNodes ↔ (.parsed p, n) ∈ log

/-- The site when `pend` are the items still to come and `log` are the pointer nodes made so far. -/
structure Mirroring (doc : Document) (S : Structures) (r : List ℕ) (pend : List (List ℕ))
    (log : List (NodeId × NodeId)) (site : Site) : Prop where
  linking : Linking doc S r pend site
  indexed : Indexed doc S r site
  allocated : Tree.sizes doc ≤ site.allocated
  own : OwnLists doc S r pend site
  bare : ∀ cell, site.doc (.parsed r) = some cell → cell.data.priv = none
  registered : Registered doc S r site.contexts log
  made : ∀ P n, (P, n) ∈ log → Made doc S r pend site P n
  once : ∀ P P' n, (P, n) ∈ log → (P', n) ∈ log → P = P'

/-- The first of the live children comes before every one of them. -/
theorem liveKids_head {σ : Store} {p : List ℕ} {i : ℕ}
    (h : .parsed (i :: p) ∈ liveKids doc σ p) :
    ∃ j ≤ i, (liveKids doc σ p).head? = some (.parsed (j :: p)) := by
  have hordered : (liveKids doc σ p).Pairwise fun n n' => ∀ j k, n = .parsed (j :: p) →
      n' = .parsed (k :: p) → j < k := by
    refine List.Pairwise.filter _ (List.pairwise_map.mpr ?_)
    refine List.pairwise_lt_range.imp fun hlt j k hj hk => ?_
    cases hj
    cases hk
    exact hlt
  have hkids : ∀ n ∈ liveKids doc σ p, ∃ j, n = .parsed (j :: p) := by
    intro n hn
    obtain ⟨j, t, -, rfl⟩ := Document.mem_kidIds.mp (List.mem_filter.mp hn).1
    exact ⟨j, rfl⟩
  cases hL : liveKids doc σ p with
  | nil =>
    rw [hL] at h
    cases h
  | cons n L =>
    rw [hL] at h hordered hkids
    obtain ⟨j, rfl⟩ := hkids n List.mem_cons_self
    refine ⟨j, ?_, rfl⟩
    rcases List.mem_cons.mp h with heq | h
    · cases heq
      exact le_rfl
    · exact Nat.le_of_lt ((List.pairwise_cons.mp hordered).1 _ h j i rfl rfl)

/-- A walked node with a standing child has a first child, which is no item still to come. -/
theorem first_standing {Pend : List ℕ → Prop} {σ : Store} (hσ : Inv doc S r Pend σ) {p : List ℕ}
    (hp : Walked doc S r p) (h : Standing doc pend σ p) : ∃ e, σ.ends (.parsed p) = some e ∧
      e.1 ≠ none ∧ ∀ j, j :: p ∈ pend → e.1 ≠ some (.parsed (j :: p)) := by
  obtain ⟨i, t, hat, ⟨cell, hcell⟩, hbefore⟩ := h
  obtain ⟨ptrs, hlists, -⟩ := hσ.lists
  have hmem : .parsed (i :: p) ∈ liveKids doc σ p :=
    List.mem_filter.mpr ⟨Document.mem_kidIds.mpr ⟨i, t, hat, rfl⟩, by rw [hcell]; rfl⟩
  obtain ⟨j, hj, hhead⟩ := liveKids_head hmem
  have hfirst : (liveKids doc σ p ++ ptrs p).head? = some (.parsed (j :: p)) := by
    rw [List.head?_append, hhead]
    rfl
  refine ⟨_, (hlists.linked p hp).ends_eq, ?_, fun k hk => ?_⟩
  · rw [hfirst]
    simp
  · rw [hfirst]
    intro heq
    cases heq
    have := hbefore j hk
    omega

/-! ### An item that is linked -/

theorem Registered.push {contexts : NodeId → Option Context} {q : List ℕ} {ctxt : Context}
    (h : Registered doc S r contexts log) (hctxt : contexts (.parsed q) = some ctxt) (n : NodeId) :
    Registered doc S r (Function.update contexts (.parsed q)
        (some { ctxt with pointerNodes := ctxt.pointerNodes ++ [n] }))
      (log ++ [(.parsed q, n)]) := by
  intro p hp hpr
  obtain ⟨ctxt', hctxt', hmem⟩ := h p hp hpr
  rcases eq_or_ne p q with rfl | hne
  · rw [hctxt, Option.some.injEq] at hctxt'
    subst hctxt'
    exact ⟨_, Function.update_self .., fun n' => by simp [hmem]⟩
  · exact ⟨ctxt', (Function.update_of_ne (by simpa using hne) ..).trans hctxt',
      fun n' => by simp [hmem, hne]⟩

theorem Registered.drop {contexts : NodeId → Option Context}
    (h : Registered doc S r contexts log) (ha : ¬ Walked doc S r a) :
    Registered doc S r (Function.update contexts (.parsed a) none) log := by
  intro p hp hpr
  obtain ⟨ctxt, hctxt, hmem⟩ := h p hp hpr
  refine ⟨ctxt, (Function.update_of_ne ?_ ..).trans hctxt, hmem⟩
  rintro ⟨⟩
  exact ha hp

/-- The parent that is copied is a walked node below the root, and has its own Context. -/
theorem copied_parent (h : AtTurn doc S r pend a m site) (hs : s.Sound)
    (hbare : ∀ cell, site.doc (.parsed r) = some cell → cell.data.priv = none) :
    ∃ i q, a = i :: q ∧ Walked doc S r q ∧ q ≠ r ∧ site.doc (.parsed q) = some s.parent ∧
      s.parentPtr = .parsed q := by
  obtain ⟨i, q, ha, hq, -, hparent⟩ := h.parent hs
  rw [h.grafted_walked hs hq] at hparent
  have hqr : q ≠ r := by
    rintro rfl
    have hpriv := hs.parentPtr
    rw [hbare _ hparent] at hpriv
    cases hpriv
  refine ⟨i, q, ha, hq, hqr, hparent, ?_⟩
  have hpriv := hs.parentPtr
  rw [(h.linking.held q hq hqr).2 _ hparent, Option.some.injEq] at hpriv
  exact hpriv.symm

/-- The Context that is told is that of the target. -/
theorem told_target (h : AtTurn doc S r pend a m site) (hs : s.Sound) :
    s.associatedPtr = .parsed m := by
  obtain ⟨cell, hcell, hdata, -⟩ := (h.pointed hs).parsed m _ hs.associated
  rw [h.grafted_walked hs h.target] at hcell
  have hpriv := hs.associatedPtr
  rw [hdata, (h.linking.held m h.target h.notRoot).2 _ hcell, Option.some.injEq] at hpriv
  exact hpriv.symm

/-- An element that has a child keeps its first one, and the target of the item ends with the new
    pointer node. -/
theorem ends_result_walked (h : AtTurn doc S r pend a m site) (hs : s.Sound) {p : List ℕ}
    (hp : Walked doc S r p) {e : Option NodeId × Option NodeId}
    (he : site.doc.ends (.parsed p) = some e) (hfirst : e.1 ≠ none) :
    s.result.doc.ends (.parsed p) =
      some (if p = m then (e.1, some (.pointer site.allocated)) else e) := by
  obtain ⟨ptrs, hlists, -⟩ := h.linking.inv.lists
  rw [Heap.ends_congr ((h.result hs).2.1 p),
    ends_placed h hs (.parsed p) (hlists.linked m h.target).ends_eq]
  rcases eq_or_ne p m with rfl | hne
  · rw [(hlists.linked p hp).ends_eq, Option.some.injEq] at he
    rw [if_pos rfl, if_pos rfl, he, if_neg hfirst]
  · rw [if_neg (by simpa using hne), if_neg (by simp), if_neg hne,
      Heap.ends_congr (h.grafted_walked hs hp), he]

/-- The copies that were made before are as they were when the new one is placed. -/
theorem ends_placed_pointer (h : AtTurn doc S r pend a m site) (hs : s.Sound) {k : ℕ}
    (hk : k < site.allocated) : s.placed.ends (.pointer k) = site.doc.ends (.pointer k) := by
  obtain ⟨ptrs, hlists, -⟩ := h.linking.inv.lists
  have hne : k ≠ site.allocated := Nat.ne_of_lt hk
  rw [ends_placed h hs (.pointer k) (hlists.linked m h.target).ends_eq, if_neg (by simp),
    if_neg (by simpa using hne), Heap.ends_congr (h.grafted_pointer hs k)]

/-- The new copy has the ends of the parent. -/
theorem ends_placed_new (h : AtTurn doc S r pend a m site) (hs : s.Sound) :
    s.placed.ends (.pointer site.allocated) = some (s.parent.children, s.parent.last) := by
  obtain ⟨ptrs, hlists, -⟩ := h.linking.inv.lists
  rw [ends_placed h hs _ (hlists.linked m h.target).ends_eq, if_neg (by simp), if_pos rfl]

/-- Of the copies, those of the target are told its new `last`. -/
theorem ends_result_pointer (h : AtTurn doc S r pend a m site) (hs : s.Sound)
    {log : List (NodeId × NodeId)} (hregistered : Registered doc S r s.contexts log)
    (honce : ∀ P P' n, (P, n) ∈ log → (P', n) ∈ log → P = P') {p : List ℕ} {n : NodeId}
    (hmade : (.parsed p, n) ∈ log) {e : Option NodeId × Option NodeId}
    (he : s.placed.ends n = some e) : s.result.doc.ends n =
      some (if p = m then (e.1, some (.pointer site.allocated)) else e) := by
  obtain ⟨ctxt, hctxt, hmem⟩ := hregistered m h.target h.notRoot
  have htold := hs.associatedContext
  rw [told_target h hs, hctxt, Option.some.injEq] at htold
  subst htold
  have hiff : n ∈ s.associatedContext.pointerNodes ↔ p = m := by
    rw [hmem]
    constructor
    · exact fun hm => NodeId.parsed.inj (honce _ _ n hmade hm)
    · rintro rfl
      exact hmade
  change (setLast s.placed s.associatedContext.pointerNodes s.associated.last).ends n = _
  rw [ends_setLast, associated_last h hs, he]
  simp only [hiff]
  split <;> rfl

theorem Standing.mono {σ σ' : Store} {p : List ℕ} (h : Standing doc (a :: pend) σ p)
    (hp : Walked doc S r p) (hkeeps : ∀ c, Child doc S r c → c ≠ a →
      (∃ cell, σ (.parsed c) = some cell) → ∃ cell, σ' (.parsed c) = some cell) :
    Standing doc pend σ' p := by
  obtain ⟨i, t, hat, hlive, hbefore⟩ := h
  refine ⟨i, t, hat, hkeeps _ ⟨i, p, t, rfl, hp, hat⟩ ?_ hlive,
    fun j hj => hbefore j (List.mem_cons_of_mem _ hj)⟩
  rintro rfl
  exact Nat.lt_irrefl i (hbefore i List.mem_cons_self)

/-- The pointer nodes once the new one is made. -/
theorem Mirroring.once_push (h : Mirroring doc S r pend log site) (Q : NodeId) :
    ∀ P P' n, (P, n) ∈ log ++ [(Q, .pointer site.allocated)] →
      (P', n) ∈ log ++ [(Q, .pointer site.allocated)] → P = P' := by
  have hnew : ∀ P, (P, .pointer site.allocated) ∉ log := by
    intro P hP
    obtain ⟨p, k, -, hk, hlt, -⟩ := h.made P _ hP
    cases hk
    exact Nat.lt_irrefl _ hlt
  intro P P' n hP hP'
  rcases List.mem_append.mp hP with hP | hP <;> rcases List.mem_append.mp hP' with hP' | hP'
  · exact h.once P P' n hP hP'
  · obtain ⟨-, rfl⟩ := Prod.mk.inj (List.mem_singleton.mp hP')
    exact absurd hP (hnew P)
  · obtain ⟨-, rfl⟩ := Prod.mk.inj (List.mem_singleton.mp hP)
    exact absurd hP' (hnew P')
  · rw [(Prod.mk.inj (List.mem_singleton.mp hP)).1, (Prod.mk.inj (List.mem_singleton.mp hP')).1]

/-- An item stands before those that come after it. -/
theorem standing_item {σ : Store} {i : ℕ} {q : List ℕ} (hc : Child doc S r (i :: q))
    (hlater : ∀ b ∈ pend, Later (i :: q) b) (hlive : ∃ cell, σ (.parsed (i :: q)) = some cell) :
    Standing doc pend σ q := by
  obtain ⟨j, p, t, heq, -, hat⟩ := hc
  cases heq
  exact ⟨i, t, hat, hlive, fun j hj => hlater _ hj i j q rfl rfl⟩

/-- The pointer nodes between the placing of the new one and the telling of those of the target. -/
theorem Mirroring.placed (h : Mirroring doc S r (a :: pend) log site)
    (hlater : (a :: pend).Pairwise Later) (hturn : AtTurn doc S r pend a m site) (hs : s.Sound)
    {i : ℕ} {q : List ℕ} (ha : a = i :: q) (hq : Walked doc S r q) (hqr : q ≠ r)
    (hparent : site.doc (.parsed q) = some s.parent) {P n : NodeId}
    (hmade : (P, n) ∈ log ++ [(.parsed q, .pointer site.allocated)]) :
    ∃ p k e e', P = .parsed p ∧ n = .pointer k ∧ k < s.result.allocated ∧ Walked doc S r p ∧
      p ≠ r ∧ Standing doc pend s.result.doc p ∧ site.doc.ends P = some e ∧ e.1 ≠ none ∧
      s.placed.ends n = some e' ∧ e'.1 = e.1 ∧
      ((∀ made ∈ log, Mirrors site.doc made) → e' = e) := by
  have hafter : ∀ b ∈ pend, Later a b := (List.pairwise_cons.mp hlater).1
  rcases List.mem_append.mp hmade with hmade | hmade
  · obtain ⟨p, k, rfl, rfl, hk, hp, hpr, hstanding, e, e', he, he', hsame⟩ := h.made P n hmade
    obtain ⟨e₀, he₀, hfirst, -⟩ := first_standing h.linking.inv hp hstanding
    obtain rfl := Option.some.inj (he.symm.trans he₀)
    refine ⟨p, k, e, e', rfl, rfl, Nat.lt_succ_of_lt hk, hp, hpr, hstanding.mono hp fun c hc hca => ?_,
      he, hfirst, (ends_placed_pointer hturn hs hk).trans he', hsame, fun hall => ?_⟩
    · rintro ⟨cell, hcell⟩
      obtain ⟨cell', hcell', -⟩ := (hturn.associated hs).others c hc hca cell hcell
      exact ⟨cell', hcell'⟩
    · obtain ⟨e₁, hP, hn⟩ := mirrors_iff.mp (hall _ hmade)
      rw [he, Option.some.injEq] at hP
      rw [he', Option.some.injEq] at hn
      rw [hP, hn]
  · obtain ⟨rfl, rfl⟩ := Prod.mk.inj (List.mem_singleton.mp hmade)
    subst ha
    obtain ⟨e₀, he₀, hfirst, -⟩ :=
      first_standing h.linking.inv hq (standing_item hturn.child hafter hturn.alive)
    obtain ⟨cell, hcell, -⟩ := (hturn.associated hs).item
    have he := Heap.ends_of_eq hparent
    obtain rfl := Option.some.inj (he₀.symm.trans he)
    exact ⟨q, _, _, _, rfl, rfl, Nat.lt_succ_self _, hq, hqr,
      standing_item hturn.child hafter ⟨cell, hcell⟩, he, hfirst, ends_placed_new hturn hs, rfl,
      fun _ => rfl⟩

/-- An item that is linked: its pointer node is made, and all of them mirror their parents if those
    made before did. -/
theorem Mirroring.link (h : Mirroring doc S r (a :: pend) log site)
    (hlater : (a :: pend).Pairwise Later) (hitem : Item doc S r a)
    (hturn : AtTurn doc S r pend a m site) (hs : s.Sound) :
    ∃ i q, a = i :: q ∧
      Mirroring doc S r pend (log ++ [(.parsed q, .pointer site.allocated)]) s.result ∧
      ((∀ made ∈ log, Mirrors site.doc made) →
        ∀ made ∈ log ++ [(.parsed q, .pointer site.allocated)], Mirrors s.result.doc made) := by
  obtain ⟨i, q, ha, hq, hqr, hparent, hptr⟩ := copied_parent hturn hs h.bare
  have hcontext : site.contexts (.parsed q) = some s.parentContext := hptr ▸ hs.parentContext
  have hregistered : Registered doc S r s.contexts
      (log ++ [(.parsed q, .pointer site.allocated)]) := by
    rw [Stages.contexts, hptr]
    exact h.registered.push hcontext _
  have honce := h.once_push (.parsed q)
  have hplaced := fun P n => @Mirroring.placed doc S r pend a m site log s h hlater hturn hs i q ha hq
    hqr hparent P n
  -- what the item does to the ends of a parent and of its copy
  have hends : ∀ {p n e e'}, (.parsed p, n) ∈ log ++ [(.parsed q, .pointer site.allocated)] →
      Walked doc S r p → site.doc.ends (.parsed p) = some e → e.1 ≠ none →
      s.placed.ends n = some e' →
      s.result.doc.ends (.parsed p) =
          some (if p = m then (e.1, some (.pointer site.allocated)) else e) ∧
        s.result.doc.ends n =
          some (if p = m then (e'.1, some (.pointer site.allocated)) else e') :=
    fun hmade hp he hfirst he' => ⟨ends_result_walked hturn hs hp he hfirst,
      ends_result_pointer hturn hs hregistered honce hmade he'⟩
  refine ⟨i, q, ha, ⟨hturn.linking_result hs, h.indexed.congr ⟨rfl, rfl, rfl, rfl⟩,
    Nat.le_succ_of_le h.allocated, h.own.link hturn hitem hs, fun cell hcell => ?_,
    hregistered.drop hturn.notWalked,
    fun P n hmade => ?_, honce⟩, fun hall made hmade => ?_⟩
  · obtain ⟨cell₀, hcell₀, hdata⟩ := (hturn.kept hs).data r .root cell hcell
    rw [hdata, h.bare _ hcell₀]
  · obtain ⟨p, k, e, e', rfl, rfl, hk, hp, hpr, hstanding, he, hfirst, he', hsame, -⟩ :=
      hplaced P n hmade
    obtain ⟨hP, hn⟩ := hends hmade hp he hfirst he'
    refine ⟨p, k, rfl, rfl, hk, hp, hpr, hstanding, _, _, hP, hn, ?_⟩
    split <;> exact hsame
  · obtain ⟨P, n⟩ := made
    obtain ⟨p, k, e, e', rfl, rfl, -, hp, -, -, he, hfirst, he', -, hmirrored⟩ := hplaced P n hmade
    obtain rfl := hmirrored hall
    obtain ⟨hP, hn⟩ := hends hmade hp he hfirst he'
    exact mirrors_iff.mpr ⟨_, hP, hn⟩

/-! ### An item that is taken out -/

/-- An item that names nothing leaves copies behind exactly if one was made for its parent, and the
    parent ends with the item. -/
theorem leavesBehind_iff (h : Mirroring doc S r pend log site) {i : ℕ} {q : List ℕ}
    (hq : Walked doc S r q) {cell : Cell NodeId Info} (hcell : site.doc (.parsed (i :: q)) = some cell)
    (hparent : cell.parent = some (.parsed q))
    (hnothing : NamesNothing site (.parsed (i :: q))) :
    LeavesBehind site (.parsed (i :: q)) ↔ (∃ n, (.parsed q, n) ∈ log) ∧
      ∃ e, site.doc.ends (.parsed q) = some e ∧ e.2 = some (.parsed (i :: q)) := by
  constructor
  · rintro ⟨-, cell', hcell', parentPtr, hptr, parent, hP, hlast, contextPtr, hpriv, ctxt, hctxt, hne⟩
    obtain rfl := Option.some.inj (hcell.symm.trans hcell')
    obtain rfl := Option.some.inj (hparent.symm.trans hptr)
    have hqr : q ≠ r := by
      rintro rfl
      rw [h.bare _ hP] at hpriv
      cases hpriv
    rw [(h.linking.held q hq hqr).2 _ hP, Option.mem_some] at hpriv
    subst hpriv
    obtain ⟨ctxt', hctxt', hmem⟩ := h.registered q hq hqr
    obtain rfl := Option.some.inj (hctxt.symm.trans hctxt')
    obtain ⟨n, hn⟩ := List.exists_mem_of_ne_nil _ hne
    exact ⟨⟨n, (hmem n).mp hn⟩, _, Heap.ends_of_eq hP, hlast⟩
  · rintro ⟨⟨n, hn⟩, e, he, hlast⟩
    obtain ⟨p, k, heq, -, -, -, hqr, -⟩ := h.made _ _ hn
    cases heq
    obtain ⟨parent, hP, -, hparentLast⟩ := Heap.ends_eq_some.mp he
    obtain ⟨ctxt, hctxt, hmem⟩ := h.registered q hq hqr
    exact ⟨hnothing, cell, hcell, _, hparent, parent, hP, hparentLast.trans hlast, _,
      (h.linking.held q hq hqr).2 _ hP, ctxt, hctxt, List.ne_nil_of_mem ((hmem n).mpr hn)⟩

/-- The item `i :: q` is taken out of the tree. -/
structure Taken (doc : Document) (S : Structures) (r : List ℕ) (Pend : List ℕ → Prop) (i : ℕ)
    (q : List ℕ) (cell : Cell NodeId Info) (σ σ' : Store) : Prop where
  inv : Inv doc S r Pend σ
  child : Child doc S r (i :: q)
  notWalked : ¬ Walked doc S r (i :: q)
  intact : Intact doc σ (i :: q)
  there : σ (.parsed (i :: q)) = some cell
  freed : ∃ fuel, Heap.free fuel (σ.unlink (.parsed (i :: q))) (.parsed (i :: q)) = some σ'

namespace Taken

variable {Pend : List ℕ → Prop} {σ σ' : Store} {i : ℕ} {q : List ℕ} {cell : Cell NodeId Info}
  {P n : NodeId}

theorem removed (h : Taken doc S r Pend i q cell σ σ') :
    ∃ ptrs, Removed doc S r ptrs (i :: q) σ σ' := by
  obtain ⟨ptrs, hlists, -⟩ := h.inv.lists
  obtain ⟨fuel, hfree⟩ := h.freed
  exact ⟨ptrs, free_removed hlists h.child h.notWalked h.intact hfree⟩

/-- Taking an item out moves the ends of its parent only, of all that is outside it. -/
theorem ends (h : Taken doc S r Pend i q cell σ σ')
    (hn : (∃ p, n = .parsed p ∧ Walked doc S r p) ∨ ∃ k, n = .pointer k) :
    σ'.ends n = if n = .parsed q then (σ.ends n).map fun e =>
        (if e.1 = some (.parsed (i :: q)) then cell.next else e.1,
          if e.2 = some (.parsed (i :: q)) then cell.prev else e.2)
      else σ.ends n := by
  obtain ⟨ptrs, hlists, -⟩ := h.inv.lists
  obtain ⟨fuel, hfree⟩ := h.freed
  have hout : n ≠ .parsed (i :: q) ∧ ¬ Inside (i :: q) n := by
    rcases hn with ⟨p, rfl, hp⟩ | ⟨k, rfl⟩
    · refine ⟨?_, hlists.not_inside h.child h.notWalked hp (Or.inl rfl)⟩
      rintro ⟨⟩
      exact h.notWalked hp
    · exact ⟨by simp, by rintro ⟨q', ⟨⟩, -⟩⟩
  rw [Heap.ends_congr (free_outside hlists h.child h.notWalked h.intact hfree hout.1 hout.2),
    Heap.ends_unlink h.there hout.1, parent_eq h.inv h.child h.there]
  simp only [Option.some.injEq, eq_comm]

/-- The item is not its own `prev`. -/
theorem prev_ne (h : Taken doc S r Pend i q cell σ σ') :
    cell.prev ≠ some (.parsed (i :: q)) := by
  obtain ⟨ptrs, hlists, -⟩ := h.inv.lists
  obtain ⟨p, A, B, -, -, -, -, hlinked, -⟩ := hlists.parent_split h.child h.there
  obtain ⟨cell', hcell', -, hprev, -⟩ := hlinked.member A _ B rfl
  obtain rfl := Option.some.inj (h.there.symm.trans hcell')
  rw [hprev]
  intro hlast
  exact (List.disjoint_of_nodup_append hlinked.nodup) (List.mem_of_getLast? hlast) List.mem_cons_self

/-- A parent and its copy once an item is taken out: `children` is where it was, since the item is
    never the first child of a parent that has a copy. -/
theorem made_ends (h : Taken doc S r Pend i q cell site.doc σ')
    (hmade : Made doc S r ((i :: q) :: pend) site P n) :
    ∃ e e', site.doc.ends P = some e ∧ site.doc.ends n = some e' ∧ e'.1 = e.1 ∧
      σ'.ends n = some e' ∧ σ'.ends P = some (e.1,
        if P = .parsed q ∧ e.2 = some (.parsed (i :: q)) then cell.prev else e.2) := by
  obtain ⟨p, k, rfl, rfl, -, hp, -, hstanding, e, e', he, he', hsame⟩ := hmade
  obtain ⟨e₀, he₀, -, hfirst⟩ := first_standing h.inv hp hstanding
  obtain rfl := Option.some.inj (he.symm.trans he₀)
  refine ⟨e, e', he, he', hsame, ?_, ?_⟩
  · rw [h.ends (Or.inr ⟨k, rfl⟩), if_neg (by simp), he']
  · rw [h.ends (Or.inl ⟨p, rfl, hp⟩), he]
    rcases eq_or_ne p q with rfl | hne
    · rw [if_pos rfl, Option.map_some, if_neg (hfirst i List.mem_cons_self)]
      simp
    · rw [if_neg (by simpa using hne), if_neg fun h => hne (NodeId.parsed.inj h.1)]

/-- A pointer node is still one of its parent once an item is taken out. -/
theorem made (h : Taken doc S r Pend i q cell site.doc σ') (hdoc : site'.doc = σ')
    (hallocated : site'.allocated = site.allocated)
    (hmade : Made doc S r ((i :: q) :: pend) site P n) : Made doc S r pend site' P n := by
  subst hdoc
  obtain ⟨e, e', -, -, hsame, hn, hP⟩ := h.made_ends hmade
  obtain ⟨ptrs, hremoved⟩ := h.removed
  obtain ⟨p, k, rfl, rfl, hk, hp, hpr, hstanding, -⟩ := hmade
  refine ⟨p, k, rfl, rfl, hallocated ▸ hk, hp, hpr, hstanding.mono hp fun c hc hca => ?_, _, _, hP, hn,
    hsame⟩
  rintro ⟨ccell, hccell⟩
  obtain ⟨ccell', hccell', -⟩ := hremoved.keeps _ ccell (by simpa using hca)
    (child_not_inside hc _ h.child h.notWalked) hccell
  exact ⟨ccell', hccell'⟩

/-- A pointer node that mirrors its parent does so no longer exactly if the parent ended with the
    item. -/
theorem made_mirrors (h : Taken doc S r Pend i q cell site.doc σ')
    (hmade : Made doc S r ((i :: q) :: pend) site P n) (hbefore : Mirrors site.doc (P, n)) :
    Mirrors σ' (P, n) ↔
      ¬ (P = .parsed q ∧ ∃ e, site.doc.ends P = some e ∧ e.2 = some (.parsed (i :: q))) := by
  obtain ⟨e, e', he, he', -, hn, hP⟩ := h.made_ends hmade
  obtain ⟨e₁, hP₁, hn₁⟩ := mirrors_iff.mp hbefore
  obtain rfl := Option.some.inj (he.symm.trans hP₁)
  obtain rfl := Option.some.inj (he'.symm.trans hn₁)
  rw [mirrors_iff, hn, hP, he]
  constructor
  · rintro ⟨e₂, hP₂, hn₂⟩ ⟨heq, e₃, he₃, hlast⟩
    -- the parent ends elsewhere now, its copy with the item
    obtain rfl := Option.some.inj he₃
    rw [if_pos ⟨heq, hlast⟩, ← hn₂, Option.some.injEq] at hP₂
    exact h.prev_ne ((congrArg Prod.snd hP₂).trans hlast)
  · intro hnot
    refine ⟨e', ?_, rfl⟩
    rw [if_neg]
    exact fun hends => hnot ⟨hends.1, e', rfl, hends.2⟩

end Taken

/-- An item that is taken out: no pointer node is made, and those made before still mirror their
    parents exactly if the item leaves none behind. -/
theorem Mirroring.remove (h : Mirroring doc S r (a :: pend) log site) (hnot : a ∉ pend)
    (ha : Item doc S r a) (hnothing : NamesNothing site (.parsed a))
    (hok : site.removeNode (.parsed a) = .ok site') :
    Mirroring doc S r pend log
        { site' with contexts := Function.update site'.contexts (.parsed a) none } ∧
      ((∀ made ∈ log, Mirrors site.doc made) →
        ((∀ made ∈ log, Mirrors site'.doc made) ↔ ¬ LeavesBehind site (.parsed a))) := by
  have hchild := ElementWith.child ha
  obtain ⟨hstaged, hassoc⟩ := ha.associationAt
  have haw := not_walked_of_association hchild hassoc
  have hlinking := linking_remove h.linking hnot hchild hassoc hok
  have hown := h.own.remove h.linking ha hok
  obtain ⟨cell, hcell⟩ := h.linking.inv.alive a hchild hstaged fun _ => List.mem_cons_self
  obtain ⟨σ, lists, -, hfree, rfl⟩ := removeNode_eq_ok hok
  obtain ⟨i, q, t, rfl, hq, -⟩ := id hchild
  have htaken : Taken doc S r (· ∈ (i :: q) :: pend) i q cell site.doc σ :=
    ⟨h.linking.inv, hchild, haw, h.linking.intact ha, hcell, _, hfree⟩
  obtain ⟨ptrs, hremoved⟩ := htaken.removed
  refine ⟨⟨hlinking, ⟨h.indexed.nodes, h.indexed.permalinks⟩, h.allocated, hown,
    fun rcell hrcell => ?_, h.registered.drop haw, fun P n hmade => ?_, h.once⟩, fun hall => ?_⟩
  · obtain ⟨rcell₀, hrcell₀, hdata⟩ := hremoved.sub _ _ hrcell
    rw [hdata, h.bare _ hrcell₀]
  · exact htaken.made rfl rfl (h.made P n hmade)
  · have hiff := fun P n hmade => htaken.made_mirrors (h.made P n hmade) (hall _ hmade)
    rw [leavesBehind_iff h hq hcell (parent_eq h.linking.inv hchild hcell) hnothing]
    constructor
    · rintro hafter ⟨⟨n, hmade⟩, hlast⟩
      exact (hiff _ n hmade).mp (hafter _ hmade) ⟨rfl, hlast⟩
    · rintro hnone ⟨P, n⟩ hmade
      refine (hiff P n hmade).mpr ?_
      rintro ⟨rfl, hlast⟩
      exact hnone ⟨⟨n, hmade⟩, hlast⟩

end VaeDb.PointerNodes
