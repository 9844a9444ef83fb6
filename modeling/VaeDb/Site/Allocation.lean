import VaeDb.Schemes.Chains
import VaeDb.Site.Identity

/-! The nodes of a loaded Site are counted.

    The document starts with as many nodes as `allocated` says, and only the pointer nodes of
    associations are added later, one at a time and each counted. So no list of siblings that ends is
    longer than `allocated`: a loop that is given so many rounds comes to the end of the list.

        allocated:   parsed document ──graft──▶ · ──pointer──▶ +1 ──remove──▶ · -/

namespace VaeDb
open Schemes Xml

/-! ### The nodes of a document -/

mutual

/-- The paths of a node at `p` and of the nodes below it. -/
def pathsAt (p : List ℕ) : Tree → List (List ℕ)
  | .element _ _ ts => p :: pathsFrom p 0 ts
  | .text _ | .other _ => [p]

/-- The same for the children of a node at `p`, from child `i` on. -/
def pathsFrom (p : List ℕ) (i : ℕ) : List Tree → List (List ℕ)
  | [] => []
  | t :: ts => pathsAt (i :: p) t ++ pathsFrom p (i + 1) ts

end

mutual

theorem length_pathsAt : ∀ (p : List ℕ) (t : Tree), (pathsAt p t).length = t.size
  | p, .element _ _ ts => by
      rw [pathsAt, List.length_cons, length_pathsFrom p 0 ts, Tree.size]
  | _, .text _ | _, .other _ => rfl

theorem length_pathsFrom : ∀ (p : List ℕ) (i : ℕ) (ts : List Tree),
    (pathsFrom p i ts).length = Tree.sizes ts
  | _, _, [] => rfl
  | p, i, t :: ts => by
      rw [pathsFrom, List.length_append, length_pathsAt, length_pathsFrom p (i + 1) ts, Tree.sizes]

end

theorem mem_pathsAt_self (p : List ℕ) (t : Tree) : p ∈ pathsAt p t := by
  cases t <;> simp [pathsAt]

theorem pathsFrom_children (p : List ℕ) (t : Tree) : pathsFrom p 0 t.children ⊆ pathsAt p t := by
  cases t with
  | element name properties ts =>
    rw [pathsAt]
    exact List.subset_cons_self _ _
  | text content => exact List.nil_subset _
  | other content => exact List.nil_subset _

theorem pathsAt_subset {p : List ℕ} {t : Tree} :
    ∀ {ts : List Tree} {i j : ℕ}, ts[j]? = some t → pathsAt ((i + j) :: p) t ⊆ pathsFrom p i ts
  | [], _, _, h => by simp at h
  | u :: ts, i, 0, h => by
      cases h
      exact List.subset_append_left _ _
  | u :: ts, i, j + 1, h => by
      have hrest : pathsAt ((i + 1 + j) :: p) t ⊆ pathsFrom p (i + 1) ts := pathsAt_subset h
      rw [Nat.add_right_comm, Nat.add_assoc] at hrest
      exact List.Subset.trans hrest (List.subset_append_right _ _)

variable {doc : Document}

theorem pathsFrom_kids (doc : Document) : ∀ p, pathsFrom p 0 (doc.kids p) ⊆ pathsFrom [] 0 doc
  | [] => List.Subset.refl _
  | i :: p => by
      rw [Document.kids]
      cases ht : (doc.kids p)[i]? with
      | none => exact List.nil_subset _
      | some t =>
        have hat : pathsAt (i :: p) t ⊆ pathsFrom p 0 (doc.kids p) := by
          simpa using pathsAt_subset (i := 0) (p := p) ht
        exact List.Subset.trans (pathsFrom_children _ t) (List.Subset.trans hat (pathsFrom_kids doc p))

/-- All nodes of the document are listed. -/
theorem mem_pathsFrom {p : List ℕ} {t : Tree} (h : doc.at? p = some t) : p ∈ pathsFrom [] 0 doc := by
  cases p with
  | nil => cases h
  | cons i p =>
    have hat : pathsAt (i :: p) t ⊆ pathsFrom p 0 (doc.kids p) := by
      simpa using pathsAt_subset (i := 0) (p := p) h
    exact pathsFrom_kids doc p (hat (mem_pathsAt_self _ t))

/-! ### The nodes of a Site -/

/-- All nodes that are there are in a list of `allocated` nodes. -/
def Site.Counted (site : Site) : Prop :=
  ∃ nodes : List NodeId, nodes.length = site.allocated ∧ ∀ n c, site.doc n = some c → n ∈ nodes

variable {site site' : Site}

theorem counted_store (doc : Document) (site : Site) (hdoc : site.doc = doc.store)
    (hallocated : site.allocated = Tree.sizes doc + 1) : site.Counted := by
  refine ⟨([] :: pathsFrom [] 0 doc).map .parsed, ?_, fun n c hn => ?_⟩
  · rw [List.length_map, List.length_cons, length_pathsFrom, hallocated]
  · rw [hdoc] at hn
    refine List.mem_map.mpr ?_
    match n, hn with
    | .parsed [], _ => exact ⟨[], List.mem_cons_self, rfl⟩
    | .parsed (i :: p), hn =>
      rw [Document.store] at hn
      cases hat : doc.at? (i :: p) with
      | none =>
        rw [hat] at hn
        cases hn
      | some t => exact ⟨i :: p, List.mem_cons_of_mem _ (mem_pathsFrom hat), rfl⟩

/-- A change that adds no node. -/
theorem Site.Counted.of_noNew (h : site.Counted) (hdoc : NoNew site.doc site'.doc)
    (hallocated : site'.allocated = site.allocated) : site'.Counted := by
  obtain ⟨nodes, hlength, hall⟩ := h
  refine ⟨nodes, hlength.trans hallocated.symm, fun n c hn => ?_⟩
  cases hold : site.doc n with
  | none =>
    rw [hdoc n hold] at hn
    cases hn
  | some d => exact hall n d hold

theorem noNew_setLast (last : Option NodeId) : ∀ (ns : List NodeId) (σ : Store),
    NoNew σ (setLast σ ns last)
  | [], σ => .refl σ
  | n :: ns, σ => (noNew_modify σ n _).trans (noNew_setLast last ns _)

theorem graft_noNew {n m : NodeId} :
    Ends (fun grafted => NoNew site.doc grafted.1) (site.graft n m) := by
  refine .after fun cell => .after fun lists => .after fun first => .after fun firstCell => ?_
  refine .bind (P := fun freed => NoNew site.doc freed.1) ?_ fun freed hfreed =>
    .after fun _ => .after fun target => .after fun _ => .pure ?_
  · exact fun freed hfree => noNew_freeList (freeList_of_each (deref_eq_ok.mp hfree))
  · exact hfreed.trans ((noNew_modify _ _ _).trans (noNew_modify _ _ _))

/-- An association adds its pointer node, and counts it. -/
theorem Site.Counted.associate (h : site.Counted) (n m : NodeId) :
    Ends Site.Counted (site.associate n m) := by
  obtain ⟨nodes, hlength, hall⟩ := h
  refine .bind graft_noNew fun grafted hσ => .after fun cell => .after fun parent => ?_
  obtain ⟨σ, lists⟩ := grafted
  intro site' hok
  obtain ⟨σ₁, hadd, hok⟩ := bind_eq_ok.mp hok
  obtain ⟨-, rfl⟩ := addChild?_eq_some.mp (deref_eq_ok.mp hadd)
  obtain ⟨parentPtr, -, hok⟩ := bind_eq_ok.mp hok
  obtain ⟨parentContext, -, hok⟩ := bind_eq_ok.mp hok
  obtain ⟨associated, -, hok⟩ := bind_eq_ok.mp hok
  obtain ⟨associatedPtr, -, hok⟩ := bind_eq_ok.mp hok
  obtain ⟨associatedContext, -, hok⟩ := bind_eq_ok.mp hok
  obtain ⟨σ₂, hset, hok⟩ := bind_eq_ok.mp hok
  obtain ⟨-, rfl⟩ := setLast?_eq_some.mp (deref_eq_ok.mp hset)
  cases hok
  refine ⟨.pointer site.allocated :: nodes, by rw [List.length_cons, hlength], fun k c hk => ?_⟩
  by_cases hpointer : k = .pointer site.allocated
  · exact hpointer ▸ List.mem_cons_self
  · refine List.mem_cons_of_mem _ ?_
    cases hold : site.doc k with
    | some d => exact hall k d hold
    | none =>
      have hfresh : Function.update σ (.pointer site.allocated) (some (pointerCell parent)) k = none :=
        (Function.update_of_ne hpointer ..).trans (hσ k hold)
      have hnone := noNew_setLast associated.last associatedContext.pointerNodes _ k
        (noNew_addChild _ m (.pointer site.allocated) k hfresh)
      exact absurd (hk.symm.trans hnone) (by simp)

theorem stable_counted : Stable Site.Counted where
  learn _ h := h
  defer _ h := h
  remove n h := by
    refine fun site' hremove => ?_
    obtain ⟨σ, lists, -, hfree, rfl⟩ := removeNode_eq_ok hremove
    exact h.of_noNew (noNew_free_unlink hfree) rfl
  enter _ _ _ h := .after fun _ => .pure h
  setPrivate _ _ h := h.of_noNew (noNew_modify _ _ _) rfl
  associate n m h := h.associate n m
  forget _ h := h
  finish _ h := h

/-- The nodes of a loaded Site are counted. -/
theorem loadXmlDoc_counted {lib : Libxml} {rawxml : String}
    (hload : site.loadXmlDoc lib rawxml = .ok site') : site'.Counted :=
  stable_counted.loadXmlDoc (fun doc _ _ _ => counted_store doc _ rfl rfl) site' hload

/-- A list of siblings that ends is no longer than the count. -/
theorem Site.Counted.length_le (h : site.Counted) {first : Option NodeId}
    {cells : List (NodeId × Cell NodeId Info)} (hchain : Chain site.doc first cells) :
    cells.length ≤ site.allocated := by
  obtain ⟨nodes, hlength, hall⟩ := h
  exact hlength ▸ hchain.length_le hall

end VaeDb
