import VaeDb.Schemes.Forests
import VaeDb.Site.Allocation
import VaeDb.Site.AttrLists

/-! What is as parsed can be freed.

    In the parsed document the nodes below a path are a forest, each of them once, and there are no
    more of them than nodes in the document. A staged element and an association item are as parsed
    when they are taken out, so that freeing one comes to its end.

        removed   c ──▶ children of c, as parsed
        grafted   a ──▶ text ──▶ what follows the text, as parsed                              -/

namespace VaeDb
open Schemes Xml Walk

variable {doc : Document}

/-! ### The document as a forest -/

theorem pathsAt_eq (p : List ℕ) (t : Tree) : pathsAt p t = p :: pathsFrom p 0 t.children := by
  cases t with
  | element name properties ts => rw [pathsAt, Tree.children]
  | text content => rfl
  | other content => rfl

theorem kidIds_getElem? {p : List ℕ} {i : ℕ} :
    (doc.kidIds p)[i]? = if i < (doc.kids p).length then some (.parsed (i :: p)) else none := by
  rw [Document.kidIds, List.getElem?_map]
  split
  · next h => rw [List.getElem?_range h, Option.map_some]
  · next h => rw [List.getElem?_eq_none (by simpa using h), Option.map_none]

mutual

theorem forest_at {p : List ℕ} : ∀ {t : Tree}, doc.at? p = some t →
    Forest doc.store (doc.kidIds p)[0]? ((pathsFrom p 0 t.children).map .parsed)
  | .element _ _ _, h => forest_from (by rw [kids_of_at? h, List.drop_zero])
  | .text _, h | .other _, h => by
      rw [kidIds_getElem?, kids_of_at? h]
      exact .nil

/-- The children of the node at a path from child `i` on, with all that is below them. -/
theorem forest_from {p : List ℕ} {i : ℕ} : ∀ {ts : List Tree}, (doc.kids p).drop i = ts →
    Forest doc.store (doc.kidIds p)[i]? ((pathsFrom p i ts).map .parsed)
  | [], h => by
      rw [kidIds_getElem?, if_neg (by simpa using h)]
      exact .nil
  | t :: ts, h => by
      have hlt : i < (doc.kids p).length := by
        by_contra hge
        rw [List.drop_eq_nil_of_le (by omega)] at h
        cases h
      rw [List.drop_eq_getElem_cons hlt] at h
      obtain ⟨ht, hts⟩ := List.cons.inj h
      have hat : doc.at? (i :: p) = some t := by
        rw [Document.at?, List.getElem?_eq_getElem hlt, ht]
      rw [kidIds_getElem?, if_pos hlt, pathsFrom, pathsAt_eq, List.map_append, List.map_cons,
        List.cons_append]
      refine .cons (by rw [Document.store, hat]) ?_ ?_
      · rw [List.head?_eq_getElem?]
        exact forest_at hat
      · exact forest_from hts

end

mutual

theorem nodup_pathsAt : ∀ (p : List ℕ) (t : Tree),
    (pathsAt p t).Nodup ∧ ∀ q ∈ pathsAt p t, p <:+ q
  | p, .element _ _ ts => by
      obtain ⟨hnodup, hbelow⟩ := nodup_pathsFrom p 0 ts
      rw [pathsAt]
      refine ⟨List.nodup_cons.mpr ⟨fun hp => ?_, hnodup⟩, fun q hq => ?_⟩
      · obtain ⟨j, -, hj⟩ := hbelow p hp
        exact absurd hj.length_le (by simp)
      · rcases List.mem_cons.mp hq with rfl | hq
        · exact List.suffix_rfl
        · obtain ⟨j, -, hj⟩ := hbelow q hq
          exact (List.suffix_cons j p).trans hj
  | p, .text _ | p, .other _ => by simp [pathsAt]

theorem nodup_pathsFrom : ∀ (p : List ℕ) (i : ℕ) (ts : List Tree),
    (pathsFrom p i ts).Nodup ∧ ∀ q ∈ pathsFrom p i ts, ∃ j, i ≤ j ∧ j :: p <:+ q
  | p, i, [] => by simp [pathsFrom]
  | p, i, t :: ts => by
      obtain ⟨hnodup, hbelow⟩ := nodup_pathsAt (i :: p) t
      obtain ⟨hnodup', hbelow'⟩ := nodup_pathsFrom p (i + 1) ts
      rw [pathsFrom]
      refine ⟨List.nodup_append.mpr ⟨hnodup, hnodup', ?_⟩, fun q hq => ?_⟩
      · rintro q hq _ hq' rfl
        obtain ⟨j, hj, hjq⟩ := hbelow' q hq'
        have := child_unique (hbelow q hq) hjq
        omega
      · rcases List.mem_append.mp hq with hq | hq
        · exact ⟨i, Nat.le_refl i, hbelow q hq⟩
        · obtain ⟨j, hj, hjq⟩ := hbelow' q hq
          exact ⟨j, by omega, hjq⟩

end

/-- The nodes behind child `i`, which are nodes of the document. -/
theorem pathsFrom_drop (p : List ℕ) (i : ℕ) :
    pathsFrom p i ((doc.kids p).drop i) ⊆ pathsFrom [] 0 doc := by
  refine List.Subset.trans ?_ (pathsFrom_kids doc p)
  have hdrop : ∀ (i j : ℕ) (ts : List Tree), pathsFrom p (j + i) (ts.drop i) ⊆ pathsFrom p j ts := by
    intro i
    induction i with
    | zero => exact fun j ts => List.Subset.refl _
    | succ i ih =>
      intro j ts
      cases ts with
      | nil => exact List.nil_subset _
      | cons t ts =>
        rw [List.drop_succ_cons, pathsFrom, ← Nat.add_assoc, Nat.add_right_comm]
        exact List.Subset.trans (ih (j + 1) ts) (List.subset_append_right _ _)
  have h := hdrop i 0 (doc.kids p)
  rwa [Nat.zero_add] at h

theorem length_pathsFrom_drop (p : List ℕ) (i : ℕ) :
    (pathsFrom p i ((doc.kids p).drop i)).length ≤ Tree.sizes doc := by
  rw [← length_pathsFrom [] 0 doc]
  exact ((nodup_pathsFrom p i _).1.subperm (pathsFrom_drop p i)).length_le

/-! ### Below an intact node -/

namespace Staging

/-- What is below an intact node, from child `i` on. -/
theorem Intact.forest {σ : Store} {c : List ℕ} (h : Intact doc σ c) (i : ℕ) :
    Forest σ (doc.kidIds c)[i]? ((pathsFrom c i ((doc.kids c).drop i)).map .parsed) := by
  refine (forest_from rfl).congr fun n hn => ?_
  obtain ⟨q, hq, rfl⟩ := List.mem_map.mp hn
  obtain ⟨j, -, hj⟩ := (nodup_pathsFrom c i _).2 q hq
  refine h.below q ((List.suffix_cons j c).trans hj) ?_
  rintro rfl
  exact absurd hj.length_le (by simp)

theorem nodup_below (c : List ℕ) (i : ℕ) :
    ((pathsFrom c i ((doc.kids c).drop i)).map NodeId.parsed).Nodup :=
  (nodup_pathsFrom c i _).1.map fun _ _ h => NodeId.parsed.inj h

variable {S : Structures} {r : List ℕ} {ptrs : List ℕ → List NodeId} {site : Site} {c : List ℕ}
  {cell : Cell NodeId Info}

/-- A child of a walked node that is as parsed below can be taken out. -/
theorem removeNode_returns (hlists : Lists doc S r site.doc ptrs) (hc : Child doc S r c)
    (hnot : ¬ Walked doc S r c) (hintact : Intact doc site.doc c)
    (hcell : site.doc (.parsed c) = some cell) (hbelow : ∀ q, c <:+ q → OwnList site (.parsed q))
    (hallocated : Tree.sizes doc ≤ site.allocated) :
    ∃ site', site.removeNode (.parsed c) = .ok site' := by
  obtain ⟨p, A, B, -, -, -, -, hlinked, -⟩ := hlists.parent_split hc hcell
  obtain ⟨cell', hcell', hsame⟩ := hlists.unlink_child hc hcell
  have hchildren : cell'.children = (doc.kidIds c)[0]? := by
    rw [hsame, hintact.children cell hcell, List.head?_eq_getElem?]
  have hforest : Forest (site.doc.unlink (.parsed c)) cell'.children
      ((pathsFrom c 0 ((doc.kids c).drop 0)).map .parsed) := by
    rw [hchildren]
    refine (hintact.forest 0).congr fun n hn => ?_
    obtain ⟨q, hq, rfl⟩ := List.mem_map.mp hn
    obtain ⟨j, -, hj⟩ := (nodup_pathsFrom c 0 _).2 q hq
    refine hlists.unlink_inside hc hnot hcell ⟨q, rfl, (List.suffix_cons j c).trans hj, ?_⟩
    rintro rfl
    exact absurd hj.length_le (by simp)
  have henough : ((pathsFrom c 0 ((doc.kids c).drop 0)).map NodeId.parsed).length ≤
      site.allocated := by
    rw [List.length_map]
    exact (length_pathsFrom_drop c 0).trans hallocated
  have hnodup : (.parsed c :: (pathsFrom c 0 ((doc.kids c).drop 0)).map NodeId.parsed).Nodup := by
    refine List.nodup_cons.mpr ⟨fun hin => ?_, nodup_below c 0⟩
    obtain ⟨q, hq, heq⟩ := List.mem_map.mp hin
    obtain ⟨j, -, hj⟩ := (nodup_pathsFrom c 0 _).2 q hq
    cases heq
    exact absurd hj.length_le (by simp)
  -- every node has its own list
  have hhas : ∀ n ∈ .parsed c :: (pathsFrom c 0 ((doc.kids c).drop 0)).map NodeId.parsed,
      Has site.lists n := by
    intro n hn
    rcases List.mem_cons.mp hn with rfl | hn
    · exact (hbelow c List.suffix_rfl).has hcell
    · obtain ⟨q, hq, rfl⟩ := List.mem_map.mp hn
      obtain ⟨j, -, hj⟩ := (nodup_pathsFrom c 0 _).2 q hq
      obtain ⟨d, hd⟩ := (hintact.forest 0).there _ hn
      exact (hbelow q ((List.suffix_cons j c).trans hj)).has hd
  obtain ⟨σ, lists, hσ, -⟩ := hforest.freeEach hcell'
    (fun lists n cell _ => freeProps_own lists n cell) hnodup henough hhas
  refine ⟨{ site with doc := σ, lists := lists }, ?_⟩
  rw [Site.removeNode, hlinked.unlink?]
  change (deref (xmlFreeNode _ _ _ _) >>= _) = _
  rw [xmlFreeNode, hσ]
  rfl

end Staging

end VaeDb
