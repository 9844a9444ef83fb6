import VaeDb.Site.Query

/-! Permalinks: which prefix of a path `permalink/...` is followed.

    The loop tries the whole path first and then ever shorter prefixes. The whole path answers with
    its node. A proper prefix only sets the context, and the rest of the path is the query from
    there on.

        permalink/a/b/c   a/b/c ─ no ─▶ a/b ─ yes ─▶ context of a/b, query c -/

namespace VaeDb
open Schemes Xml Cpp

namespace Query

/-- The constructor after the permalink branch. -/
def afterPermalink (lib : Libxml) (site : Site) (q : String) (context : Option NodeId)
    (query : String) : Result Query := do
  match ← resolveId site context query with
  | .result query => pure query
  | .rest context query => do
    let query ← siblings site context query
    let query ← rewrite query
    runQuery lib site context query q

/-- Go on where the permalink branch has not ended. -/
def Resolved.andThen (rest : Option NodeId → String → Result Query) : Resolved → Result Query
  | .result query => pure query
  | .rest context query => rest context query

/-- The node that the first `k` parts of a path are the permalink of. -/
def permalinkAt (site : Site) (pathParts : List String) (k : ℕ) : Option NodeId :=
  site.permalinks (join (pathParts.take k) "/")

variable {site : Site} {pathParts : List String}

/-- The loop, entered with `i` parts, skips what is no permalink. -/
theorem findPermalink_skip {i k : ℕ} (hk : k ≤ i)
    (hnone : ∀ j, k < j → j ≤ i → permalinkAt site pathParts j = none) :
    findPermalink site pathParts i = findPermalink site pathParts k := by
  induction i with
  | zero =>
    obtain rfl : k = 0 := by omega
    rfl
  | succ i ih =>
    rcases Nat.eq_or_lt_of_le hk with rfl | hlt
    · rfl
    · have hi := hnone (i + 1) hlt (Nat.le_refl _)
      rw [permalinkAt] at hi
      rw [findPermalink, hi]
      exact ih (by omega) fun j hj hji => hnone j hj (by omega)

/-- The loop at a permalink. -/
theorem findPermalink_found {k : ℕ} {node : NodeId} (hk : 0 < k)
    (hnode : permalinkAt site pathParts k = some node) :
    findPermalink site pathParts k =
      if k = pathParts.length then pure (.result (result (some node)))
      else privateOf site (.node node) >>= fun context =>
        pure (.rest context (join (pathParts.drop k) "/")) := by
  obtain ⟨i, rfl⟩ := Nat.exists_eq_succ_of_ne_zero (by omega : k ≠ 0)
  rw [permalinkAt] at hnode
  rw [findPermalink, hnode]

theorem permalinkPath_eq {p : String} (hp : '\n' ∉ p.toList) :
    permalinkPath ("permalink/" ++ p) = some p := by
  have hpath : ("permalink/" ++ p).toList.drop "permalink/".length = p.toList := by
    rw [String.toList_append]
    exact List.drop_left
  rw [permalinkPath, hpath, if_pos, String.ofList_toList]
  rw [String.toList_append]
  simpa using hp

theorem new_eq (lib : Libxml) (context : Option NodeId) (q : String) :
    new lib site context q =
      resolvePermalink site (if q.toList.head? = some '/' then none else context)
        (if q.toList.head? = some '/' then String.ofList (q.toList.drop 1) else q) >>=
      Resolved.andThen (afterPermalink lib site q) := by
  rw [new]
  congr 1

/-- With or without a slash in front, the constructor looks for prefixes of the path. -/
theorem new_permalink (lib : Libxml) (context : Option NodeId) {p q : String}
    (hp : '\n' ∉ p.toList) (hq : q = "permalink/" ++ p ∨ q = "/permalink/" ++ p) :
    new lib site context q =
      findPermalink site (split ['/'] p) (split ['/'] p).length >>=
        Resolved.andThen (afterPermalink lib site q) := by
  have hresolve : ∀ context, resolvePermalink site context ("permalink/" ++ p) =
      findPermalink site (split ['/'] p) (split ['/'] p).length := by
    intro context
    rw [resolvePermalink, permalinkPath_eq hp]
  rw [new_eq]
  rcases hq with rfl | rfl
  · rw [if_neg (by simp), if_neg (by simp), hresolve]
  · have hdrop : String.ofList (("/permalink/" ++ p).toList.drop 1) = "permalink/" ++ p := by
      apply String.toList_inj.mp
      simp
    rw [if_pos (by simp), if_pos (by simp), hdrop, hresolve]

/-! ### The main result -/

/-- CORRECT: the longest prefix of the path that is a permalink counts. The whole path gives its node;
    a proper prefix gives the context, and the parts after it are the query; without any the result
    is empty. -/
theorem permalink_longest (lib : Libxml) (site : Site) (context : Option NodeId) {p q : String}
    (hp : '\n' ∉ p.toList) (hq : q = "permalink/" ++ p ∨ q = "/permalink/" ++ p) :
    (∀ node, site.permalinks p = some node → new lib site context q = .ok [.node node]) ∧
    (∀ k node, 0 < k → k < (split ['/'] p).length →
      permalinkAt site (split ['/'] p) k = some node →
      (∀ j, k < j → j ≤ (split ['/'] p).length → permalinkAt site (split ['/'] p) j = none) →
      new lib site context q = privateOf site (.node node) >>= fun context =>
        afterPermalink lib site q context (join ((split ['/'] p).drop k) "/")) ∧
    ((∀ j, 0 < j → j ≤ (split ['/'] p).length → permalinkAt site (split ['/'] p) j = none) →
      new lib site context q = .ok []) := by
  rw [new_permalink lib context hp hq]
  have hwhole : permalinkAt site (split ['/'] p) (split ['/'] p).length = site.permalinks p := by
    rw [permalinkAt, List.take_length]
    exact congrArg site.permalinks (join_split '/' p)
  have hparts : 0 < (split ['/'] p).length := by
    rw [split_eq, List.length_map]
    exact List.length_pos_of_ne_nil (List.splitOn_ne_nil _ _)
  refine ⟨fun node hnode => ?_, fun k node hk hlt hnode hnone => ?_, fun hnone => ?_⟩
  · rw [findPermalink_found hparts (hwhole.trans hnode), if_pos rfl]
    rfl
  · rw [findPermalink_skip hlt.le hnone, findPermalink_found hk hnode, if_neg hlt.ne]
    cases privateOf site (.node node) <;> rfl
  · rw [findPermalink_skip (Nat.zero_le _) hnone]
    rfl

/-- Of the path a/b/c the prefixes a and a/b are permalinks. -/
def samplePermalinks : Site :=
  { Site.blank "shop" false [] with
    doc := fun n => if n = .parsed [1, 0] then
      some ⟨none, none, none, none, none, ⟨.element, "page", "", [], some (.parsed [1, 0])⟩⟩ else none
    permalinks := fun s =>
      if s = "a" then some (.parsed [0]) else if s = "a/b" then some (.parsed [1, 0]) else none }

def sampleXml : Libxml := ⟨fun _ => none, fun _ _ _ => .other⟩

theorem permalink_longest_sample :
    new sampleXml samplePermalinks none "/permalink/a/b/c" =
      afterPermalink sampleXml samplePermalinks "/permalink/a/b/c" (some (.parsed [1, 0])) "c" := by
  have hlongest := (permalink_longest sampleXml samplePermalinks none (p := "a/b/c")
    (q := "/permalink/a/b/c") (by decide) (Or.inr (by decide))).2.1 2 (.parsed [1, 0])
    (by decide) (by decide) (by decide)
  rw [hlongest]
  · rfl
  · intro j hj hj'
    have hlen : (split ['/'] "a/b/c").length = 3 := by decide
    obtain rfl : j = 3 := by omega
    decide

end Query

end VaeDb
