import Mathlib.Data.List.FinRange
import VaeDb.Session.Arithmetic

/-! Filtering and paging: whether a filter may be applied first and the pages be cut afterwards.

    The source counts skipped and included nodes after the filter, but takes the position of the
    asked page from the number of nodes before it. A page given by its number has the same position
    in every list; the last page and the pages of groups do not, and are cut in the wrong place once
    a filter or `unique` has dropped nodes.

        6 nodes, paginate 2      │ a b │ c d │ e f │     last() is page 3
        3 of them match          │ a c │ e │             page 3 is empty

    The positions are those that the source computes, with `float` rounding to 24 bits; where one of
    the two cannot be computed, one of the two queries has no answer. -/

namespace VaeDb
open Schemes Xml

namespace Request

/-- The page that the options ask for covers the same part of `matching` items, whether its position
    is computed for `size` items or for the `matching` ones. -/
def SamePart (fl : ℚ → ℚ) (o : Request) (size matching : ℤ) : Prop :=
  (matching ≤ max 0 (o.pageAt fl size).skip ∧ matching ≤ max 0 (o.pageAt fl matching).skip) ∨
    (max 0 (o.pageAt fl size).skip = max 0 (o.pageAt fl matching).skip ∧
      min matching (max 0 (o.pageAt fl size).skip + max 1 (o.pageAt fl size).paginate) =
        min matching (max 0 (o.pageAt fl matching).skip + max 1 (o.pageAt fl matching).paginate))

variable {fl : ℚ → ℚ} {o : Request}

/-- Without groups, a page given by its number is at the same place in every list. -/
theorem samePart_number (hgroups : o.groups = 0) (hpage : o.page ≠ -1) (size matching : ℤ) :
    o.SamePart fl size matching := by
  have hsame : o.pageAt fl size = o.pageAt fl matching := by
    simp [pageAt, pageNumber, hgroups, hpage]
  exact Or.inr ⟨by rw [hsame], by rw [hsame]⟩

/-- The window is where the page is. -/
theorem window_at (h : Rounding 24 fl) (ho : o.Ints) {size : ℤ} (hsize : 0 ≤ size)
    (hsize' : size ≤ 2147483647) {w : Window} (hw : o.window fl size = .ok w) :
    w.skip = max 0 (o.pageAt fl size).skip ∧ w.paginate = max 1 (o.pageAt fl size).paginate := by
  obtain ⟨page, hpage, hof⟩ := window_eq_ok hw
  obtain ⟨-, rfl⟩ := (choosePage_iff h ho hsize hsize').mp hpage
  exact ⟨hof.skip, hof.paginate⟩

end Request

namespace Response

variable {ops : Lookups Result} {rt : Runtime} {site : Site} {o : Request}
  {context : Option NodeId} {q : String} {nodes matched : List XmlNode} {ctx : XmlNode → NodeId}
  {ordered : List NodeId}

/-! ### Filtering and paging -/

/-- Comparing two contexts does not run the query again. -/
theorem sortCallback_fetch (fetch : Option NodeId → String → Result Query) (lhs rhs : NodeId) :
    ∀ fields : List SortField,
      sortCallback { ops with fetch_query := fetch } site lhs rhs fields =
        sortCallback ops site lhs rhs fields
  | [] => rfl
  | f :: fields => by
      rw [sortCallback, sortCallback, sortCallback_fetch fetch lhs rhs fields]

theorem orderContexts_fetch (fetch : Option NodeId → String → Result Query)
    (shuffle : List NodeId → List NodeId) (contexts : List NodeId) :
    orderContexts { ops with fetch_query := fetch } rt site shuffle o contexts =
      orderContexts ops rt site shuffle o contexts := by
  rw [orderContexts, orderContexts]
  simp only [sortContexts, sortCallback_fetch]

/-- The order only moves contexts around. -/
theorem orderContexts_nodup {shuffle : List NodeId → List NodeId} {contexts ordered : List NodeId}
    (hsort : o.sortType ≠ .shuffle)
    (h : orderContexts ops rt site shuffle o contexts = .ok ordered) (hnodup : contexts.Nodup) :
    ordered.Nodup := by
  rw [orderContexts] at h
  split at h
  · rwa [← pure_eq_ok.mp h]
  · rw [← pure_eq_ok.mp h, List.nodup_reverse]
    exact hnodup
  · next hshuffle => exact absurd hshuffle hsort
  · rw [sortContexts, bind_eq_ok] at h
    obtain ⟨found, -, h⟩ := h
    obtain ⟨order, -, h⟩ := bind_eq_ok.mp h
    rw [← pure_eq_ok.mp h, List.nodup_ofFn]
    exact (List.nodup_iff_injective_get.mp hnodup).comp order.injective

/-- The same options on the matching nodes alone, with nothing left to filter. -/
theorem Gathered.matchedOnly (h : Gathered ops rt site o context q nodes ctx matched ordered) :
    Gathered { ops with fetch_query := fun _ _ => .ok matched } rt site
      { o with filter := false, unique := false } context q matched ctx matched ordered where
  fetched := rfl
  contexts node hnode := h.contexts node ((matchingFrom_sublist h.matching).subset hnode)
  matching := matchingFrom_plain rfl matched []
  sortType := h.sortType
  ordering := by
    rw [orderContexts_fetch]
    exact h.ordering

/-- A query answers exactly if its window is computed. -/
theorem query_eq_ok_iff (h : Gathered ops rt site o context q nodes ctx matched ordered)
    (shuffle : List NodeId → List NodeId) {r : ResponseContext} :
    query ops rt site shuffle o context q = .ok r ↔ ∃ w,
      o.window rt.float nodes.length = .ok w ∧
        r = ⟨slice w.skip.toNat w.paginate.toNat ordered, matched.length⟩ := by
  constructor
  · intro hquery
    have hrun := hquery
    rw [query, bind_eq_ok] at hrun
    obtain ⟨found, hfound, hrun⟩ := hrun
    obtain rfl := Except.ok.inj (h.fetched.symm.trans hfound)
    obtain ⟨w, hw, -⟩ := bind_eq_ok.mp hrun
    rw [query_slice h hw shuffle] at hquery
    exact ⟨w, hw, (Except.ok.inj hquery).symm⟩
  · rintro ⟨w, hw, rfl⟩
    exact query_slice h hw shuffle

/-- Both queries answer, and the same: the one that filters, and the one that is run on the matching
    nodes with nothing to filter. -/
def Commutes (ops : Lookups Result) (rt : Runtime) (site : Site)
    (shuffle : List NodeId → List NodeId) (o : Request) (context : Option NodeId) (q : String)
    (matched : List XmlNode) : Prop :=
  ∃ r r', query ops rt site shuffle o context q = .ok r ∧
    query { ops with fetch_query := fun _ _ => .ok matched } rt site shuffle
      { o with filter := false, unique := false } context q = .ok r' ∧
    r.contexts = r'.contexts ∧ r.total = r'.total

/-- The page can be computed for both sizes, and covers the same part of the matching list. -/
def PagesAgree (fl : ℚ → ℚ) (o : Request) (size matching : ℤ) : Prop :=
  o.Fits fl size ∧ o.Fits fl matching ∧ o.SamePart fl size matching

/-- The positions of two windows, as those of slices. -/
theorem samePositions_iff {w w' : Request.Window} {size : ℤ} {n : ℕ}
    (hw : w.skip = max 0 (o.pageAt rt.float size).skip ∧
      w.paginate = max 1 (o.pageAt rt.float size).paginate)
    (hw' : w'.skip = max 0 (o.pageAt rt.float n).skip ∧
      w'.paginate = max 1 (o.pageAt rt.float n).paginate) :
    SamePositions n w.skip.toNat w.paginate.toNat w'.skip.toNat w'.paginate.toNat ↔
      o.SamePart rt.float size n := by
  rw [SamePositions, Request.SamePart, ← hw.1, ← hw.2, ← hw'.1, ← hw'.2]
  omega

/-- CORRECT: for all options and any rounding to 24 bits, filtering and paging commute where the asked
    page can be computed for both sizes and covers the same part of the matching list; and only where
    it can be computed for both. If no context occurs twice among the matching ones, also only where
    it covers the same part. -/
theorem query_filter_commutes (h : Gathered ops rt site o context q nodes ctx matched ordered)
    (hround : Rounding 24 rt.float) (ho : o.Ints) (hsize : nodes.length < 2147483648)
    (shuffle : List NodeId → List NodeId) :
    (PagesAgree rt.float o nodes.length matched.length →
      Commutes ops rt site shuffle o context q matched) ∧
    (Commutes ops rt site shuffle o context q matched →
      o.Fits rt.float nodes.length ∧ o.Fits rt.float matched.length ∧
        ((matched.map ctx).Nodup → o.SamePart rt.float nodes.length matched.length)) := by
  have hfew := (matchingFrom_sublist h.matching).length_le
  have hlength : ordered.length = matched.length := by
    rw [orderContexts_length h.sortType h.ordering, List.length_map]
  have hfits := @Request.window_iff_fits rt.float o nodes.length hround ho (by omega) (by omega)
  have hfits' := @Request.window_iff_fits rt.float o matched.length hround ho (by omega) (by omega)
  have hat := fun w hw => @Request.window_at rt.float o hround ho nodes.length (by omega) (by omega)
    w hw
  have hat' := fun w hw => @Request.window_at rt.float o hround ho matched.length (by omega)
    (by omega) w hw
  constructor
  · rintro ⟨hn, hm, hpart⟩
    obtain ⟨w, hw⟩ := hfits.mpr hn
    obtain ⟨w', hw'⟩ := hfits'.mpr hm
    refine ⟨_, _, query_slice h hw shuffle, query_slice h.matchedOnly hw' shuffle, ?_, rfl⟩
    refine SamePositions.slice_eq ?_
    rw [hlength]
    exact (samePositions_iff (hat w hw) (hat' w' hw')).mpr hpart
  · rintro ⟨r, r', hr, hr', hcontexts, -⟩
    obtain ⟨w, hw, rfl⟩ := (query_eq_ok_iff h shuffle).mp hr
    obtain ⟨w', hw', rfl⟩ := (query_eq_ok_iff h.matchedOnly shuffle).mp hr'
    refine ⟨hfits.mp ⟨w, hw⟩, hfits'.mp ⟨w', hw'⟩, fun hnodup => ?_⟩
    refine (samePositions_iff (hat w hw) (hat' w' hw')).mp ?_
    have hpaginate := (hat w hw).2
    have hpaginate' := (hat' w' hw').2
    rw [← hlength]
    exact samePositions_of_slice_eq (orderContexts_nodup h.sortType h.ordering hnodup) (by omega)
      (by omega) hcontexts

/-! ### The sample feed -/

/-- The sample runtime, with `float` rounding to the nearest. -/
def roundingRuntime : Runtime := { sampleRuntime with float := nearest 24 }

/-- Only the second page contains a 1. -/
theorem sample_filtered : Gathered (Lookups.fresh sampleLib sampleSite) roundingRuntime sampleSite
    { paginate := 1, filter := true, filterTerms := ["1"] } none "page" samplePages sampleCtx
    [.node (.parsed [2, 0, 0])] [.parsed [2, 0, 0]] where
  fetched := by decide +kernel
  contexts := by decide +kernel
  matching := by decide +kernel
  sortType := by decide
  ordering := rfl

theorem query_filter_commutes_sample :
    Commutes (Lookups.fresh sampleLib sampleSite) roundingRuntime sampleSite id
      { paginate := 1, filter := true, filterTerms := ["1"] } none "page"
      [.node (.parsed [2, 0, 0])] := by
  have hround : Rounding 24 roundingRuntime.float := nearest_rounding (by decide)
  have hints : Request.Ints { paginate := 1, filter := true, filterTerms := ["1"] } :=
    ⟨by decide, by decide, by decide, by decide⟩
  have hfits : ∀ size : ℤ, 0 ≤ size → size ≤ 2147483647 → Request.Fits roundingRuntime.float
      { paginate := 1, filter := true, filterTerms := ["1"] } size := by
    intro size hsize hsize'
    obtain ⟨w, hw, -, -⟩ := @Request.window_number roundingRuntime.float
      { paginate := 1, filter := true, filterTerms := ["1"] } size 1
      rfl rfl (by decide) (by decide) (by decide)
    exact (Request.window_iff_fits hround hints hsize hsize').mp ⟨w, hw⟩
  refine (query_filter_commutes sample_filtered hround hints (by decide) id).1 ⟨?_, ?_, ?_⟩
  · exact hfits _ (by decide) (by decide)
  · exact hfits _ (by decide) (by decide)
  · exact Request.samePart_number rfl (by decide) _ _

/-- The last of two pages is asked for. The filter keeps one node; it is skipped, because there were
    two, while the only page of the filtered list has it. -/
theorem query_last_filtered :
    matching (Lookups.fresh sampleLib sampleSite) sampleSite
      { paginate := 1, page := -1, filter := true, filterTerms := ["1"] } samplePages =
        .ok [.node (.parsed [2, 0, 0])] ∧
    (query (Lookups.fresh sampleLib sampleSite) roundingRuntime sampleSite id
      { paginate := 1, page := -1, filter := true, filterTerms := ["1"] } none "page").map
        ResponseContext.contexts = .ok [] ∧
    (query { Lookups.fresh sampleLib sampleSite with
        fetch_query := fun _ _ => .ok [.node (.parsed [2, 0, 0])] } roundingRuntime sampleSite id
      { paginate := 1, page := -1, filterTerms := ["1"] } none "page").map
        ResponseContext.contexts = .ok [.parsed [2, 0, 0]] := by
  refine ⟨?_, ?_, ?_⟩ <;> decide +kernel

end Response

end VaeDb
