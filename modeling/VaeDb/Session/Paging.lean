import VaeDb.Schemes.Slice
import VaeDb.Session.Response

/-! Paging: which part of a result `Response::query` returns.

    The source cuts in three ways: by index while it collects, by counting skipped and included
    nodes while it filters, by erasing and resizing after it has sorted. All three return a slice of
    one list, the matching contexts in the requested order (`query_slice`). Without groups the
    slices of the pages follow each other, so that the pages tile the list.

        matching contexts   a b │ c d e │ f g h │ i j
        skip 2, paginate 3        page 1  page 2  page 3 -/

namespace VaeDb
open Schemes Xml

namespace Request

/-! ### Windows -/

theorem int_eq_ok {n k : ℤ} :
    int n = .ok k ↔ (-2147483648 ≤ n ∧ n ≤ 2147483647) ∧ n = k := by
  rw [int]
  split
  · next h => simp [h]
  · next h => simp [h]

theorem int_of_range {n : ℤ} (hlow : -2147483648 ≤ n) (hhigh : n ≤ 2147483647) :
    int n = .ok n :=
  int_eq_ok.mpr ⟨⟨hlow, hhigh⟩, rfl⟩

/-- How a window comes from the chosen page. An ordered result is collected whole. -/
structure Window.Of (o : Request) (size : ℤ) (page : Page) (w : Window) : Prop where
  skip : w.skip = max 0 page.skip
  paginate : w.paginate = max 1 page.paginate
  start : w.start = if o.sortType = .none then w.skip else 0
  stop : w.stop = if o.sortType = .none then min (w.skip + w.paginate) size else size

theorem window_eq_ok {float : ℚ → ℚ} {o : Request} {size : ℤ} {w : Window}
    (h : o.window float size = .ok w) :
    ∃ page, o.choosePage float size = .ok page ∧ Window.Of o size page w := by
  rw [window, bind_eq_ok] at h
  obtain ⟨page, hpage, h⟩ := h
  refine ⟨page, hpage, ?_⟩
  have hskip : (if page.skip < 0 then 0 else page.skip) = max 0 page.skip := by
    split <;> omega
  have hpaginate : (if page.paginate < 1 then 1 else page.paginate) = max 1 page.paginate := by
    split <;> omega
  rw [hskip, hpaginate] at h
  split at h
  · next hsort =>
    obtain ⟨reach, hreach, h⟩ := bind_eq_ok.mp h
    obtain ⟨-, rfl⟩ := int_eq_ok.mp hreach
    obtain rfl := pure_eq_ok.mp h
    refine ⟨rfl, rfl, by rw [if_pos hsort], ?_⟩
    rw [if_pos hsort]
    dsimp only
    split <;> split <;> omega
  · next hsort =>
    obtain rfl := pure_eq_ok.mp h
    exact ⟨rfl, rfl, by rw [if_neg hsort], by rw [if_neg hsort]⟩

/-- A page has a window, unless it is unordered and ends out of range. -/
theorem window_of_page {float : ℚ → ℚ} {o : Request} {size : ℤ} {page : Page}
    (hpage : o.choosePage float size = .ok page)
    (hreach : o.sortType = .none → max 1 page.paginate + max 0 page.skip ≤ 2147483647) :
    ∃ w, o.window float size = .ok w ∧ Window.Of o size page w := by
  suffices h : ∃ w, o.window float size = .ok w by
    obtain ⟨w, hw⟩ := h
    obtain ⟨page', hpage', hof⟩ := window_eq_ok hw
    obtain rfl : page = page' := Except.ok.inj (hpage.symm.trans hpage')
    exact ⟨w, hw, hof⟩
  rw [window, hpage]
  dsimp only [bind, Except.bind]
  split
  · next hsort =>
    have hend := hreach hsort
    rw [int_of_range]
    · exact ⟨_, rfl⟩
    · split <;> split <;> omega
    · split <;> split <;> omega
  · exact ⟨_, rfl⟩

/-! ### Pages without groups -/

/-- Page `k` of a list, where there are no groups. -/
def pageOf {α : Type} (o : Request) (k : ℤ) (l : List α) : List α :=
  slice (o.skip + (k - 1) * o.paginate).toNat o.paginate.toNat l

theorem choosePage_number {float : ℚ → ℚ} {o : Request} {size k : ℤ} (hgroups : o.groups = 0)
    (hpage : (if o.page = -1 then o.lastPage float size else pure o.page) = .ok k)
    (hskip : 0 ≤ o.skip) (hpaginate : 1 ≤ o.paginate)
    (hrange : o.skip + max 1 k * o.paginate < 2147483648) :
    o.choosePage float size = .ok ⟨o.skip + (max 1 k - 1) * o.paginate, o.paginate⟩ := by
  have hfirst : (if k ≤ 0 then 1 else k) = max 1 k := by split <;> omega
  have hbefore : 0 ≤ (max 1 k - 1) * o.paginate := mul_nonneg (by omega) (by omega)
  have hsplit : max 1 k * o.paginate = (max 1 k - 1) * o.paginate + o.paginate := by ring
  rw [choosePage, if_neg (not_not.mpr hgroups), plainPage, hpage]
  dsimp only [bind, Except.bind]
  rw [hfirst, int_of_range (by omega) (by omega)]
  dsimp only
  rw [int_of_range (by omega) (by omega)]
  rfl

/-- The window of such a page. -/
theorem window_number {float : ℚ → ℚ} {o : Request} {size k : ℤ} (hgroups : o.groups = 0)
    (hpage : (if o.page = -1 then o.lastPage float size else pure o.page) = .ok k)
    (hskip : 0 ≤ o.skip) (hpaginate : 1 ≤ o.paginate)
    (hrange : o.skip + max 1 k * o.paginate < 2147483648) :
    ∃ w, o.window float size = .ok w ∧ w.skip = o.skip + (max 1 k - 1) * o.paginate ∧
      w.paginate = o.paginate := by
  have hbefore : 0 ≤ (max 1 k - 1) * o.paginate := mul_nonneg (by omega) (by omega)
  have hsplit : max 1 k * o.paginate = (max 1 k - 1) * o.paginate + o.paginate := by ring
  obtain ⟨w, hw, hof⟩ := window_of_page
    (choosePage_number hgroups hpage hskip hpaginate hrange) (fun _ => by dsimp only; omega)
  refine ⟨w, hw, ?_, ?_⟩
  · rw [hof.skip]
    dsimp only
    omega
  · rw [hof.paginate]
    dsimp only
    omega

/-- The last page that is not empty, or page 1. -/
structure IsLastPage {α : Type} (o : Request) (l : List α) (last : ℤ) : Prop where
  pos : 1 ≤ last
  nonempty : last = 1 ∨ o.pageOf last l ≠ []
  later : ∀ k, last < k → o.pageOf k l = []

theorem pageOf_eq_nil_iff {α : Type} {o : Request} {k : ℤ} {l : List α} (hpaginate : 1 ≤ o.paginate)
    (hfirst : 0 ≤ o.skip + (k - 1) * o.paginate) :
    o.pageOf k l = [] ↔ (l.length : ℤ) ≤ o.skip + (k - 1) * o.paginate := by
  rw [pageOf, slice_eq_nil_iff (by omega)]
  omega

theorem isLastPage_iff {α : Type} {o : Request} {l : List α} {last : ℤ} (hskip : 0 ≤ o.skip)
    (hpaginate : 1 ≤ o.paginate) :
    o.IsLastPage l last ↔ 1 ≤ last ∧ (last = 1 ∨ o.skip + (last - 1) * o.paginate < l.length) ∧
      (l.length : ℤ) ≤ o.skip + last * o.paginate := by
  have hfirst : ∀ k, 1 ≤ k → 0 ≤ o.skip + (k - 1) * o.paginate := fun k hk =>
    add_nonneg hskip (mul_nonneg (by omega) (by omega))
  constructor
  · rintro ⟨hpos, hnonempty, hlater⟩
    refine ⟨hpos, hnonempty.imp_right fun h => ?_, ?_⟩
    · rw [Ne, pageOf_eq_nil_iff hpaginate (hfirst last hpos)] at h
      omega
    · have h := (pageOf_eq_nil_iff hpaginate (hfirst _ (by omega))).mp (hlater (last + 1) (by omega))
      rwa [add_sub_cancel_right] at h
  · rintro ⟨hpos, hnonempty, hend⟩
    refine ⟨hpos, hnonempty.imp_right fun h => ?_, fun k hk => ?_⟩
    · rw [Ne, pageOf_eq_nil_iff hpaginate (hfirst last hpos)]
      omega
    · rw [pageOf_eq_nil_iff hpaginate (hfirst k (by omega))]
      have hmono : last * o.paginate ≤ (k - 1) * o.paginate :=
        mul_le_mul_of_nonneg_right (by omega) (by omega)
      omega

/-- The number of the last page is a rounded quotient. -/
theorem isLastPage_ceil {α : Type} {o : Request} {l : List α} {last : ℤ} (hskip : 0 ≤ o.skip)
    (hpaginate : 1 ≤ o.paginate) :
    o.IsLastPage l last ↔ last = max 1 ⌈((l.length - o.skip : ℤ) : ℚ) / (o.paginate : ℚ)⌉ := by
  have hpos : (0 : ℚ) < o.paginate := by exact_mod_cast hpaginate
  have hceil : ∀ k : ℤ, ⌈((l.length - o.skip : ℤ) : ℚ) / (o.paginate : ℚ)⌉ ≤ k ↔
      (l.length : ℤ) ≤ o.skip + k * o.paginate := fun k => by
    rw [Int.ceil_le, div_le_iff₀ hpos]
    norm_cast
    omega
  rw [isLastPage_iff hskip hpaginate, ← hceil last, ← not_le, ← hceil (last - 1)]
  omega

theorem ceilDiv_id {a b : ℤ} (hb : b ≠ 0) : ceilDiv id a b = int ⌈(a : ℚ) / (b : ℚ)⌉ := by
  rw [ceilDiv, if_neg hb]
  rfl

/-- With exact arithmetic the source computes this quotient. -/
theorem lastPage_exact {o : Request} {size : ℤ} (hpaginate : 1 ≤ o.paginate)
    (hlow : -2147483648 ≤ size - o.skip) (hhigh : size - o.skip ≤ 2147483647) :
    o.lastPage id size = .ok ⌈((size - o.skip : ℤ) : ℚ) / (o.paginate : ℚ)⌉ := by
  have hpos : (0 : ℚ) < o.paginate := by exact_mod_cast hpaginate
  rw [lastPage, int_of_range hlow hhigh]
  dsimp only [bind, Except.bind]
  rw [ceilDiv_id (by omega)]
  refine int_of_range (Int.le_ceil_iff.mpr ?_) (Int.ceil_le.mpr ?_)
  · rw [lt_div_iff₀ hpos]
    norm_cast
    omega
  · rw [div_le_iff₀ hpos]
    norm_cast
    omega

end Request

namespace Response

section Matching

variable {m : Type → Type} [Monad m] [MonadLiftT Result m] (ops : Lookups m) (site : Site)
  (o : Request)

/-- The nodes that match, given the unique values found before them. -/
def matchingFrom : List String → List XmlNode → m (List XmlNode)
  | _, [] => pure []
  | uniqueFound, node :: nodes => do
    let (matched, uniqueFound) ← nodeMatch ops site o uniqueFound node
    let rest ← matchingFrom uniqueFound nodes
    pure (if matched then node :: rest else rest)

/-- The nodes that pass the filter and are the first with their unique value. -/
def matching (nodes : List XmlNode) : m (List XmlNode) := matchingFrom ops site o [] nodes

end Matching

variable {ops : Lookups Result} {rt : Runtime} {site : Site} {o : Request}

/-- A matching node, or not, and then the rest. -/
theorem matchingFrom_cons {uniqueFound : List String} {node : XmlNode} {nodes matched : List XmlNode}
    (h : matchingFrom ops site o uniqueFound (node :: nodes) = .ok matched) :
    ∃ b found rest, nodeMatch ops site o uniqueFound node = .ok (b, found) ∧
      matchingFrom ops site o found nodes = .ok rest ∧
      matched = if b then node :: rest else rest := by
  rw [matchingFrom, bind_eq_ok] at h
  obtain ⟨⟨b, found⟩, hb, h⟩ := h
  obtain ⟨rest, hrest, h⟩ := bind_eq_ok.mp h
  exact ⟨b, found, rest, hb, hrest, (pure_eq_ok.mp h).symm⟩

theorem matchingFrom_sublist : ∀ {nodes matched : List XmlNode} {uniqueFound : List String},
    matchingFrom ops site o uniqueFound nodes = .ok matched → matched.Sublist nodes
  | [], matched, _, h => by
      obtain rfl := pure_eq_ok.mp h
      exact List.Sublist.refl _
  | node :: nodes, matched, _, h => by
      obtain ⟨b, found, rest, -, hrest, rfl⟩ := matchingFrom_cons h
      have ih := matchingFrom_sublist hrest
      cases b with
      | true => exact ih.cons_cons node
      | false => exact ih.cons node

/-- Without filter and `unique`, every node matches. -/
theorem nodeMatch_plain (hplain : (o.filter || o.unique) = false) (uniqueFound : List String)
    (node : XmlNode) : nodeMatch ops site o uniqueFound node = .ok (true, uniqueFound) := by
  rw [Bool.or_eq_false_iff] at hplain
  rw [nodeMatch, hplain.1, hplain.2]
  rfl

theorem matchingFrom_plain (hplain : (o.filter || o.unique) = false) :
    ∀ (nodes : List XmlNode) (uniqueFound : List String),
      matchingFrom ops site o uniqueFound nodes = .ok nodes
  | [], _ => rfl
  | node :: nodes, uniqueFound => by
      rw [matchingFrom, nodeMatch_plain hplain]
      dsimp only [bind, Except.bind]
      rw [matchingFrom_plain hplain nodes uniqueFound]
      rfl

/-! ### The loop that filters -/

/-- The variables of the loop once the contexts `seen` have matched. -/
structure Tally.Counts (w : Request.Window) (seen : List NodeId) (t : Tally) : Prop where
  total : t.total = seen.length
  skipped : t.skipped = min w.start seen.length
  included : t.included = t.contexts.length
  contexts : t.contexts = slice w.start.toNat (w.stop - w.start).toNat seen

/-- One node: the three branches of the loop keep the counts. -/
theorem tallyNode_counts {w : Request.Window} (hw : 0 ≤ w.start) {t : Tally} {seen : List NodeId}
    (ht : t.Counts w seen) {found : List String} {node : XmlNode} {c : NodeId} {b : Bool}
    (hc : Query.privateOf site node = .ok (some c))
    (hb : nodeMatch ops site o t.uniqueFound node = .ok (b, found)) :
    ∃ t', tallyNode ops site o w t node = .ok t' ∧ t'.uniqueFound = found ∧
      t'.Counts w (if b then seen ++ [c] else seen) := by
  rw [tallyNode, hb]
  dsimp only [bind, Except.bind]
  cases b with
  | false => exact ⟨_, rfl, rfl, ht.total, ht.skipped, ht.included, ht.contexts⟩
  | true =>
    have hgrow := slice_concat w.start.toNat (w.stop - w.start).toNat seen c
    have hlen : t.included = min (w.stop - w.start).toNat (seen.length - w.start.toNat) := by
      rw [ht.included, ht.contexts, length_slice]
    have htotal : t.total + 1 = (seen ++ [c]).length := by simp [ht.total]
    have hskipped := ht.skipped
    simp only [Bool.not_true, Bool.false_eq_true, if_false, if_true]
    by_cases hskip : t.skipped < w.start
    · rw [if_pos hskip]
      refine ⟨_, rfl, rfl, htotal, ?_, ht.included, ?_⟩
      · rw [List.length_append, List.length_singleton]
        dsimp only
        omega
      · rw [hgrow, if_neg (by omega)]
        exact ht.contexts
    · rw [if_neg hskip]
      have hskipped' : t.skipped = min w.start ((seen ++ [c]).length : ℕ) := by
        rw [List.length_append, List.length_singleton]
        omega
      by_cases hroom : t.included + t.skipped < w.stop
      · rw [if_pos hroom, hc]
        refine ⟨_, rfl, rfl, htotal, hskipped', ?_, ?_⟩
        · simp [ht.included]
        · rw [hgrow, if_pos (by omega), ← ht.contexts]
      · rw [if_neg hroom]
        refine ⟨_, rfl, rfl, htotal, hskipped', ht.included, ?_⟩
        rw [hgrow, if_neg (by omega)]
        exact ht.contexts

/-- The whole loop. -/
theorem tally_counts {w : Request.Window} (hw : 0 ≤ w.start) {ctx : XmlNode → NodeId} :
    ∀ {nodes matched : List XmlNode} {t : Tally} {seen : List NodeId},
      (∀ node ∈ nodes, Query.privateOf site node = .ok (some (ctx node))) → t.Counts w seen →
      matchingFrom ops site o t.uniqueFound nodes = .ok matched →
      ∃ t', nodes.foldlM (tallyNode ops site o w) t = .ok t' ∧
        t'.Counts w (seen ++ matched.map ctx)
  | [], matched, t, seen, _, ht, hmatch => by
      obtain rfl := pure_eq_ok.mp hmatch
      exact ⟨t, rfl, by simpa using ht⟩
  | node :: nodes, matched, t, seen, hctx, ht, hmatch => by
      obtain ⟨b, found, rest, hb, hrest, rfl⟩ := matchingFrom_cons hmatch
      obtain ⟨hnode, hnodes⟩ := List.forall_mem_cons.mp hctx
      obtain ⟨t₁, ht₁, rfl, hcounts⟩ := tallyNode_counts hw ht hnode hb
      obtain ⟨t', ht', hcounts'⟩ := tally_counts hw hnodes hcounts hrest
      refine ⟨t', ?_, ?_⟩
      · rw [List.foldlM_cons, ht₁]
        exact ht'
      · cases b <;> simpa using hcounts'

/-! ### The loop that does not filter -/

theorem pushNodes {nodes : Query} {ctx : XmlNode → NodeId}
    (hctx : ∀ node ∈ nodes, Query.privateOf site node = .ok (some (ctx node))) :
    ∀ (count start : ℕ) (contexts : List NodeId), start + count ≤ max start nodes.length →
      (List.range' start count).foldlM (pushNode site nodes) contexts =
        .ok (contexts ++ slice start count (nodes.map ctx))
  | 0, start, contexts, _ => by simp [slice, pure, Except.pure]
  | count + 1, start, contexts, h => by
      have hin : start < nodes.length := by omega
      have hpush : pushNode site nodes contexts start = .ok (contexts ++ [ctx nodes[start]]) := by
        rw [pushNode, Query.getNode, List.getElem?_eq_getElem hin]
        dsimp only [deref, bind, Except.bind]
        rw [hctx _ (List.getElem_mem hin)]
        rfl
      have hslice : slice start (count + 1) (nodes.map ctx) =
          ctx nodes[start] :: slice (start + 1) count (nodes.map ctx) := by
        rw [slice, List.drop_eq_getElem_cons (by simpa using hin), List.take_succ_cons,
          List.getElem_map, slice]
      rw [List.range'_succ, List.foldlM_cons, hpush]
      dsimp only [bind, Except.bind]
      rw [pushNodes hctx count (start + 1) _ (by omega), hslice, List.append_assoc]
      rfl

/-! ### What is returned -/

/-- What a query finds before anything is cut: the nodes, each with a Context; those that match; and
    the contexts of these in the requested order. -/
structure Gathered (ops : Lookups Result) (rt : Runtime) (site : Site) (o : Request)
    (context : Option NodeId) (q : String) (nodes : Query) (ctx : XmlNode → NodeId)
    (matched : List XmlNode) (ordered : List NodeId) : Prop where
  fetched : ops.fetch_query context q = .ok nodes
  contexts : ∀ node ∈ nodes, Query.privateOf site node = .ok (some (ctx node))
  matching : matching ops site o nodes = .ok matched
  sortType : o.sortType ≠ .shuffle
  ordering : orderContexts ops rt site id o (matched.map ctx) = .ok ordered

/-- The same, with exact arithmetic on `float`. -/
structure Found (ops : Lookups Result) (rt : Runtime) (site : Site) (o : Request)
    (context : Option NodeId) (q : String) (nodes : Query) (ctx : XmlNode → NodeId)
    (matched : List XmlNode) (ordered : List NodeId) : Prop
    extends Gathered ops rt site o context q nodes ctx matched ordered where
  float : rt.float = id

theorem orderContexts_shuffle (hsort : o.sortType ≠ .shuffle) (shuffle : List NodeId → List NodeId)
    (contexts : List NodeId) :
    orderContexts ops rt site shuffle o contexts = orderContexts ops rt site id o contexts := by
  rw [orderContexts, orderContexts]
  split
  · rfl
  · rfl
  · next h => exact absurd h hsort
  · rfl

theorem orderContexts_length {shuffle : List NodeId → List NodeId} {contexts ordered : List NodeId}
    (hsort : o.sortType ≠ .shuffle)
    (h : orderContexts ops rt site shuffle o contexts = .ok ordered) :
    ordered.length = contexts.length := by
  rw [orderContexts] at h
  split at h
  · rw [← pure_eq_ok.mp h]
  · rw [← pure_eq_ok.mp h, List.length_reverse]
  · next hshuffle => exact absurd hshuffle hsort
  · rw [sortContexts, bind_eq_ok] at h
    obtain ⟨order, -, h⟩ := h
    obtain ⟨order, -, h⟩ := bind_eq_ok.mp h
    rw [← pure_eq_ok.mp h, List.length_ofFn]

section Slices

variable {context : Option NodeId} {q : String} {nodes matched : List XmlNode}
  {ctx : XmlNode → NodeId} {ordered : List NodeId}

theorem collect_slice {w : Request.Window}
    (hctx : ∀ node ∈ nodes, Query.privateOf site node = .ok (some (ctx node)))
    (hmatch : matching ops site o nodes = .ok matched) (hstart : 0 ≤ w.start)
    (hstop : w.stop ≤ nodes.length) :
    collect ops site o w nodes =
      .ok ⟨slice w.start.toNat (w.stop - w.start).toNat (matched.map ctx), matched.length⟩ := by
  rw [collect]
  split
  · have hnone : Tally.Counts w [] {} :=
      ⟨rfl, (min_eq_right hstart).symm, rfl, by simp [slice]⟩
    obtain ⟨t, ht, hcounts⟩ := tally_counts hstart hctx hnone hmatch
    rw [ht]
    dsimp only [bind, Except.bind]
    rw [hcounts.contexts, hcounts.total]
    simp [pure, Except.pure]
  · next hplain =>
    rw [Bool.not_eq_true] at hplain
    obtain rfl : nodes = matched :=
      Except.ok.inj ((matchingFrom_plain hplain nodes []).symm.trans hmatch)
    rw [pushNodes hctx _ _ _ (by omega)]
    rfl

/-- Whatever the order, and with or without a filter: what is returned is a slice of the matching
    contexts in the requested order. -/
theorem query_slice (h : Gathered ops rt site o context q nodes ctx matched ordered)
    {w : Request.Window} (hw : o.window rt.float nodes.length = .ok w)
    (shuffle : List NodeId → List NodeId) :
    query ops rt site shuffle o context q =
      .ok ⟨slice w.skip.toNat w.paginate.toNat ordered, matched.length⟩ := by
  obtain ⟨page, -, hof⟩ := Request.window_eq_ok hw
  have hskip := hof.skip
  have hpaginate := hof.paginate
  have hstart := hof.start
  have hstop := hof.stop
  have hfew : (matched.map ctx).length ≤ nodes.length := by
    rw [List.length_map]
    exact (matchingFrom_sublist h.matching).length_le
  have hcollect := collect_slice (w := w) h.contexts h.matching
    (by rw [hstart]; split <;> omega) (by rw [hstop]; split <;> omega)
  have hsize : o.window rt.float (Query.getSize nodes) = .ok w := hw
  rw [query, h.fetched]
  dsimp only [bind, Except.bind]
  rw [hsize]
  dsimp only [liftM, monadLift, MonadLift.monadLift, MonadLiftT.monadLift]
  rw [hcollect]
  dsimp only
  rw [orderContexts_shuffle h.sortType]
  by_cases hsort : o.sortType = .none
  · -- cut while collecting
    have hordered : ordered = matched.map ctx := by
      have := h.ordering
      rw [orderContexts, hsort] at this
      exact (pure_eq_ok.mp this).symm
    rw [if_pos hsort] at hstart hstop
    have hcut : slice w.start.toNat (w.stop - w.start).toNat (matched.map ctx) =
        slice w.skip.toNat w.paginate.toNat ordered := by
      have hcount : (w.stop - w.start).toNat =
          min (w.skip.toNat + w.paginate.toNat) nodes.length - w.skip.toNat := by omega
      rw [hordered, hcount, hstart, slice_min hfew]
    rw [orderContexts, hsort, hcut]
    dsimp only [pure, Except.pure]
    rw [cut, if_pos hsort]
  · -- collected whole, cut after sorting
    rw [if_neg hsort] at hstart hstop
    have hwhole : slice w.start.toNat (w.stop - w.start).toNat (matched.map ctx) =
        matched.map ctx := by
      rw [hstart, hstop, slice_of_length_le (by omega)]
      rfl
    rw [hwhole, h.ordering]
    dsimp only [pure, Except.pure]
    rw [cut, if_neg hsort]
    rfl

/-! ### Pages tile the result -/

/-- Which nodes match does not depend on the page. -/
theorem matchingFrom_page (page : ℤ) : ∀ (nodes : List XmlNode) (uniqueFound : List String),
    matchingFrom ops site { o with page := page } uniqueFound nodes =
      matchingFrom ops site o uniqueFound nodes
  | [], _ => rfl
  | node :: nodes, uniqueFound => by
      rw [matchingFrom, matchingFrom]
      have hnode : nodeMatch ops site { o with page := page } uniqueFound node =
        nodeMatch ops site o uniqueFound node := rfl
      rw [hnode]
      congr 1
      funext ⟨matched, found⟩
      dsimp only
      rw [matchingFrom_page page nodes found]

/-- Another page of the same result. -/
theorem Found.withPage (h : Found ops rt site o context q nodes ctx matched ordered) (page : ℤ) :
    Found ops rt site { o with page := page } context q nodes ctx matched ordered :=
  ⟨⟨h.fetched, h.contexts, (matchingFrom_page page nodes []).trans h.matching, h.sortType,
    h.ordering⟩, h.float⟩

theorem query_pageOf (h : Found ops rt site o context q nodes ctx matched ordered)
    (hgroups : o.groups = 0) (hskip : 0 ≤ o.skip) (hpaginate : 1 ≤ o.paginate) {k : ℤ} (hk : 1 ≤ k)
    (hrange : o.skip + k * o.paginate < 2147483648) (shuffle : List NodeId → List NodeId) :
    query ops rt site shuffle { o with page := k } context q =
      .ok ⟨o.pageOf k ordered, matched.length⟩ := by
  have hmax : max 1 k = k := by omega
  have hchosen : (if k = -1 then
      Request.lastPage rt.float { o with page := k } nodes.length else pure k) = .ok k := by
    rw [if_neg (by omega)]
    rfl
  obtain ⟨w, hw, hwskip, hwpaginate⟩ :=
    Request.window_number (o := { o with page := k }) hgroups hchosen hskip hpaginate
      (by rw [hmax]; exact hrange)
  rw [query_slice (h.withPage k).toGathered hw, hwskip, hwpaginate, hmax]
  rfl

/-- The last page, by the number of nodes found. -/
theorem query_lastPage (h : Found ops rt site o context q nodes ctx matched ordered)
    (hgroups : o.groups = 0) (hskip : 0 ≤ o.skip) (hpaginate : 1 ≤ o.paginate)
    (hsize : nodes.length < 16777216) {last : ℤ}
    (hrange : o.skip + max 1 last * o.paginate < 2147483648)
    (hlast : last = ⌈((nodes.length - o.skip : ℤ) : ℚ) / (o.paginate : ℚ)⌉)
    (shuffle : List NodeId → List NodeId) :
    query ops rt site shuffle { o with page := -1 } context q =
      .ok ⟨o.pageOf (max 1 last) ordered, matched.length⟩ := by
  have hcount : 0 ≤ max 1 last * o.paginate := mul_nonneg (by omega) (by omega)
  have hchosen : (if (-1 : ℤ) = -1 then
      Request.lastPage rt.float { o with page := -1 } nodes.length else pure (-1)) = .ok last := by
    rw [if_pos rfl, h.float, hlast]
    exact Request.lastPage_exact hpaginate (by dsimp only; omega) (by dsimp only; omega)
  obtain ⟨w, hw, hwskip, hwpaginate⟩ :=
    Request.window_number (o := { o with page := -1 }) hgroups hchosen hskip hpaginate hrange
  rw [query_slice (h.withPage (-1)).toGathered hw, hwskip, hwpaginate]
  rfl

/-- CORRECT: without groups, page `k` is the `k`-th piece of length `paginate` of the matching
    contexts in the requested order, after the first `skip`. Pages one after another give that list
    back, the total is the same on every page, and `last()` is the last page that is not empty. -/
theorem query_pages_tile (h : Found ops rt site o context q nodes ctx matched ordered)
    (hgroups : o.groups = 0) (hskip : 0 ≤ o.skip) (hpaginate : 1 ≤ o.paginate)
    (hsize : nodes.length < 16777216) (shuffle : ℤ → List NodeId → List NodeId) :
    (∀ k : ℤ, 1 ≤ k → o.skip + k * o.paginate < 2147483648 →
      query ops rt site (shuffle k) { o with page := k } context q =
        .ok ⟨slice (o.skip + (k - 1) * o.paginate).toNat o.paginate.toNat ordered,
          matched.length⟩) ∧
    (∀ k : ℕ, o.skip + k * o.paginate < 2147483648 → ∃ pages,
      ((List.range k).mapM fun j : ℕ =>
        query ops rt site (shuffle (j + 1)) { o with page := j + 1 } context q) = .ok pages ∧
      (∀ page ∈ pages, page.total = matched.length) ∧
      pages.flatMap ResponseContext.contexts =
        (ordered.drop o.skip.toNat).take (k * o.paginate.toNat) ∧
      ((ordered.length : ℤ) ≤ o.skip + k * o.paginate →
        pages.flatMap ResponseContext.contexts = ordered.drop o.skip.toNat)) ∧
    ((o.filter || o.unique) = false → ∃ last, o.IsLastPage ordered last ∧
      (o.skip + last * o.paginate < 2147483648 →
        query ops rt site (shuffle (-1)) { o with page := -1 } context q =
          query ops rt site (shuffle last) { o with page := last } context q)) := by
  have hpage := fun {k : ℤ} => query_pageOf (k := k) h hgroups hskip hpaginate
  have hstart : ∀ j : ℕ, (o.skip + (j : ℤ) * o.paginate).toNat =
      o.skip.toNat + j * o.paginate.toNat := fun j => by
    rw [Int.toNat_add hskip (by positivity), Int.toNat_mul (by omega) (by omega), Int.toNat_natCast]
  refine ⟨fun k hk hrange => hpage hk hrange _, fun k hrange => ?_, fun hplain => ?_⟩
  · refine ⟨(List.range k).map fun j : ℕ => ⟨o.pageOf (j + 1) ordered, matched.length⟩, ?_, ?_, ?_⟩
    · rw [mapM_eq_ok, List.forall₂_map_right_iff, List.forall₂_same]
      intro j hj
      refine hpage (by omega) (lt_of_le_of_lt ?_ hrange) _
      have hmono : ((j : ℤ) + 1) * o.paginate ≤ k * o.paginate :=
        mul_le_mul_of_nonneg_right (by have := List.mem_range.mp hj; omega) (by omega)
      omega
    · simp
    · have htile : ((List.range k).map fun j : ℕ =>
          (⟨o.pageOf (j + 1) ordered, matched.length⟩ : ResponseContext)).flatMap
            ResponseContext.contexts = slice o.skip.toNat (k * o.paginate.toNat) ordered := by
        rw [List.flatMap_map, ← slices_tile]
        refine List.flatMap_congr fun j _ => ?_
        rw [Request.pageOf, add_sub_cancel_right, hstart]
      refine ⟨htile, fun hall => ?_⟩
      have hcover := hstart k
      rw [htile, slice_of_length_le (by omega)]
  · obtain rfl : nodes = matched :=
      Except.ok.inj ((matchingFrom_plain hplain nodes []).symm.trans h.matching)
    have hlength : ordered.length = nodes.length := by
      rw [orderContexts_length h.sortType h.ordering, List.length_map]
    have hlast := (Request.isLastPage_ceil (l := ordered) hskip hpaginate).mpr rfl
    rw [hlength] at hlast
    refine ⟨_, hlast, fun hrange => ?_⟩
    rw [hpage hlast.pos hrange]
    exact query_lastPage h hgroups hskip hpaginate hsize hrange rfl _

end Slices

/-! ### The sample feed -/

/-- A production site with the two pages of the sample feed, items 1 and 3. -/
def sampleSite : Site :=
  ((Site.blank "shop" false []).loadXmlDoc sampleLib "feed").toOption.getD (Site.blank "shop" false [])

def sampleRuntime : Runtime := ⟨sampleLib, fun _ => .done (Equiv.refl _), id⟩

def samplePages : List XmlNode := [.node (.parsed [0, 0, 0]), .node (.parsed [2, 0, 0])]

def sampleCtx : XmlNode → NodeId
  | .node n => n
  | .attr _ => .parsed []

/-- Both pages, the second one first. -/
theorem sample_found : Found (Lookups.fresh sampleLib sampleSite) sampleRuntime sampleSite
    { paginate := 1, sortType := .reverse } none "page" samplePages sampleCtx samplePages
    [.parsed [2, 0, 0], .parsed [0, 0, 0]] where
  float := rfl
  fetched := by decide +kernel
  contexts := by decide +kernel
  matching := by decide +kernel
  sortType := by decide
  ordering := rfl

theorem query_pages_tile_sample : ∃ pages,
    ((List.range 2).mapM fun j : ℕ =>
      query (Lookups.fresh sampleLib sampleSite) sampleRuntime sampleSite id
        { paginate := 1, sortType := .reverse, page := j + 1 } none "page") = .ok pages ∧
    pages.flatMap ResponseContext.contexts = [.parsed [2, 0, 0], .parsed [0, 0, 0]] := by
  obtain ⟨-, htile, -⟩ :=
    query_pages_tile sample_found rfl (by decide) (by decide) (by decide) fun _ => id
  obtain ⟨pages, hpages, -, -, hall⟩ := htile 2 (by decide)
  exact ⟨pages, hpages, hall (by decide)⟩

end Response

end VaeDb
