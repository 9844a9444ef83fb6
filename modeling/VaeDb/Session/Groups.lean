import VaeDb.Session.Paging

/-! Groups: the result shared out over a number of pages.

    Every page runs the loop over the groups again up to its own group: what the groups before have
    left is divided by the number of groups still to come, rounded up. The pages are computed
    independently, and still meet: group j starts where group j - 1 ends.

        10 items, skip 1, 4 groups     . │ b c d │ e f │ g h │ i j │

    A group without items is asked for one item all the same, but it starts at the end. -/

namespace VaeDb
open Schemes Xml

namespace Request

/-! ### Positions

    Groups share the items after the first `skip` evenly, and the first groups take one more where
    the division leaves a rest. -/

/-- Group `j`, counted from 0. -/
def groupAt (o : Request) (size j : ℤ) : Page where
  skip := o.skip + j * ((size - o.skip) / o.groups) +
    if 0 < o.groups then min j ((size - o.skip) % o.groups) else 0
  paginate := (size - o.skip) / o.groups +
    if 0 < o.groups ∧ j < (size - o.skip) % o.groups then 1 else 0

theorem groupAt_next (o : Request) (size : ℤ) {j : ℤ} (hgroups : o.groups ≠ 0) :
    (o.groupAt size j).skip + (o.groupAt size j).paginate = (o.groupAt size (j + 1)).skip := by
  have hrest := Int.emod_nonneg (size - o.skip) hgroups
  have hstep : (j + 1) * ((size - o.skip) / o.groups) =
    j * ((size - o.skip) / o.groups) + (size - o.skip) / o.groups := by ring
  simp only [groupAt, hstep]
  split <;> split <;> omega

/-- Rounding up a quotient, by what the division leaves. -/
theorem ceil_div_eq {a d q r : ℤ} (ha : a = d * q + r) (hd : d ≠ 0) (hr : 0 ≤ r) (hlt : r < |d|) :
    ⌈(a : ℚ) / (d : ℚ)⌉ = q + if 0 < d ∧ 0 < r then 1 else 0 := by
  have hquot : (a : ℚ) / d = q + r / d := by
    have hd' : (d : ℚ) ≠ 0 := by exact_mod_cast hd
    rw [ha]
    push_cast
    field_simp
  rw [hquot, Int.ceil_intCast_add]
  congr 1
  rcases lt_or_gt_of_ne hd with hneg | hpos
  · have hd' : (d : ℚ) < 0 := by exact_mod_cast hneg
    rw [if_neg (by omega), Int.ceil_eq_iff]
    have hlt' : (r : ℚ) < -d := by
      rw [abs_of_neg hneg] at hlt
      exact_mod_cast hlt
    constructor
    · rw [lt_div_iff_of_neg hd']
      push_cast
      linarith
    · rw [Int.cast_zero]
      exact div_nonpos_of_nonneg_of_nonpos (by exact_mod_cast hr) hd'.le
  · have hd' : (0 : ℚ) < d := by exact_mod_cast hpos
    rw [abs_of_pos hpos] at hlt
    split
    · rw [Int.ceil_eq_iff]
      constructor
      · have hr' : (0 : ℚ) < r := by exact_mod_cast (by omega : 0 < r)
        rw [lt_div_iff₀ hd']
        push_cast
        linarith
      · rw [div_le_iff₀ hd']
        norm_cast
        omega
    · obtain rfl : r = 0 := by omega
      simp

/-- One round of the loop over the groups computes the length of its group. -/
theorem ceil_group (o : Request) (size : ℤ) {j : ℤ} (hj : 0 ≤ j)
    (hgroups : o.groups < 0 ∨ j < o.groups) :
    ⌈((size - (o.groupAt size j).skip : ℤ) : ℚ) / ((o.groups - j : ℤ) : ℚ)⌉ =
      (o.groupAt size j).paginate := by
  have hrest := Int.emod_nonneg (size - o.skip) (b := o.groups) (by omega)
  have hless := Int.emod_lt_abs (size - o.skip) (b := o.groups) (by omega)
  have hdiv : o.groups * ((size - o.skip) / o.groups) + (size - o.skip) % o.groups =
    size - o.skip := Int.mul_ediv_add_emod ..
  have hshare : (o.groups - j) * ((size - o.skip) / o.groups) =
    o.groups * ((size - o.skip) / o.groups) - j * ((size - o.skip) / o.groups) := by ring
  rw [groupAt]
  dsimp only
  rcases hgroups with hneg | hpos
  · rw [if_neg (by omega), if_neg (by omega)]
    rw [abs_of_neg hneg] at hless
    rw [ceil_div_eq (q := (size - o.skip) / o.groups) (r := (size - o.skip) % o.groups)
      (by omega) (by omega) hrest (by rw [abs_of_neg (by omega)]; omega), if_neg (by omega)]
  · rw [if_pos (by omega)]
    rw [abs_of_pos (by omega)] at hless
    rw [ceil_div_eq (q := (size - o.skip) / o.groups)
      (r := (size - o.skip) % o.groups - min j ((size - o.skip) % o.groups))
      (by omega) (by omega) (by omega) (by rw [abs_of_pos (by omega)]; omega)]
    congr 1
    split <;> split <;> omega

variable {o : Request} {size j : ℤ}

/-! ### Bounds -/

/-- All groups lie between the skipped items and the end. -/
theorem groupAt_between (hgroups : 1 ≤ o.groups) (hj : 0 ≤ j) (hle : j ≤ o.groups) :
    min o.skip size ≤ (o.groupAt size j).skip ∧ (o.groupAt size j).skip ≤ max o.skip size := by
  have hrest := Int.emod_nonneg (size - o.skip) (b := o.groups) (by omega)
  have hless := Int.emod_lt_of_pos (size - o.skip) (b := o.groups) (by omega)
  have hdiv : o.groups * ((size - o.skip) / o.groups) + (size - o.skip) % o.groups =
    size - o.skip := Int.mul_ediv_add_emod ..
  rw [groupAt]
  dsimp only
  rw [if_pos (by omega)]
  generalize (size - o.skip) / o.groups = q at *
  generalize (size - o.skip) % o.groups = r at *
  rcases le_or_gt 0 q with hq | hq
  · have hlow : 0 ≤ j * q := mul_nonneg hj hq
    have hhigh : j * q ≤ o.groups * q := mul_le_mul_of_nonneg_right hle hq
    omega
  · have hlow : (o.groups - j) * q ≤ (o.groups - j) * (-1) :=
      mul_le_mul_of_nonneg_left (by omega) (by omega)
    have hhigh : j * q ≤ j * (-1) := mul_le_mul_of_nonneg_left (by omega) hj
    have hsplit : (o.groups - j) * q = o.groups * q - j * q := by ring
    omega

/-- Past the end no group has an item; before it, a group without items starts at the end. -/
theorem groupAt_empty (hgroups : 1 ≤ o.groups) (hj : 0 ≤ j) (hlt : j < o.groups) :
    (o.skip < size → 0 ≤ (o.groupAt size j).paginate ∧
      ((o.groupAt size j).paginate = 0 → (o.groupAt size j).skip = size)) ∧
    (size ≤ o.skip → size ≤ (o.groupAt size j).skip) := by
  constructor
  · intro hskip
    have hrest := Int.emod_nonneg (size - o.skip) (b := o.groups) (by omega)
    have hless := Int.emod_lt_of_pos (size - o.skip) (b := o.groups) (by omega)
    have hdiv : o.groups * ((size - o.skip) / o.groups) + (size - o.skip) % o.groups =
      size - o.skip := Int.mul_ediv_add_emod ..
    have hquot : 0 ≤ (size - o.skip) / o.groups := Int.ediv_nonneg (by omega) (by omega)
    rw [groupAt]
    dsimp only
    rw [if_pos (by omega : 0 < o.groups)]
    generalize (size - o.skip) / o.groups = q at *
    generalize (size - o.skip) % o.groups = r at *
    refine ⟨by split <;> omega, ?_⟩
    intro hzero
    obtain rfl : q = 0 := by
      split at hzero <;> omega
    rw [Int.mul_zero] at *
    split at hzero <;> omega
  · intro hskip
    have h := (@groupAt_between o size _ hgroups hj hlt.le).1
    omega

/-- Options and size that are values of type `int`, with groups to share out. -/
structure Shares (o : Request) (size : ℤ) : Prop where
  groups : 1 ≤ o.groups
  groups_int : o.groups ≤ 2147483647
  skip : 0 ≤ o.skip
  skip_int : o.skip ≤ 2147483647
  size_nonneg : 0 ≤ size
  size_int : size < 2147483647

/-- One round: it computes its group, and nothing leaves the range of an `int`. -/
theorem groupPage_next (h : o.Shares size) {n : ℕ} {before : Page} (hj : 0 ≤ j)
    (hlt : j < o.groups)
    (hbefore : (if 0 < j then before.skip + before.paginate else before.skip) =
      (o.groupAt size j).skip) :
    groupPage id o.groups size (n + 1) j before =
      groupPage id o.groups size n (j + 1) (o.groupAt size j) := by
  obtain ⟨hgroups, hmax, hskip, hskip', hsize, hsize'⟩ := h
  have hthis := @groupAt_between o size _ hgroups hj hlt.le
  have hnext := @groupAt_between o size _ hgroups (by omega) (by omega : j + 1 ≤ o.groups)
  have hstep := groupAt_next o size (j := j) (by omega)
  have hskips : (if 0 < j then int (before.skip + before.paginate) else pure before.skip) =
      .ok (o.groupAt size j).skip := by
    split
    · next hpos =>
      rw [if_pos hpos] at hbefore
      rw [hbefore, int_of_range (by omega) (by omega)]
    · next hpos =>
      rw [if_neg hpos] at hbefore
      rw [hbefore]
      rfl
  rw [groupPage, hskips]
  dsimp only [bind, Except.bind]
  rw [int_of_range (by omega) (by omega)]
  dsimp only
  rw [int_of_range (by omega) (by omega)]
  dsimp only
  rw [ceilDiv_id (by omega), ceil_group o size hj (.inr hlt), int_of_range (by omega) (by omega)]

/-- The loop arrives at the group that is asked for. -/
theorem groupPage_reaches (h : o.Shares size) {n : ℕ} {before : Page} (hj : 0 ≤ j)
    (hlast : j + n < o.groups)
    (hbefore : (if 0 < j then before.skip + before.paginate else before.skip) =
      (o.groupAt size j).skip) :
    groupPage id o.groups size (n + 1) j before = .ok (o.groupAt size (j + n)) := by
  induction n generalizing j before with
  | zero =>
    rw [groupPage_next h hj (by omega) hbefore, groupPage, Int.natCast_zero, add_zero]
    rfl
  | succ n ih =>
    rw [groupPage_next h hj (by omega) hbefore, ih (by omega) (by omega)]
    · congr 1
      push_cast
      ring_nf
    · rw [if_pos (by omega), groupAt_next o size (by have := h.groups; omega)]

theorem groupAt_zero (o : Request) (size : ℤ) (hgroups : 1 ≤ o.groups) :
    (o.groupAt size 0).skip = o.skip := by
  have hrest := Int.emod_nonneg (size - o.skip) (b := o.groups) (by omega)
  rw [groupAt]
  dsimp only
  split <;> omega

/-- Page `k` is group `k - 1`. -/
theorem choosePage_group (h : o.Shares size) {k : ℕ} (hk : (k : ℤ) < o.groups) :
    choosePage id { o with page := k + 1 } size = .ok (o.groupAt size k) := by
  have hgroups := h.groups
  have hfirst : (if (k : ℤ) + 1 ≤ 0 then 1 else (k : ℤ) + 1) = k + 1 := if_neg (by omega)
  have hcount : ((k : ℤ) + 1).toNat = k + 1 := by omega
  rw [choosePage, if_pos (by dsimp only; omega)]
  dsimp only
  rw [hfirst, hcount, groupPage_reaches h le_rfl (by omega), zero_add]
  rw [if_neg (lt_irrefl _), groupAt_zero o size hgroups]

/-- No `int` overflows: only the end of an unordered page can. -/
def Reaches (o : Request) : Prop := o.sortType = .none → o.skip < 2147483647

/-- The window of a group. -/
theorem window_group (h : o.Shares size) (hreach : o.Reaches) {k : ℕ} (hk : (k : ℤ) < o.groups) :
    ∃ w, window id { o with page := k + 1 } size = .ok w ∧
      w.skip = max 0 (o.groupAt size k).skip ∧ w.paginate = max 1 (o.groupAt size k).paginate := by
  have hgroups := h.groups
  have hskip := h.skip
  have hsize := h.size_int
  have hnonneg := h.size_nonneg
  have hthis := @groupAt_between o size _ hgroups (Int.natCast_nonneg k) hk.le
  have hnext := @groupAt_between o size _ hgroups (by omega) (by omega : (k : ℤ) + 1 ≤ o.groups)
  have hstep := groupAt_next o size (j := k) (by omega)
  obtain ⟨w, hw, hof⟩ := window_of_page (choosePage_group h hk) fun hsort => by
    have hend := hreach hsort
    omega
  exact ⟨w, hw, hof.skip, hof.paginate⟩

end Request

namespace Response

variable {ops : Lookups Result} {rt : Runtime} {site : Site} {o : Request}
  {context : Option NodeId} {q : String} {nodes matched : List XmlNode} {ctx : XmlNode → NodeId}
  {ordered : List NodeId}

/-! ### Groups tile the result -/

/-- Where group `k` starts in a list of the given length. -/
def groupStart (o : Request) (length k : ℕ) : ℕ := min length (o.groupAt length k).skip.toNat

/-- How many items group `k` has. -/
def groupSize (o : Request) (length k : ℕ) : ℕ := groupStart o length (k + 1) - groupStart o length k

/-- The starts of the groups, from the skipped items to the end. -/
theorem groupStart_zero (hgroups : 1 ≤ o.groups) (length : ℕ) :
    groupStart o length 0 = min length o.skip.toNat := by
  rw [groupStart, Int.natCast_zero, Request.groupAt_zero o length hgroups]

theorem groupStart_last (hgroups : 1 ≤ o.groups) (length : ℕ) :
    groupStart o length o.groups.toNat = length := by
  have hless := Int.emod_lt_of_pos (length - o.skip) (b := o.groups) (by omega)
  have hdiv : o.groups * ((length - o.skip) / o.groups) + (length - o.skip) % o.groups =
    length - o.skip := Int.mul_ediv_add_emod ..
  rw [groupStart, Int.toNat_of_nonneg (by omega), Request.groupAt]
  dsimp only
  rw [if_pos (by omega)]
  omega

/-- If everything is skipped, all groups start at the end. -/
theorem groupStart_past {length k : ℕ} (hshares : o.Shares length) (hk : (k : ℤ) ≤ o.groups)
    (hpast : (length : ℤ) ≤ o.skip) : groupStart o length k = length := by
  have hlow := (@Request.groupAt_between o length _ hshares.groups (Int.natCast_nonneg k) hk).1
  rw [groupStart]
  omega

/-- Otherwise a group starts where it is asked to. -/
theorem groupStart_before {length k : ℕ} (hshares : o.Shares length) (hk : (k : ℤ) ≤ o.groups)
    (hbefore : o.skip < length) : (groupStart o length k : ℤ) = (o.groupAt length k).skip := by
  obtain ⟨hlow, hhigh⟩ :=
    @Request.groupAt_between o length _ hshares.groups (Int.natCast_nonneg k) hk
  have hskip := hshares.skip
  rw [groupStart]
  omega

theorem groupSize_past {length k : ℕ} (hshares : o.Shares length) (hk : (k : ℤ) < o.groups)
    (hpast : (length : ℤ) ≤ o.skip) : groupSize o length k = 0 := by
  rw [groupSize, groupStart_past hshares hk.le hpast,
    groupStart_past hshares (k := k + 1) (by omega) hpast, Nat.sub_self]

/-- Groups meet, unless everything is skipped. -/
theorem groupStart_next {length k : ℕ} (hshares : o.Shares length) (hk : (k : ℤ) < o.groups)
    (hbefore : o.skip < length) : (groupStart o length (k + 1) : ℤ) =
      groupStart o length k + (o.groupAt length k).paginate := by
  have hgroups := hshares.groups
  rw [groupStart_before hshares hk.le hbefore,
    groupStart_before hshares (k := k + 1) (by omega) hbefore, Int.natCast_succ,
    Request.groupAt_next o length (by omega)]

theorem groupSize_before {length k : ℕ} (hshares : o.Shares length) (hk : (k : ℤ) < o.groups)
    (hbefore : o.skip < length) : (groupSize o length k : ℤ) = (o.groupAt length k).paginate := by
  have hnext := groupStart_next hshares hk hbefore
  have hnonneg := ((@Request.groupAt_empty o length _ hshares.groups (Int.natCast_nonneg k) hk).1
    hbefore).1
  rw [groupSize]
  omega

/-- The number of items of a group, whether or not it is asked for one too many. -/
theorem samePositions_group {length k : ℕ} (hshares : o.Shares length) (hk : (k : ℤ) < o.groups) :
    SamePositions length (max 0 (o.groupAt length k).skip).toNat
      (max 1 (o.groupAt length k).paginate).toNat (groupStart o length k)
      (groupSize o length k) := by
  have hempty := @Request.groupAt_empty o length _ hshares.groups (Int.natCast_nonneg k) hk
  rcases lt_or_ge o.skip length with hlt | hge
  · have hstart := groupStart_before hshares hk.le hlt
    have hsize := groupSize_before hshares hk hlt
    obtain ⟨hpaginate, hzero⟩ := hempty.1 hlt
    rcases Int.lt_or_eq_of_le hpaginate with hpos | heq
    · right
      omega
    · left
      have := hzero heq.symm
      omega
  · left
    rw [groupStart_past hshares hk.le hge]
    have := hempty.2 hge
    omega

/-- What page `k + 1` returns. -/
theorem query_group (h : Found ops rt site o context q nodes ctx matched ordered)
    (hplain : (o.filter || o.unique) = false) (hshares : o.Shares nodes.length)
    (hreach : o.Reaches) {k : ℕ} (hk : (k : ℤ) < o.groups) (shuffle : List NodeId → List NodeId) :
    query ops rt site shuffle { o with page := k + 1 } context q =
      .ok ⟨slice (groupStart o nodes.length k) (groupSize o nodes.length k) ordered,
        nodes.length⟩ := by
  obtain rfl : nodes = matched :=
    Except.ok.inj ((matchingFrom_plain hplain nodes []).symm.trans h.matching)
  have hlength : ordered.length = nodes.length := by
    rw [orderContexts_length h.sortType h.ordering, List.length_map]
  obtain ⟨w, hw, hskip, hpaginate⟩ := Request.window_group hshares hreach hk
  rw [query_slice (h.withPage (k + 1)).toGathered (by rw [h.float]; exact hw), hskip, hpaginate,
    SamePositions.slice_eq (by rw [hlength]; exact samePositions_group hshares hk)]

/-- The sizes of the groups: all empty if everything is skipped, and otherwise the first ones have
    one item more where the division leaves a rest. -/
theorem groupSize_eq {length k : ℕ} (hshares : o.Shares length) (hk : (k : ℤ) < o.groups) :
    (groupSize o length k : ℤ) = if (length : ℤ) ≤ o.skip then 0
      else (length - o.skip) / o.groups + if (k : ℤ) < (length - o.skip) % o.groups then 1 else 0 := by
  have hgroups := hshares.groups
  have hpaginate : (o.groupAt length k).paginate = (length - o.skip) / o.groups +
      if (k : ℤ) < (length - o.skip) % o.groups then 1 else 0 := by
    rw [Request.groupAt]
    simp only [show 0 < o.groups by omega, true_and]
  split
  · next hpast => rw [groupSize_past hshares hk hpast, Int.natCast_zero]
  · next hbefore => rw [groupSize_before hshares hk (lt_of_not_ge hbefore), hpaginate]

theorem groupStart_le {length k : ℕ} (hshares : o.Shares length) (hk : (k : ℤ) < o.groups) :
    groupStart o length k ≤ groupStart o length (k + 1) := by
  rcases lt_or_ge o.skip length with hlt | hge
  · have hnext := groupStart_next hshares hk hlt
    have hnonneg := ((@Request.groupAt_empty o length _ hshares.groups (Int.natCast_nonneg k) hk).1
      hlt).1
    omega
  · rw [groupStart_past hshares hk.le hge, groupStart_past hshares (k := k + 1) (by omega) hge]

theorem length_group {length k : ℕ} (hlength : ordered.length = length) :
    (slice (groupStart o length k) (groupSize o length k) ordered).length = groupSize o length k := by
  have hend : groupStart o length (k + 1) ≤ length := min_le_left _ _
  rw [length_slice, groupSize]
  omega

/-- CORRECT: without a filter, the pages 1 to `groups` give, one after another, the contexts in the
    requested order without the first `skip`. No group is larger than one before it, and no two
    differ by more than one; all are empty if everything is skipped. -/
theorem query_groups_share (h : Found ops rt site o context q nodes ctx matched ordered)
    (hplain : (o.filter || o.unique) = false) (hgroups : 1 ≤ o.groups)
    (hgroups' : o.groups ≤ 2147483647) (hskip : 0 ≤ o.skip) (hskip' : o.skip ≤ 2147483647)
    (hsize : nodes.length < 16777216) (hreach : o.Reaches)
    (shuffle : ℕ → List NodeId → List NodeId) :
    ∃ pages, ((List.range o.groups.toNat).mapM fun k : ℕ =>
        query ops rt site (shuffle k) { o with page := k + 1 } context q) = .ok pages ∧
      pages.length = o.groups.toNat ∧
      pages.flatMap ResponseContext.contexts = ordered.drop o.skip.toNat ∧
      pages.Pairwise (fun p p' =>
        p'.contexts.length ≤ p.contexts.length ∧ p.contexts.length ≤ p'.contexts.length + 1) ∧
      (nodes.length ≤ o.skip → ∀ page ∈ pages, page.contexts = []) := by
  have hshares : o.Shares nodes.length :=
    ⟨hgroups, hgroups', hskip, hskip', by omega, by omega⟩
  have hlength : ordered.length = nodes.length := by
    obtain rfl : nodes = matched :=
      Except.ok.inj ((matchingFrom_plain hplain nodes []).symm.trans h.matching)
    rw [orderContexts_length h.sortType h.ordering, List.length_map]
  have hlt : ∀ {k : ℕ}, k < o.groups.toNat → (k : ℤ) < o.groups := by omega
  refine ⟨(List.range o.groups.toNat).map fun k => ⟨slice (groupStart o nodes.length k)
    (groupSize o nodes.length k) ordered, nodes.length⟩, ?_, by simp, ?_, ?_, ?_⟩
  · rw [mapM_eq_ok, List.forall₂_map_right_iff, List.forall₂_same]
    intro k hk
    exact query_group h hplain hshares hreach (hlt (List.mem_range.mp hk)) _
  · have hmeet := (slices_meet (groupStart o nodes.length) ordered o.groups.toNat
      fun k hk => groupStart_le hshares (hlt hk)).2
    rw [List.flatMap_map]
    refine hmeet.trans ?_
    rw [groupStart_last hgroups, groupStart_zero hgroups, ← hlength, slice_of_length_le (by omega)]
    rcases le_total ordered.length o.skip.toNat with hle | hle
    · rw [min_eq_left hle, List.drop_length, List.drop_of_length_le hle]
    · rw [min_eq_right hle]
  · rw [List.pairwise_map]
    refine List.pairwise_lt_range.imp_of_mem ?_
    intro i j hi hj hij
    have hi' := groupSize_eq hshares (hlt (List.mem_range.mp hi))
    have hj' := groupSize_eq hshares (hlt (List.mem_range.mp hj))
    simp only [length_group hlength]
    split at hi' <;> split at hj' <;> omega
  · intro hall page hpage
    obtain ⟨k, hk, rfl⟩ := List.mem_map.mp hpage
    have hzero := groupSize_eq hshares (hlt (List.mem_range.mp hk))
    rw [if_pos (by omega)] at hzero
    rw [← List.length_eq_zero_iff]
    simp only [length_group hlength]
    omega

theorem sample_groups : Found (Lookups.fresh sampleLib sampleSite) sampleRuntime sampleSite
    { groups := 3, paginate := 1, sortType := .reverse } none "page" samplePages sampleCtx
    samplePages [.parsed [2, 0, 0], .parsed [0, 0, 0]] where
  float := rfl
  fetched := sample_found.fetched
  contexts := sample_found.contexts
  matching := matchingFrom_plain rfl _ _
  sortType := by decide
  ordering := rfl

/-- The two pages of the sample feed in three groups: one each, and an empty one. -/
theorem query_groups_share_sample :
    ∃ pages, ((List.range 3).mapM fun k : ℕ =>
        query (Lookups.fresh sampleLib sampleSite) sampleRuntime sampleSite id
          { groups := 3, paginate := 1, sortType := .reverse, page := k + 1 } none "page") =
        .ok pages ∧
      pages.flatMap ResponseContext.contexts = [.parsed [2, 0, 0], .parsed [0, 0, 0]] := by
  obtain ⟨pages, hpages, -, hall, -, -⟩ := query_groups_share sample_groups rfl (by decide)
    (by decide) (by decide) (by decide) (by decide) (by rintro ⟨⟩) fun _ => id
  exact ⟨pages, hpages, hall⟩

end Response

end VaeDb
