import VaeDb.Session.Paging
import VaeDb.Util.Natural

/-! The comparator of `std::sort`: what `sortCallback` says about two contexts, and what it should.

    Each sort field compares two contexts three ways: ids and counts as integers, data by
    `str_compare_nat`. The first field that is no tie should decide, in its direction; where all
    fields tie, neither comes first. An `id` field however decides also when the ids are equal, and
    a descending one then says that each comes before the other. `COUNT(id)` is taken for an `id`
    field: the name is tested before the count.

        count       tie ──▶ next field
        data        tie ──▶ next field
        id          tie ──▶ false (ascending), true (descending)
        COUNT(id)   as id                                                                        -/

namespace VaeDb.Response
open Xml

/-- The order of integers, three ways; positive is before. -/
def order (a b : ℤ) : ℤ := if a < b then 1 else if b < a then -1 else 0

/-- Whether a comparison that is no tie puts the left one first, in a direction. -/
def comesFirst (direction : SortOrder) (c : ℤ) : Bool :=
  match direction with
  | .asc => 0 < c
  | .desc => c < 0

section Spec

variable (ops : Lookups Result) (site : Site)

def idCompare (l r : NodeId) : Result ℤ := do
  let lid ← getId site l
  let rid ← getId site r
  pure (order lid rid)

/-- The three-way comparison of two contexts by one field. -/
def fieldCompare (l r : NodeId) (f : SortField) : Result ℤ :=
  if f.count then do
    let lcount ← ops.getCount l f.field
    let rcount ← ops.getCount r f.field
    pure (order lcount rcount)
  else if f.field = "id" then idCompare site l r
  else do
    let ldata ← ops.getData l f.field
    let rdata ← ops.getData r f.field
    pure (Util.str_compare_nat ldata rdata)

/-- What a comparator should say: the first field that is no tie decides. -/
def decided (l r : NodeId) : List SortField → Result Bool
  | [] => pure false
  | f :: fields => do
    let c ← fieldCompare ops site l r f
    if c = 0 then decided l r fields else pure (comesFirst f.direction c)

/-- `sortCallback` says what it should, and not of both that they come first. -/
structure Lawful (fields : List SortField) (l r : NodeId) : Prop where
  decides : sortCallback ops site l r fields = decided ops site l r fields
  decides_swap : sortCallback ops site r l fields = decided ops site r l fields
  asymm : ¬ (sortCallback ops site l r fields = pure true ∧
    sortCallback ops site r l fields = pure true)

/-- The first field that two contexts do not tie on, and how they compare by it. -/
def FirstApart (fields : List SortField) (l r : NodeId) (g : SortField) (c : ℤ) : Prop :=
  c ≠ 0 ∧ fieldCompare ops site l r g = pure c ∧ ∃ before after, fields = before ++ g :: after ∧
    ∀ g' ∈ before, fieldCompare ops site l r g' = pure 0

/-- What is asked where an `id` field is come to. Two contexts that tie on it tie on the fields after
    it too, and it is ascending. A count of ids puts them as their ids stand: in no order if those are
    equal, and else in the order in which the first field that they do not tie on puts them. -/
def IdSettled (l r : NodeId) (f : SortField) (after : List SortField) : Prop :=
  if f.count then
    (idCompare site l r = pure 0 → f.direction = .asc ∧
      ∀ g ∈ f :: after, fieldCompare ops site l r g = pure 0) ∧
    ∀ i, idCompare site l r = pure i → i ≠ 0 → ∃ g c,
      FirstApart ops site (f :: after) l r g c ∧ comesFirst g.direction c = comesFirst f.direction i
  else fieldCompare ops site l r f = pure 0 →
    f.direction = .asc ∧ ∀ g ∈ after, fieldCompare ops site l r g = pure 0

/-- Where two contexts tie on the fields before the first `id`, that one settles them. -/
def IdSettles (fields : List SortField) (l r : NodeId) : Prop :=
  ∀ before f after, fields = before ++ f :: after → f.field = "id" →
    (∀ g ∈ before, g.field ≠ "id") → (∀ g ∈ before, fieldCompare ops site l r g = pure 0) →
    IdSettled ops site l r f after

end Spec

variable {ops : Lookups Result} {site : Site} {l r : NodeId} {f : SortField}
  {fields : List SortField} {c : ℤ}

/-! ### One field -/

theorem order_swap (a b : ℤ) : order b a = -order a b := by
  unfold order
  rcases lt_trichotomy a b with h | h | h
  · simp [h, h.not_gt]
  · simp [h]
  · simp [h, h.not_gt]

theorem order_pos (a b : ℤ) : 0 < order a b ↔ a < b := by
  unfold order
  split
  · next h => simp [h]
  · next h => split <;> simp [h]

theorem order_eq_zero (a b : ℤ) : order a b = 0 ↔ a = b := by
  unfold order
  split
  · next h => simp [h.ne]
  · next h =>
    split
    · next h' => simp [h'.ne']
    · next h' => simp [le_antisymm (not_lt.mp h') (not_lt.mp h)]

/-- Reading a value of each of two contexts and comparing them, either way around. -/
theorem compare_swap {α : Type} {x y : Result α} {cmp : α → α → ℤ}
    (hswap : ∀ a b, cmp b a = -cmp a b) (h : (do pure (cmp (← x) (← y))) = (pure c : Result ℤ)) :
    (do pure (cmp (← y) (← x))) = (pure (-c) : Result ℤ) := by
  cases x with
  | error e => cases h
  | ok a =>
    cases y with
    | error e => cases h
    | ok b =>
      have hc : cmp a b = c := Except.ok.inj h
      exact congrArg Except.ok ((hswap a b).trans (by rw [hc]))

theorem fieldCompare_swap (h : fieldCompare ops site l r f = pure c) :
    fieldCompare ops site r l f = pure (-c) := by
  unfold fieldCompare at *
  split
  · next hcount =>
    rw [if_pos hcount] at h
    exact compare_swap order_swap h
  · next hcount =>
    rw [if_neg hcount] at h
    split
    · next hid =>
      rw [if_pos hid] at h
      exact compare_swap order_swap h
    · next hid =>
      rw [if_neg hid] at h
      exact compare_swap Util.str_compare_nat_swap h

theorem directed_eq_comesFirst (direction : SortOrder) (hc : c ≠ 0) :
    directed direction (0 < c) = comesFirst direction c := by
  cases direction with
  | asc => rfl
  | desc =>
    rw [Bool.eq_iff_iff]
    simp [directed, comesFirst]
    omega

/-- An `id` field decides, whatever it says, by the ids. -/
theorem sortCallback_id (hid : f.field = "id") : sortCallback ops site l r (f :: fields) = (do
    let c ← idCompare site l r
    pure (directed f.direction (0 < c))) := by
  simp only [sortCallback, idCompare, hid, if_true, bind_assoc, pure_bind, order_pos]
  rfl

/-- The other fields pass a tie on. -/
theorem sortCallback_other (hid : f.field ≠ "id") :
    sortCallback ops site l r (f :: fields) = (do
      let c ← fieldCompare ops site l r f
      if c = 0 then sortCallback ops site l r fields
      else pure (directed f.direction (0 < c))) := by
  rw [sortCallback, if_neg hid, fieldCompare]
  split
  · simp only [bind_assoc, pure_bind, order_pos, order_eq_zero]
  · simp only [bind_assoc, pure_bind]

/-- A field that fails one way fails the other way too. -/
theorem fieldCompare_cases (ops : Lookups Result) (site : Site) (l r : NodeId) (f : SortField) :
    (∃ c, fieldCompare ops site l r f = .ok c ∧ fieldCompare ops site r l f = .ok (-c)) ∨
    ∃ e e', fieldCompare ops site l r f = .error e ∧ fieldCompare ops site r l f = .error e' := by
  cases h : fieldCompare ops site l r f with
  | ok c => exact .inl ⟨c, rfl, fieldCompare_swap h⟩
  | error e =>
    cases h' : fieldCompare ops site r l f with
    | ok c => exact absurd (h.symm.trans (fieldCompare_swap h')) (by rintro ⟨⟩)
    | error e' => exact .inr ⟨e, e', rfl, rfl⟩

/-! ### The list of fields -/

theorem comesFirst_asymm {direction : SortOrder} (h : comesFirst direction c = true) :
    comesFirst direction (-c) = false := by
  cases direction <;> simp_all [comesFirst] <;> omega

theorem comesFirst_total {direction : SortOrder} (hc : c ≠ 0)
    (h : comesFirst direction c = false) : comesFirst direction (-c) = true := by
  cases direction <;> simp_all [comesFirst] <;> omega

theorem decided_cons_ok (h : fieldCompare ops site l r f = .ok c) :
    decided ops site l r (f :: fields) =
      if c = 0 then decided ops site l r fields else .ok (comesFirst f.direction c) := by
  rw [decided, h]
  rfl

theorem decided_cons_neg (h : fieldCompare ops site r l f = .ok (-c)) :
    decided ops site r l (f :: fields) =
      if c = 0 then decided ops site r l fields else .ok (comesFirst f.direction (-c)) := by
  rw [decided_cons_ok h]
  simp only [Int.neg_eq_zero]

/-- Of two contexts at most one comes first. -/
theorem decided_asymm : ∀ fields : List SortField, decided ops site l r fields = .ok true →
    decided ops site r l fields ≠ .ok true
  | [], h, _ => by cases h
  | f :: fields, h, h' => by
      rcases fieldCompare_cases ops site l r f with ⟨c, hc, hc'⟩ | ⟨e, e', he, he'⟩
      · rw [decided_cons_ok hc] at h
        rw [decided_cons_neg hc'] at h'
        by_cases hzero : c = 0
        · rw [if_pos hzero] at h h'
          exact decided_asymm fields h h'
        · rw [if_neg hzero] at h
          rw [if_neg hzero, comesFirst_asymm (Except.ok.inj h)] at h'
          cases h'
      · rw [decided, he] at h
        cases h

/-- Neither comes first exactly if all fields tie. -/
theorem decided_neither : ∀ fields : List SortField,
    (decided ops site l r fields = .ok false ∧ decided ops site r l fields = .ok false) ↔
      ∀ g ∈ fields, fieldCompare ops site l r g = .ok 0
  | [] => by simp [decided, pure, Except.pure]
  | f :: fields => by
      rw [List.forall_mem_cons, ← decided_neither fields]
      rcases fieldCompare_cases ops site l r f with ⟨c, hc, hc'⟩ | ⟨e, e', he, he'⟩
      · rw [decided_cons_ok hc, decided_cons_neg hc', hc, Except.ok.injEq]
        by_cases hzero : c = 0
        · simp [hzero]
        · simp only [hzero, if_false, false_and, iff_false, Except.ok.injEq]
          rintro ⟨h, h'⟩
          rw [comesFirst_total hzero h] at h'
          cases h'
      · rw [decided, he]
        simp [bind, Except.bind]

/-- Two contexts tie on all fields, or a first one tells them apart, or comparing them fails. -/
theorem apart_cases (ops : Lookups Result) (site : Site) (l r : NodeId) :
    ∀ fields : List SortField, (∀ g ∈ fields, fieldCompare ops site l r g = .ok 0) ∨
      (∃ g c, FirstApart ops site fields l r g c) ∨ ∃ e, decided ops site l r fields = .error e
  | [] => .inl (by simp)
  | f :: fields => by
      rcases fieldCompare_cases ops site l r f with ⟨c, hc, -⟩ | ⟨e, -, he, -⟩
      · by_cases hzero : c = 0
        · subst hzero
          rcases apart_cases ops site l r fields with h | ⟨g, c, hne, hg, before, after, rfl, h⟩ | ⟨e, he⟩
          · exact .inl (List.forall_mem_cons.mpr ⟨hc, h⟩)
          · exact .inr (.inl ⟨g, c, hne, hg, f :: before, after, rfl, List.forall_mem_cons.mpr ⟨hc, h⟩⟩)
          · exact .inr (.inr ⟨e, by rw [decided_cons_ok hc, if_pos rfl, he]⟩)
        · exact .inr (.inl ⟨f, c, hzero, hc, [], fields, rfl, by simp⟩)
      · exact .inr (.inr ⟨e, by rw [decided, he]; rfl⟩)

/-- The first field that tells two contexts apart decides, either way around. -/
theorem FirstApart.decided {g : SortField} (h : FirstApart ops site fields l r g c) :
    Response.decided ops site l r fields = .ok (comesFirst g.direction c) ∧
      Response.decided ops site r l fields = .ok (comesFirst g.direction (-c)) := by
  obtain ⟨hne, hg, before, after, rfl, hties⟩ := h
  induction before with
  | nil =>
    rw [List.nil_append, decided_cons_ok hg, decided_cons_neg (fieldCompare_swap hg), if_neg hne,
      if_neg hne]
    exact ⟨rfl, rfl⟩
  | cons f before ih =>
    obtain ⟨hf, hbefore⟩ := List.forall_mem_cons.mp hties
    rw [List.cons_append, decided_cons_ok hf, decided_cons_neg (c := 0) (fieldCompare_swap hf),
      if_pos rfl, if_pos rfl]
    exact ih hbefore

theorem comesFirst_neg {direction : SortOrder} (hc : c ≠ 0) :
    comesFirst direction (-c) = !comesFirst direction c := by
  cases h : comesFirst direction c with
  | true => exact comesFirst_asymm h
  | false => exact comesFirst_total hc h

theorem idSettles_nil : IdSettles ops site [] l r := by
  intro before f after h
  simp at h

theorem idSettles_id (hid : f.field = "id") : IdSettles ops site (f :: fields) l r ↔
    IdSettled ops site l r f fields := by
  constructor
  · intro h
    exact h [] f fields rfl hid (by simp) (by simp)
  · intro h before g after heq hg hbefore hties
    cases before with
    | nil =>
      obtain ⟨rfl, rfl⟩ := List.cons_eq_cons.mp heq
      exact h
    | cons f' before =>
      obtain ⟨rfl, -⟩ := List.cons_eq_cons.mp heq
      exact absurd hid (hbefore f (by simp))

theorem idSettles_other (hid : f.field ≠ "id") : IdSettles ops site (f :: fields) l r ↔
    (fieldCompare ops site l r f = .ok 0 → IdSettles ops site fields l r) := by
  constructor
  · rintro h htie before g after rfl hg hbefore hties
    refine h (f :: before) g after rfl hg ?_ (List.forall_mem_cons.mpr ⟨htie, hties⟩)
    simpa [hid] using hbefore
  · intro h before g after heq hg hbefore hties
    cases before with
    | nil =>
      obtain ⟨rfl, -⟩ := List.cons_eq_cons.mp heq
      exact absurd hg hid
    | cons f' before =>
      obtain ⟨rfl, rfl⟩ := List.cons_eq_cons.mp heq
      exact h (hties f (by simp)) before g after rfl hg (fun g' hg' => hbefore g' (by simp [hg']))
        fun g' hg' => hties g' (by simp [hg'])

theorem sortCallback_id_ok (hid : f.field = "id") (h : idCompare site l r = .ok c) :
    sortCallback ops site l r (f :: fields) = .ok (directed f.direction (0 < c)) := by
  rw [sortCallback_id hid, h]
  rfl

theorem sortCallback_other_ok (hid : f.field ≠ "id") (h : fieldCompare ops site l r f = .ok c) :
    sortCallback ops site l r (f :: fields) =
      if c = 0 then sortCallback ops site l r fields else .ok (comesFirst f.direction c) := by
  rw [sortCallback_other hid, h]
  by_cases hzero : c = 0
  · simp [hzero, bind, Except.bind]
  · rw [if_neg hzero, ← directed_eq_comesFirst _ hzero]
    simp [hzero, bind, Except.bind, pure, Except.pure]

theorem sortCallback_other_error (hid : f.field ≠ "id") {e : Failure}
    (h : fieldCompare ops site l r f = .error e) :
    sortCallback ops site l r (f :: fields) = decided ops site l r (f :: fields) := by
  rw [sortCallback_other hid, decided, h]
  rfl

/-- An `id` field: it says what it should if the ids differ. If they are equal, a descending one says
    that both come first, and an ascending one that neither does. -/
theorem decides_id (hid : f.field = "id") (hcount : f.count = false)
    (hc : idCompare site l r = .ok c) (hc' : idCompare site r l = .ok (-c)) :
    (sortCallback ops site l r (f :: fields) = decided ops site l r (f :: fields) ∧
      sortCallback ops site r l (f :: fields) = decided ops site r l (f :: fields)) ↔
    IdSettled ops site l r f fields := by
  have hfield : ∀ l r, fieldCompare ops site l r f = idCompare site l r := fun l r => by
    rw [fieldCompare, hcount, if_neg Bool.false_ne_true, if_pos hid]
  rw [IdSettled, hcount, if_neg Bool.false_ne_true, hfield, hc, sortCallback_id_ok hid hc,
    sortCallback_id_ok hid hc', decided_cons_ok ((hfield l r).trans hc),
    decided_cons_neg ((hfield r l).trans hc')]
  by_cases hzero : c = 0
  · simp only [hzero, Int.neg_zero, lt_irrefl, if_true]
    cases f.direction with
    | asc =>
      have hneither := @decided_neither ops site l r fields
      simp only [pure, Except.pure, forall_const]
      rw [← hneither]
      simp [directed, eq_comm]
    | desc =>
      simp only [directed, pure, Except.pure, reduceCtorEq, false_and, forall_const, iff_false]
      rintro ⟨h, h'⟩
      exact decided_asymm fields h.symm h'.symm
  · rw [directed_eq_comesFirst _ hzero, directed_eq_comesFirst _ (by omega : -c ≠ 0)]
    simp [hzero, pure, Except.pure]

theorem idSettled_count (hcount : f.count = true) (hc : idCompare site l r = .ok c) :
    IdSettled ops site l r f fields ↔
      (c = 0 → f.direction = .asc ∧ ∀ g ∈ f :: fields, fieldCompare ops site l r g = .ok 0) ∧
      (c ≠ 0 → ∃ g d, FirstApart ops site (f :: fields) l r g d ∧
        comesFirst g.direction d = comesFirst f.direction c) := by
  rw [IdSettled, if_pos hcount, hc]
  refine and_congr ?_ ⟨fun h => h c rfl, ?_⟩
  · simp [pure, Except.pure]
  · rintro h i hi
    obtain rfl := Except.ok.inj hi
    exact h

/-- A count of ids: the comparator goes by the ids. -/
theorem decides_countId (hid : f.field = "id") (hcount : f.count = true)
    (hc : idCompare site l r = .ok c) (hc' : idCompare site r l = .ok (-c)) :
    (sortCallback ops site l r (f :: fields) = decided ops site l r (f :: fields) ∧
      sortCallback ops site r l (f :: fields) = decided ops site r l (f :: fields)) ↔
    IdSettled ops site l r f fields := by
  rw [idSettled_count hcount hc, sortCallback_id_ok hid hc, sortCallback_id_ok hid hc']
  -- what a comparator should say of the two is one of three things
  rcases apart_cases ops site l r (f :: fields) with hties | ⟨g, d, happart⟩ | ⟨e, he⟩
  · obtain ⟨hneither, hneither'⟩ := (decided_neither (f :: fields)).mpr hties
    rw [hneither, hneither', Except.ok.injEq, Except.ok.injEq]
    by_cases hzero : c = 0
    · subst hzero
      cases f.direction with
      | asc => exact iff_of_true ⟨rfl, rfl⟩ ⟨fun _ => ⟨rfl, hties⟩, fun hne => absurd rfl hne⟩
      | desc => simp [directed]
    · rw [directed_eq_comesFirst _ hzero, directed_eq_comesFirst _ (by omega : -c ≠ 0),
        comesFirst_neg hzero]
      refine iff_of_false (by simp) fun h => ?_
      obtain ⟨g, d, happart, -⟩ := h.2 hzero
      obtain ⟨hfirst, hsecond⟩ := happart.decided
      rw [hneither, Except.ok.injEq] at hfirst
      rw [hneither', comesFirst_neg happart.1, Except.ok.injEq, ← hfirst] at hsecond
      cases hsecond
  · obtain ⟨hdecided, hdecided'⟩ := happart.decided
    rw [hdecided, hdecided', Except.ok.injEq, Except.ok.injEq, comesFirst_neg happart.1]
    by_cases hzero : c = 0
    · subst hzero
      refine iff_of_false ?_ fun h => ?_
      · rintro ⟨hfirst, hsecond⟩
        rw [Int.neg_zero, hfirst] at hsecond
        simp at hsecond
      · obtain ⟨hneither, hneither'⟩ := (decided_neither (f :: fields)).mpr (h.1 rfl).2
        rw [hdecided, Except.ok.injEq] at hneither
        rw [hdecided', comesFirst_neg happart.1, hneither, Except.ok.injEq] at hneither'
        cases hneither'
    · rw [directed_eq_comesFirst _ hzero, directed_eq_comesFirst _ (by omega : -c ≠ 0),
        comesFirst_neg hzero]
      constructor
      · exact fun h => ⟨fun heq => absurd heq hzero, fun _ => ⟨g, d, happart, h.1.symm⟩⟩
      · intro h
        obtain ⟨g', d', happart', hsame⟩ := h.2 hzero
        have heq := hdecided.symm.trans happart'.decided.1
        rw [Except.ok.injEq, hsame] at heq
        rw [heq]
        exact ⟨rfl, rfl⟩
  · rw [he]
    refine iff_of_false (by simp) fun h => ?_
    by_cases hzero : c = 0
    · rw [((decided_neither (f :: fields)).mpr (h.1 hzero).2).1] at he
      cases he
    · obtain ⟨g, d, happart, -⟩ := h.2 hzero
      rw [happart.decided.1] at he
      cases he

/-- Both orders of two contexts, by the first field and then the others. -/
theorem decides_iff {i : ℤ} (hi : idCompare site l r = .ok i) (hi' : idCompare site r l = .ok (-i)) :
    ∀ fields : List SortField, (sortCallback ops site l r fields = decided ops site l r fields ∧
      sortCallback ops site r l fields = decided ops site r l fields) ↔
    IdSettles ops site fields l r
  | [] => iff_of_true ⟨rfl, rfl⟩ idSettles_nil
  | f :: fields => by
      by_cases hid : f.field = "id"
      · rw [idSettles_id hid]
        cases hcount : f.count with
        | false => exact decides_id hid hcount hi hi'
        | true => exact decides_countId hid hcount hi hi'
      rw [idSettles_other hid]
      rcases fieldCompare_cases ops site l r f with ⟨c, hc, hc'⟩ | ⟨e, e', he, he'⟩
      · rw [← decides_iff hi hi' fields, hc, Except.ok.injEq,
          sortCallback_other_ok hid hc, sortCallback_other_ok hid hc', decided_cons_ok hc,
          decided_cons_neg hc']
        by_cases hzero : c = 0 <;> simp [hzero]
      · refine iff_of_true ⟨sortCallback_other_error hid he, sortCallback_other_error hid he'⟩ ?_
        rw [he]
        rintro ⟨⟩

/-- The ids of two contexts. -/
theorem idCompare_contexts {left right : Context} (hl : site.contexts l = some left)
    (hr : site.contexts r = some right) : idCompare site l r = .ok (order left.id right.id) := by
  rw [idCompare, getId, getId, hl, hr]
  rfl

/-- CORRECT: for every list of fields and every two contexts, the comparator says what it should
    exactly if, where the two tie on the fields before the first `id`, that one settles them: an `id`
    field if they do not tie on it, or it is ascending and all fields after it tie; a count of ids if
    the ids stand as the counts do, and the fields after it where the counts tie. -/
theorem sortCallback_lawful_iff (ops : Lookups Result) {site : Site} {l r : NodeId}
    {left right : Context} (hl : site.contexts l = some left) (hr : site.contexts r = some right)
    (fields : List SortField) : Lawful ops site fields l r ↔ IdSettles ops site fields l r := by
  have hswap := idCompare_contexts hr hl
  rw [order_swap] at hswap
  rw [← decides_iff (idCompare_contexts hl hr) hswap fields]
  constructor
  · intro h
    exact ⟨h.decides, h.decides_swap⟩
  · rintro ⟨h, h'⟩
    refine ⟨h, h', ?_⟩
    rintro ⟨hfirst, hsecond⟩
    exact decided_asymm fields (h.symm.trans hfirst) (h'.symm.trans hsecond)

/-- Ascending ids tell two pages of the sample feed apart. -/
theorem sortCallback_lawful_iff_sample :
    Lawful (Lookups.fresh sampleLib sampleSite) sampleSite [⟨"id", false, .asc⟩] (.parsed [0, 0, 0])
      (.parsed [2, 0, 0]) := by
  obtain ⟨left, hl⟩ : ∃ left, sampleSite.contexts (.parsed [0, 0, 0]) = some left :=
    Option.isSome_iff_exists.mp (by decide +kernel)
  obtain ⟨right, hr⟩ : ∃ right, sampleSite.contexts (.parsed [2, 0, 0]) = some right :=
    Option.isSome_iff_exists.mp (by decide +kernel)
  refine (sortCallback_lawful_iff (Lookups.fresh sampleLib sampleSite) hl hr
    [⟨"id", false, .asc⟩]).mpr ?_
  have hapart : fieldCompare (Lookups.fresh sampleLib sampleSite) sampleSite (.parsed [0, 0, 0])
      (.parsed [2, 0, 0]) ⟨"id", false, .asc⟩ = .ok 1 := by decide +kernel
  rw [idSettles_id rfl, IdSettled, if_neg Bool.false_ne_true, hapart]
  rintro ⟨⟩

/-- With `order` set to `DESC(id)`, a page of the sample feed comes before itself. With `COUNT(id)` one
    page comes before the other one, although the counts tie. -/
theorem sortCallback_reflexive :
    (Request.parse fun name => if name = "order" then some "DESC(id)" else none).sortFields =
      [⟨"id", false, .desc⟩] ∧
    sortCallback (Lookups.fresh sampleLib sampleSite) sampleSite (.parsed [0, 0, 0])
      (.parsed [0, 0, 0]) [⟨"id", false, .desc⟩] = .ok true ∧
    decided (Lookups.fresh sampleLib sampleSite) sampleSite (.parsed [0, 0, 0])
      (.parsed [0, 0, 0]) [⟨"id", false, .desc⟩] = .ok false ∧
    ¬ Lawful (Lookups.fresh sampleLib sampleSite) sampleSite [⟨"id", false, .desc⟩]
      (.parsed [0, 0, 0]) (.parsed [0, 0, 0]) ∧
    (Request.parse fun name => if name = "order" then some "COUNT(id)" else none).sortFields =
      [⟨"id", true, .asc⟩] ∧
    sortCallback (Lookups.fresh sampleLib sampleSite) sampleSite (.parsed [0, 0, 0])
      (.parsed [2, 0, 0]) [⟨"id", true, .asc⟩] = .ok true ∧
    decided (Lookups.fresh sampleLib sampleSite) sampleSite (.parsed [0, 0, 0])
      (.parsed [2, 0, 0]) [⟨"id", true, .asc⟩] = .ok false := by
  have hfirst : sortCallback (Lookups.fresh sampleLib sampleSite) sampleSite (.parsed [0, 0, 0])
      (.parsed [0, 0, 0]) [⟨"id", false, .desc⟩] = .ok true := by
    decide +kernel
  refine ⟨by decide +kernel, hfirst, by decide +kernel, fun h => ?_, by decide +kernel,
    by decide +kernel, by decide +kernel⟩
  exact h.asymm ⟨hfirst, hfirst⟩

end VaeDb.Response
