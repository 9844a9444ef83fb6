import VaeDb.Session.Session

/-! Response ids: which response a call is about, and which ids are refused.

    Ids count from 1, and 0 is the root for the calls that may start there. The code compares the
    number of responses, a `size_t`, with the id, an `int32_t`, which converts: a negative id turns
    into a number that no vector reaches, and 0 into a number that every vector does.

        id               -2147483648 .. -1     0              1 .. n       n+1 .. 2147483647
        get, createInfo  Invalid responseId    the root       that one     Invalid responseId
        data, structure  Invalid responseId    (undefined)    that one     Invalid responseId -/

namespace VaeDb

/-- The response id that a call names. -/
def Call.responseId : Call → ℤ
  | .get responseId .. => responseId
  | .data responseId => responseId
  | .struct responseId => responseId
  | .createInfo responseId _ => responseId

/-- Whether a call may start from the root. -/
def Call.takesRoot : Call → Bool
  | .get .. => true
  | .createInfo .. => true
  | _ => false

namespace Session

/-- The range of an `int32_t`. -/
def IsInt32 (n : ℤ) : Prop := -2147483648 ≤ n ∧ n < 2147483648

instance (n : ℤ) : Decidable (IsInt32 n) := inferInstanceAs (Decidable (_ ∧ _))

/-- `max_size` of a vector of shared pointers, which are two words long. -/
def maxSize : ℕ := 576460752303423487

/-- The response that a call gets by its id; the root is `none`. -/
def selected (responses : List Response) (c : Call) : Result (Option Response) :=
  if c.takesRoot then parent responses c.responseId else some <$> response responses c.responseId

/-- The response that a call is to get by its id. -/
def expected (responses : List Response) (c : Call) : Result (Option Response) :=
  if h : 1 ≤ c.responseId ∧ c.responseId ≤ responses.length then
    .ok (some (responses.get ⟨(c.responseId - 1).toNat, by omega⟩))
  else if c.responseId = 0 ∧ c.takesRoot then .ok none
  else .error (.internalError "Invalid responseId")

/-- What a call does with the response that it has got. -/
def proceed (rt : Runtime) (site : Site) (responses : List Response) (c : Call)
    (selected : Option Response) : Result (Answer × List Response) :=
  match c, selected with
  | .get _ query options shuffle, parent => do
    let response ← Response.new (Lookups.fresh rt.lib site) rt site shuffle parent query options
    let answer ← Response.writeVaeDbResponse site (Cpp.int32 (responses.length + 1)) response
    pure (.get answer, responses ++ [response])
  | .createInfo _ query, parent => do
    let answer ← Response.createInfos (Lookups.fresh rt.lib site) rt site parent query
    pure (.createInfo answer, responses)
  | .data _, response => do
    let response ← deref response
    let answer ← Response.writeVaeDbDataResponse (Lookups.fresh rt.lib site) response
    pure (.data answer, responses)
  | .struct _, response => do
    let response ← deref response
    let answer ← Response.writeVaeDbStructureResponse site response
    pure (.struct answer, responses)

/-- The id is checked: the call goes on with the response that it names, or with the root, or it
    throws. -/
def Checked (rt : Runtime) (site : Site) (responses : List Response) (c : Call) : Prop :=
  selected responses c = expected responses c ∧
    Session.call (Lookups.fresh rt.lib site) rt site responses c =
      expected responses c >>= proceed rt site responses c

variable {rt : Runtime} {site : Site} {responses : List Response} {c : Call} {k : ℤ}

/-- A call gets its response first. -/
theorem call_eq (rt : Runtime) (site : Site) (responses : List Response) (c : Call) :
    Session.call (Lookups.fresh rt.lib site) rt site responses c =
      selected responses c >>= proceed rt site responses c := by
  cases c with
  | get k query options shuffle => rfl
  | createInfo k query => rfl
  | data k => cases h : response responses k <;> simp [Session.call, selected, Call.takesRoot,
      Call.responseId, h] <;> rfl
  | struct k => cases h : response responses k <;> simp [Session.call, selected, Call.takesRoot,
      Call.responseId, h] <;> rfl

/-! ### The comparison -/

theorem response_of_named (hsize : responses.length ≤ maxSize) (hpos : 1 ≤ k)
    (hle : k ≤ responses.length) (hlt : (k - 1).toNat < responses.length) :
    response responses k = .ok (responses.get ⟨(k - 1).toNat, hlt⟩) := by
  have hbound : responses.length ≤ 576460752303423487 := hsize
  have hmod : k % 2 ^ 64 = k := Int.emod_eq_of_lt (by omega) (by omega)
  have hmod' : (k - 1) % 2 ^ 64 = k - 1 := Int.emod_eq_of_lt (by omega) (by omega)
  rw [response, hmod, if_pos hle, hmod', List.getElem?_eq_getElem hlt]
  rfl

theorem response_of_refused (hsize : responses.length ≤ maxSize) (hid : IsInt32 k) (hne : k ≠ 0)
    (hout : ¬ (1 ≤ k ∧ k ≤ responses.length)) :
    response responses k = .error (.internalError "Invalid responseId") := by
  have hbound : responses.length ≤ 576460752303423487 := hsize
  have hlow := hid.1
  have hhigh := hid.2
  have hgt : ¬ k % 2 ^ 64 ≤ responses.length := by
    rcases Int.lt_or_gt_of_ne hne with hneg | hpos
    · -- a negative id converts to a number just below `2 ^ 64`
      have hmod : k % 2 ^ 64 = k + 2 ^ 64 := by omega
      omega
    · have hmod : k % 2 ^ 64 = k := Int.emod_eq_of_lt (by omega) (by omega)
      omega
  rw [response, if_neg hgt]
  rfl

/-- 0 passes the comparison, and the index is the largest `size_t`. -/
theorem response_zero (hsize : responses.length ≤ maxSize) :
    response responses 0 = .error .undefined := by
  have hbound : responses.length ≤ 576460752303423487 := hsize
  have hout : responses.length ≤ ((0 - 1 : ℤ) % 2 ^ 64).toNat := by omega
  rw [response, if_pos (by omega), List.getElem?_eq_none hout]
  rfl

/-! ### The ids -/

theorem selected_eq_expected (hsize : responses.length ≤ maxSize) (hid : IsInt32 c.responseId)
    (hroot : c.responseId = 0 → c.takesRoot) : selected responses c = expected responses c := by
  rw [selected, expected]
  by_cases hnamed : 1 ≤ c.responseId ∧ c.responseId ≤ responses.length
  · have hne : c.responseId ≠ 0 := by omega
    rw [dif_pos hnamed, parent, if_pos hne, response_of_named hsize hnamed.1 hnamed.2 (by omega)]
    split <;> rfl
  · rw [dif_neg hnamed]
    by_cases hzero : c.responseId = 0
    · rw [if_pos (hroot hzero), if_pos ⟨hzero, hroot hzero⟩, parent, if_neg (not_not_intro hzero)]
      rfl
    · have hneither : ¬ (c.responseId = 0 ∧ c.takesRoot) := fun h => hzero h.1
      rw [if_neg hneither, parent, if_pos hzero, response_of_refused hsize hid hzero hnamed]
      split <;> rfl

theorem selected_zero (hsize : responses.length ≤ maxSize) (hzero : c.responseId = 0)
    (hroot : ¬ c.takesRoot) : selected responses c = .error .undefined := by
  rw [selected, if_neg hroot, hzero, response_zero hsize]
  rfl

theorem expected_ne_undefined (responses : List Response) (c : Call) :
    expected responses c ≠ .error .undefined := by
  rw [expected]
  split
  · exact nofun
  · split <;> exact nofun

/-- CORRECT: the id of a call is checked exactly if it is not 0, or the call may start from the
    root. -/
theorem checked_iff (hsize : responses.length ≤ maxSize) (hid : IsInt32 c.responseId) :
    Checked rt site responses c ↔ (c.responseId = 0 → c.takesRoot) := by
  constructor
  · rintro ⟨hselected, -⟩ hzero
    by_contra hroot
    exact expected_ne_undefined responses c (hselected ▸ selected_zero hsize hzero hroot)
  · intro hroot
    have hselected := selected_eq_expected hsize hid hroot
    exact ⟨hselected, hselected ▸ call_eq rt site responses c⟩

/-- The second of two responses. -/
theorem checked_second :
    Checked ⟨sampleLib, fun _ => .done (Equiv.refl _), id⟩ (Site.blank "shop" false []) [⟨[]⟩, ⟨[]⟩]
      (.struct 2) :=
  (checked_iff (by decide) (by decide)).mpr (by decide)

/-- `data` of 0 in a session without responses: the code reads in front of the vector. -/
theorem not_checked_zero :
    Session.call (Lookups.fresh sampleLib (Site.blank "shop" false []))
        ⟨sampleLib, fun _ => .done (Equiv.refl _), id⟩ (Site.blank "shop" false []) [] (.data 0) =
      .error .undefined ∧
    ¬ Checked ⟨sampleLib, fun _ => .done (Equiv.refl _), id⟩ (Site.blank "shop" false []) []
      (.data 0) := by
  have hselected : selected [] (.data 0) = .error .undefined := selected_zero (by decide) rfl nofun
  refine ⟨?_, fun h => expected_ne_undefined [] (.data 0) (h.1 ▸ hselected)⟩
  rw [call_eq ⟨sampleLib, fun _ => .done (Equiv.refl _), id⟩, hselected]
  rfl

end Session

end VaeDb
