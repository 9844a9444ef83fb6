import VaeDb.Schemes.Table

/-! Statements that may fail, one after another, without a transaction.

    Each statement takes effect at once, and the first that throws ends the sequence. A statement can
    be refused, by the server or by the table itself, and has no effect then; it can also take effect
    and throw all the same, when only its answer is lost.

    A row is replaced by a DELETE and an INSERT, both prepared before. Between the two the old row is
    gone and the new one is not there yet:

        prepare ──▶ prepare ──▶ DELETE ──────────▶ INSERT ──────────▶
           t           t          t | no row         no row | new row      where it ends -/

namespace Schemes

universe u v w

variable {σ : Type u}

/-- What becomes of a statement. -/
inductive Fault where
  | done
  /-- it throws, and has no effect -/
  | refused
  /-- it takes effect, and throws -/
  | lost
  deriving DecidableEq, Repr

/-- One statement: what it leaves, and whether it comes back. `none` is what the table refuses. -/
def Fault.attempt (fault : Fault) (f : σ → Option σ) (t : σ) : σ × Bool :=
  match fault with
  | .done => match f t with
    | some t' => (t', true)
    | none => (t, false)
  | .refused => (t, false)
  | .lost => ((f t).getD t, false)

/-- Statements up to the first that throws. -/
def execute : List (Fault × (σ → Option σ)) → σ → σ
  | [], t => t
  | (fault, f) :: rest, t =>
    let (t', back) := fault.attempt f t
    if back then execute rest t' else t'

/-! ### Replacing a row -/

/-- What becomes of the statements that replace a row. -/
structure ReplaceFaults where
  prepareDelete : Fault
  prepareInsert : Fault
  delete : Fault
  insert : Fault

namespace ReplaceFaults

def none : ReplaceFaults := ⟨.done, .done, .done, .done⟩

/-- The DELETE takes effect. -/
def Deletes (faults : ReplaceFaults) : Prop :=
  faults.prepareDelete = .done ∧ faults.prepareInsert = .done ∧ faults.delete ≠ .refused

/-- The INSERT is executed. -/
def Inserts (faults : ReplaceFaults) : Prop :=
  faults.prepareDelete = .done ∧ faults.prepareInsert = .done ∧ faults.delete = .done ∧
    faults.insert ≠ .refused

instance (faults : ReplaceFaults) : Decidable faults.Deletes := inferInstanceAs (Decidable (_ ∧ _))

instance (faults : ReplaceFaults) : Decidable faults.Inserts := inferInstanceAs (Decidable (_ ∧ _))

theorem Inserts.deletes {faults : ReplaceFaults} (h : faults.Inserts) : faults.Deletes :=
  ⟨h.1, h.2.1, by simp [h.2.2.1]⟩

end ReplaceFaults

namespace Table

variable {ρ : Type u} {κ : Type v} {β : Type w} {key : ρ → κ} {faults : ReplaceFaults}
  {p own : ρ → Bool} {row : ρ} {val : ρ → β} {t t' : Table ρ key}

/-- The values of the selected rows. -/
def values (p : ρ → Bool) (val : ρ → β) (t : Table ρ key) : List β := (t.rows.filter p).map val

/-- The selected rows hold what they held, or the value alone; all rows but the writer's own are as
    they were. -/
structure AllOrNothing (p own : ρ → Bool) (val : ρ → β) (value : β) (t t' : Table ρ key) :
    Prop where
  selected : t'.values p val = t.values p val ∨ t'.values p val = [value]
  others : ∀ r, own r = false → (r ∈ t'.rows ↔ r ∈ t.rows)

@[simp] theorem values_deleteWhere (p : ρ → Bool) (val : ρ → β) (t : Table ρ key) :
    (t.deleteWhere p).values p val = [] := by
  simp [values, deleteWhere, List.filter_filter]

theorem values_eq_nil : t.values p val = [] ↔ ∀ r ∈ t.rows, ¬ p r := by
  rw [values, List.map_eq_nil_iff, List.filter_eq_nil_iff]

variable [DecidableEq κ]

/-- DELETE the rows that the condition selects, then INSERT a row. -/
def replace (faults : ReplaceFaults) (p : ρ → Bool) (row : ρ) (t : Table ρ key) : Table ρ key :=
  execute [(faults.prepareDelete, some), (faults.prepareInsert, some),
    (faults.delete, fun t => some (t.deleteWhere p)), (faults.insert, fun t => t.insert? row)] t

/-- The three things that a replacement leaves. -/
theorem replace_eq (faults : ReplaceFaults) (p : ρ → Bool) (row : ρ) (t : Table ρ key) :
    t.replace faults p row =
      if faults.Inserts then ((t.deleteWhere p).insert? row).getD (t.deleteWhere p)
      else if faults.Deletes then t.deleteWhere p else t := by
  obtain ⟨prepareDelete, prepareInsert, delete, insert⟩ := faults
  cases prepareDelete with
  | refused => rfl
  | lost => rfl
  | done =>
    cases prepareInsert with
    | refused => rfl
    | lost => rfl
    | done =>
      cases delete with
      | refused => rfl
      | lost => rfl
      | done =>
        cases insert with
        | refused => rfl
        | lost =>
          cases h : (t.deleteWhere p).insert? row <;>
            simp [replace, execute, Fault.attempt, ReplaceFaults.Inserts, h]
        | done =>
          cases h : (t.deleteWhere p).insert? row <;>
            simp [replace, execute, Fault.attempt, ReplaceFaults.Inserts, h]

theorem values_insert? (hrow : p row) (h : t.insert? row = some t') :
    t'.values p val = val row :: t.values p val := by
  rw [values, insert?_rows h, List.filter_cons_of_pos hrow]
  rfl

/-- The DELETE frees the key of a row that it selects. -/
theorem insert?_deleteWhere (hp : ∀ r, p r → key r = key row) (hsome : ∃ r ∈ t.rows, p r) :
    ∃ t', (t.deleteWhere p).insert? row = some t' := by
  refine Option.ne_none_iff_exists'.mp fun hnone => ?_
  obtain ⟨q, hq⟩ := insert?_eq_none.mp hnone
  obtain ⟨hmem, hkey⟩ := rowAt_eq_some.mp hq
  obtain ⟨hmem, hnot⟩ := mem_deleteWhere.mp hmem
  obtain ⟨r, hr, hpr⟩ := hsome
  obtain rfl := eq_of_key_eq hmem hr (hkey.trans (hp r hpr).symm)
  exact absurd hpr (by simp [hnot])

/-- What an INSERT behind the DELETE leaves. -/
theorem inserted_cases (p : ρ → Bool) (row : ρ) (t : Table ρ key) :
    (∃ t', (t.deleteWhere p).insert? row = some t' ∧
      ((t.deleteWhere p).insert? row).getD (t.deleteWhere p) = t') ∨
    ((t.deleteWhere p).insert? row = none ∧
      ((t.deleteWhere p).insert? row).getD (t.deleteWhere p) = t.deleteWhere p) := by
  cases h : (t.deleteWhere p).insert? row with
  | none => exact .inr ⟨rfl, rfl⟩
  | some t' => exact .inl ⟨t', rfl, rfl⟩

/-- Where every selected row is the writer's own, no other row changes. -/
theorem replace_others (hrow : own row) (hall : ∀ r ∈ t.rows, p r → own r) {r : ρ}
    (hr : own r = false) : r ∈ (t.replace faults p row).rows ↔ r ∈ t.rows := by
  have hdelete : r ∈ (t.deleteWhere p).rows ↔ r ∈ t.rows := by
    rw [mem_deleteWhere, and_iff_left_iff_imp]
    exact fun hmem => Bool.eq_false_iff.mpr fun hpr => by simp [hall r hmem hpr] at hr
  rw [replace_eq]
  split
  · rcases inserted_cases p row t with ⟨t', hinsert, heq⟩ | ⟨-, heq⟩
    · have hne : r ≠ row := by
        rintro rfl
        simp [hr] at hrow
      rw [heq, insert?_rows hinsert, List.mem_cons, or_iff_right hne, hdelete]
    · rw [heq, hdelete]
  · split
    · exact hdelete
    · rfl

/-- What is selected behind an INSERT that was executed. -/
theorem selected_of_inserts (hp : ∀ r, p r → key r = key row) (hrow : p row)
    (hinserts : faults.Inserts) :
    (t.replace faults p row).values p val = t.values p val ∨
      (t.replace faults p row).values p val = [val row] := by
  rw [replace_eq, if_pos hinserts]
  rcases inserted_cases p row t with ⟨t', hinsert, heq⟩ | ⟨hrefused, heq⟩
  · rw [heq, values_insert? hrow hinsert, values_deleteWhere]
    exact .inr rfl
  · -- the table refuses the row only if none was selected
    rw [heq, values_deleteWhere]
    refine .inl (Eq.symm ?_)
    rw [values_eq_nil]
    intro r hr hpr
    obtain ⟨t', hinsert⟩ := insert?_deleteWhere hp ⟨r, hr, hpr⟩
    exact nomatch hinsert.symm.trans hrefused

/-- A selected row that is not the writer's own is lost with the DELETE. -/
theorem not_mem_replace (hrow : own row) (hdeletes : faults.Deletes) {r : ρ} (hpr : p r)
    (hr : own r = false) : r ∉ (t.replace faults p row).rows := by
  have hgone : r ∉ (t.deleteWhere p).rows := by simp [hpr]
  rw [replace_eq, if_pos hdeletes]
  split
  · rcases inserted_cases p row t with ⟨t', hinsert, heq⟩ | ⟨-, heq⟩
    · have hne : r ≠ row := by
        rintro rfl
        simp [hr] at hrow
      rw [heq, insert?_rows hinsert, List.mem_cons, or_iff_right hne]
      exact hgone
    · rwa [heq]
  · exact hgone

/-- A replacement is all or nothing exactly if there was nothing to lose, or the DELETE has no effect,
    or the INSERT is executed and nothing but the writer's own row was selected. -/
theorem replace_allOrNothing_iff (hp : ∀ r, p r → key r = key row) (hown : ∀ r, own r → p r)
    (hrow : own row) :
    AllOrNothing p own val (val row) t (t.replace faults p row) ↔
      (t.values p val = [] ∨ ¬ faults.Deletes ∨
        (faults.Inserts ∧ ∀ r ∈ t.rows, p r → own r)) := by
  have hempty : t.values p val = [] → ∀ r ∈ t.rows, p r → own r := fun hnil r hmem hpr =>
    absurd hpr (values_eq_nil.mp hnil r hmem)
  by_cases hinserts : faults.Inserts
  · constructor
    · intro h
      refine .inr (.inr ⟨hinserts, fun r hmem hpr => ?_⟩)
      by_contra hr
      have hr : own r = false := Bool.eq_false_iff.mpr hr
      exact not_mem_replace hrow hinserts.deletes hpr hr ((h.others r hr).mpr hmem)
    · intro h
      refine ⟨selected_of_inserts hp (hown row hrow) hinserts, fun r hr => replace_others hrow ?_ hr⟩
      exact h.elim hempty fun h => h.elim (absurd hinserts.deletes) fun h => h.2
  · have hnot : ¬ (faults.Inserts ∧ ∀ r ∈ t.rows, p r → own r) := fun h => hinserts h.1
    rw [or_iff_left hnot]
    by_cases hdeletes : faults.Deletes
    · rw [or_iff_left (not_not_intro hdeletes)]
      have hgone : (t.replace faults p row).values p val = [] := by
        rw [replace_eq, if_neg hinserts, if_pos hdeletes, values_deleteWhere]
      constructor
      · intro h
        rcases hgone ▸ h.selected with heq | heq
        · exact heq.symm
        · exact nomatch heq
      · exact fun hnil => ⟨.inl (hgone.trans hnil.symm),
          fun r hr => replace_others hrow (hempty hnil) hr⟩
    · have hsame : t.replace faults p row = t := by
        rw [replace_eq, if_neg hinserts, if_neg hdeletes]
      rw [hsame]
      exact iff_of_true ⟨.inl rfl, fun _ _ => Iff.rfl⟩ (.inr hdeletes)

/-- Where the table does not refuse the row, the value is there afterwards exactly if the INSERT is
    executed, or if it was there before and the DELETE has no effect. -/
theorem values_replace_iff (hfree : ∃ t', (t.deleteWhere p).insert? row = some t') (hrow : p row) :
    (t.replace faults p row).values p val = [val row] ↔
      (faults.Inserts ∨ (¬ faults.Deletes ∧ t.values p val = [val row])) := by
  rw [replace_eq]
  by_cases hinserts : faults.Inserts
  · refine iff_of_true ?_ (.inl hinserts)
    obtain ⟨t', hinsert⟩ := hfree
    rw [if_pos hinserts, hinsert, Option.getD_some, values_insert? hrow hinsert, values_deleteWhere]
  · rw [if_neg hinserts, or_iff_right hinserts]
    by_cases hdeletes : faults.Deletes
    · rw [if_pos hdeletes, values_deleteWhere]
      exact iff_of_false nofun fun h => h.1 hdeletes
    · rw [if_neg hdeletes, and_iff_right hdeletes]

end Table

end Schemes
