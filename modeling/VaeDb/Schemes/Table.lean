import Mathlib.Data.Int.Notation
import Mathlib.Data.List.Nodup
import Mathlib.Tactic.Common

/-! Tables with a unique key.

    A table is a list of rows no two of which agree on the key; the structure carries that fact, so
    a table that breaks its key cannot be built. `insert?` is an INSERT that the key may reject,
    `deleteWhere` a DELETE with a condition, `updateWhere` an UPDATE that leaves the key alone. The
    lemmas say what each statement does to the row at a key (`rowAt`), which is all that a lookup by
    key ever sees.

    A column of strings compares by a collation, so its part of the key is the weight of the string
    and not the string: `Ab` and `ab` cannot both be keys where the case is ignored. -/

namespace Schemes

universe u v

variable {ρ : Type u} {κ : Type v}

/-- A collation, given by the weights of strings: it takes strings of one weight to be equal. -/
abbrev Collation := String → String

/-- The collation that ignores the case of ASCII letters. -/
def foldCase : Collation := fun s => String.ofList (s.toList.map Char.toLower)

/-- Rows that are pairwise different on `key`. -/
structure Table (ρ : Type u) {κ : Type v} (key : ρ → κ) where
  rows : List ρ
  nodup : (rows.map key).Nodup

namespace Table

variable {key : ρ → κ}

def empty : Table ρ key := ⟨[], List.nodup_nil⟩

/-- DELETE: drop the rows the condition selects. -/
def deleteWhere (t : Table ρ key) (p : ρ → Bool) : Table ρ key where
  rows := t.rows.filter fun r => !p r
  nodup := (List.filter_sublist.map key).nodup t.nodup

/-- UPDATE: rewrite the rows the condition selects, without touching their key. -/
def updateWhere (t : Table ρ key) (p : ρ → Bool) (f : ρ → ρ) (hf : ∀ r, key (f r) = key r) :
    Table ρ key where
  rows := t.rows.map fun r => if p r then f r else r
  nodup := by
    have hkey : (t.rows.map fun r => if p r then f r else r).map key = t.rows.map key := by
      rw [List.map_map]
      refine List.map_congr_left fun r _ => ?_
      by_cases hp : p r
      · simp [hp, hf]
      · simp [hp]
    rw [hkey]
    exact t.nodup

/-- Two rows with one key are one row. -/
theorem eq_of_key_eq {t : Table ρ key} {q r : ρ} (hq : q ∈ t.rows) (hr : r ∈ t.rows)
    (h : key q = key r) : q = r :=
  List.inj_on_of_nodup_map t.nodup hq hr h

@[simp] theorem mem_deleteWhere {t : Table ρ key} {p : ρ → Bool} {r : ρ} :
    r ∈ (t.deleteWhere p).rows ↔ r ∈ t.rows ∧ p r = false := by
  simp [deleteWhere]

variable [DecidableEq κ]

/-- INSERT: rejected when a row with the same key is there. -/
def insert? (t : Table ρ key) (r : ρ) : Option (Table ρ key) :=
  if h : key r ∈ t.rows.map key then none
  else some ⟨r :: t.rows, by rw [List.map_cons]; exact List.nodup_cons.mpr ⟨h, t.nodup⟩⟩

/-- The row with key `k`, if there is one. -/
def rowAt (t : Table ρ key) (k : κ) : Option ρ := t.rows.find? fun r => key r = k

theorem rowAt_eq_none {t : Table ρ key} {k : κ} :
    t.rowAt k = none ↔ ∀ r ∈ t.rows, key r ≠ k := by
  simp [rowAt]

/-- A row of the table is the row at its key. -/
theorem rowAt_eq_some {t : Table ρ key} {k : κ} {r : ρ} :
    t.rowAt k = some r ↔ r ∈ t.rows ∧ key r = k := by
  have hsome : ∀ {q : ρ}, t.rowAt k = some q → q ∈ t.rows ∧ key q = k := by
    intro q hq
    rw [rowAt] at hq
    exact ⟨List.mem_of_find?_eq_some hq, by simpa using List.find?_some hq⟩
  refine ⟨hsome, fun ⟨hr, hk⟩ => ?_⟩
  cases hf : t.rowAt k with
  | none => exact absurd hk (rowAt_eq_none.mp hf r hr)
  | some q => rw [eq_of_key_eq (hsome hf).1 hr ((hsome hf).2.trans hk.symm)]

@[simp] theorem rowAt_empty (k : κ) : (empty : Table ρ key).rowAt k = none := rfl

/-- A SELECT on the key reads the row at that key and nothing else. -/
theorem filter_key (t : Table ρ key) (k : κ) :
    t.rows.filter (fun r => key r = k) = (t.rowAt k).toList := by
  obtain ⟨rows, hnodup⟩ := t
  rw [rowAt]
  induction rows with
  | nil => rfl
  | cons r rows ih =>
    rw [List.map_cons, List.nodup_cons] at hnodup
    by_cases hk : key r = k
    · have hrest : rows.filter (fun q => key q = k) = [] := by
        rw [List.filter_eq_nil_iff]
        intro q hq hqk
        exact hnodup.1 (hk ▸ of_decide_eq_true hqk ▸ List.mem_map_of_mem hq)
      simp [hk, hrest]
    · simp only [List.filter_cons, List.find?_cons, hk, decide_false]
      exact ih hnodup.2

/-- A SELECT on the key and a further condition. -/
theorem filter_key_and (t : Table ρ key) (k : κ) (p : ρ → Bool) :
    t.rows.filter (fun r => decide (key r = k) && p r) = ((t.rowAt k).filter p).toList := by
  have hsplit : t.rows.filter (fun r => decide (key r = k) && p r)
      = (t.rows.filter fun r => key r = k).filter p := by
    rw [List.filter_filter]
    refine List.filter_congr fun r _ => Bool.and_comm _ _
  rw [hsplit, filter_key]
  cases t.rowAt k with
  | none => rfl
  | some r => by_cases hp : p r <;> simp [hp, Option.filter]

/-- After a DELETE the row at `k` is what it was, unless the condition selected it. -/
theorem rowAt_deleteWhere (t : Table ρ key) (p : ρ → Bool) (k : κ) :
    (t.deleteWhere p).rowAt k = (t.rowAt k).filter fun r => !p r := by
  cases h : t.rowAt k with
  | none =>
    rw [Option.filter_none, rowAt_eq_none]
    intro r hr
    exact rowAt_eq_none.mp h r (mem_deleteWhere.mp hr).1
  | some r =>
    obtain ⟨hr, hk⟩ := rowAt_eq_some.mp h
    by_cases hp : p r
    · rw [Option.filter_some, if_neg (by simp [hp]), rowAt_eq_none]
      intro q hq hqk
      obtain ⟨hqt, hqp⟩ := mem_deleteWhere.mp hq
      obtain rfl := eq_of_key_eq hqt hr (hqk.trans hk.symm)
      rw [hp] at hqp
      exact absurd hqp (by decide)
    · rw [Option.filter_some, if_pos (by simp [hp]), rowAt_eq_some]
      exact ⟨mem_deleteWhere.mpr ⟨hr, by simpa using hp⟩, hk⟩

theorem rowAt_updateWhere (t : Table ρ key) (p : ρ → Bool) (f : ρ → ρ)
    (hf : ∀ r, key (f r) = key r) (k : κ) :
    (t.updateWhere p f hf).rowAt k = (t.rowAt k).map fun r => if p r then f r else r := by
  have hkey : ∀ r, key (if p r then f r else r) = key r := fun r => by
    by_cases hp : p r
    · simp [hp, hf]
    · simp [hp]
  simp only [rowAt, updateWhere, List.find?_map]
  congr 2
  funext r
  simp [hkey r]

/-- An INSERT goes through exactly when its key is free. -/
theorem insert?_eq_none {t : Table ρ key} {r : ρ} :
    t.insert? r = none ↔ ∃ q, t.rowAt (key r) = some q := by
  rw [insert?]
  constructor
  · intro h
    split at h
    · next hm =>
      obtain ⟨q, hq, hk⟩ := List.mem_map.mp hm
      exact ⟨q, rowAt_eq_some.mpr ⟨hq, hk⟩⟩
    · cases h
  · rintro ⟨q, hq⟩
    obtain ⟨hq, hk⟩ := rowAt_eq_some.mp hq
    rw [dif_pos (hk ▸ List.mem_map_of_mem hq)]

theorem insert?_rows {t t' : Table ρ key} {r : ρ} (h : t.insert? r = some t') :
    t'.rows = r :: t.rows := by
  rw [insert?] at h
  split at h
  · cases h
  · cases h
    rfl

theorem rowAt_insert? {t t' : Table ρ key} {r : ρ} (h : t.insert? r = some t') (k : κ) :
    t'.rowAt k = if key r = k then some r else t.rowAt k := by
  rw [rowAt, insert?_rows h, List.find?_cons]
  by_cases hk : key r = k
  · simp [hk]
  · simp [hk, rowAt]

end Table

end Schemes
