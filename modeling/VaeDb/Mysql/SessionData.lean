import VaeDb.Schemes.Table

/-! The session cache: table `session_data` behind `MysqlProxy::sessionCacheGet`,
    `sessionCacheSet`, `sessionCacheDelete` and `garbageCollect`.

    The schema declares PRIMARY KEY (`id`), while every statement but the garbage collection selects
    on `id` and `subdomain` together. A set is a DELETE of the site's own row followed by an INSERT;
    when the `id` belongs to another site the DELETE misses that row, the key rejects the INSERT,
    and the exception is caught and logged.

        set(site, id, v):   row at id:   none ──▶ DELETE nothing, INSERT ──▶ v
                                     own row ──▶ DELETE it,      INSERT ──▶ v
                              another site's ──▶ DELETE nothing, INSERT rejected ──▶ (lost)

    The schema declares no collation for utf8mb4, so strings compare by the server's default, which
    ignores the case at least: the ids `AB` and `ab` are one key, and a set of the one replaces the row
    of the other. The collation is a parameter of all that follows. Values are taken to fit their
    columns. -/

namespace VaeDb.SessionData
open Schemes

/-- A row of `session_data`. -/
structure Row where
  id : String
  subdomain : String
  data : String
  expires : ℤ
  deriving DecidableEq, Repr

/-- The `id` by its weight. -/
abbrev Row.key (collation : Collation) (r : Row) : String := collation r.id

/-- The table with its PRIMARY KEY (`id`). -/
abbrev SessionTable (collation : Collation) := Table Row (Row.key collation)

variable {collation : Collation}

/-- The condition `id=? AND subdomain=?` of the prepared statements. -/
def matchesRow (collation : Collation) (subdomain key : String) (r : Row) : Bool :=
  decide (r.key collation = collation key) && decide (collation r.subdomain = collation subdomain)

/-- `SELECT data WHERE id=? AND subdomain=?`; the fetch loop keeps the last row it reads. -/
def sessionCacheGet (t : SessionTable collation) (subdomain key : String) : String :=
  (t.rows.filter (matchesRow collation subdomain key)).foldl (fun _ r => r.data) ""

/-- DELETE the row, then INSERT the new one, valid for two days from `now`. A rejected INSERT
    throws; the exception is logged and the table stays as the DELETE left it. -/
def sessionCacheSet (t : SessionTable collation) (now : ℤ) (subdomain key value : String) :
    SessionTable collation :=
  let t := t.deleteWhere (matchesRow collation subdomain key)
  (t.insert? ⟨key, subdomain, value, now + 86400 * 2⟩).getD t

def sessionCacheDelete (t : SessionTable collation) (subdomain key : String) :
    SessionTable collation :=
  t.deleteWhere (matchesRow collation subdomain key)

/-- `DELETE WHERE expires < UNIX_TIMESTAMP()`. -/
def garbageCollect (t : SessionTable collation) (now : ℤ) : SessionTable collation :=
  t.deleteWhere fun r => r.expires < now

/-- The calls that write the table. -/
inductive Op where
  | sessionCacheSet (now : ℤ) (subdomain key value : String)
  | sessionCacheDelete (subdomain key : String)
  | garbageCollect (now : ℤ)

def apply (t : SessionTable collation) : Op → SessionTable collation
  | .sessionCacheSet now subdomain key value => sessionCacheSet t now subdomain key value
  | .sessionCacheDelete subdomain key => sessionCacheDelete t subdomain key
  | .garbageCollect now => garbageCollect t now

/-- The table a sequence of calls leads to, from the freshly created one. -/
def tableAfter (collation : Collation) (ops : List Op) : SessionTable collation :=
  ops.foldl apply Table.empty

/-- A CHAR column keeps so many characters, and no blanks at the end. -/
def FitsChar (width : ℕ) (s : String) : Prop := s.length ≤ width ∧ s.toList.getLast? ≠ some ' '

/-- The pair fits the columns `subdomain` char(25) and `id` char(33). -/
def Fits (subdomain key : String) : Prop := FitsChar 25 subdomain ∧ FitsChar 33 key

/-- The row at the id is the site's own, if there is one. -/
def Own (t : SessionTable collation) (subdomain key : String) : Prop :=
  ∀ r ∈ t.rows, collation r.id = collation key → collation r.subdomain = collation subdomain

/-! ### What a read answers -/

/-- A read sees the row at the id, if it is the site's own. -/
theorem sessionCacheGet_eq (t : SessionTable collation) (subdomain key : String) :
    sessionCacheGet t subdomain key =
      (((t.rowAt (collation key)).filter fun r => collation r.subdomain = collation subdomain).map
        Row.data).getD "" := by
  have hsel : t.rows.filter (matchesRow collation subdomain key) = _ :=
    Table.filter_key_and t (collation key) fun r => collation r.subdomain = collation subdomain
  rw [sessionCacheGet, hsel]
  cases (t.rowAt (collation key)).filter fun r =>
    decide (collation r.subdomain = collation subdomain) <;> rfl

/-- Pairs that compare equal read the same. -/
theorem sessionCacheGet_congr (t : SessionTable collation) {subdomain subdomain' key key' : String}
    (hs : collation subdomain' = collation subdomain) (hk : collation key' = collation key) :
    sessionCacheGet t subdomain' key' = sessionCacheGet t subdomain key := by
  rw [sessionCacheGet_eq, sessionCacheGet_eq, hs, hk]

/-- Where the row is the site's own, another site reads nothing. -/
theorem Own.get_other {t : SessionTable collation} {subdomain key : String}
    (hown : Own t subdomain key) {subdomain' key' : String}
    (hs : collation subdomain' ≠ collation subdomain) (hk : collation key' = collation key) :
    sessionCacheGet t subdomain' key' = "" := by
  rw [sessionCacheGet_eq, hk]
  cases hr : t.rowAt (collation key) with
  | none => rfl
  | some r =>
    obtain ⟨hmem, hid⟩ := Table.rowAt_eq_some.mp hr
    simp [Option.filter, hown r hmem hid, hs.symm]

/-! ### What a set does -/

/-- The DELETE of a set or delete touches only the row at the id, and that only if it is the
    site's own. -/
theorem rowAt_delete (t : SessionTable collation) (subdomain key k : String) :
    (t.deleteWhere (matchesRow collation subdomain key)).rowAt k =
      if k = collation key then
        (t.rowAt k).filter fun r => collation r.subdomain ≠ collation subdomain
      else t.rowAt k := by
  rw [Table.rowAt_deleteWhere]
  cases hr : t.rowAt k with
  | none => simp
  | some r =>
    have hid : collation r.id = k := (Table.rowAt_eq_some.mp hr).2
    by_cases hk : k = collation key
    · simp [matchesRow, hid, hk, Option.filter]
    · simp [matchesRow, hid, hk, Option.filter]

/-- A set whose id is free, or the site's own, stores the new row and keeps every other. -/
theorem Own.rowAt_set {t : SessionTable collation} {subdomain key : String}
    (hown : Own t subdomain key) (now : ℤ) (value k : String) :
    (sessionCacheSet t now subdomain key value).rowAt k =
      if k = collation key then some ⟨key, subdomain, value, now + 86400 * 2⟩ else t.rowAt k := by
  have hfree : (t.deleteWhere (matchesRow collation subdomain key)).rowAt (collation key) =
      none := by
    rw [rowAt_delete, if_pos rfl]
    cases hr : t.rowAt (collation key) with
    | none => rfl
    | some r =>
      obtain ⟨hmem, hid⟩ := Table.rowAt_eq_some.mp hr
      simp [Option.filter, hown r hmem hid]
  rw [sessionCacheSet]
  cases hi : (t.deleteWhere (matchesRow collation subdomain key)).insert?
      ⟨key, subdomain, value, now + 86400 * 2⟩ with
  | none =>
    obtain ⟨q, hq⟩ := Table.insert?_eq_none.mp hi
    rw [hfree] at hq
    cases hq
  | some t' =>
    rw [Option.getD_some, Table.rowAt_insert? hi, rowAt_delete]
    by_cases hk : k = collation key
    · simp [hk]
    · simp [hk, Ne.symm hk]

/-- So every pair that compares equal reads the new value, and all others read what they did. -/
theorem Own.get_set {t : SessionTable collation} {subdomain key : String}
    (hown : Own t subdomain key) (now : ℤ) (value subdomain' key' : String) :
    sessionCacheGet (sessionCacheSet t now subdomain key value) subdomain' key' =
      if collation subdomain' = collation subdomain ∧ collation key' = collation key then value
      else sessionCacheGet t subdomain' key' := by
  rw [sessionCacheGet_eq, hown.rowAt_set]
  by_cases hk : collation key' = collation key
  · by_cases hs : collation subdomain' = collation subdomain
    · simp [hk, hs, Option.filter]
    · -- the same id under another site: neither the old row nor the new one is visible there
      rw [hown.get_other hs hk]
      simp [hk, hs, Ne.symm hs, Option.filter]
  · rw [if_neg hk, if_neg fun h => hk h.2, sessionCacheGet_eq]

/-- A set whose id is held by another site changes nothing at all. -/
theorem rowAt_set_of_other {t : SessionTable collation} {subdomain key : String} {r : Row}
    (hr : t.rowAt (collation key) = some r) (hne : collation r.subdomain ≠ collation subdomain)
    (now : ℤ) (value k : String) :
    (sessionCacheSet t now subdomain key value).rowAt k = t.rowAt k := by
  have hkept : (t.deleteWhere (matchesRow collation subdomain key)).rowAt (collation key) =
      some r := by
    rw [rowAt_delete, if_pos rfl, hr]
    simp [Option.filter, hne]
  have hrej : (t.deleteWhere (matchesRow collation subdomain key)).insert?
      ⟨key, subdomain, value, now + 86400 * 2⟩ = none := Table.insert?_eq_none.mpr ⟨r, hkept⟩
  rw [sessionCacheSet, hrej, Option.getD_none]
  by_cases hk : k = collation key
  · rw [hk, hkept, hr]
  · rw [rowAt_delete, if_neg hk]

/-- CORRECT: set-then-get round-trips and leaves every other entry alone exactly when no other site
    holds a row with an id that compares equal (or the value is empty, which is also what a lost write
    reads as), and no other pair that fits the columns compares equal (or the value is the one that
    was there). The table is any table that respects its key, so in particular any
    `tableAfter collation ops`. -/
theorem sessionCacheSet_get_iff (t : SessionTable collation) (now : ℤ)
    (subdomain key value : String) :
    (sessionCacheGet (sessionCacheSet t now subdomain key value) subdomain key = value ∧
      ∀ subdomain' key', Fits subdomain' key' → (subdomain', key') ≠ (subdomain, key) →
        sessionCacheGet (sessionCacheSet t now subdomain key value) subdomain' key' =
          sessionCacheGet t subdomain' key') ↔
    (value = "" ∨ Own t subdomain key) ∧
      (sessionCacheGet t subdomain key = value ∨ ∀ subdomain' key', Fits subdomain' key' →
        collation subdomain' = collation subdomain → collation key' = collation key →
        (subdomain', key') = (subdomain, key)) := by
  by_cases hown : Own t subdomain key
  · refine and_congr (iff_of_true ?_ (Or.inr hown))
      ⟨fun h => ?_, fun h subdomain' key' hfits hne => ?_⟩
    · rw [hown.get_set, if_pos ⟨rfl, rfl⟩]
    · refine or_iff_not_imp_left.mpr fun hold subdomain' key' hfits hs hk => ?_
      by_contra hne
      have hkept := h subdomain' key' hfits hne
      rw [hown.get_set, if_pos ⟨hs, hk⟩, sessionCacheGet_congr t hs hk] at hkept
      exact hold hkept.symm
    · rw [hown.get_set]
      split
      · next hsame =>
        rw [sessionCacheGet_congr t hsame.1 hsame.2]
        exact h.elim Eq.symm fun h => absurd (h _ _ hfits hsame.1 hsame.2) hne
      · rfl
  · obtain ⟨r, hmem, hid, hne⟩ : ∃ r ∈ t.rows, collation r.id = collation key ∧
        collation r.subdomain ≠ collation subdomain := by
      simpa [Own] using hown
    have hr : t.rowAt (collation key) = some r := Table.rowAt_eq_some.mpr ⟨hmem, hid⟩
    have hsame : ∀ s k, sessionCacheGet (sessionCacheSet t now subdomain key value) s k =
        sessionCacheGet t s k := fun s k => by
      rw [sessionCacheGet_eq, sessionCacheGet_eq, rowAt_set_of_other hr hne]
    have hlost : sessionCacheGet t subdomain key = "" := by
      rw [sessionCacheGet_eq, hr]
      simp [Option.filter, hne]
    simp only [hsame, hlost, implies_true, and_true, or_iff_left hown]
    exact ⟨fun hv => ⟨hv.symm, Or.inl hv⟩, fun h => h.1.symm⟩

/-- Two sites use the session id `7f`: the second site's write is lost. And a write under `ab` is what
    the site then reads under `AB`. -/
theorem sessionCacheSet_lost :
    sessionCacheGet (sessionCacheSet
      (tableAfter foldCase [.sessionCacheSet 0 "alpha" "7f" "cart=1"]) 5 "beta" "7f" "cart=2")
      "beta" "7f" ≠ "cart=2" ∧
    sessionCacheGet (tableAfter foldCase [.sessionCacheSet 0 "alpha" "AB" "cart=1"]) "alpha" "AB" =
      "cart=1" ∧
    sessionCacheGet (sessionCacheSet
      (tableAfter foldCase [.sessionCacheSet 0 "alpha" "AB" "cart=1"]) 5 "alpha" "ab" "cart=2")
      "alpha" "AB" ≠ "cart=1" := by
  decide +kernel

end VaeDb.SessionData
