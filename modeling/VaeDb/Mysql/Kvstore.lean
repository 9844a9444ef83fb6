import VaeDb.Schemes.Table

/-! The long-term cache: table `kvstore` behind the `MysqlProxy::longTermCache*` functions.

    PRIMARY KEY (`subdomain`, `k`), and every statement selects on that pair or on the subdomain.
    What a read answers is `valueAt`: the row's value, or the empty string when there is no row. The
    lemmas say what each function does to `valueAt`; the expiry date of a row only matters to the
    sweeper.

    The schema declares utf8mb4 and no collation, so strings compare by the server's default, which
    ignores the case at least: `Logo.png` and `logo.png` are one key, and so are the rows of the sites
    `Shop` and `shop`. The collation is a parameter of all that follows. Values are taken to fit their
    columns. -/

namespace VaeDb.Kvstore
open Schemes

/-- A row of `kvstore`; `expire_at` is NULL when the date computed for it is out of range. -/
structure Row where
  subdomain : String
  k : String
  v : String
  expire_at : Option ℤ
  is_filename : ℤ
  deriving DecidableEq, Repr

/-- The pair (`subdomain`, `k`) by its weights. -/
def weights (collation : Collation) (subdomain key : String) : String × String :=
  (collation subdomain, collation key)

abbrev Row.key (collation : Collation) (r : Row) : String × String :=
  weights collation r.subdomain r.k

/-- The table with its PRIMARY KEY (`subdomain`, `k`). -/
abbrev KvTable (collation : Collation) := Table Row (Row.key collation)

variable {collation : Collation}

/-! ### Dates: seconds, from `0000-01-01 00:00:00` to `9999-12-31 23:59:59` -/

/-- `DATE_ADD(NOW(), INTERVAL days DAY)`: NULL outside the DATETIME range. -/
def dateAdd (now days : ℤ) : Option ℤ :=
  let t := now + 86400 * days
  if -62167219200 ≤ t ∧ t ≤ 253402300799 then some t else none

/-- `getInt` of `DATEDIFF(expire_at, NOW())`: whole days apart, 0 for NULL. -/
def remainingDays (expire_at : Option ℤ) (now : ℤ) : ℤ :=
  match expire_at with
  | some t => t / 86400 - now / 86400
  | none => 0

/-- The condition `expire_at < NOW()`, which NULL does not meet. -/
def expired (now : ℤ) (r : Row) : Bool :=
  match r.expire_at with
  | some t => t < now
  | none => false

/-! ### Statements -/

/-- The condition `k=? AND subdomain=?`. -/
def matchesRow (collation : Collation) (subdomain key : String) (r : Row) : Bool :=
  r.key collation = weights collation subdomain key

def selectRow (t : KvTable collation) (subdomain key : String) : List Row :=
  t.rows.filter (matchesRow collation subdomain key)

def deleteRow (t : KvTable collation) (subdomain key : String) : KvTable collation :=
  t.deleteWhere (matchesRow collation subdomain key)

/-- An INSERT the key rejects throws; the exception is logged and the table stays as it is. -/
def insertRow (t : KvTable collation) (now : ℤ) (subdomain key value : String)
    (expireInterval isFilename : ℤ) : KvTable collation :=
  (t.insert? ⟨subdomain, key, value, dateAdd now expireInterval, isFilename⟩).getD t

def renewRow (t : KvTable collation) (now : ℤ) (subdomain key : String) (renewExpiry : ℤ) :
    KvTable collation :=
  t.updateWhere (matchesRow collation subdomain key)
    (fun r => { r with expire_at := dateAdd now renewExpiry }) fun _ => rfl

/-! ### The functions of the proxy -/

/-- Read the value; a row within ten days of its expiry is renewed when `renewExpiry > 0`. -/
def longTermCacheGet (t : KvTable collation) (now : ℤ) (subdomain key : String) (renewExpiry : ℤ) :
    String × KvTable collation :=
  (selectRow t subdomain key).foldl
    (fun acc r => (r.v,
      if 0 < renewExpiry ∧ remainingDays r.expire_at now < 10 then
        renewRow acc.2 now subdomain key renewExpiry
      else acc.2))
    ("", t)

def longTermCacheSet (t : KvTable collation) (now : ℤ) (subdomain key value : String)
    (expireInterval isFilename : ℤ) : KvTable collation :=
  insertRow (deleteRow t subdomain key) now subdomain key value expireInterval isFilename

def longTermCacheEmpty (t : KvTable collation) (subdomain : String) : KvTable collation :=
  t.deleteWhere fun r => collation r.subdomain = collation subdomain

def longTermCacheDelete (t : KvTable collation) (subdomain key : String) : KvTable collation :=
  deleteRow t subdomain key

/-- Sweep the expired rows of the site, then report the file names that are left. -/
def longTermCacheSweeperInfo (t : KvTable collation) (now : ℤ) (subdomain : String) :
    List (String × String) × KvTable collation :=
  let t := t.deleteWhere fun r =>
    expired now r && decide (collation r.subdomain = collation subdomain)
  let files := t.rows.filter fun r =>
    decide (r.is_filename = 1) && decide (collation r.subdomain = collation subdomain)
  (files.map fun r => (r.k, r.v), t)

/-! ### What a read answers -/

/-- The value of a key: the row's, or the empty string. -/
def valueAt (t : KvTable collation) (subdomain key : String) : String :=
  ((t.rowAt (weights collation subdomain key)).map Row.v).getD ""

theorem selectRow_eq (t : KvTable collation) (subdomain key : String) :
    selectRow t subdomain key = (t.rowAt (weights collation subdomain key)).toList :=
  Table.filter_key t (weights collation subdomain key)

theorem longTermCacheGet_fst (t : KvTable collation) (now : ℤ) (subdomain key : String)
    (renewExpiry : ℤ) :
    (longTermCacheGet t now subdomain key renewExpiry).1 = valueAt t subdomain key := by
  rw [longTermCacheGet, selectRow_eq, valueAt]
  cases t.rowAt (weights collation subdomain key) <;> rfl

/-- A renewal moves the expiry date and no value. -/
theorem rowAt_renewRow (t : KvTable collation) (now : ℤ) (subdomain key : String) (renewExpiry : ℤ)
    (k : String × String) :
    ((renewRow t now subdomain key renewExpiry).rowAt k).map Row.v = (t.rowAt k).map Row.v := by
  rw [renewRow, Table.rowAt_updateWhere, Option.map_map]
  congr 1
  funext r
  by_cases hm : matchesRow collation subdomain key r <;> simp [hm]

theorem valueAt_renewRow (t : KvTable collation) (now : ℤ) (subdomain key : String)
    (renewExpiry : ℤ) (s k : String) :
    valueAt (renewRow t now subdomain key renewExpiry) s k = valueAt t s k := by
  rw [valueAt, rowAt_renewRow, valueAt]

theorem valueAt_longTermCacheGet (t : KvTable collation) (now : ℤ) (subdomain key : String)
    (renewExpiry : ℤ) (s k : String) :
    valueAt (longTermCacheGet t now subdomain key renewExpiry).2 s k = valueAt t s k := by
  rw [longTermCacheGet, selectRow_eq]
  cases t.rowAt (weights collation subdomain key) with
  | none => rfl
  | some r =>
    simp only [Option.toList_some, List.foldl_cons, List.foldl_nil]
    split
    · exact valueAt_renewRow t now subdomain key renewExpiry s k
    · rfl

theorem rowAt_deleteRow (t : KvTable collation) (subdomain key : String) (k : String × String) :
    (deleteRow t subdomain key).rowAt k =
      if k = weights collation subdomain key then none else t.rowAt k := by
  rw [deleteRow, Table.rowAt_deleteWhere]
  cases hr : t.rowAt k with
  | none => simp
  | some r =>
    have hkey : r.key collation = k := (Table.rowAt_eq_some.mp hr).2
    by_cases h : k = weights collation subdomain key
    · rw [if_pos h, Option.filter_some, if_neg (by simp [matchesRow, hkey, h])]
    · rw [if_neg h, Option.filter_some, if_pos (by simp [matchesRow, hkey, h])]

/-- A DELETE takes away the value of every key that compares equal. -/
theorem valueAt_deleteRow (t : KvTable collation) (subdomain key s k : String) :
    valueAt (deleteRow t subdomain key) s k =
      if weights collation s k = weights collation subdomain key then "" else valueAt t s k := by
  rw [valueAt, rowAt_deleteRow, valueAt]
  split <;> rfl

/-- An INSERT at a free key stores the value. -/
theorem rowAt_insertRow {t : KvTable collation} {subdomain key : String}
    (hfree : t.rowAt (weights collation subdomain key) = none) (now : ℤ) (value : String)
    (expireInterval isFilename : ℤ) (k : String × String) :
    (insertRow t now subdomain key value expireInterval isFilename).rowAt k =
      if k = weights collation subdomain key then
        some ⟨subdomain, key, value, dateAdd now expireInterval, isFilename⟩
      else t.rowAt k := by
  rw [insertRow]
  cases hi : t.insert? ⟨subdomain, key, value, dateAdd now expireInterval, isFilename⟩ with
  | none =>
    obtain ⟨q, hq⟩ := Table.insert?_eq_none.mp hi
    exact absurd (hfree.symm.trans hq) (by simp)
  | some t' =>
    rw [Option.getD_some, Table.rowAt_insert? hi]
    by_cases h : k = weights collation subdomain key
    · rw [if_pos h, if_pos h.symm]
    · rw [if_neg h, if_neg (Ne.symm h)]

/-- A set stores the value, for every key that compares equal: its own DELETE has freed the key. -/
theorem valueAt_longTermCacheSet (t : KvTable collation) (now : ℤ) (subdomain key value : String)
    (expireInterval isFilename : ℤ) (s k : String) :
    valueAt (longTermCacheSet t now subdomain key value expireInterval isFilename) s k =
      if weights collation s k = weights collation subdomain key then value else valueAt t s k := by
  have hfree : (deleteRow t subdomain key).rowAt (weights collation subdomain key) = none := by
    rw [rowAt_deleteRow, if_pos rfl]
  rw [valueAt, longTermCacheSet, rowAt_insertRow hfree, rowAt_deleteRow, valueAt]
  split <;> rfl

theorem valueAt_longTermCacheEmpty (t : KvTable collation) (subdomain key : String) :
    valueAt (longTermCacheEmpty t subdomain) subdomain key = "" := by
  rw [valueAt, longTermCacheEmpty, Table.rowAt_deleteWhere]
  cases hr : t.rowAt (weights collation subdomain key) with
  | none => rfl
  | some r =>
    have hsub : collation r.subdomain = collation subdomain :=
      congrArg Prod.fst (Table.rowAt_eq_some.mp hr).2
    simp [Option.filter, hsub]

/-- The sweep takes the value away exactly where the row had expired. -/
theorem valueAt_sweep (t : KvTable collation) (now : ℤ) (subdomain key : String) :
    valueAt (longTermCacheSweeperInfo t now subdomain).2 subdomain key =
      if ∃ r ∈ t.rows, matchesRow collation subdomain key r ∧ expired now r then ""
      else valueAt t subdomain key := by
  simp only [matchesRow, decide_eq_true_eq]
  rw [valueAt, longTermCacheSweeperInfo, Table.rowAt_deleteWhere]
  cases hr : t.rowAt (weights collation subdomain key) with
  | none =>
    have hnone : ¬∃ r ∈ t.rows, r.key collation = weights collation subdomain key ∧
        expired now r := by
      rintro ⟨r, hmem, hkey, -⟩
      exact Table.rowAt_eq_none.mp hr r hmem hkey
    rw [if_neg hnone, valueAt, hr]
    rfl
  | some r =>
    obtain ⟨hmem, hkey⟩ := Table.rowAt_eq_some.mp hr
    have hsub : collation r.subdomain = collation subdomain := congrArg Prod.fst hkey
    have hiff : (∃ q ∈ t.rows, q.key collation = weights collation subdomain key ∧
        expired now q) ↔ expired now r := by
      constructor
      · rintro ⟨q, hq, hqk, hexp⟩
        rwa [← Table.eq_of_key_eq hq hmem (hqk.trans hkey.symm)]
      · exact fun hexp => ⟨r, hmem, hkey, hexp⟩
    by_cases hexp : expired now r
    · rw [if_pos (hiff.mpr hexp)]
      simp [Option.filter, hexp, hsub]
    · rw [if_neg (mt hiff.mp hexp), valueAt, hr]
      simp [Option.filter, hexp]

end VaeDb.Kvstore
