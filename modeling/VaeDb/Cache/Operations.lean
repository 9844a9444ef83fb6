import VaeDb.Mysql.Kvstore

/-! The cache operations of `VaeDbHandler`: `shortTermCache*` and `longTermCache*`.

    Both kinds live in one memcached, a map from full key to value. The full key of an entry is the
    concatenation of a prefix, the subdomain of the session's site, a marker of the kind and the
    client's key:

        short term   "VaedbProxy:" subdomain ":"          key
        long term    "VaedbProxy:" subdomain "LongTerm2:" key

    A long-term entry also has a row in `kvstore`, and memcached holds a copy of it. A call names a
    session; with an unknown session id every operation returns at once and does nothing. Flags and
    memcached's own expiry are left out: an entry may be dropped at any time (`Op.drop`). -/

namespace VaeDb.Cache
open Schemes Kvstore

/-- The kinds of entry that share one memcached. -/
inductive Kind where
  | shortTerm
  | longTerm
  deriving DecidableEq, Repr

/-- What stands between the subdomain and the client's key. -/
def Kind.marker : Kind → String
  | .shortTerm => ":"
  | .longTerm => "LongTerm2:"

/-- `fullKey` as the operations build it. -/
def fullKey (kind : Kind) (subdomain key : String) : String :=
  "VaedbProxy:" ++ subdomain ++ kind.marker ++ key

/-- memcached: full key to value. -/
abbrev Memcached := String → Option String

/-- `MemcacheProxy::get`: a missing entry reads as the empty string. -/
def Memcached.get (mc : Memcached) (key : String) : String := (mc key).getD ""

/-- `MemcacheProxy::set`. -/
def Memcached.set (mc : Memcached) (key value : String) : Memcached :=
  Function.update mc key (some value)

/-- `MemcacheProxy::remove`. -/
def Memcached.remove (mc : Memcached) (key : String) : Memcached := Function.update mc key none

@[simp] theorem Memcached.set_self (mc : Memcached) (key value : String) :
    mc.set key value key = some value := Function.update_self ..

theorem Memcached.set_of_ne (mc : Memcached) {key k : String} (value : String) (h : k ≠ key) :
    mc.set key value k = mc k := Function.update_of_ne h ..

@[simp] theorem Memcached.remove_self (mc : Memcached) (key : String) :
    mc.remove key key = none := Function.update_self ..

theorem Memcached.remove_of_ne (mc : Memcached) {key k : String} (h : k ≠ key) :
    mc.remove key k = mc k := Function.update_of_ne h ..

/-- The clock, the `kvstore` table and memcached. -/
structure World (collation : Collation) where
  now : ℤ
  kv : KvTable collation
  mc : Memcached

variable {collation : Collation}

/-- An empty table and an empty memcached. -/
def World.init (collation : Collation) (now : ℤ) : World collation := ⟨now, Table.empty, fun _ => none⟩

/-! ### The operations, for a session of the site `subdomain` -/

def shortTermCacheGet (w : World collation) (subdomain key : String) : String :=
  w.mc.get (fullKey .shortTerm subdomain key)

def shortTermCacheSet (w : World collation) (subdomain key value : String) : World collation :=
  { w with mc := w.mc.set (fullKey .shortTerm subdomain key) value }

def shortTermCacheDelete (w : World collation) (subdomain key : String) : World collation :=
  { w with mc := w.mc.remove (fullKey .shortTerm subdomain key) }

/-- With `useShortTermCache` a non-empty memcached copy is the answer; otherwise the row is read, and
    memcached gets a copy of what was read. -/
def longTermCacheGet (w : World collation) (subdomain key : String)
    (renewExpiry useShortTermCache : ℤ) : String × World collation :=
  let answer := if useShortTermCache ≠ 0 then w.mc.get (fullKey .longTerm subdomain key) else ""
  if answer ≠ "" then (answer, w)
  else
    let row := Kvstore.longTermCacheGet w.kv w.now subdomain key renewExpiry
    (row.1, { w with kv := row.2, mc := w.mc.set (fullKey .longTerm subdomain key) row.1 })

def longTermCacheSet (w : World collation) (subdomain key value : String)
    (expireInterval isFilename : ℤ) : World collation :=
  { w with
    kv := Kvstore.longTermCacheSet w.kv w.now subdomain key value expireInterval isFilename
    mc := w.mc.set (fullKey .longTerm subdomain key) value }

def longTermCacheDelete (w : World collation) (subdomain key : String) : World collation :=
  { w with
    kv := Kvstore.longTermCacheDelete w.kv subdomain key
    mc := w.mc.remove (fullKey .longTerm subdomain key) }

/-- The rows go; the memcached copies stay. -/
def longTermCacheEmpty (w : World collation) (subdomain : String) : World collation :=
  { w with kv := Kvstore.longTermCacheEmpty w.kv subdomain }

/-- The expired rows go; their memcached copies stay. -/
def longTermCacheSweeperInfo (w : World collation) (subdomain : String) :
    List (String × String) × World collation :=
  let swept := Kvstore.longTermCacheSweeperInfo w.kv w.now subdomain
  (swept.1, { w with kv := swept.2 })

/-! ### Runs -/

/-- The cache calls of the interface, without the session they are made for. -/
inductive Call where
  | shortTermCacheGet (key : String)
  | shortTermCacheSet (key value : String)
  | shortTermCacheDelete (key : String)
  | longTermCacheGet (key : String) (renewExpiry useShortTermCache : ℤ)
  | longTermCacheSet (key value : String) (expireInterval isFilename : ℤ)
  | longTermCacheDelete (key : String)
  | longTermCacheEmpty
  | longTermCacheSweeperInfo

/-- A call made for a session of the site `subdomain`. -/
def perform (w : World collation) (subdomain : String) : Call → World collation
  | .shortTermCacheGet _ => w
  | .shortTermCacheSet key value => shortTermCacheSet w subdomain key value
  | .shortTermCacheDelete key => shortTermCacheDelete w subdomain key
  | .longTermCacheGet key renewExpiry useShortTermCache =>
    (longTermCacheGet w subdomain key renewExpiry useShortTermCache).2
  | .longTermCacheSet key value expireInterval isFilename =>
    longTermCacheSet w subdomain key value expireInterval isFilename
  | .longTermCacheDelete key => longTermCacheDelete w subdomain key
  | .longTermCacheEmpty => longTermCacheEmpty w subdomain
  | .longTermCacheSweeperInfo => (longTermCacheSweeperInfo w subdomain).2

/-- A call by session `id`, the passing of time, or memcached dropping an entry. -/
inductive Op where
  | call (id : ℤ) (c : Call)
  | tick (d : ℕ)
  | drop (key : String)

/-- `sessions` gives the subdomain of a session's site; for an unknown session nothing happens. -/
def exec (sessions : ℤ → Option String) (w : World collation) : Op → World collation
  | .call id c =>
    match sessions id with
    | none => w
    | some subdomain => perform w subdomain c
  | .tick d => { w with now := w.now + d }
  | .drop key => { w with mc := w.mc.remove key }

/-- What a `longTermCacheGet` answers: the copy when it may be used and is not empty, else the row. -/
theorem longTermCacheGet_fst (w : World collation) (subdomain key : String)
    (renewExpiry useShortTermCache : ℤ) :
    (longTermCacheGet w subdomain key renewExpiry useShortTermCache).1 =
      if useShortTermCache ≠ 0 ∧ w.mc.get (fullKey .longTerm subdomain key) ≠ "" then
        w.mc.get (fullKey .longTerm subdomain key)
      else valueAt w.kv subdomain key := by
  rw [longTermCacheGet]
  by_cases hu : useShortTermCache = 0
  · simp [hu, Kvstore.longTermCacheGet_fst]
  · by_cases hc : w.mc.get (fullKey .longTerm subdomain key) = ""
    · simp [hu, hc, Kvstore.longTermCacheGet_fst]
    · simp [hu, hc]

/-- What a `longTermCacheGet` leaves behind: every value as it was, and memcached either untouched or
    with a copy of the row just read. -/
theorem longTermCacheGet_snd (w : World collation) (subdomain key : String)
    (renewExpiry useShortTermCache : ℤ) :
    (∀ s k, valueAt (longTermCacheGet w subdomain key renewExpiry useShortTermCache).2.kv s k =
      valueAt w.kv s k) ∧
    ((longTermCacheGet w subdomain key renewExpiry useShortTermCache).2.mc = w.mc ∨
      (longTermCacheGet w subdomain key renewExpiry useShortTermCache).2.mc =
        w.mc.set (fullKey .longTerm subdomain key) (valueAt w.kv subdomain key)) := by
  simp only [longTermCacheGet]
  generalize (if useShortTermCache ≠ 0 then w.mc.get (fullKey .longTerm subdomain key) else "") =
    answer
  rcases ne_or_eq answer "" with ha | ha
  · simp only [if_pos ha]
    exact ⟨fun _ _ => trivial, Or.inl trivial⟩
  · simp only [ha, ne_eq, not_true_eq_false, if_false]
    refine ⟨fun s k => valueAt_longTermCacheGet .., Or.inr ?_⟩
    rw [Kvstore.longTermCacheGet_fst]

end VaeDb.Cache
