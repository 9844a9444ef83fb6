import Mathlib.Data.Int.Notation
import Mathlib.Data.List.FinRange
import Mathlib.Logic.Function.Basic
import VaeDb.Schemes.Pool
import VaeDb.Schemes.Runs

/-! Connection pools: `getConnection` and `freeConnection` of `MysqlProxy` and of `MemcacheProxy`.

    `connPool` maps each connection to POOL_FREE or POOL_INUSE, and `availableConnections` counts the
    free ones beside it. `getConnection` waits on the condition while the count is 0; the
    `shared_ptr` that it returns calls `freeConnection` when the last copy goes. All of this is done
    under `poolMutex`, which `cond.wait` gives back and takes again: the system below interleaves
    critical sections.

        getConnection    count = 0 ──▶ wait ─ (notified or not) wake ──▶ try again
                         first free entry ──▶ in use, count − 1, a handle
                         no free entry ──▶ throw
        freeConnection   the entry of the handle ──▶ free, count + 1

    The two classes differ in how a connection is made, in how many there are and in the text that
    they throw. -/

namespace VaeDb.Proxy
open Schemes Schemes.Pool

variable {κ : Type} [LinearOrder κ]

inductive Thread where
  | running
  /-- in `cond.wait` -/
  | waiting
  | threw (message : String)
  deriving DecidableEq

/-- A pool and the threads that use it; `handles` has the `shared_ptr`s that are alive, each with the
    thread that asked for it. -/
structure State (κ : Type) where
  connPool : List (κ × Status)
  availableConnections : ℤ
  threads : ℕ → Thread
  handles : List (ℕ × κ)

namespace State

def empty : State κ := ⟨[], 0, fun _ => .running, []⟩

/-- One round of the constructor's loop; `none` is NULL. -/
def add (s : State κ) : Option κ → State κ
  | none => s
  | some con => { s with
      connPool := assign con .free s.connPool
      availableConnections := s.availableConnections + 1 }

/-- The constructor, given what `createConnection` returns in each round. -/
def new {n : ℕ} (createConnection : Fin n → Option κ) : State κ :=
  (List.finRange n).foldl (fun s i => s.add (createConnection i)) empty

/-- `getConnection` by thread `t` from where it has the mutex, on entry or after a wait, to where it
    gives it back. -/
def getConnection (message : String) (s : State κ) (t : ℕ) : State κ :=
  if s.availableConnections = 0 then { s with threads := Function.update s.threads t .waiting }
  else match take s.connPool with
    | some (con, connPool) =>
      { connPool
        availableConnections := s.availableConnections - 1
        threads := Function.update s.threads t .running
        handles := (t, con) :: s.handles }
    | none => { s with threads := Function.update s.threads t (.threw message) }

/-- `freeConnection`, the deleter of a handle. -/
def freeConnection (s : State κ) (t : ℕ) (con : κ) : State κ :=
  { s with
    connPool := giveBack con s.connPool
    availableConnections := s.availableConnections + entries con s.connPool
    handles := s.handles.erase (t, con) }

/-- The threads that hold a connection. -/
def holders (s : State κ) (con : κ) : List ℕ := (s.handles.filter (·.2 = con)).map Prod.fst

end State

/-- A critical section. A thread that waits may wake up at any time. -/
inductive Act (κ : Type) where
  | getConnection (t : ℕ)
  | wake (t : ℕ)
  | freeConnection (t : ℕ) (con : κ)

def step (message : String) (s : State κ) : Act κ → Option (State κ)
  | .getConnection t => if s.threads t = .running then some (s.getConnection message t) else none
  | .wake t => if s.threads t = .waiting then some (s.getConnection message t) else none
  | .freeConnection t con => if (t, con) ∈ s.handles then some (s.freeConnection t con) else none

/-! ### The two classes -/

namespace MysqlProxy

def NUM_CONNECTIONS : ℕ := 8

def message : String := "MySQL Thread Pool Error: Should never get here"

/-- What the driver does in one `createConnection`: the connection that `connect` returns, if it does
    not throw, and whether `setSchema` throws. -/
structure Attempt (κ : Type) where
  connect : Option κ
  setSchemaThrows : Bool

def createConnection (a : Attempt κ) : Option κ :=
  match a.connect with
  | none => none
  | some con => if a.setSchemaThrows then none else some con

/-- The driver during the constructor. Each `connect` makes a new object, and none is deleted. -/
structure Driver (κ : Type) where
  attempts : Fin NUM_CONNECTIONS → Attempt κ
  fresh : ∀ i j con, (attempts i).connect = some con → (attempts j).connect = some con → i = j

def new (driver : Driver κ) : State κ := State.new fun i => createConnection (driver.attempts i)

end MysqlProxy

namespace MemcacheProxy

def MEMCACHE_NUM_CONNECTIONS : ℕ := 16

def message : String := "Memcache Thread Pool Error: Should never get here"

/-- `new` at the address `con`. -/
def createConnection (con : κ) : Option κ := some con

def new (addresses : Fin MEMCACHE_NUM_CONNECTIONS ↪ κ) : State κ :=
  State.new fun i => createConnection (addresses i)

end MemcacheProxy

/-! ### The invariant -/

structure Inv (s : State κ) : Prop where
  balanced : Balanced s.connPool (s.handles.map Prod.snd)
  available : s.availableConnections = frees s.connPool
  never : ∀ t message, s.threads t ≠ .threw message

variable {s : State κ} {t : ℕ} {con : κ}

/-- A thread that runs or waits has not thrown. -/
theorem update_never {threads : ℕ → Thread} {th : Thread}
    (h : ∀ t message, threads t ≠ .threw message) (hth : ∀ message, th ≠ .threw message) :
    ∀ t' message, Function.update threads t th t' ≠ .threw message := by
  intro t' message
  rcases eq_or_ne t' t with rfl | hne
  · rw [Function.update_self]
    exact hth message
  · rw [Function.update_of_ne hne]
    exact h t' message

theorem inv_getConnection (hs : Inv s) (message : String) : Inv (s.getConnection message t) := by
  rw [State.getConnection]
  split
  · exact ⟨hs.balanced, hs.available, update_never hs.never (by simp)⟩
  · next hne =>
    have hfrees : frees s.connPool ≠ 0 := fun h => hne (by rw [hs.available, h]; rfl)
    split
    · next con connPool htake =>
      obtain ⟨hbalanced, hcount⟩ := hs.balanced.take htake
      refine ⟨hbalanced, ?_, update_never hs.never (by simp)⟩
      have havailable := hs.available
      dsimp only
      omega
    · next htake => exact absurd (take_eq_none.mp htake) hfrees

theorem inv_freeConnection (hs : Inv s) (hmem : (t, con) ∈ s.handles) :
    Inv (s.freeConnection t con) := by
  obtain ⟨before, after, -, hhandles, herase⟩ := List.exists_erase_eq hmem
  have hbalanced : Balanced s.connPool (before.map Prod.snd ++ con :: after.map Prod.snd) := by
    have := hs.balanced
    rwa [hhandles, List.map_append, List.map_cons] at this
  obtain ⟨hback, hone, hcount⟩ := hbalanced.giveBack
  refine ⟨?_, ?_, hs.never⟩
  · rw [State.freeConnection, herase, List.map_append]
    exact hback
  · have havailable := hs.available
    rw [State.freeConnection]
    dsimp only
    omega

theorem inv_step (message : String) (s : State κ) (a : Act κ) (s' : State κ) (hs : Inv s)
    (h : step message s a = some s') : Inv s' := by
  cases a with
  | getConnection t =>
    rw [step] at h
    split at h <;> cases h
    exact inv_getConnection hs message
  | wake t =>
    rw [step] at h
    split at h <;> cases h
    exact inv_getConnection hs message
  | freeConnection t con =>
    rw [step] at h
    split at h
    · next hmem =>
      cases h
      exact inv_freeConnection hs hmem
    · cases h

theorem inv_add (hs : Inv s) (hnew : con ∉ s.connPool.map Prod.fst) : Inv (s.add (some con)) := by
  obtain ⟨hbalanced, hcount⟩ := hs.balanced.assign hnew
  refine ⟨hbalanced, ?_, hs.never⟩
  have havailable := hs.available
  rw [State.add]
  dsimp only
  omega

/-- The constructor's loop, over rounds that bring connections which the pool does not have. -/
theorem inv_adds {n : ℕ} {createConnection : Fin n → Option κ}
    (hfresh : ∀ i j con, createConnection i = some con → createConnection j = some con → i = j)
    {is : List (Fin n)} (hnodup : is.Nodup) (hs : Inv s)
    (hnew : ∀ i ∈ is, ∀ con, createConnection i = some con → con ∉ s.connPool.map Prod.fst) :
    Inv (is.foldl (fun s i => s.add (createConnection i)) s) := by
  induction is generalizing s with
  | nil => exact hs
  | cons i is ih =>
    obtain ⟨hi, his⟩ := List.nodup_cons.mp hnodup
    rw [List.foldl_cons]
    cases hcreate : createConnection i with
    | none => exact ih his hs fun j hj => hnew j (List.mem_cons_of_mem i hj)
    | some con =>
      have hcon := hnew i List.mem_cons_self con hcreate
      refine ih his (inv_add hs hcon) ?_
      intro j hj con' hcon'
      have hperm : (assign con .free s.connPool).Perm ((con, .free) :: s.connPool) := assign_perm hcon
      rw [State.add, (hperm.map Prod.fst).mem_iff, List.map_cons, List.mem_cons, not_or]
      refine ⟨?_, hnew j (List.mem_cons_of_mem i hj) con' hcon'⟩
      rintro rfl
      exact hi (hfresh j i con' hcon' hcreate ▸ hj)

theorem inv_new {n : ℕ} {createConnection : Fin n → Option κ}
    (hfresh : ∀ i j con, createConnection i = some con → createConnection j = some con → i = j) :
    Inv (State.new createConnection) := by
  refine inv_adds hfresh (List.nodup_finRange n) ⟨⟨List.nodup_nil, ?_⟩, rfl, ?_⟩ ?_
  · simp [State.empty]
  · simp [State.empty]
  · simp [State.empty]

theorem MysqlProxy.inv_new (driver : MysqlProxy.Driver κ) : Inv (MysqlProxy.new driver) := by
  have hconnect : ∀ i con, MysqlProxy.createConnection (driver.attempts i) = some con →
      (driver.attempts i).connect = some con := by
    intro i con h
    rw [MysqlProxy.createConnection] at h
    split at h
    · cases h
    · next con' hcon' =>
      split at h <;> cases h
      exact hcon'
  exact Proxy.inv_new fun i j con hi hj =>
    driver.fresh i j con (hconnect i con hi) (hconnect j con hj)

theorem MemcacheProxy.inv_new (addresses : Fin MemcacheProxy.MEMCACHE_NUM_CONNECTIONS ↪ κ) :
    Inv (MemcacheProxy.new addresses) :=
  Proxy.inv_new fun _ _ _ hi hj =>
    addresses.injective ((Option.some.inj hi).trans (Option.some.inj hj).symm)

/-! ### The main result -/

/-- The count is right, a connection in use has one holder, a free one none, and no thread got to the
    end of `getConnection`. -/
structure Safe (s : State κ) : Prop where
  available : s.availableConnections = frees s.connPool
  inuse : ∀ con, (con, .inuse) ∈ s.connPool → ∃ t, s.holders con = [t]
  free : ∀ con, (con, .free) ∈ s.connPool → s.holders con = []
  never : ∀ t message, s.threads t ≠ .threw message

theorem length_holders (s : State κ) (con : κ) :
    (s.holders con).length = (s.handles.map Prod.snd).count con := by
  rw [State.holders, List.length_map, ← List.countP_eq_length_filter, List.count, List.countP_map]
  exact List.countP_congr fun h _ => by simp

theorem safe_of_inv (hs : Inv s) : Safe s where
  available := hs.available
  inuse := fun con hcon => by
    rw [← List.length_eq_one_iff, length_holders, hs.balanced.out, if_pos hcon]
  free := fun con hcon => by
    rw [← List.length_eq_zero_iff, length_holders, hs.balanced.out,
      if_neg (hs.balanced.not_inuse hcon)]
  never := hs.never

/-- CORRECT: whatever connections come up, in every state that any interleaving of the critical
    sections of any number of threads reaches, with any wake-ups, both pools are safe. -/
theorem connections_safe :
    (∀ (driver : MysqlProxy.Driver κ) (acts : List (Act κ)) (s : State κ),
      run (step MysqlProxy.message) (MysqlProxy.new driver) acts = some s → Safe s) ∧
    ∀ (addresses : Fin MemcacheProxy.MEMCACHE_NUM_CONNECTIONS ↪ κ) (acts : List (Act κ))
      (s : State κ),
      run (step MemcacheProxy.message) (MemcacheProxy.new addresses) acts = some s → Safe s := by
  constructor
  · intro driver acts s h
    exact safe_of_inv (run_invariant' (inv_step _) (MysqlProxy.inv_new driver) h)
  · intro addresses acts s h
    exact safe_of_inv (run_invariant' (inv_step _) (MemcacheProxy.inv_new addresses) h)

/-- Two of the eight attempts fail. -/
def driver : MysqlProxy.Driver ℕ where
  attempts := fun i => ⟨if i.val = 3 then none else some (100 - i.val), i.val = 5⟩
  fresh := by decide

def addresses : Fin MemcacheProxy.MEMCACHE_NUM_CONNECTIONS ↪ ℕ :=
  ⟨fun i => i.val + 100, fun _ _ h => Fin.ext (Nat.add_right_cancel h)⟩

/-- Seven threads ask; the last one wakes up in vain, then gets the connection that another gives
    back. -/
def contended : List (Act ℕ) :=
  (List.range 7).map .getConnection ++ [.wake 6, .freeConnection 2 96, .wake 6]

theorem connections_safe_contended : ∃ s s',
    run (step MysqlProxy.message) (MysqlProxy.new driver) contended = some s ∧
    (s.availableConnections = 0 ∧ s.holders 96 = [6]) ∧ Safe s ∧
    run (step MemcacheProxy.message) (MemcacheProxy.new addresses) (contended.take 7) = some s' ∧
    (s'.availableConnections = 9 ∧ s'.holders 106 = [6]) ∧ Safe s' := by
  have hmysql : ((run (step MysqlProxy.message) (MysqlProxy.new driver) contended).map fun s =>
      (s.availableConnections, s.holders 96)) = some (0, [6]) := by
    decide +kernel
  have hmemcache : ((run (step MemcacheProxy.message) (MemcacheProxy.new addresses)
      (contended.take 7)).map fun s => (s.availableConnections, s.holders 106)) = some (9, [6]) := by
    decide +kernel
  obtain ⟨s, hrun, hs⟩ := Option.map_eq_some_iff.mp hmysql
  obtain ⟨s', hrun', hs'⟩ := Option.map_eq_some_iff.mp hmemcache
  exact ⟨s, s', hrun, Prod.mk.inj hs, connections_safe.1 _ _ _ hrun,
    hrun', Prod.mk.inj hs', connections_safe.2 _ _ _ hrun'⟩

end VaeDb.Proxy
