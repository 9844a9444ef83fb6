import VaeDb.Handler.Loading
import VaeDb.Schemes.Deadlock

/-! All calls that work on `sites`, at the same time: `getSite`, `resetSite` and `reloadSite`.

    As in `Loading` each mutex operation and each access to a map is a step, and now the entries of a
    key also go away and are replaced. A `reloadSite` looks up which entries there are, reads the feed,
    erases both entries, and loads the ones there were, production first, each under the mutex of its
    key. The mutex of a key is taken by a call that holds nothing, `sitesMutex` by one that holds at
    most the mutex of a key.

        getSite     _get_site_mutex ─ lock site ─ _getSite ─ read_s3 ─ _loadSite ─ validate ─ unlock
        resetSite   _resetSite
        reloadSite  count ─ read_s3 ─ _resetSite
                      ─ _get_site_mutex ─ lock site ─ _loadSite ─ unlock      production
                      ─ _get_site_mutex ─ lock site ─ _loadSite ─ unlock      staging          -/

namespace VaeDb.Serving
open Schemes
open Sites (sitesKey)
open Loading (Mutex Lookup)

/-- What a load is for: a `getSite`, or a `reloadSite` with staging still to come or not. -/
inductive Job where
  | get
  | reload (subdomain : String) (staging : Bool)

/-- What a `_resetSite` is for: a `resetSite`, or a `reloadSite` that found these entries. -/
inductive Reason where
  | reset
  | reload (prod staging : Bool)

/-- A `reloadSite` does not ask for the secret key. -/
def Reason.force : Reason → Bool
  | .reset => false
  | .reload _ _ => true

/-- The next step of a call. -/
inductive Pc where
  | idle
  -- `_get_site_mutex`
  | lockMutexes (job : Job) (key : String)
  | countMutex (job : Job) (key : String)
  | newMutex (job : Job) (key : String)
  | unlockMutexes (job : Job) (key : String) (mutex : ℕ)
  | lockSite (job : Job) (key : String) (mutex : ℕ)
  -- `_getSite`
  | lockGet (key : String) (mutex : ℕ)
  | countSite (key : String) (mutex : ℕ)
  | checkSite (key : String) (mutex : ℕ)
  | unlockGet (key : String) (mutex : ℕ) (result : Lookup)
  | readFeed (key : String) (mutex : ℕ)
  -- `_loadSite`
  | build (job : Job) (key : String) (mutex : ℕ)
  | lockLoad (job : Job) (key : String) (mutex : ℕ) (site : ℕ)
  | install (job : Job) (key : String) (mutex : ℕ) (site : ℕ)
  | unlockLoad (job : Job) (key : String) (mutex : ℕ) (site : ℕ)
  | validate (key : String) (mutex : ℕ) (site : ℕ)
  /-- the mutex of the key is given back, after a load or by an exception -/
  | leave (job : Job) (key : String) (mutex : ℕ) (result : Option ℕ)
  -- `reloadSite`
  | lockCount (subdomain : String)
  | countProd (subdomain : String)
  | countStaging (subdomain : String) (prod : Bool)
  | unlockCount (subdomain : String) (prod staging : Bool)
  | readReload (subdomain : String) (prod staging : Bool)
  -- `_resetSite`
  | lockReset (subdomain : String) (reason : Reason)
  | countReset (subdomain : String) (reason : Reason) (staging : Bool)
  | eraseSite (subdomain : String) (reason : Reason) (staging : Bool)
  | unlockReset (subdomain : String) (reason : Reason) (threw : Bool)

/-- What happens to the entries of `sites`. -/
inductive Event where
  | install (key : String) (site : ℕ)
  | erase (key : String)

/-- The Site in service for a key after these events, the last one first. -/
def serving : List Event → String → Option ℕ
  | [] => fun _ => none
  | .install k o :: past => Function.update (serving past) k (some o)
  | .erase k :: past => Function.update (serving past) k none

/-- The objects that were installed. -/
def installed : List Event → List ℕ :=
  List.filterMap fun
    | .install _ o => some o
    | .erase _ => none

/-- What all calls share. `log`, `started` (the length of the log when a call began) and `returned`
    are history. -/
structure Shared where
  owner : Mutex → Option ℕ
  siteMutexes : String → Option ℕ
  mutexes : ℕ
  sites : String → Option ℕ
  objects : ℕ
  log : List Event
  started : ℕ → ℕ
  returned : List (String × ℕ × ℕ)

def Shared.init : Shared :=
  ⟨fun _ => none, fun _ => none, 0, fun _ => none, 0, [], fun _ => 0, []⟩

def Shared.lock (w : Shared) (c : ℕ) (m : Mutex) : Option Shared :=
  match w.owner m with
  | some _ => none
  | none => some { w with owner := Function.update w.owner m (some c) }

def Shared.unlock (w : Shared) (m : Mutex) : Shared :=
  { w with owner := Function.update w.owner m none }

def Shared.begin (w : Shared) (c : ℕ) : Shared :=
  { w with started := Function.update w.started c w.log.length }

/-- Where a `reloadSite` goes on that still has these entries to load. -/
def Pc.reloads (subdomain : String) (prod staging : Bool) : Pc :=
  if prod then .lockMutexes (.reload subdomain staging) (sitesKey subdomain false)
  else if staging then .lockMutexes (.reload subdomain false) (sitesKey subdomain true)
  else .idle

/-- One step of call `c`, and where the call goes on; `throws` says whether a Site that is built or
    asked for its key in this step throws. -/
def advance (c : ℕ) (throws : Bool) (w : Shared) : Pc → Option (Shared × Pc)
  | .idle => none
  | .lockMutexes j k => (w.lock c .sites).map fun w => (w, .countMutex j k)
  | .countMutex j k => match w.siteMutexes k with
    | some m => some (w, .unlockMutexes j k m)
    | none => some (w, .newMutex j k)
  | .newMutex j k => some ({ w with
      siteMutexes := Function.update w.siteMutexes k (some w.mutexes)
      mutexes := w.mutexes + 1 }, .unlockMutexes j k w.mutexes)
  | .unlockMutexes j k m => some (w.unlock .sites, .lockSite j k m)
  | .lockSite .get k m => (w.lock c (.site m)).map fun w => (w, .lockGet k m)
  | .lockSite (.reload d s) k m => (w.lock c (.site m)).map fun w => (w, .build (.reload d s) k m)
  | .lockGet k m => (w.lock c .sites).map fun w => (w, .countSite k m)
  | .countSite k m =>
    if (w.sites k).isSome then some (w, .checkSite k m) else some (w, .unlockGet k m .absent)
  | .checkSite k m => match w.sites k with
    | some o => some (w, .unlockGet k m (if throws then .threw else .found o))
    | none => none
  | .unlockGet k m .threw => some (w.unlock .sites, .leave .get k m none)
  | .unlockGet k m (.found o) => some (w.unlock .sites, .leave .get k m (some o))
  | .unlockGet k m .absent => some (w.unlock .sites, .readFeed k m)
  | .readFeed k m => some (w, .build .get k m)
  | .build j k m =>
    if throws then some (w, .leave j k m none)
    else some ({ w with objects := w.objects + 1 }, .lockLoad j k m w.objects)
  | .lockLoad j k m o => (w.lock c .sites).map fun w => (w, .install j k m o)
  | .install j k m o => some ({ w with
      sites := Function.update w.sites k (some o)
      log := .install k o :: w.log }, .unlockLoad j k m o)
  | .unlockLoad .get k m o => some (w.unlock .sites, .validate k m o)
  | .unlockLoad (.reload d s) k m o => some (w.unlock .sites, .leave (.reload d s) k m (some o))
  | .validate k m o => some (w, .leave .get k m (if throws then none else some o))
  | .leave _ _ m none => some (w.unlock (.site m), .idle)
  | .leave .get k m (some o) =>
    some ({ w.unlock (.site m) with returned := (k, o, w.started c) :: w.returned }, .idle)
  | .leave (.reload d s) _ m (some _) => some (w.unlock (.site m), .reloads d false s)
  | .lockCount d => (w.lock c .sites).map fun w => (w, .countProd d)
  | .countProd d => some (w, .countStaging d (w.sites (sitesKey d false)).isSome)
  | .countStaging d p => some (w, .unlockCount d p (w.sites (sitesKey d true)).isSome)
  | .unlockCount d p s => some (w.unlock .sites, .readReload d p s)
  | .readReload d p s => some (w, .lockReset d (.reload p s))
  | .lockReset d r => (w.lock c .sites).map fun w => (w, .countReset d r false)
  | .countReset d r s =>
    if (w.sites (sitesKey d s)).isSome then some (w, .eraseSite d r s)
    else if s then some (w, .unlockReset d r false)
    else some (w, .countReset d r true)
  | .eraseSite d r s =>
    if throws && !r.force then some (w, .unlockReset d r true)
    else some ({ w with
      sites := Function.update w.sites (sitesKey d s) none
      log := .erase (sitesKey d s) :: w.log },
      if s then .unlockReset d r false else .countReset d r true)
  | .unlockReset _ .reset _ => some (w.unlock .sites, .idle)
  | .unlockReset d (.reload p s) _ => some (w.unlock .sites, .reloads d p s)

structure State where
  shared : Shared
  calls : ℕ → Pc

def State.init : State := ⟨Shared.init, fun _ => .idle⟩

/-- The call that a client or the bus makes. -/
inductive Request where
  | getSite (subdomain : String) (stagingMode : Bool)
  | resetSite (subdomain : String)
  | reloadSite (subdomain : String)

def Request.start : Request → Pc
  | .getSite d m => .lockMutexes .get (sitesKey d m)
  | .resetSite d => .lockReset d .reset
  | .reloadSite d => .lockCount d

/-- The start of a call, or the next step of one. -/
inductive Act where
  | start (c : ℕ) (request : Request)
  | next (c : ℕ) (throws : Bool)

def step (s : State) : Act → Option State
  | .start c request => match s.calls c with
    | .idle => some ⟨s.shared.begin c, Function.update s.calls c request.start⟩
    | _ => none
  | .next c throws =>
    (advance c throws s.shared (s.calls c)).map fun (w, pc) => ⟨w, Function.update s.calls c pc⟩

/-! ### What a call holds, wants and knows -/

/-- The steps that may come after a load. -/
def Job.left : Job → ℕ
  | .get | .reload _ false => 0
  | .reload _ true => 16

/-- The steps that may come after a `_resetSite`. -/
def Reason.left : Reason → ℕ
  | .reset => 0
  | .reload _ _ => 32

namespace Pc

def held : Pc → List Mutex
  | .idle | .lockMutexes _ _ | .lockSite _ _ _ | .lockCount _ | .readReload _ _ _ | .lockReset _ _ =>
    []
  | .countMutex _ _ | .newMutex _ _ | .unlockMutexes _ _ _ | .countProd _ | .countStaging _ _
  | .unlockCount _ _ _ | .countReset _ _ _ | .eraseSite _ _ _ | .unlockReset _ _ _ => [.sites]
  | .countSite _ m | .checkSite _ m | .unlockGet _ m _ | .install _ _ m _ | .unlockLoad _ _ m _ =>
    [.sites, .site m]
  | .lockGet _ m | .readFeed _ m | .build _ _ m | .lockLoad _ _ m _ | .validate _ m _
  | .leave _ _ m _ => [.site m]

/-- The mutex that the next step takes. -/
def wants : Pc → Option Mutex
  | .lockMutexes _ _ | .lockGet _ _ | .lockLoad _ _ _ _ | .lockCount _ | .lockReset _ _ =>
    some .sites
  | .lockSite _ _ m => some (.site m)
  | _ => none

/-- The key and the mutex that the call has for it. -/
def mutex : Pc → Option (String × ℕ)
  | .unlockMutexes _ k m | .lockSite _ k m | .lockGet k m | .countSite k m | .checkSite k m
  | .unlockGet k m _ | .readFeed k m | .build _ k m | .lockLoad _ k m _ | .install _ k m _
  | .unlockLoad _ k m _ | .validate k m _ | .leave _ k m _ => some (k, m)
  | _ => none

/-- A key that has been seen to have no mutex. -/
def creating : Pc → Option String
  | .newMutex _ k => some k
  | _ => none

/-- A key that has been seen to have a Site, with `sitesMutex` not given back since. -/
def present : Pc → Option String
  | .checkSite k _ => some k
  | _ => none

/-- A Site that has been built and not yet installed. -/
def built : Pc → Option ℕ
  | .lockLoad _ _ _ o | .install _ _ _ o => some o
  | _ => none

/-- A key with the Site that has been found or installed. -/
def found : Pc → Option (String × ℕ)
  | .unlockGet k _ (.found o) | .unlockLoad _ k _ o | .validate k _ o | .leave .get k _ (some o) =>
    some (k, o)
  | _ => none

/-- The key for which the call is in `_loadSite`. -/
def loads : Pc → Option String
  | .build _ k _ | .lockLoad _ k _ _ | .install _ k _ _ | .unlockLoad _ k _ _ => some k
  | _ => none

/-- An upper bound for the steps that the call still makes. -/
def left : Pc → ℕ
  | .idle => 0
  | .leave j _ _ _ => 1 + Job.left j
  | .validate _ _ _ => 2
  | .unlockLoad j _ _ _ => 3 + Job.left j
  | .install j _ _ _ => 4 + Job.left j
  | .lockLoad j _ _ _ => 5 + Job.left j
  | .build j _ _ => 6 + Job.left j
  | .readFeed _ _ => 7
  | .unlockGet _ _ _ => 8
  | .checkSite _ _ => 9
  | .countSite _ _ => 10
  | .lockGet _ _ => 11
  | .lockSite j _ _ => 12 + Job.left j
  | .unlockMutexes j _ _ => 13 + Job.left j
  | .newMutex j _ => 14 + Job.left j
  | .countMutex j _ => 15 + Job.left j
  | .lockMutexes j _ => 16 + Job.left j
  | .unlockReset _ r _ => 1 + Reason.left r
  | .eraseSite _ r true => 2 + Reason.left r
  | .countReset _ r true => 3 + Reason.left r
  | .eraseSite _ r false => 4 + Reason.left r
  | .countReset _ r false => 5 + Reason.left r
  | .lockReset _ r => 6 + Reason.left r
  | .readReload _ _ _ => 39
  | .unlockCount _ _ _ => 40
  | .countStaging _ _ => 41
  | .countProd _ => 42
  | .lockCount _ => 43

end Pc

/-! ### What a step does -/

variable {c : ℕ} {throws : Bool} {w w' : Shared} {pc pc' : Pc}

theorem lock_eq_some {m : Mutex} (h : w.lock c m = some w') :
    w.owner m = none ∧ w' = { w with owner := Function.update w.owner m (some c) } := by
  rw [Shared.lock] at h
  split at h
  · cases h
  · next hfree => exact ⟨hfree, (Option.some.inj h).symm⟩

theorem reloads_held (d : String) (p s : Bool) : (Pc.reloads d p s).held = [] := by
  cases p <;> cases s <;> rfl

theorem reloads_left (d : String) (p s : Bool) :
    (Pc.reloads d p s).left ≤ (Reason.reload p s).left ∧
      (Pc.reloads d false s).left = (Job.reload d s).left := by
  cases p <;> cases s <;> simp [Pc.reloads, Pc.left, Job.left, Reason.left]

/-- A step takes the mutex that it waits for, gives back the one taken last, or does neither. -/
inductive Moves (c : ℕ) (w : Shared) (pc : Pc) (w' : Shared) (pc' : Pc) : Prop
  | acquire (m : Mutex) (free : w.owner m = none)
      (owner : w'.owner = Function.update w.owner m (some c)) (held : pc'.held = m :: pc.held)
  | release (m : Mutex) (owner : w'.owner = Function.update w.owner m none)
      (held : pc.held = m :: pc'.held) (last : m ∉ pc'.held)
  | keep (owner : w'.owner = w.owner) (held : pc'.held = pc.held)

theorem advance_moves (h : advance c throws w pc = some (w', pc')) : Moves c w pc w' pc' := by
  have hlock : ∀ {m : Mutex} {next : Pc}, next.held = m :: pc.held →
      (w.lock c m).map (fun w => (w, next)) = some (w', pc') → Moves c w pc w' pc' := by
    intro m next hheld hmap
    obtain ⟨w₁, hw₁, heq⟩ := Option.map_eq_some_iff.mp hmap
    obtain ⟨hfree, rfl⟩ := lock_eq_some hw₁
    cases heq
    exact .acquire m hfree rfl hheld
  cases pc with
  | idle => cases h
  | lockMutexes j k | lockGet k m | lockLoad j k m o | lockCount d | lockReset d r =>
    exact hlock rfl h
  | lockSite j k m => cases j <;> exact hlock rfl h
  | countMutex j k | countSite k m | build j k m =>
    rw [advance] at h
    split at h <;> cases h <;> exact .keep rfl rfl
  | checkSite k m =>
    rw [advance] at h
    split at h <;> cases h
    exact .keep rfl rfl
  | newMutex j k | readFeed k m | install j k m o | validate k m o | countProd d | countStaging d p
  | readReload d p s =>
    cases h
    exact .keep rfl rfl
  | countReset d r s =>
    rw [advance] at h
    cases s <;> split at h <;> cases h <;> exact .keep rfl rfl
  | eraseSite d r s =>
    rw [advance] at h
    cases s <;> split at h <;> cases h <;> exact .keep rfl rfl
  | unlockMutexes j k m | unlockCount d p s =>
    cases h
    exact .release .sites rfl rfl (by simp [Pc.held])
  | unlockGet k m r => cases r <;> cases h <;> exact .release .sites rfl rfl (by simp [Pc.held])
  | unlockLoad j k m o => cases j <;> cases h <;> exact .release .sites rfl rfl (by simp [Pc.held])
  | unlockReset d r threw =>
    cases r <;> cases h
    · exact .release .sites rfl rfl (by simp [Pc.held])
    · exact .release .sites rfl (by rw [reloads_held]; rfl) (by simp [reloads_held])
  | leave j k m r =>
    cases r <;> cases j <;> cases h
    · exact .release (.site m) rfl rfl (by simp [Pc.held])
    · exact .release (.site m) rfl rfl (by simp [Pc.held])
    · exact .release (.site m) rfl rfl (by simp [Pc.held])
    · exact .release (.site m) rfl (by rw [reloads_held]; rfl) (by simp [reloads_held])

/-- Every step brings the call closer to its end. -/
theorem advance_left (h : advance c throws w pc = some (w', pc')) : pc'.left < pc.left := by
  have hlock : ∀ {m : Mutex} {next : Pc}, next.left < pc.left →
      (w.lock c m).map (fun w => (w, next)) = some (w', pc') → pc'.left < pc.left := by
    intro m next hlt hmap
    obtain ⟨w₁, -, heq⟩ := Option.map_eq_some_iff.mp hmap
    cases heq
    exact hlt
  cases pc with
  | idle => cases h
  | lockMutexes j k | lockGet k m | lockLoad j k m o | lockCount d | lockReset d r =>
    exact hlock (by simp [Pc.left]) h
  | lockSite j k m => cases j <;> exact hlock (by simp [Pc.left, Job.left]) h
  | countMutex j k | countSite k m | build j k m =>
    rw [advance] at h
    split at h <;> cases h <;> simp [Pc.left]
  | checkSite k m =>
    rw [advance] at h
    split at h <;> cases h
    simp [Pc.left]
  | newMutex j k | readFeed k m | install j k m o | validate k m o | countProd d | countStaging d p
  | readReload d p s | unlockMutexes j k m | unlockCount d p s =>
    cases h
    simp [Pc.left, Job.left, Reason.left]
  | countReset d r s =>
    rw [advance] at h
    cases s <;> split at h <;> cases h <;> simp [Pc.left]
  | eraseSite d r s =>
    rw [advance] at h
    cases s <;> split at h <;> cases h <;> simp [Pc.left]
  | unlockGet k m r => cases r <;> cases h <;> simp [Pc.left, Job.left]
  | unlockLoad j k m o => cases j <;> cases h <;> simp [Pc.left, Job.left]
  | unlockReset d r threw =>
    cases r <;> cases h
    · simp [Pc.left]
    · exact Nat.lt_one_add_iff.mpr (reloads_left ..).1
  | leave j k m r =>
    cases r <;> cases j <;> cases h
    · simp [Pc.left]
    · simp [Pc.left]
    · simp [Pc.left]
    · exact Nat.lt_one_add_iff.mpr (reloads_left _ false _).2.le

/-- A call that does not wait for a mutex of another one can go on. -/
theorem advance_enabled (hidle : pc ≠ .idle) (hpresent : ∀ k, pc.present = some k → w.sites k ≠ none)
    (hfree : ∀ m, pc.wants = some m → w.owner m = none) :
    ∃ w' pc', advance c false w pc = some (w', pc') := by
  have hlock : ∀ {m : Mutex} (next : Pc), pc.wants = some m →
      ∃ w' pc', (w.lock c m).map (fun w => (w, next)) = some (w', pc') := by
    intro m next hm
    rw [Shared.lock, hfree m hm]
    exact ⟨_, _, rfl⟩
  cases pc with
  | idle => exact absurd rfl hidle
  | lockMutexes j k | lockGet k m | lockLoad j k m o | lockCount d | lockReset d r => exact hlock _ rfl
  | lockSite j k m => cases j <;> exact hlock _ rfl
  | checkSite k m =>
    obtain ⟨o, ho⟩ := Option.ne_none_iff_exists'.mp (hpresent k rfl)
    rw [advance, ho]
    exact ⟨_, _, rfl⟩
  | countMutex j k =>
    rw [advance]
    split <;> exact ⟨_, _, rfl⟩
  | countSite k m =>
    rw [advance]
    split <;> exact ⟨_, _, rfl⟩
  | countReset d r s =>
    rw [advance]
    cases s <;> split <;> exact ⟨_, _, rfl⟩
  | unlockGet k m r => cases r <;> exact ⟨_, _, rfl⟩
  | unlockLoad j k m o => cases j <;> exact ⟨_, _, rfl⟩
  | unlockReset d r threw => cases r <;> exact ⟨_, _, rfl⟩
  | leave j k m r => cases r <;> cases j <;> exact ⟨_, _, rfl⟩
  | newMutex | readFeed | install | validate | countProd | countStaging | readReload | unlockMutexes
  | unlockCount | build | eraseSite => exact ⟨_, _, rfl⟩

/-- A step changes none of the maps, or makes a mutex, installs a Site or takes one out. -/
inductive Writes (c : ℕ) (w : Shared) (pc : Pc) (w' : Shared) : Prop
  | nothing (siteMutexes : w'.siteMutexes = w.siteMutexes) (sites : w'.sites = w.sites)
      (log : w'.log = w.log) (started : w'.started = w.started)
      (returned : w'.returned = w.returned ∨
        ∃ k o, pc.found = some (k, o) ∧ w'.returned = (k, o, w.started c) :: w.returned)
  | mutex (k : String) (pc_eq : pc.creating = some k)
      (siteMutexes : w'.siteMutexes = Function.update w.siteMutexes k (some w.mutexes))
      (sites : w'.sites = w.sites) (log : w'.log = w.log) (started : w'.started = w.started)
      (returned : w'.returned = w.returned)
  | site (e : Event) (owns : .sites ∈ pc.held)
      (built : ∀ k o, e = .install k o → pc.built = some o)
      (siteMutexes : w'.siteMutexes = w.siteMutexes)
      (sites : w.sites = serving w.log → w'.sites = serving (e :: w.log))
      (log : w'.log = e :: w.log) (started : w'.started = w.started)
      (returned : w'.returned = w.returned)

theorem advance_writes (h : advance c throws w pc = some (w', pc')) : Writes c w pc w' := by
  have hlock : ∀ {m : Mutex} {next : Pc},
      (w.lock c m).map (fun w => (w, next)) = some (w', pc') → Writes c w pc w' := by
    intro m next hmap
    obtain ⟨w₁, hw₁, heq⟩ := Option.map_eq_some_iff.mp hmap
    obtain ⟨-, rfl⟩ := lock_eq_some hw₁
    cases heq
    exact .nothing rfl rfl rfl rfl (.inl rfl)
  cases pc with
  | idle => cases h
  | lockMutexes j k | lockGet k m | lockLoad j k m o | lockCount d | lockReset d r => exact hlock h
  | lockSite j k m => cases j <;> exact hlock h
  | countMutex j k | countSite k m | build j k m | checkSite k m =>
    rw [advance] at h
    split at h <;> cases h <;> exact .nothing rfl rfl rfl rfl (.inl rfl)
  | readFeed k m | validate k m o | countProd d | countStaging d p | readReload d p s
  | unlockMutexes j k m | unlockCount d p s =>
    cases h
    exact .nothing rfl rfl rfl rfl (.inl rfl)
  | countReset d r s =>
    rw [advance] at h
    cases s <;> split at h <;> cases h <;> exact .nothing rfl rfl rfl rfl (.inl rfl)
  | unlockGet k m r => cases r <;> cases h <;> exact .nothing rfl rfl rfl rfl (.inl rfl)
  | unlockLoad j k m o => cases j <;> cases h <;> exact .nothing rfl rfl rfl rfl (.inl rfl)
  | unlockReset d r threw => cases r <;> cases h <;> exact .nothing rfl rfl rfl rfl (.inl rfl)
  | leave j k m r =>
    cases r <;> cases j <;> cases h
    · exact .nothing rfl rfl rfl rfl (.inl rfl)
    · exact .nothing rfl rfl rfl rfl (.inl rfl)
    · exact .nothing rfl rfl rfl rfl (.inr ⟨_, _, rfl, rfl⟩)
    · exact .nothing rfl rfl rfl rfl (.inl rfl)
  | newMutex j k =>
    cases h
    exact .mutex k rfl rfl rfl rfl rfl rfl
  | install j k m o =>
    cases h
    exact .site (.install k o) (by simp [Pc.held]) (by rintro _ _ ⟨⟩; rfl) rfl
      (fun hsites => by rw [serving, ← hsites]) rfl rfl rfl
  | eraseSite d r s =>
    rw [advance] at h
    split at h <;> cases h
    · exact .nothing rfl rfl rfl rfl (.inl rfl)
    · exact .site (.erase (sitesKey d s)) (by simp [Pc.held]) (by rintro _ _ ⟨⟩) rfl
        (fun hsites => by rw [serving, ← hsites]) rfl rfl rfl

/-- A step builds a Site, installs the one that was built, or does neither. -/
inductive Builds (w : Shared) (pc : Pc) (w' : Shared) (pc' : Pc) : Prop
  | neither (objects : w'.objects = w.objects) (built : pc'.built = none ∨ pc'.built = pc.built)
      (log : installed w'.log = installed w.log)
  | build (objects : w'.objects = w.objects + 1) (built : pc'.built = some w.objects)
      (log : installed w'.log = installed w.log)
  | install (o : ℕ) (objects : w'.objects = w.objects) (was : pc.built = some o)
      (built : pc'.built = none) (log : installed w'.log = o :: installed w.log)

theorem reloads_built (d : String) (p s : Bool) : (Pc.reloads d p s).built = none := by
  cases p <;> cases s <;> rfl

theorem advance_builds (h : advance c throws w pc = some (w', pc')) : Builds w pc w' pc' := by
  have hlock : ∀ {m : Mutex} {next : Pc},
      (w.lock c m).map (fun w => (w, next)) = some (w', pc') →
      next.built = none ∨ next.built = pc.built → Builds w pc w' pc' := by
    intro m next hmap hbuilt
    obtain ⟨w₁, hw₁, heq⟩ := Option.map_eq_some_iff.mp hmap
    obtain ⟨-, rfl⟩ := lock_eq_some hw₁
    cases heq
    exact .neither rfl hbuilt rfl
  cases pc with
  | idle => cases h
  | lockMutexes j k | lockGet k m | lockCount d | lockReset d r => exact hlock h (.inl rfl)
  | lockLoad j k m o => exact hlock h (.inr rfl)
  | lockSite j k m => cases j <;> exact hlock h (.inl rfl)
  | countMutex j k | countSite k m | checkSite k m =>
    rw [advance] at h
    split at h <;> cases h <;> exact .neither rfl (.inl rfl) rfl
  | newMutex j k | readFeed k m | validate k m o | countProd d | countStaging d p | readReload d p s
  | unlockMutexes j k m | unlockCount d p s =>
    cases h
    exact .neither rfl (.inl rfl) rfl
  | countReset d r s =>
    rw [advance] at h
    cases s <;> split at h <;> cases h <;> exact .neither rfl (.inl rfl) rfl
  | eraseSite d r s =>
    rw [advance] at h
    cases s <;> split at h <;> cases h <;> exact .neither rfl (.inl rfl) rfl
  | unlockGet k m r => cases r <;> cases h <;> exact .neither rfl (.inl rfl) rfl
  | unlockLoad j k m o => cases j <;> cases h <;> exact .neither rfl (.inl rfl) rfl
  | unlockReset d r threw =>
    cases r <;> cases h
    · exact .neither rfl (.inl rfl) rfl
    · exact .neither rfl (.inl (reloads_built ..)) rfl
  | leave j k m r =>
    cases r <;> cases j <;> cases h
    · exact .neither rfl (.inl rfl) rfl
    · exact .neither rfl (.inl rfl) rfl
    · exact .neither rfl (.inl rfl) rfl
    · exact .neither rfl (.inl (reloads_built ..)) rfl
  | build j k m =>
    rw [advance] at h
    split at h <;> cases h
    · exact .neither rfl (.inl rfl) rfl
    · exact .build rfl rfl rfl
  | install j k m o =>
    cases h
    exact .install o rfl rfl rfl rfl

end VaeDb.Serving
