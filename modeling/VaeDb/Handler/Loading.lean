import VaeDb.Handler.Sites
import VaeDb.Schemes.Mutex
import VaeDb.Schemes.Runs

/-! Loading a site once: `getSite` under any interleaving of its mutexes.

    `sitesMutex` guards the two maps and is held for a few statements at a time. Each key has a mutex
    of its own, made on demand, that a `getSite` holds from its lookup to its return. Taking a mutex,
    giving it back and each access to a map are steps of their own; building a Site and checking the
    secret key may throw, and an exception gives back what is held.

        _get_site_mutex   lock sitesMutex ─ count ─ (new mutex) ─ unlock
                          lock the mutex of the key
        _getSite          lock sitesMutex ─ count ─ (validate) ─ unlock ──▶ found: return
        _loadSite         new Site ─ lock sitesMutex ─ sites[key] = site ─ unlock
                          validate ──▶ return, unlock the mutex of the key

    A call that loads has seen that the key has no Site, and holds the mutex that every other call on
    this key needs; so it still has none when the Site is installed. -/

namespace VaeDb.Loading
open Schemes
open Sites (sitesKey)

inductive Mutex where
  | sites
  /-- a mutex of `siteMutexes` -/
  | site (id : ℕ)
  deriving DecidableEq

/-- How `_getSite` ends. -/
inductive Lookup where
  | threw
  | absent
  | found (site : ℕ)

/-- The next step of a call on a key. `mutex` is the mutex of the key, `site` a Site object. -/
inductive Pc where
  | idle
  | lockMutexes (key : String)
  | countMutex (key : String)
  | newMutex (key : String)
  | unlockMutexes (key : String) (mutex : ℕ)
  | lockSite (key : String) (mutex : ℕ)
  | lockGet (key : String) (mutex : ℕ)
  | countSite (key : String) (mutex : ℕ)
  | checkSite (key : String) (mutex : ℕ)
  | unlockGet (key : String) (mutex : ℕ) (result : Lookup)
  | readFeed (key : String) (mutex : ℕ)
  | build (key : String) (mutex : ℕ)
  | lockLoad (key : String) (mutex : ℕ) (site : ℕ)
  | install (key : String) (mutex : ℕ) (site : ℕ)
  | unlockLoad (key : String) (mutex : ℕ) (site : ℕ)
  | validate (key : String) (mutex : ℕ) (site : ℕ)
  /-- the call ends, with a Site or by an exception -/
  | leave (key : String) (mutex : ℕ) (result : Option ℕ)

/-- What all calls share. Mutexes and Site objects are numbered as they are made; the last two fields
    are history. -/
structure Shared where
  owner : Mutex → Option ℕ
  siteMutexes : String → Option ℕ
  mutexes : ℕ
  sites : String → Option ℕ
  objects : ℕ
  installed : List (String × ℕ)
  returned : List (String × ℕ)

def Shared.init : Shared := ⟨fun _ => none, fun _ => none, 0, fun _ => none, 0, [], []⟩

/-- Take a mutex, if no call holds it. -/
def Shared.lock (w : Shared) (c : ℕ) (m : Mutex) : Option Shared :=
  match w.owner m with
  | some _ => none
  | none => some { w with owner := Function.update w.owner m (some c) }

def Shared.unlock (w : Shared) (m : Mutex) : Shared :=
  { w with owner := Function.update w.owner m none }

/-- One step of call `c`, and where the call goes on; `throws` says whether a Site that is built or
    asked for its key in this step throws. -/
def advance (c : ℕ) (throws : Bool) (w : Shared) : Pc → Option (Shared × Pc)
  | .idle => none
  | .lockMutexes k => (w.lock c .sites).map fun w => (w, .countMutex k)
  | .countMutex k => match w.siteMutexes k with
    | some m => some (w, .unlockMutexes k m)
    | none => some (w, .newMutex k)
  | .newMutex k => some ({ w with
      siteMutexes := Function.update w.siteMutexes k (some w.mutexes)
      mutexes := w.mutexes + 1 }, .unlockMutexes k w.mutexes)
  | .unlockMutexes k m => some (w.unlock .sites, .lockSite k m)
  | .lockSite k m => (w.lock c (.site m)).map fun w => (w, .lockGet k m)
  | .lockGet k m => (w.lock c .sites).map fun w => (w, .countSite k m)
  | .countSite k m =>
    if (w.sites k).isSome then some (w, .checkSite k m) else some (w, .unlockGet k m .absent)
  | .checkSite k m => match w.sites k with
    | some o => some (w, .unlockGet k m (if throws then .threw else .found o))
    | none => none
  | .unlockGet k m .threw => some (w.unlock .sites, .leave k m none)
  | .unlockGet k m (.found o) => some (w.unlock .sites, .leave k m (some o))
  | .unlockGet k m .absent => some (w.unlock .sites, .readFeed k m)
  | .readFeed k m => some (w, .build k m)
  | .build k m =>
    if throws then some (w, .leave k m none)
    else some ({ w with objects := w.objects + 1 }, .lockLoad k m w.objects)
  | .lockLoad k m o => (w.lock c .sites).map fun w => (w, .install k m o)
  | .install k m o => some ({ w with
      sites := Function.update w.sites k (some o)
      installed := w.installed ++ [(k, o)] }, .unlockLoad k m o)
  | .unlockLoad k m o => some (w.unlock .sites, .validate k m o)
  | .validate k m o => some (w, .leave k m (if throws then none else some o))
  | .leave _ m none => some (w.unlock (.site m), .idle)
  | .leave k m (some o) => some ({ w.unlock (.site m) with returned := w.returned ++ [(k, o)] }, .idle)

structure State where
  shared : Shared
  calls : ℕ → Pc

def State.init : State := ⟨Shared.init, fun _ => .idle⟩

/-- The start of a call, or the next step of one. -/
inductive Act where
  | getSite (c : ℕ) (subdomain : String) (stagingMode : Bool)
  | next (c : ℕ) (throws : Bool)

def step (s : State) : Act → Option State
  | .getSite c d m => match s.calls c with
    | .idle => some { s with calls := Function.update s.calls c (.lockMutexes (sitesKey d m)) }
    | _ => none
  | .next c throws =>
    (advance c throws s.shared (s.calls c)).map fun (w, pc) => ⟨w, Function.update s.calls c pc⟩

namespace Pc

/-- The key for which the call is in `_loadSite`. -/
def loads : Pc → Option String
  | .build k _ | .lockLoad k _ _ | .install k _ _ | .unlockLoad k _ _ => some k
  | _ => none

/-! ### What a call holds and knows -/

def held : Pc → List Mutex
  | .idle | .lockMutexes _ | .lockSite _ _ => []
  | .countMutex _ | .newMutex _ | .unlockMutexes _ _ => [.sites]
  | .countSite _ m | .checkSite _ m | .unlockGet _ m _ | .install _ m _ | .unlockLoad _ m _ =>
    [.sites, .site m]
  | .lockGet _ m | .readFeed _ m | .build _ m | .lockLoad _ m _ | .validate _ m _ | .leave _ m _ =>
    [.site m]

/-- The key and the mutex that the call has for it. -/
def mutex : Pc → Option (String × ℕ)
  | .idle | .lockMutexes _ | .countMutex _ | .newMutex _ => none
  | .unlockMutexes k m | .lockSite k m | .lockGet k m | .countSite k m | .checkSite k m
  | .unlockGet k m _ | .readFeed k m | .build k m | .lockLoad k m _ | .install k m _
  | .unlockLoad k m _ | .validate k m _ | .leave k m _ => some (k, m)

/-- A key that has been seen to have no mutex. -/
def creating : Pc → Option String
  | .newMutex k => some k
  | _ => none

/-- A key that has been seen to have no Site. -/
def absent : Pc → Option String
  | .unlockGet k _ .absent | .readFeed k _ | .build k _ | .lockLoad k _ _ | .install k _ _ => some k
  | _ => none

/-- A key with the Site that has been found or installed. -/
def found : Pc → Option (String × ℕ)
  | .unlockGet k _ (.found o) | .unlockLoad k _ o | .validate k _ o | .leave k _ (some o) =>
    some (k, o)
  | _ => none

end Pc

/-! ### What a step does -/

variable {c : ℕ} {throws : Bool} {w w' : Shared} {pc pc' : Pc}

theorem lock_eq_some {m : Mutex} (h : w.lock c m = some w') :
    w.owner m = none ∧ w' = { w with owner := Function.update w.owner m (some c) } := by
  rw [Shared.lock] at h
  split at h
  · cases h
  · next hfree => exact ⟨hfree, (Option.some.inj h).symm⟩

/-- A step takes a free mutex, gives back the one taken last, or does neither. -/
inductive Moves (c : ℕ) (w : Shared) (pc : Pc) (w' : Shared) (pc' : Pc) : Prop
  | acquire (m : Mutex) (free : w.owner m = none)
      (owner : w'.owner = Function.update w.owner m (some c)) (held : pc'.held = m :: pc.held)
  | release (m : Mutex) (owner : w'.owner = Function.update w.owner m none)
      (held : pc.held = m :: pc'.held) (last : m ∉ pc'.held)
  | keep (owner : w'.owner = w.owner) (held : pc'.held = pc.held)

theorem advance_moves (h : advance c throws w pc = some (w', pc')) : Moves c w pc w' pc' := by
  have hlock : ∀ {m : Mutex} {next : Pc}, next.held = m :: pc.held →
      (w.lock c m).map (fun w => (w, next)) = some (w', pc') → Moves c w pc w' pc' := by
    intro m next hheld hmap
    obtain ⟨w₁, hw₁, heq⟩ := Option.map_eq_some_iff.mp hmap
    obtain ⟨hfree, rfl⟩ := lock_eq_some hw₁
    cases heq
    exact .acquire m hfree rfl hheld
  cases pc with
  | idle => cases h
  | lockMutexes k => exact hlock rfl h
  | lockSite k m => exact hlock rfl h
  | lockGet k m => exact hlock rfl h
  | lockLoad k m o => exact hlock rfl h
  | countMutex k =>
    rw [advance] at h
    split at h <;> cases h <;> exact .keep rfl rfl
  | countSite k m =>
    rw [advance] at h
    split at h <;> cases h <;> exact .keep rfl rfl
  | checkSite k m =>
    rw [advance] at h
    split at h <;> cases h
    exact .keep rfl rfl
  | build k m =>
    rw [advance] at h
    split at h <;> cases h <;> exact .keep rfl rfl
  | newMutex k =>
    cases h
    exact .keep rfl rfl
  | readFeed k m =>
    cases h
    exact .keep rfl rfl
  | install k m o =>
    cases h
    exact .keep rfl rfl
  | validate k m o =>
    cases h
    exact .keep rfl rfl
  | unlockMutexes k m =>
    cases h
    exact .release .sites rfl rfl (by simp [Pc.held])
  | unlockLoad k m o =>
    cases h
    exact .release .sites rfl rfl (by simp [Pc.held])
  | unlockGet k m r =>
    cases r <;> cases h <;> exact .release .sites rfl rfl (by simp [Pc.held])
  | leave k m r =>
    cases r <;> cases h <;> exact .release (.site m) rfl rfl (by simp [Pc.held])

/-- What the call has seen is still so. -/
structure Knows (w : Shared) (pc : Pc) : Prop where
  mutex : ∀ k m, pc.mutex = some (k, m) → w.siteMutexes k = some m
  creating : ∀ k, pc.creating = some k → w.siteMutexes k = none
  absent : ∀ k, pc.absent = some k → w.sites k = none
  found : ∀ k o, pc.found = some (k, o) → w.sites k = some o

/-- What the call goes on knowing, as long as the maps stay the same. -/
theorem Knows.carry (hk : Knows w pc) (hsiteMutexes : w'.siteMutexes = w.siteMutexes)
    (hsites : w'.sites = w.sites) (hmutex : pc'.mutex = none ∨ pc'.mutex = pc.mutex)
    (hcreating : pc'.creating = none) (habsent : pc'.absent = none ∨ pc'.absent = pc.absent)
    (hfound : pc'.found = none ∨ pc'.found = pc.found) : Knows w' pc' := by
  constructor
  · intro k m h
    rw [hsiteMutexes]
    rcases hmutex with heq | heq <;> rw [heq] at h
    · cases h
    · exact hk.mutex k m h
  · intro k h
    rw [hcreating] at h
    cases h
  · intro k h
    rw [hsites]
    rcases habsent with heq | heq <;> rw [heq] at h
    · cases h
    · exact hk.absent k h
  · intro k o h
    rw [hsites]
    rcases hfound with heq | heq <;> rw [heq] at h
    · cases h
    · exact hk.found k o h

/-- What a call sees or does in a step is so afterwards. -/
theorem advance_knows (hk : Knows w pc) (h : advance c throws w pc = some (w', pc')) :
    Knows w' pc' := by
  cases pc with
  | idle => cases h
  | lockMutexes k | lockSite k m | lockGet k m =>
    obtain ⟨w₁, hw₁, heq⟩ := Option.map_eq_some_iff.mp h
    obtain ⟨-, rfl⟩ := lock_eq_some hw₁
    cases heq
    exact hk.carry rfl rfl (by simp [Pc.mutex]) rfl (.inl rfl) (.inl rfl)
  | lockLoad k m o =>
    obtain ⟨w₁, hw₁, heq⟩ := Option.map_eq_some_iff.mp h
    obtain ⟨-, rfl⟩ := lock_eq_some hw₁
    cases heq
    exact hk.carry rfl rfl (.inr rfl) rfl (.inr rfl) (.inl rfl)
  | countMutex k =>
    rw [advance] at h
    split at h <;> cases h
    · next m hm => exact ⟨by rintro _ _ ⟨⟩; exact hm, nofun, nofun, nofun⟩
    · next hm => exact ⟨nofun, by rintro _ ⟨⟩; exact hm, nofun, nofun⟩
  | newMutex k =>
    cases h
    exact ⟨by rintro _ _ ⟨⟩; exact Function.update_self .., nofun, nofun, nofun⟩
  | unlockMutexes k m =>
    cases h
    exact hk.carry rfl rfl (.inr rfl) rfl (.inl rfl) (.inl rfl)
  | countSite k m =>
    rw [advance] at h
    split at h <;> cases h
    · exact hk.carry rfl rfl (.inr rfl) rfl (.inl rfl) (.inl rfl)
    · next hnone =>
      refine ⟨hk.mutex, nofun, ?_, nofun⟩
      rintro _ ⟨⟩
      exact Option.not_isSome_iff_eq_none.mp hnone
  | checkSite k m =>
    rw [advance] at h
    split at h <;> cases h
    next o ho =>
      cases throws
      · exact ⟨hk.mutex, nofun, nofun, by rintro _ _ ⟨⟩; exact ho⟩
      · exact hk.carry rfl rfl (.inr rfl) rfl (.inl rfl) (.inl rfl)
  | unlockGet k m r =>
    cases r <;> cases h
    · exact hk.carry rfl rfl (.inr rfl) rfl (.inl rfl) (.inl rfl)
    · exact hk.carry rfl rfl (.inr rfl) rfl (.inr rfl) (.inl rfl)
    · exact hk.carry rfl rfl (.inr rfl) rfl (.inl rfl) (.inr rfl)
  | readFeed k m =>
    cases h
    exact hk.carry rfl rfl (.inr rfl) rfl (.inr rfl) (.inl rfl)
  | build k m =>
    rw [advance] at h
    split at h <;> cases h
    · exact hk.carry rfl rfl (.inr rfl) rfl (.inl rfl) (.inl rfl)
    · exact hk.carry rfl rfl (.inr rfl) rfl (.inr rfl) (.inl rfl)
  | install k m o =>
    cases h
    exact ⟨hk.mutex, nofun, nofun, by rintro _ _ ⟨⟩; exact Function.update_self ..⟩
  | unlockLoad k m o =>
    cases h
    exact hk.carry rfl rfl (.inr rfl) rfl (.inl rfl) (.inr rfl)
  | validate k m o =>
    cases h
    cases throws
    · exact hk.carry rfl rfl (.inr rfl) rfl (.inl rfl) (.inr rfl)
    · exact hk.carry rfl rfl (.inr rfl) rfl (.inl rfl) (.inl rfl)
  | leave k m r =>
    cases r <;> cases h <;> exact hk.carry rfl rfl (.inl rfl) rfl (.inl rfl) (.inl rfl)

/-- A step changes none of the maps, or makes a mutex, or installs a Site. -/
inductive Writes (w : Shared) (pc : Pc) (w' : Shared) : Prop
  | nothing (siteMutexes : w'.siteMutexes = w.siteMutexes) (sites : w'.sites = w.sites)
      (installed : w'.installed = w.installed)
      (returned : w'.returned = w.returned ∨
        ∃ k o, pc.found = some (k, o) ∧ w'.returned = w.returned ++ [(k, o)])
  | mutex (k : String) (pc_eq : pc.creating = some k)
      (siteMutexes : w'.siteMutexes = Function.update w.siteMutexes k (some w.mutexes))
      (sites : w'.sites = w.sites) (installed : w'.installed = w.installed)
      (returned : w'.returned = w.returned)
  | site (k : String) (o : ℕ) (pc_eq : pc.absent = some k)
      (siteMutexes : w'.siteMutexes = w.siteMutexes)
      (sites : w'.sites = Function.update w.sites k (some o))
      (installed : w'.installed = w.installed ++ [(k, o)]) (returned : w'.returned = w.returned)

theorem advance_writes (h : advance c throws w pc = some (w', pc')) : Writes w pc w' := by
  cases pc with
  | idle => cases h
  | lockMutexes k | lockSite k m | lockGet k m | lockLoad k m o =>
    obtain ⟨w₁, hw₁, heq⟩ := Option.map_eq_some_iff.mp h
    obtain ⟨-, rfl⟩ := lock_eq_some hw₁
    cases heq
    exact .nothing rfl rfl rfl (.inl rfl)
  | countMutex k | countSite k m | checkSite k m | build k m =>
    rw [advance] at h
    split at h <;> cases h <;> exact .nothing rfl rfl rfl (.inl rfl)
  | unlockMutexes k m | readFeed k m | unlockLoad k m o | validate k m o =>
    cases h
    exact .nothing rfl rfl rfl (.inl rfl)
  | unlockGet k m r =>
    cases r <;> cases h <;> exact .nothing rfl rfl rfl (.inl rfl)
  | newMutex k =>
    cases h
    exact .mutex k rfl rfl rfl rfl rfl
  | install k m o =>
    cases h
    exact .site k o rfl rfl rfl rfl rfl
  | leave k m r =>
    cases r with
    | none =>
      cases h
      exact .nothing rfl rfl rfl (.inl rfl)
    | some o =>
      cases h
      exact .nothing rfl rfl rfl (.inr ⟨k, o, rfl, rfl⟩)

/-! ### The invariant -/

structure Inv (s : State) : Prop where
  owns : Owns s.shared.owner (Pc.held ∘ s.calls)
  knows : ∀ c, Knows s.shared (s.calls c)
  /-- the Sites that were installed are those in service -/
  installed : ∀ k o, (k, o) ∈ s.shared.installed ↔ s.shared.sites k = some o
  once : (s.shared.installed.map Prod.fst).Nodup
  returned : ∀ k o, (k, o) ∈ s.shared.returned → s.shared.sites k = some o

/-- To make a mutex, a call holds `sitesMutex`. -/
theorem creating_held {k : String} (h : pc.creating = some k) : Mutex.sites ∈ pc.held := by
  cases pc with
  | newMutex => exact List.mem_cons_self
  | _ => cases h

/-- To load a Site, a call holds the mutex of the key. -/
theorem absent_held {k : String} (h : pc.absent = some k) :
    ∃ m, pc.mutex = some (k, m) ∧ Mutex.site m ∈ pc.held := by
  cases pc with
  | unlockGet k' m r =>
    cases r <;> cases h
    exact ⟨m, rfl, by simp [Pc.held]⟩
  | readFeed k' m | build k' m | lockLoad k' m o | install k' m o =>
    cases h
    exact ⟨m, rfl, by simp [Pc.held]⟩
  | _ => cases h

theorem loads_held {k : String} (h : pc.loads = some k) :
    ∃ m, pc.mutex = some (k, m) ∧ Mutex.site m ∈ pc.held := by
  cases pc with
  | build k' m | lockLoad k' m o | install k' m o | unlockLoad k' m o =>
    cases h
    exact ⟨m, rfl, by simp [Pc.held]⟩
  | _ => cases h

/-- Two calls that hold the mutex of one key are one call. -/
theorem Inv.same_call {s : State} (hs : Inv s) {c c' m m' : ℕ} {k : String}
    (hm : (s.calls c).mutex = some (k, m)) (hheld : Mutex.site m ∈ (s.calls c).held)
    (hm' : (s.calls c').mutex = some (k, m')) (hheld' : Mutex.site m' ∈ (s.calls c').held) :
    c = c' := by
  have hmm : some m = some m' :=
    ((hs.knows c).mutex k m hm).symm.trans ((hs.knows c').mutex k m' hm')
  cases hmm
  exact hs.owns.exclusive hheld hheld'

/-- What a step of one call writes leaves alone what another call has seen, as long as they do not
    both make a mutex and do not both load the same key. -/
theorem knows_other {pc₂ : Pc} (hw : Writes w pc w') (hk : Knows w pc) (hk₂ : Knows w pc₂)
    (hcreating : ∀ k k', pc.creating = some k → pc₂.creating ≠ some k')
    (habsent : ∀ k, pc.absent = some k → pc₂.absent ≠ some k) : Knows w' pc₂ := by
  cases hw with
  | nothing hmutexes hsites _ _ =>
    exact ⟨by rw [hmutexes]; exact hk₂.mutex, by rw [hmutexes]; exact hk₂.creating,
      by rw [hsites]; exact hk₂.absent, by rw [hsites]; exact hk₂.found⟩
  | mutex k hpc hmutexes hsites _ _ =>
    refine ⟨fun k' m hm => ?_, fun k' hk' => absurd hk' (hcreating k k' hpc),
      by rw [hsites]; exact hk₂.absent, by rw [hsites]; exact hk₂.found⟩
    have hold := hk₂.mutex k' m hm
    have hne : k' ≠ k := by
      rintro rfl
      rw [hk.creating k' hpc] at hold
      cases hold
    rw [hmutexes, Function.update_of_ne hne, hold]
  | site k o hpc hmutexes hsites _ _ =>
    refine ⟨by rw [hmutexes]; exact hk₂.mutex, by rw [hmutexes]; exact hk₂.creating,
      fun k' hk' => ?_, fun k' o' hk' => ?_⟩
    · have hne : k' ≠ k := by
        rintro rfl
        exact habsent k' hpc hk'
      rw [hsites, Function.update_of_ne hne, hk₂.absent k' hk']
    · have hold := hk₂.found k' o' hk'
      have hne : k' ≠ k := by
        rintro rfl
        rw [hk.absent k' hpc] at hold
        cases hold
      rw [hsites, Function.update_of_ne hne, hold]

/-- A Site in service stays in service. -/
theorem writes_sites (hw : Writes w pc w') (hk : Knows w pc) {k : String} {o : ℕ}
    (h : w.sites k = some o) : w'.sites k = some o := by
  cases hw with
  | nothing _ hsites _ _ => rw [hsites, h]
  | mutex _ _ _ hsites _ _ => rw [hsites, h]
  | site k' o' hpc _ hsites _ _ =>
    have hne : k ≠ k' := by
      rintro rfl
      rw [hk.absent k hpc] at h
      cases h
    rw [hsites, Function.update_of_ne hne, h]

theorem writes_installed (hw : Writes w pc w') (hk : Knows w pc)
    (h : ∀ k o, (k, o) ∈ w.installed ↔ w.sites k = some o) :
    ∀ k o, (k, o) ∈ w'.installed ↔ w'.sites k = some o := by
  intro k o
  cases hw with
  | nothing _ hsites hinstalled _ => rw [hsites, hinstalled, h]
  | mutex _ _ _ hsites hinstalled _ => rw [hsites, hinstalled, h]
  | site k' o' hpc _ hsites hinstalled _ =>
    rw [hsites, hinstalled, List.mem_append, h, List.mem_singleton, Prod.mk.injEq]
    rcases eq_or_ne k k' with rfl | hne
    · simp [hk.absent k hpc, eq_comm]
    · simp [hne]

/-- A key that gets a Site had none. -/
theorem writes_once (hw : Writes w pc w') (hk : Knows w pc)
    (h : ∀ k o, (k, o) ∈ w.installed ↔ w.sites k = some o)
    (honce : (w.installed.map Prod.fst).Nodup) : (w'.installed.map Prod.fst).Nodup := by
  cases hw with
  | nothing _ _ hinstalled _ => rwa [hinstalled]
  | mutex _ _ _ _ hinstalled _ => rwa [hinstalled]
  | site k o hpc _ _ hinstalled _ =>
    rw [hinstalled, List.map_append, List.map_singleton]
    refine honce.append (List.nodup_singleton k) ?_
    rw [List.disjoint_singleton]
    intro hmem
    obtain ⟨⟨k', o'⟩, hin, rfl⟩ := List.mem_map.mp hmem
    have hsome := (h _ _).mp hin
    rw [hk.absent _ hpc] at hsome
    cases hsome

/-- A call returns a Site that is in service, and it stays in service. -/
theorem writes_returned (hw : Writes w pc w') (hk : Knows w pc)
    (h : ∀ k o, (k, o) ∈ w.returned → w.sites k = some o) :
    ∀ k o, (k, o) ∈ w'.returned → w'.sites k = some o := by
  intro k o hreturned
  refine writes_sites hw hk ?_
  cases hw with
  | nothing _ _ _ hret =>
    rcases hret with hret | ⟨k', o', hfound, hret⟩
    · exact h k o (hret ▸ hreturned)
    · rw [hret, List.mem_append, List.mem_singleton] at hreturned
      rcases hreturned with hold | hnew
      · exact h k o hold
      · cases hnew
        exact hk.found k o hfound
  | mutex _ _ _ _ _ hret => exact h k o (hret ▸ hreturned)
  | site _ _ _ _ _ _ hret => exact h k o (hret ▸ hreturned)

theorem inv_advance {s : State} (hs : Inv s)
    (h : advance c throws s.shared (s.calls c) = some (w', pc')) :
    Inv ⟨w', Function.update s.calls c pc'⟩ := by
  have hwrites := advance_writes h
  have hknows := hs.knows c
  refine ⟨?_, fun c' => ?_, writes_installed hwrites hknows hs.installed,
    writes_once hwrites hknows hs.installed hs.once, writes_returned hwrites hknows hs.returned⟩
  · rw [Function.comp_update]
    cases advance_moves h with
    | acquire m hfree howner hheld =>
      rw [howner, hheld]
      exact hs.owns.acquire hfree
    | release m howner hheld hlast =>
      rw [howner]
      exact hs.owns.release hheld hlast
    | keep howner hheld =>
      rw [howner]
      exact hs.owns.keep hheld
  · dsimp only
    rcases eq_or_ne c' c with rfl | hne
    · rw [Function.update_self]
      exact advance_knows hknows h
    · rw [Function.update_of_ne hne]
      refine knows_other hwrites hknows (hs.knows c') (fun k k' hk hk' => ?_) fun k hk hk' => ?_
      · exact hne (hs.owns.exclusive (creating_held hk') (creating_held hk))
      · obtain ⟨m, hm, hheld⟩ := absent_held hk
        obtain ⟨m', hm', hheld'⟩ := absent_held hk'
        exact hne (hs.same_call hm' hheld' hm hheld)

theorem inv_step (s : State) (a : Act) (s' : State) (hs : Inv s) (h : step s a = some s') :
    Inv s' := by
  cases a with
  | getSite c d m =>
    rw [step] at h
    split at h
    · next hidle =>
      cases h
      refine ⟨?_, fun c' => ?_, hs.installed, hs.once, hs.returned⟩
      · rw [Function.comp_update]
        exact hs.owns.keep (by simp [hidle, Pc.held])
      · dsimp only
        rcases eq_or_ne c' c with rfl | hne
        · rw [Function.update_self]
          constructor <;> simp [Pc.mutex, Pc.creating, Pc.absent, Pc.found]
        · rw [Function.update_of_ne hne]
          exact hs.knows c'
    · cases h
  | next c throws =>
    obtain ⟨⟨w', pc'⟩, hadvance, heq⟩ := Option.map_eq_some_iff.mp h
    cases heq
    exact inv_advance hs hadvance

theorem inv_init : Inv State.init where
  owns := fun c m hm => by cases hm
  knows := fun c => by constructor <;> simp [State.init, Pc.mutex, Pc.creating, Pc.absent, Pc.found]
  installed := by simp [State.init, Shared.init]
  once := List.nodup_nil
  returned := by simp [State.init, Shared.init]

/-! ### The main result -/

/-- CORRECT: in every state that any interleaving of any number of `getSite` calls reaches, at most one
    call is in `_loadSite` for a key, at most one Site has been installed for it, and every call on it
    that returned has returned that Site. -/
theorem site_loaded_once {acts : List Act} {s : State} (h : run step State.init acts = some s) :
    (∀ k c c', (s.calls c).loads = some k → (s.calls c').loads = some k → c = c') ∧
    (s.shared.installed.map Prod.fst).Nodup ∧
    ∀ k o, (k, o) ∈ s.shared.returned → (k, o) ∈ s.shared.installed := by
  have hs := run_invariant' inv_step inv_init h
  refine ⟨fun k c c' hc hc' => ?_, hs.once, fun k o ho => ?_⟩
  · obtain ⟨m, hm, hheld⟩ := loads_held hc
    obtain ⟨m', hm', hheld'⟩ := loads_held hc'
    exact hs.same_call hm hheld hm' hheld'
  · exact (hs.installed k o).mpr (hs.returned k o ho)

/-- Two calls on one key: the second one waits for the first, which loads the Site. -/
def together : List Act :=
  [.getSite 0 "shop" false, .getSite 1 "shop" false] ++ List.replicate 5 (.next 0 false) ++
    List.replicate 3 (.next 1 false) ++ List.replicate 10 (.next 0 false) ++
    List.replicate 6 (.next 1 false)

theorem site_loaded_once_together : ∃ s, run step State.init together = some s ∧
    s.shared.returned = [("shop", 0), ("shop", 0)] ∧
    (∀ k c c', (s.calls c).loads = some k → (s.calls c').loads = some k → c = c') ∧
    (s.shared.installed.map Prod.fst).Nodup ∧
    ∀ k o, (k, o) ∈ s.shared.returned → (k, o) ∈ s.shared.installed := by
  have hreturned : ((run step State.init together).map fun s => s.shared.returned) =
      some [("shop", 0), ("shop", 0)] := by
    decide +kernel
  obtain ⟨s, hrun, hs⟩ := Option.map_eq_some_iff.mp hreturned
  exact ⟨s, hrun, hs, site_loaded_once hrun⟩

end VaeDb.Loading
