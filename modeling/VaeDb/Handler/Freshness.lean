import VaeDb.Handler.Sites
import VaeDb.Schemes.Runs

/-! Freshness of the loaded sites: `getSite` and `reloadSite` under any interleaving.

    The feed of a subdomain is a version number that grows with each publication, `read_s3` returns
    the version of that moment, and an entry of `sites` remembers the version it was built from.
    Every block under `sitesMutex` is one atomic step; the per-site mutex is held across `getSite`
    and around each `_loadSite` of `reloadSite`. Any number of calls interleave.

        getSite:     lock site ──▶ _getSite ──▶ read_s3 ──▶ new Site ──▶ sites[key] = site ──▶ unlock
        reloadSite:  counts ──▶ read_s3 ──▶ _resetSite ──▶ (lock site ──▶ new Site ──▶ sites[key] =
                     site ──▶ unlock) for each mode that was counted

    `_resetSite` does not wait for the per-site mutex, so a call that has read an older feed may
    install it after the reload that should have replaced it. When no install is older than what a
    reload has already reset for, the loaded sites are up to date once all calls have finished. -/

namespace VaeDb.Freshness
open Schemes
open Sites (sitesKey)

/-- An entry of `sites`, with the feed version it was built from. -/
structure Entry where
  subdomain : String
  stagingMode : Bool
  version : ℕ
  deriving DecidableEq

/-- The next atomic step of a call. -/
inductive Pc where
  | idle
  | getLock (subdomain : String) (stagingMode : Bool)
  | getCheck (subdomain : String) (stagingMode : Bool)
  | getRead (subdomain : String) (stagingMode : Bool)
  | getBuild (subdomain : String) (stagingMode : Bool) (xml : ℕ)
  | getInstall (subdomain : String) (stagingMode : Bool) (xml : ℕ)
  | reloadCount (subdomain : String)
  | reloadRead (subdomain : String) (modes : List Bool)
  | reloadReset (subdomain : String) (modes : List Bool) (rawxml : ℕ)
  | reloadLock (subdomain : String) (modes : List Bool) (rawxml : ℕ)
  | reloadBuild (subdomain : String) (stagingMode : Bool) (modes : List Bool) (rawxml : ℕ)
  | reloadInstall (subdomain : String) (stagingMode : Bool) (modes : List Bool) (rawxml : ℕ)
  | reloadUnlock (subdomain : String) (stagingMode : Bool) (modes : List Bool) (rawxml : ℕ)
  /-- the call ends, by return or by exception, and releases the per-site mutex -/
  | leave (subdomain : String) (stagingMode : Bool)

/-- What all calls share. `floor` is history: the newest version fetched by a `reloadSite` of the
    subdomain that has done its `_resetSite`. -/
structure Shared where
  feed : String → ℕ
  sites : String → Option Entry
  siteMutexes : String → Option ℕ
  floor : String → ℕ

def Shared.init : Shared := ⟨fun _ => 0, fun _ => none, fun _ => none, fun _ => 0⟩

/-- `_resetSite` with `force`: both entries of the subdomain are erased. -/
def Shared._resetSite (w : Shared) (subdomain : String) (rawxml : ℕ) : Shared :=
  { w with
    sites := fun k =>
      if k = sitesKey subdomain false ∨ k = sitesKey subdomain true then none else w.sites k
    floor := Function.update w.floor subdomain (max (w.floor subdomain) rawxml) }

/-- The last statement of `_loadSite`: `sites[sitesKey] = site`. -/
def Shared.install (w : Shared) (subdomain : String) (stagingMode : Bool) (xml : ℕ) : Shared :=
  { w with
    sites := Function.update w.sites (sitesKey subdomain stagingMode)
      (some ⟨subdomain, stagingMode, xml⟩) }

/-- Take the per-site mutex, if no call holds it. -/
def Shared.lockSite (w : Shared) (c : ℕ) (subdomain : String) (stagingMode : Bool) :
    Option Shared :=
  match w.siteMutexes (sitesKey subdomain stagingMode) with
  | some _ => none
  | none => some { w with
      siteMutexes := Function.update w.siteMutexes (sitesKey subdomain stagingMode) (some c) }

def Shared.unlockSite (w : Shared) (subdomain : String) (stagingMode : Bool) : Shared :=
  { w with siteMutexes := Function.update w.siteMutexes (sitesKey subdomain stagingMode) none }

/-- One atomic step of call `c`, and where the call goes on; `throws` says whether a Site that is
    built in this step throws. -/
def advance (c : ℕ) (throws : Bool) (w : Shared) : Pc → Option (Shared × Pc)
  | .idle => none
  | .getLock d m => (w.lockSite c d m).map fun w' => (w', .getCheck d m)
  | .getCheck d m =>
    -- a loaded site ends the call, whether or not the secret key is accepted
    if (w.sites (sitesKey d m)).isSome then some (w, .leave d m) else some (w, .getRead d m)
  | .getRead d m => some (w, .getBuild d m (w.feed d))
  | .getBuild d m v => some (w, if throws then .leave d m else .getInstall d m v)
  | .getInstall d m v => some (w.install d m v, .leave d m)
  | .reloadCount d =>
    some (w, .reloadRead d ([false, true].filter fun m => (w.sites (sitesKey d m)).isSome))
  | .reloadRead d modes => some (w, .reloadReset d modes (w.feed d))
  | .reloadReset d modes v => some (w._resetSite d v, .reloadLock d modes v)
  | .reloadLock _ [] _ => some (w, .idle)
  | .reloadLock d (m :: modes) v =>
    (w.lockSite c d m).map fun w' => (w', .reloadBuild d m modes v)
  | .reloadBuild d m modes v => some (w, if throws then .leave d m else .reloadInstall d m modes v)
  | .reloadInstall d m modes v => some (w.install d m v, .reloadUnlock d m modes v)
  | .reloadUnlock d m modes v => some (w.unlockSite d m, .reloadLock d modes v)
  | .leave d m => some (w.unlockSite d m, .idle)

structure State where
  shared : Shared
  calls : ℕ → Pc

def State.init : State := ⟨Shared.init, fun _ => .idle⟩

/-- A publication, the start of a call, or the next step of one. `openSession` is its `getSite` as
    far as `sites` goes. -/
inductive Act where
  | publish (subdomain : String)
  | getSite (c : ℕ) (subdomain : String) (stagingMode : Bool)
  | reloadSite (c : ℕ) (subdomain : String)
  | next (c : ℕ) (throws : Bool)

def start (s : State) (c : ℕ) (pc : Pc) : Option State :=
  match s.calls c with
  | .idle => some { s with calls := Function.update s.calls c pc }
  | _ => none

def step (s : State) : Act → Option State
  | .publish d => some { s with
      shared := { s.shared with feed := Function.update s.shared.feed d (s.shared.feed d + 1) } }
  | .getSite c d m => start s c (.getLock d m)
  | .reloadSite c d => start s c (.reloadCount d)
  | .next c throws =>
    (advance c throws s.shared (s.calls c)).map fun (w, pc) =>
      ⟨w, Function.update s.calls c pc⟩

/-- The entry that the next step installs, if the next step installs one. -/
def Pc.installs : Pc → Option Entry
  | .getInstall d m v | .reloadInstall d m _ v => some ⟨d, m, v⟩
  | _ => none

/-- A site is installed only if it is not older than what a reload has already reset for. -/
def InstallsFresh (s : State) : Act → Prop
  | .next c _ => ∀ e ∈ (s.calls c).installs, s.shared.floor e.subdomain ≤ e.version
  | _ => True

instance (s : State) : ∀ a, Decidable (InstallsFresh s a)
  | .next c _ => inferInstanceAs
      (Decidable (∀ e ∈ (s.calls c).installs, s.shared.floor e.subdomain ≤ e.version))
  | .publish _ | .getSite .. | .reloadSite .. => inferInstanceAs (Decidable True)

/-! ### No entry is older than the resets -/

/-- Every entry sits under its own key and is not older than what a reload has reset for. -/
def Inv (w : Shared) : Prop :=
  ∀ k e, w.sites k = some e →
    k = sitesKey e.subdomain e.stagingMode ∧ w.floor e.subdomain ≤ e.version

theorem inv_install {w : Shared} (hw : Inv w) {d : String} (m : Bool) {v : ℕ}
    (hv : w.floor d ≤ v) : Inv (w.install d m v) := by
  intro k e he
  rcases eq_or_ne k (sitesKey d m) with rfl | hne
  · simp only [Shared.install, Function.update_self, Option.some.injEq] at he
    subst he
    exact ⟨rfl, hv⟩
  · simp only [Shared.install, Function.update_of_ne hne] at he
    exact hw k e he

/-- What a reset leaves in place belongs to another subdomain. -/
theorem inv_resetSite {w : Shared} (hw : Inv w) (d : String) (v : ℕ) : Inv (w._resetSite d v) := by
  intro k e he
  simp only [Shared._resetSite] at he
  split at he
  · cases he
  · next hk =>
    obtain ⟨hkey, hfloor⟩ := hw k e he
    have hsub : e.subdomain ≠ d := by
      rintro rfl
      rcases hm : e.stagingMode with _ | _ <;> rw [hm] at hkey
      · exact hk (Or.inl hkey)
      · exact hk (Or.inr hkey)
    refine ⟨hkey, ?_⟩
    simp only [Shared._resetSite, Function.update_of_ne hsub]
    exact hfloor

theorem lockSite_eq_some {w w' : Shared} {c : ℕ} {d : String} {m : Bool}
    (h : w.lockSite c d m = some w') :
    w'.sites = w.sites ∧ w'.floor = w.floor ∧ w'.feed = w.feed := by
  simp only [Shared.lockSite] at h
  split at h
  · cases h
  · cases h
    exact ⟨rfl, rfl, rfl⟩

/-- What one atomic step can do to what all calls share: nothing but the mutexes, an install, or the
    reset of a reload. -/
theorem advance_cases {c : ℕ} {throws : Bool} {w w' : Shared} {pc pc' : Pc}
    (h : advance c throws w pc = some (w', pc')) :
    w'.feed = w.feed ∧
      ((w'.sites = w.sites ∧ w'.floor = w.floor) ∨
        (∃ d m v, pc.installs = some ⟨d, m, v⟩ ∧ w' = w.install d m v) ∨
        (∃ d modes v, pc = .reloadReset d modes v ∧ w' = w._resetSite d v)) := by
  cases pc with
  | idle => cases h
  | getLock d m =>
    obtain ⟨w₁, hw₁, h⟩ := Option.map_eq_some_iff.mp h
    cases h
    obtain ⟨hsites, hfloor, hfeed⟩ := lockSite_eq_some hw₁
    exact ⟨hfeed, Or.inl ⟨hsites, hfloor⟩⟩
  | getCheck d m =>
    rw [advance] at h
    split at h <;> cases h <;> exact ⟨rfl, Or.inl ⟨rfl, rfl⟩⟩
  | getInstall d m v =>
    cases h
    exact ⟨rfl, Or.inr (Or.inl ⟨d, m, v, rfl, rfl⟩)⟩
  | reloadReset d modes v =>
    cases h
    exact ⟨rfl, Or.inr (Or.inr ⟨d, modes, v, rfl, rfl⟩)⟩
  | reloadLock d modes v =>
    cases modes with
    | nil =>
      cases h
      exact ⟨rfl, Or.inl ⟨rfl, rfl⟩⟩
    | cons m modes =>
      obtain ⟨w₁, hw₁, h⟩ := Option.map_eq_some_iff.mp h
      cases h
      obtain ⟨hsites, hfloor, hfeed⟩ := lockSite_eq_some hw₁
      exact ⟨hfeed, Or.inl ⟨hsites, hfloor⟩⟩
  | reloadInstall d m modes v =>
    cases h
    exact ⟨rfl, Or.inr (Or.inl ⟨d, m, v, rfl, rfl⟩)⟩
  | getRead | getBuild | reloadCount | reloadRead | reloadBuild | reloadUnlock | leave =>
    cases h
    exact ⟨rfl, Or.inl ⟨rfl, rfl⟩⟩

theorem start_eq_some {s s' : State} {c : ℕ} {pc : Pc} (h : start s c pc = some s') :
    s.calls c = .idle ∧ s' = { s with calls := Function.update s.calls c pc } := by
  simp only [start] at h
  split at h
  · next hidle => exact ⟨hidle, (Option.some.inj h).symm⟩
  · cases h

theorem inv_step (s : State) (a : Act) (s' : State) (hs : Inv s.shared) (ha : InstallsFresh s a)
    (h : step s a = some s') : Inv s'.shared := by
  cases a with
  | publish d =>
    cases h
    exact hs
  | getSite c d m =>
    obtain ⟨-, rfl⟩ := start_eq_some h
    exact hs
  | reloadSite c d =>
    obtain ⟨-, rfl⟩ := start_eq_some h
    exact hs
  | next c throws =>
    obtain ⟨⟨w, pc⟩, hadv, rfl⟩ := Option.map_eq_some_iff.mp h
    rcases (advance_cases hadv).2 with ⟨hsites, hfloor⟩ | ⟨d, m, v, hpc, rfl⟩ | ⟨d, _, v, -, rfl⟩
    · intro k e he
      rw [hsites] at he
      rw [hfloor]
      exact hs k e he
    · exact inv_install hs m (ha _ hpc)
    · exact inv_resetSite hs d v

/-! ### Every publication is reset for -/

/-- The call is a reload of `subdomain` that has yet to reset, and will reset for `version` or newer:
    it has not read the feed yet, or it has read that version. -/
def Pc.Brings (subdomain : String) (version : ℕ) : Pc → Prop
  | .reloadCount d | .reloadRead d _ => d = subdomain
  | .reloadReset d _ rawxml => d = subdomain ∧ version ≤ rawxml
  | _ => False

/-- The latest publication of the subdomain has been reset for, or a reload is about to do so. -/
def Served (s : State) (d : String) : Prop :=
  s.shared.feed d ≤ s.shared.floor d ∨ ∃ c, (s.calls c).Brings d (s.shared.feed d)

theorem served_start {s s' : State} {c : ℕ} {pc : Pc} {d : String} (hs : Served s d)
    (h : start s c pc = some s') : Served s' d := by
  obtain ⟨hidle, rfl⟩ := start_eq_some h
  rcases hs with hfloor | ⟨c', hc'⟩
  · exact Or.inl hfloor
  · have hne : c' ≠ c := by
      rintro rfl
      rw [hidle] at hc'
      exact hc'
    exact Or.inr ⟨c', by simpa only [Function.update_of_ne hne] using hc'⟩

/-- A reload that is about to reset is one step nearer to it afterwards, or has done it. -/
theorem advance_brings {c : ℕ} {throws : Bool} {w w' : Shared} {pc pc' : Pc} {d : String}
    (hpc : pc.Brings d (w.feed d)) (h : advance c throws w pc = some (w', pc')) :
    w.feed d ≤ w'.floor d ∨ pc'.Brings d (w.feed d) := by
  cases pc with
  | reloadCount d' =>
    cases h
    exact Or.inr hpc
  | reloadRead d' modes =>
    cases h
    obtain rfl : d' = d := hpc
    exact Or.inr ⟨rfl, Nat.le_refl _⟩
  | reloadReset d' modes v =>
    cases h
    obtain ⟨rfl, hv⟩ := hpc
    left
    simp only [Shared._resetSite, Function.update_self]
    omega
  | idle | getLock | getCheck | getRead | getBuild | getInstall | reloadLock | reloadBuild
    | reloadInstall | reloadUnlock | leave => exact hpc.elim

/-- The floor never sinks. -/
theorem advance_floor {c : ℕ} {throws : Bool} {w w' : Shared} {pc pc' : Pc}
    (h : advance c throws w pc = some (w', pc')) (d : String) : w.floor d ≤ w'.floor d := by
  rcases (advance_cases h).2 with ⟨-, hfloor⟩ | ⟨_, _, _, -, rfl⟩ | ⟨d', _, v, -, rfl⟩
  · rw [hfloor]
  · exact Nat.le_refl _
  · simp only [Shared._resetSite, Function.update_apply]
    split
    · next heq =>
      subst heq
      omega
    · exact Nat.le_refl _

theorem served_step {s s' : State} {a : Act} {d : String} (hs : Served s d)
    (ha : a ≠ .publish d) (h : step s a = some s') : Served s' d := by
  cases a with
  | publish d' =>
    cases h
    have hne : d ≠ d' := fun heq => ha (by rw [heq])
    simpa only [Served, Function.update_of_ne hne] using hs
  | getSite c d' m => exact served_start hs h
  | reloadSite c d' => exact served_start hs h
  | next c throws =>
    obtain ⟨⟨w, pc⟩, hadv, rfl⟩ := Option.map_eq_some_iff.mp h
    have hfeed : w.feed d = s.shared.feed d := by rw [(advance_cases hadv).1]
    simp only [Served, hfeed]
    rcases hs with hfloor | ⟨c', hc'⟩
    · exact Or.inl (Nat.le_trans hfloor (advance_floor hadv d))
    · rcases eq_or_ne c' c with rfl | hne
      · rcases advance_brings hc' hadv with hfloor | hpc
        · exact Or.inl hfloor
        · exact Or.inr ⟨c', by simpa only [Function.update_self] using hpc⟩
      · exact Or.inr ⟨c', by simpa only [Function.update_of_ne hne] using hc'⟩

/-- A reload that starts will reset for the latest publication. -/
theorem served_reloadSite {s s' : State} {c : ℕ} {d : String}
    (h : step s (.reloadSite c d) = some s') : Served s' d := by
  obtain ⟨-, rfl⟩ := start_eq_some h
  refine Or.inr ⟨c, ?_⟩
  simp only [Function.update_self]
  rfl

/-- Every publication of the subdomain is followed by a `reloadSite` that starts after it. -/
def Announced (d : String) : List Act → Prop
  | [] => True
  | a :: acts => (a = .publish d → ∃ c, .reloadSite c d ∈ acts) ∧ Announced d acts

theorem served_run {d : String} : ∀ {s t : State} {acts : List Act},
    Served s d ∨ (∃ c, .reloadSite c d ∈ acts) → Announced d acts →
    run step s acts = some t → Served t d
  | s, t, [], hs, _, h => by
      rw [run_nil, Option.some.injEq] at h
      rcases hs with hs | ⟨c, hc⟩
      · exact h ▸ hs
      · cases hc
  | s, t, a :: acts, hs, hann, h => by
      obtain ⟨r, hr, ht⟩ := run_cons_eq_some.mp h
      refine served_run ?_ hann.2 ht
      by_cases hpub : a = .publish d
      · -- a publication may leave nobody serving it: the reload that follows it is still to come
        exact Or.inr (hann.1 hpub)
      · rcases hs with hs | ⟨c, hc⟩
        · exact Or.inl (served_step hs hpub hr)
        · rcases List.mem_cons.mp hc with rfl | hc
          · exact Or.inl (served_reloadSite hr)
          · exact Or.inr ⟨c, hc⟩

/-- CORRECT: in every run that installs no site older than what a reload has already reset for, and
    in which every publication of a subdomain is followed by the start of a reload, no entry of that
    subdomain is older than the latest publication once all calls have finished. -/
theorem sites_fresh {acts : List Act} {s : State} {k : String} {e : Entry}
    (hrun : run step State.init acts = some s)
    (hfresh : Meets step InstallsFresh State.init acts)
    (hann : Announced e.subdomain acts)
    (hdone : ∀ c, s.calls c = .idle)
    (he : s.shared.sites k = some e) : s.shared.feed e.subdomain ≤ e.version := by
  have hinit : Inv State.init.shared := fun k e h => by cases h
  obtain ⟨-, hfloor⟩ := run_invariant (I := fun s => Inv s.shared) inv_step hinit hfresh hrun k e he
  rcases served_run (Or.inl (Or.inl (Nat.le_refl 0))) hann hrun with hfeed | ⟨c, hc⟩
  · exact Nat.le_trans hfeed hfloor
  · rw [hdone c] at hc
    exact hc.elim

/-- A site that is loaded, then published and reloaded from beginning to end. -/
def published : List Act :=
  [.getSite 0 "shop" false, .next 0 false, .next 0 false, .next 0 false, .next 0 false,
    .next 0 false, .next 0 false, .publish "shop", .reloadSite 1 "shop"] ++
  List.replicate 8 (.next 1 false)

theorem sites_fresh_published :
    ∃ s, run step State.init published = some s ∧
      s.shared.sites "shop" = some ⟨"shop", false, 1⟩ ∧ s.shared.feed "shop" ≤ 1 := by
  have hrun : run step State.init published = some _ := rfl
  refine ⟨_, hrun, rfl, ?_⟩
  refine sites_fresh (k := "shop") (e := ⟨"shop", false, 1⟩) hrun (by decide) ?_ (fun c => ?_) rfl
  · simp [Announced, published]
  · simp +contextual [Function.update_apply, State.init]

/-- A first `getSite` reads version 0 and is still building its site when version 1 is published. The
    bus reloads once by itself and once in a thread: both find nothing loaded, read version 1, reset
    nothing and end. Then the first call installs version 0. -/
def overtaken : List Act :=
  [.getSite 0 "shop" false, .next 0 false, .next 0 false, .next 0 false, .publish "shop",
    .reloadSite 1 "shop", .next 1 false, .next 1 false, .next 1 false, .next 1 false,
    .reloadSite 2 "shop", .next 2 false, .next 2 false, .next 2 false, .next 2 false,
    .next 0 false, .next 0 false, .next 0 false]

theorem getSite_installs_stale :
    Announced "shop" overtaken ∧ ∃ s, run step State.init overtaken = some s ∧
      (∀ c, s.calls c = .idle) ∧ s.shared.sites "shop" = some ⟨"shop", false, 0⟩ ∧
      s.shared.feed "shop" = 1 := by
  refine ⟨by simp [Announced, overtaken], _, rfl, fun c => ?_, rfl, rfl⟩
  simp +contextual [Function.update_apply, State.init]

end VaeDb.Freshness
