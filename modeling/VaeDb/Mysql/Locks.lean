import VaeDb.Schemes.Runs
import VaeDb.Schemes.Table

/-! The sitewide lock: table `locks` behind `MysqlProxy::lock` and `MysqlProxy::unlock`.

    `lock` INSERTs the site's row and returns 1; when the UNIQUE KEY (`subdomain`) rejects it (or the
    statement fails in any other way), it DELETEs every row older than one minute, of any site, and
    returns 0 without trying again. `unlock` DELETEs the row of the site, whoever inserted it.

    The system below interleaves the statements of any number of sessions with a clock that only
    advances. It keeps two history variables that no statement reads: the session that inserted a
    row, and the exact clock at that moment (`created_at` has whole seconds only).

        lock s:    INSERT ok ──▶ 1, s holds
                   INSERT rejected ──▶ (later) purge rows older than 60 s ──▶ 0
        unlock s:  DELETE the site's row ──▶ s no longer holds

    Subdomains are compared exactly here, where the table compares them by its collation: the sessions
    of a site have the same one, and of two sites that differ in the spelling alone nothing is said. -/

namespace VaeDb.Locks
open Schemes

/-- A row of `locks`; `owner` and `acquired` are history. -/
structure Row where
  subdomain : String
  created_at : ℕ
  owner : ℕ
  acquired : ℕ

/-- The table with its UNIQUE KEY (`subdomain`). -/
abbrev LockTable := Table Row Row.subdomain

/-- `NOW()`: the clock runs in microseconds, a DATETIME holds whole seconds. -/
def NOW (clock : ℕ) : ℕ := clock / 1000000

/-- `DELETE WHERE created_at < DATE_SUB(NOW(), INTERVAL 1 MINUTE)`. -/
def purgeOld (t : LockTable) (clock : ℕ) : LockTable :=
  t.deleteWhere fun r => r.created_at + 60 < NOW clock

/-- `DELETE WHERE subdomain=?`. -/
def deleteSite (t : LockTable) (subdomain : String) : LockTable :=
  t.deleteWhere fun r => r.subdomain = subdomain

structure World where
  clock : ℕ
  locks : LockTable
  /-- failed attempts that have yet to run their purge -/
  purges : ℕ
  /-- acquisitions a session has not released yet -/
  credit : ℕ → ℕ
  /-- when the session last received 1, if it has not called unlock since -/
  held : ℕ → Option ℕ

def World.init : World := ⟨0, Table.empty, 0, fun _ => 0, fun _ => none⟩

/-- One statement of `sitewideLock` or `sitewideUnlock`, or the passing of time; `sqlError` makes the
    statement fail for a reason of its own. -/
inductive Act where
  | tick (d : ℕ)
  | insert (s : ℕ) (sqlError : Bool)
  | purge (sqlError : Bool)
  | unlock (s : ℕ) (sqlError : Bool)

variable (site : ℕ → String)

/-- A session unlocks only what it has locked, once per acquisition: `unlock` needs a credit. -/
def step (w : World) : Act → Option World
  | .tick d => some { w with clock := w.clock + d }
  | .insert s sqlError =>
    match if sqlError then none else w.locks.insert? ⟨site s, NOW w.clock, s, w.clock⟩ with
    | none => some { w with purges := w.purges + 1 }
    | some t => some { w with
        locks := t
        credit := Function.update w.credit s (w.credit s + 1)
        held := Function.update w.held s (some w.clock) }
  | .purge sqlError =>
    if w.purges = 0 then none
    else some { w with
      purges := w.purges - 1
      locks := if sqlError then w.locks else purgeOld w.locks w.clock }
  | .unlock s sqlError =>
    if w.credit s = 0 then none
    else some { w with
      locks := if sqlError then w.locks else deleteSite w.locks (site s)
      credit := Function.update w.credit s (w.credit s - 1)
      held := Function.update w.held s none }

/-- The site's row, if any, is the releasing session's own. -/
def OwnRelease (w : World) : Act → Prop
  | .unlock s _ => ∀ r ∈ w.locks.rows, r.subdomain = site s → r.owner = s
  | _ => True

instance (w : World) : ∀ a, Decidable (OwnRelease site w a)
  | .unlock s _ => inferInstanceAs (Decidable (∀ r ∈ w.locks.rows, r.subdomain = site s → r.owner = s))
  | .tick _ | .insert _ _ | .purge _ => inferInstanceAs (Decidable True)

/-- Every holder has its row in the table, or acquired the lock at least a minute ago. -/
structure Inv (w : World) : Prop where
  owned : ∀ s t, w.held s = some t →
    (∃ r ∈ w.locks.rows, r.subdomain = site s ∧ r.owner = s ∧ r.acquired = t) ∨
      t + 60 * 1000000 ≤ w.clock
  stamped : ∀ r ∈ w.locks.rows, r.created_at = NOW r.acquired

theorem inv_init : Inv site World.init :=
  ⟨fun _ _ h => by simp [World.init] at h, fun _ h => by simp [World.init, Table.empty] at h⟩

theorem inv_tick {w : World} (hw : Inv site w) (d : ℕ) :
    Inv site { w with clock := w.clock + d } := by
  refine ⟨fun s t h => ?_, hw.stamped⟩
  rcases hw.owned s t h with hrow | hold
  · exact Or.inl hrow
  · exact Or.inr (le_trans hold (Nat.le_add_right _ _))

/-- An accepted INSERT makes the session a holder with its row in the table. -/
theorem inv_insert {w : World} (hw : Inv site w) {s : ℕ} {t : LockTable} {credit : ℕ → ℕ}
    (ht : w.locks.insert? ⟨site s, NOW w.clock, s, w.clock⟩ = some t) :
    Inv site { w with
      locks := t, credit := credit, held := Function.update w.held s (some w.clock) } := by
  have hrows := Table.insert?_rows ht
  refine ⟨fun s' t' h => ?_, fun r hr => ?_⟩
  · rcases eq_or_ne s' s with rfl | hne
    · simp only [Function.update_self, Option.some.injEq] at h
      refine Or.inl ⟨⟨site s', NOW w.clock, s', w.clock⟩, ?_, rfl, rfl, h⟩
      rw [hrows]
      exact List.mem_cons_self
    · simp only [Function.update_of_ne hne] at h
      rcases hw.owned s' t' h with ⟨r, hr, hrow⟩ | hold
      · refine Or.inl ⟨r, ?_, hrow⟩
        rw [hrows]
        exact List.mem_cons_of_mem _ hr
      · exact Or.inr hold
  · rw [hrows] at hr
    rcases List.mem_cons.mp hr with rfl | hr
    · rfl
    · exact hw.stamped r hr

/-- A row the purge removes was acquired at least a minute ago. -/
theorem inv_purge {w : World} (hw : Inv site w) (purges : ℕ) :
    Inv site { w with purges := purges, locks := purgeOld w.locks w.clock } := by
  refine ⟨fun s t h => ?_, fun r hr => hw.stamped r (Table.mem_deleteWhere.mp hr).1⟩
  rcases hw.owned s t h with ⟨r, hr, hsub, hown, hacq⟩ | hold
  · rcases Nat.lt_or_ge (r.created_at + 60) (NOW w.clock) with hlt | hge
    · right
      have hstamp := hw.stamped r hr
      simp only [NOW] at hlt hstamp
      rw [← hacq]
      show r.acquired + 60 * 1000000 ≤ w.clock
      omega
    · refine Or.inl ⟨r, Table.mem_deleteWhere.mpr ⟨hr, ?_⟩, hsub, hown, hacq⟩
      exact decide_eq_false (by omega)
  · exact Or.inr hold

/-- A release that finds its own row, or none, takes no other session's row away. -/
theorem inv_unlock {w : World} (hw : Inv site w) {s : ℕ} {sqlError : Bool} {credit : ℕ → ℕ}
    (hrel : ∀ r ∈ w.locks.rows, r.subdomain = site s → r.owner = s) :
    Inv site { w with
      locks := if sqlError then w.locks else deleteSite w.locks (site s)
      credit := credit
      held := Function.update w.held s none } := by
  have hsub : ∀ r ∈ (if sqlError then w.locks else deleteSite w.locks (site s)).rows,
      r ∈ w.locks.rows := by
    intro r hr
    cases sqlError with
    | false => exact (Table.mem_deleteWhere.mp hr).1
    | true => exact hr
  refine ⟨fun s' t' h => ?_, fun r hr => hw.stamped r (hsub r hr)⟩
  rcases eq_or_ne s' s with rfl | hne
  · simp only [Function.update_self, reduceCtorEq] at h
  · simp only [Function.update_of_ne hne] at h
    rcases hw.owned s' t' h with ⟨r, hr, hs', hown, hacq⟩ | hold
    · refine Or.inl ⟨r, ?_, hs', hown, hacq⟩
      cases sqlError with
      | true => exact hr
      | false =>
        refine Table.mem_deleteWhere.mpr ⟨hr, decide_eq_false fun hsite => ?_⟩
        exact hne (hown.symm.trans (hrel r hr hsite))
    · exact Or.inr hold

theorem inv_step (w : World) (a : Act) (w' : World) (hw : Inv site w) (ha : OwnRelease site w a)
    (h : step site w a = some w') : Inv site w' := by
  cases a with
  | tick d =>
    cases h
    exact inv_tick site hw d
  | insert s sqlError =>
    simp only [step] at h
    split at h
    · cases h
      exact ⟨hw.owned, hw.stamped⟩
    · next t ht =>
      cases h
      cases sqlError with
      | true => cases ht
      | false => exact inv_insert site hw ht
  | purge sqlError =>
    simp only [step] at h
    split at h
    · cases h
    · cases h
      cases sqlError with
      | true => exact ⟨hw.owned, hw.stamped⟩
      | false => exact inv_purge site hw _
  | unlock s sqlError =>
    simp only [step] at h
    split at h
    · cases h
    · cases h
      exact inv_unlock site hw ha

/-- Two holders of one site cannot both have their row: the key allows one row a site. -/
theorem inv_exclusive {w : World} (hw : Inv site w) {s s' t t' : ℕ} (hne : s ≠ s')
    (hsite : site s = site s') (hs : w.held s = some t) (hs' : w.held s' = some t') :
    min t t' + 60 * 1000000 ≤ w.clock := by
  rcases hw.owned s t hs with ⟨r, hr, hsub, hown, -⟩ | hold
  · rcases hw.owned s' t' hs' with ⟨r', hr', hsub', hown', -⟩ | hold
    · have hrr : r = r' := Table.eq_of_key_eq hr hr' (by rw [hsub, hsub', hsite])
      exact absurd (by rw [← hown, ← hown', hrr]) hne
    · omega
  · omega

/-- CORRECT: in every run whose releases all find their own row (or none), whenever two sessions of
    one site both hold the lock, the older acquisition is at least one minute old. -/
theorem sitewideLock_exclusive {acts : List Act} {w : World} {s s' t t' : ℕ}
    (hrun : run (step site) World.init acts = some w)
    (hown : Meets (step site) (OwnRelease site) World.init acts)
    (hne : s ≠ s') (hsite : site s = site s')
    (hs : w.held s = some t) (hs' : w.held s' = some t') :
    min t t' + 60 * 1000000 ≤ w.clock :=
  inv_exclusive site (run_invariant (inv_step site) (inv_init site) hown hrun) hne hsite hs hs'

/-- Session 0 lets its acquisition expire; session 1 purges it and acquires: both hold. -/
def expired : List Act :=
  [.insert 0 false, .tick 61000000, .insert 1 false, .purge false, .insert 1 false]

theorem sitewideLock_exclusive_expired :
    ∃ w, run (step fun _ => "alpha") World.init expired = some w ∧ w.held 0 = some 0 ∧
      w.held 1 = some 61000000 ∧ min 0 61000000 + 60 * 1000000 ≤ w.clock := by
  refine ⟨_, rfl, rfl, rfl, ?_⟩
  have hrun : run (step fun _ => "alpha") World.init expired = some _ := rfl
  exact sitewideLock_exclusive _ hrun (by decide) (show 0 ≠ 1 by decide) rfl rfl rfl

/-- Session 0 then releases late, which deletes the row of session 1, and session 2 acquires at once:
    sessions 1 and 2 share an acquisition that is not a microsecond old. -/
theorem sitewideLock_shared :
    ∃ w, run (step fun _ => "alpha") World.init (expired ++ [.unlock 0 false, .insert 2 false]) =
        some w ∧ w.held 1 = some 61000000 ∧ w.held 2 = some 61000000 ∧
      ¬ min 61000000 61000000 + 60 * 1000000 ≤ w.clock :=
  ⟨_, rfl, rfl, rfl, by decide⟩

end VaeDb.Locks
