import VaeDb.Cache.Operations
import VaeDb.Schemes.Runs

/-! The long-term cache under concurrency.

    Each MySQL statement and each memcached command of `longTermCacheGet`, `longTermCacheSet` and
    `longTermCacheDelete` is one atomic step; any number of calls on one site and key interleave.

        get:     [memcached get] ──▶ SELECT ──▶ [UPDATE expire_at] ──▶ memcached set (what was read)
        set:     DELETE ──▶ INSERT ──▶ memcached set (the new value)
        delete:  DELETE ──▶ memcached remove

    Nothing ties a memcached set to the row it copies: between the SELECT or INSERT and the set
    another call may have changed the row. When every memcached set still finds the value it writes
    in the row, the copy is in order once all calls have finished: a call that changes the row always
    has a memcached command of its own to come. -/

namespace VaeDb.Cache.WriteBack
open Schemes Kvstore

variable {collation : Collation}

/-- A call by some client on the site and key at hand. -/
inductive Request where
  | get (renewExpiry useShortTermCache : ℤ)
  | set (value : String) (expireInterval isFilename : ℤ)
  | delete

/-- The next atomic step of a call. -/
inductive Pc where
  | idle
  | askMemcached (renewExpiry : ℤ)
  | select (renewExpiry : ℤ)
  | renew (renewExpiry : ℤ) (out : String)
  | writeBack (out : String)
  | setDelete (value : String) (expireInterval isFilename : ℤ)
  | setInsert (value : String) (expireInterval isFilename : ℤ)
  | setMemcached (value : String)
  | deleteRow
  | deleteMemcached

/-- Where a call starts. -/
def Request.start : Request → Pc
  | .get renewExpiry useShortTermCache =>
    if useShortTermCache ≠ 0 then .askMemcached renewExpiry else .select renewExpiry
  | .set value expireInterval isFilename => .setDelete value expireInterval isFilename
  | .delete => .deleteRow

structure State (collation : Collation) where
  kv : KvTable collation
  mc : Memcached
  calls : ℕ → Pc

/-- Any table, an empty memcached, no call in progress. -/
def State.init (kv : KvTable collation) : State collation := ⟨kv, fun _ => none, fun _ => .idle⟩

inductive Act where
  | start (c : ℕ) (request : Request)
  | next (c : ℕ)

variable (now : ℤ) (subdomain key : String)

/-- The effect of one atomic step on the table and memcached, and where the call goes on. -/
def advance (kv : KvTable collation) (mc : Memcached) :
    Pc → Option (KvTable collation × Memcached × Pc)
  | .idle => none
  | .askMemcached renewExpiry =>
    -- a non-empty copy is the answer and the call is over
    if mc.get (fullKey .longTerm subdomain key) ≠ "" then some (kv, mc, .idle)
    else some (kv, mc, .select renewExpiry)
  | .select renewExpiry =>
    match kv.rowAt (weights collation subdomain key) with
    | none => some (kv, mc, .writeBack "")
    | some r =>
      if 0 < renewExpiry ∧ remainingDays r.expire_at now < 10 then
        some (kv, mc, .renew renewExpiry r.v)
      else some (kv, mc, .writeBack r.v)
  | .renew renewExpiry out => some (renewRow kv now subdomain key renewExpiry, mc, .writeBack out)
  | .writeBack out => some (kv, mc.set (fullKey .longTerm subdomain key) out, .idle)
  | .setDelete value expireInterval isFilename =>
    some (Kvstore.deleteRow kv subdomain key, mc, .setInsert value expireInterval isFilename)
  | .setInsert value expireInterval isFilename =>
    -- a rejected INSERT is only logged: the call goes on to memcached all the same
    some (insertRow kv now subdomain key value expireInterval isFilename, mc, .setMemcached value)
  | .setMemcached value => some (kv, mc.set (fullKey .longTerm subdomain key) value, .idle)
  | .deleteRow => some (Kvstore.deleteRow kv subdomain key, mc, .deleteMemcached)
  | .deleteMemcached => some (kv, mc.remove (fullKey .longTerm subdomain key), .idle)

def step (s : State collation) : Act → Option (State collation)
  | .start c request =>
    match s.calls c with
    | .idle => some { s with calls := Function.update s.calls c request.start }
    | _ => none
  | .next c =>
    match advance now subdomain key s.kv s.mc (s.calls c) with
    | none => none
    | some (kv, mc, pc) => some ⟨kv, mc, Function.update s.calls c pc⟩

/-- The value is empty, or the row of the key holds it. -/
def Current (kv : KvTable collation) (v : String) : Prop :=
  v = "" ∨ (kv.rowAt (weights collation subdomain key)).map Row.v = some v

instance (kv : KvTable collation) (v : String) : Decidable (Current subdomain key kv v) :=
  inferInstanceAs (Decidable (_ ∨ _))

/-- The copy in memcached, if any, is empty or equal to the row. -/
def Coherent (s : State collation) : Prop :=
  ∀ v, s.mc (fullKey .longTerm subdomain key) = some v → Current subdomain key s.kv v

/-- What the memcached set that comes next would write, if a memcached set comes next. -/
def Pc.copies : Pc → Option String
  | .writeBack out => some out
  | .setMemcached value => some value
  | _ => none

/-- A memcached set is about to write what the row holds at that moment (or nothing). -/
def WritesCurrent (s : State collation) : Act → Prop
  | .start _ _ => True
  | .next c =>
    match (s.calls c).copies with
    | none => True
    | some v => Current subdomain key s.kv v

instance (s : State collation) : ∀ a, Decidable (WritesCurrent subdomain key s a)
  | .start _ _ => isTrue trivial
  | .next c =>
    match h : (s.calls c).copies with
    | none => isTrue (by simp [WritesCurrent, h])
    | some v => decidable_of_iff (Current subdomain key s.kv v) (by simp [WritesCurrent, h])

/-- The call has changed the row and has its memcached command still to come. -/
def Pc.Owes : Pc → Prop
  | .setInsert .. | .setMemcached _ | .deleteMemcached => True
  | _ => False

/-- The copy is in order, or some call still owes memcached a command. -/
def Inv (s : State collation) : Prop := Coherent subdomain key s ∨ ∃ c, (s.calls c).Owes

variable {now subdomain key}

/-- Writing a current value, or removing the copy, puts the copy in order. -/
theorem coherent_set {kv : KvTable collation} {mc : Memcached} {calls : ℕ → Pc} {v : String}
    (hv : Current subdomain key kv v) :
    Coherent subdomain key ⟨kv, mc.set (fullKey .longTerm subdomain key) v, calls⟩ := by
  intro u hu
  simp only [Memcached.set_self, Option.some.injEq] at hu
  exact hu ▸ hv

theorem coherent_remove {kv : KvTable collation} {mc : Memcached} {calls : ℕ → Pc} :
    Coherent subdomain key ⟨kv, mc.remove (fullKey .longTerm subdomain key), calls⟩ := by
  intro u hu
  simp only [Memcached.remove_self, reduceCtorEq] at hu

/-- A step that moves no value and no copy, by a call that owes nothing. -/
theorem inv_quiet {s : State collation} (hs : Inv subdomain key s) {c : ℕ} (hc : ¬ (s.calls c).Owes)
    {kv : KvTable collation} (hkv : (kv.rowAt (weights collation subdomain key)).map Row.v =
      (s.kv.rowAt (weights collation subdomain key)).map Row.v) (pc : Pc) :
    Inv subdomain key ⟨kv, s.mc, Function.update s.calls c pc⟩ := by
  rcases hs with hcoh | ⟨c', hc'⟩
  · left
    intro v hv
    have hcur := hcoh v hv
    rwa [Current, ← hkv] at hcur
  · have hne : c' ≠ c := fun h => hc (h ▸ hc')
    exact Or.inr ⟨c', by simpa only [Function.update_of_ne hne] using hc'⟩

/-- A step after which its own call owes memcached a command. -/
theorem inv_owes {kv : KvTable collation} {mc : Memcached} {calls : ℕ → Pc} {c : ℕ} {pc : Pc}
    (hpc : pc.Owes) : Inv subdomain key ⟨kv, mc, Function.update calls c pc⟩ :=
  Or.inr ⟨c, by simpa only [Function.update_self] using hpc⟩

/-- What one atomic step can do: nothing that a reader of the row or the copy would notice, a change
    of the row that memcached is then owed, a memcached set, or a memcached remove. -/
theorem advance_cases {kv kv' : KvTable collation} {mc mc' : Memcached} {pc pc' : Pc}
    (h : advance now subdomain key kv mc pc = some (kv', mc', pc')) :
    (¬ pc.Owes ∧ mc' = mc ∧ (kv'.rowAt (weights collation subdomain key)).map Row.v =
      (kv.rowAt (weights collation subdomain key)).map Row.v) ∨
    (mc' = mc ∧ pc'.Owes) ∨
    (∃ v, pc.copies = some v ∧ kv' = kv ∧ mc' = mc.set (fullKey .longTerm subdomain key) v) ∨
    (kv' = kv ∧ mc' = mc.remove (fullKey .longTerm subdomain key)) := by
  cases pc with
  | idle => cases h
  | askMemcached renewExpiry =>
    rw [advance] at h
    split at h <;> cases h <;> exact Or.inl ⟨id, rfl, rfl⟩
  | select renewExpiry =>
    rw [advance] at h
    split at h
    · cases h
      exact Or.inl ⟨id, rfl, rfl⟩
    · split at h <;> cases h <;> exact Or.inl ⟨id, rfl, rfl⟩
  | renew renewExpiry out =>
    cases h
    exact Or.inl ⟨id, rfl, rowAt_renewRow ..⟩
  | writeBack out =>
    cases h
    exact Or.inr (Or.inr (Or.inl ⟨out, rfl, rfl, rfl⟩))
  | setDelete value expireInterval isFilename =>
    cases h
    exact Or.inr (Or.inl ⟨rfl, trivial⟩)
  | setInsert value expireInterval isFilename =>
    cases h
    exact Or.inr (Or.inl ⟨rfl, trivial⟩)
  | setMemcached value =>
    cases h
    exact Or.inr (Or.inr (Or.inl ⟨value, rfl, rfl, rfl⟩))
  | deleteRow =>
    cases h
    exact Or.inr (Or.inl ⟨rfl, trivial⟩)
  | deleteMemcached =>
    cases h
    exact Or.inr (Or.inr (Or.inr ⟨rfl, rfl⟩))

theorem inv_step (s : State collation) (a : Act) (s' : State collation) (hs : Inv subdomain key s)
    (hcur : WritesCurrent subdomain key s a) (h : step now subdomain key s a = some s') :
    Inv subdomain key s' := by
  cases a with
  | start c request =>
    simp only [step] at h
    split at h
    · next hidle =>
      cases h
      exact inv_quiet hs (by simp [hidle, Pc.Owes]) rfl _
    · cases h
  | next c =>
    simp only [step] at h
    split at h
    · cases h
    · next kv mc pc hadv =>
      cases h
      rcases advance_cases hadv with ⟨hc, rfl, hkv⟩ | ⟨-, hpc⟩ | ⟨v, hv, rfl, rfl⟩ | ⟨-, rfl⟩
      · exact inv_quiet hs hc hkv pc
      · exact inv_owes hpc
      · rw [WritesCurrent, hv] at hcur
        exact Or.inl (coherent_set hcur)
      · exact Or.inl coherent_remove

/-- CORRECT: in every run whose memcached sets each write what the row holds at that moment, the
    memcached entry is absent, empty or equal to the row once all calls have finished. -/
theorem writeBack_coherent {kv : KvTable collation} {acts : List Act} {s : State collation}
    (hrun : run (step now subdomain key) (State.init kv) acts = some s)
    (hcur : Meets (step now subdomain key) (WritesCurrent subdomain key) (State.init kv) acts)
    (hdone : ∀ c, s.calls c = .idle) : Coherent subdomain key s := by
  have hinit : Inv subdomain key (State.init kv) := Or.inl fun v hv => by simp [State.init] at hv
  rcases run_invariant inv_step hinit hcur hrun with hcoh | ⟨c, hc⟩
  · exact hcoh
  · rw [hdone c] at hc
    exact hc.elim

/-- A set of "old" by call 0, run to its end. -/
def setOld : List Act := [.start 0 (.set "old" 30 0), .next 0, .next 0, .next 0]

theorem writeBack_coherent_setOld :
    ∃ s : State foldCase, run (step 0 "shop" "k") (State.init Table.empty) setOld = some s ∧
      Coherent "shop" "k" s := by
  have hrun : run (step 0 "shop" "k") (State.init Table.empty : State foldCase) setOld =
    some _ := rfl
  refine ⟨_, hrun, writeBack_coherent hrun (by decide) fun c => ?_⟩
  simp +contextual [Function.update_apply, State.init]

/-- Call 1 reads "old" from the row, call 2 sets "new" from beginning to end, and then call 1 writes
    what it read into memcached: all calls have finished, the row is "new" and the copy is "old". -/
theorem writeBack_lost :
    ∃ s : State foldCase, run (step 0 "shop" "k") (State.init Table.empty) (setOld ++
        [.start 1 (.get 0 0), .next 1, .start 2 (.set "new" 30 0), .next 2, .next 2, .next 2,
          .next 1]) = some s ∧
      (∀ c, s.calls c = .idle) ∧ s.mc (fullKey .longTerm "shop" "k") = some "old" ∧
      (s.kv.rowAt (weights foldCase "shop" "k")).map Row.v = some "new" := by
  refine ⟨_, rfl, fun c => ?_, rfl, rfl⟩
  simp +contextual [Function.update_apply, State.init]

end VaeDb.Cache.WriteBack
