import Mathlib.Data.Set.Insert
import VaeDb.Cache.Isolation
import VaeDb.Schemes.Runs

/-! The long-term cache: does the memcached fast path agree with the `kvstore` path?

    `longTermCacheGet` with `useShortTermCache` answers from memcached when there is a non-empty copy.
    The two paths agree when every copy is empty or equal to the row (`fastAgrees_iff`). Get restores
    that by itself. `longTermCacheEmpty` and `longTermCacheSweeperInfo` delete rows and leave their
    copies in memcached, so they keep the agreement only if there is no copy to leave behind. Set and
    delete see to the copy of their own key alone, where the row may have copies under other spellings
    of the key: memcached tells `Logo.png` from `logo.png`, and the table does not.

        Get                    copy := row       agree
        Set     row := v       own copy := v     agree iff the other copies of the row were empty or v
        Delete  row gone       own copy gone     agree iff the other copies of the row were empty
        Empty   all rows gone  copies stay       agree iff every copy was empty
        Sweep   expired gone   copies stay       agree iff every expired row had an empty copy -/

namespace VaeDb.Cache
open Schemes Kvstore

variable {collation : Collation}

/-- Sessions of one site: the known session ids all belong to `subdomain`. -/
def oneSite (subdomain : String) (valid : ℤ → Bool) (id : ℤ) : Option String :=
  if valid id then some subdomain else none

/-- In this state the fast path answers what the `kvstore` path would, for every key. -/
def FastAgrees (subdomain : String) (w : World collation) : Prop :=
  ∀ key renewExpiry, (longTermCacheGet w subdomain key renewExpiry 1).1 =
    (longTermCacheGet w subdomain key renewExpiry 0).1

/-- A call that writes rows finds no other copy of them than those that it writes itself; a set may
    find the value that it sets. -/
def SparesCopies (subdomain : String) (sessions : ℤ → Option String) (w : World collation) :
    Op → Prop
  | .call id (.longTermCacheSet key value _ _) =>
    sessions id = some subdomain → ∀ k, k ≠ key → collation k = collation key →
      w.mc.get (fullKey .longTerm subdomain k) = "" ∨
        w.mc.get (fullKey .longTerm subdomain k) = value
  | .call id (.longTermCacheDelete key) =>
    sessions id = some subdomain → ∀ k, k ≠ key → collation k = collation key →
      w.mc.get (fullKey .longTerm subdomain k) = ""
  | .call id .longTermCacheEmpty =>
    sessions id = some subdomain → ∀ key, w.mc.get (fullKey .longTerm subdomain key) = ""
  | .call id .longTermCacheSweeperInfo =>
    sessions id = some subdomain → ∀ key, (∃ r ∈ w.kv.rows, matchesRow collation subdomain key r ∧
      expired w.now r) → w.mc.get (fullKey .longTerm subdomain key) = ""
  | _ => True

/-- The paths agree exactly when every copy is empty or equal to the row. -/
theorem fastAgrees_iff (subdomain : String) (w : World collation) :
    FastAgrees subdomain w ↔ ∀ key, w.mc.get (fullKey .longTerm subdomain key) = "" ∨
      w.mc.get (fullKey .longTerm subdomain key) = valueAt w.kv subdomain key := by
  refine forall_congr' fun key => ?_
  rcases eq_or_ne (w.mc.get (fullKey .longTerm subdomain key)) "" with hc | hc <;>
    simp [longTermCacheGet_fst, hc]

/-- Within one site the full keys are injective. -/
theorem fullKey_ne (subdomain : String) {kind kind' : Kind} {key key' : String}
    (h : (kind, key) ≠ (kind', key')) : fullKey kind subdomain key ≠ fullKey kind' subdomain key' := by
  have hD : KeysDisjoint {subdomain} := (keysDisjoint_iff _).mpr fun a ha b hb hclash =>
    hclash.1 (ha.trans hb.symm)
  refine hD kind kind' subdomain rfl subdomain rfl key key' fun heq => h ?_
  exact congrArg (fun t : Kind × String × String => (t.1, t.2.2)) heq

theorem get_set (mc : Memcached) (key value k : String) :
    (mc.set key value).get k = if k = key then value else mc.get k := by
  rcases eq_or_ne k key with rfl | hne
  · simp [Memcached.get]
  · simp [Memcached.get, Memcached.set_of_ne _ _ hne, hne]

theorem get_remove (mc : Memcached) (key k : String) :
    (mc.remove key).get k = if k = key then "" else mc.get k := by
  rcases eq_or_ne k key with rfl | hne
  · simp [Memcached.get]
  · simp [Memcached.get, Memcached.remove_of_ne _ hne, hne]

/-- A copy written for `key` is the copy of `key` alone. -/
theorem get_set_longKey (mc : Memcached) (subdomain key value k : String) :
    (mc.set (fullKey .longTerm subdomain key) value).get (fullKey .longTerm subdomain k) =
      if k = key then value else mc.get (fullKey .longTerm subdomain k) := by
  rw [get_set]
  rcases eq_or_ne k key with rfl | hne
  · simp
  · rw [if_neg (fullKey_ne subdomain (by simpa using hne)), if_neg hne]

theorem get_remove_longKey (mc : Memcached) (subdomain key k : String) :
    (mc.remove (fullKey .longTerm subdomain key)).get (fullKey .longTerm subdomain k) =
      if k = key then "" else mc.get (fullKey .longTerm subdomain k) := by
  rw [get_remove]
  rcases eq_or_ne k key with rfl | hne
  · simp
  · rw [if_neg (fullKey_ne subdomain (by simpa using hne)), if_neg hne]

/-- One call of a session of the site keeps the agreement exactly when it spares the copies. -/
theorem perform_agrees {subdomain : String} {w : World collation} (h : FastAgrees subdomain w) (c : Call) :
    FastAgrees subdomain (perform w subdomain c) ↔
      SparesCopies subdomain (fun _ => some subdomain) w (.call 0 c) := by
  rw [fastAgrees_iff] at h ⊢
  cases c with
  | shortTermCacheGet key => exact iff_of_true h trivial
  | shortTermCacheSet key value =>
    refine iff_of_true (fun k => ?_) trivial
    simp only [perform, shortTermCacheSet]
    rw [get_set, if_neg (fullKey_ne subdomain (by simp))]
    exact h k
  | shortTermCacheDelete key =>
    refine iff_of_true (fun k => ?_) trivial
    simp only [perform, shortTermCacheDelete]
    rw [get_remove, if_neg (fullKey_ne subdomain (by simp))]
    exact h k
  | longTermCacheGet key renewExpiry useShortTermCache =>
    refine iff_of_true (fun k => ?_) trivial
    obtain ⟨hkv, hmc⟩ := longTermCacheGet_snd w subdomain key renewExpiry useShortTermCache
    simp only [perform]
    rw [hkv]
    rcases hmc with hmc | hmc <;> rw [hmc]
    · exact h k
    · rw [get_set_longKey]
      rcases eq_or_ne k key with rfl | hne
      · exact Or.inr (if_pos rfl)
      · rw [if_neg hne]
        exact h k
  | longTermCacheSet key value expireInterval isFilename =>
    simp only [perform, longTermCacheSet, SparesCopies, true_implies]
    refine forall_congr' fun k => ?_
    rw [get_set_longKey, valueAt_longTermCacheSet]
    rcases eq_or_ne k key with rfl | hne
    · simp
    · by_cases hsame : collation k = collation key
      · simp [weights, hne, hsame]
      · simpa [weights, hne, hsame] using h k
  | longTermCacheDelete key =>
    simp only [perform, longTermCacheDelete, Kvstore.longTermCacheDelete, SparesCopies, true_implies]
    refine forall_congr' fun k => ?_
    rw [get_remove_longKey, valueAt_deleteRow]
    rcases eq_or_ne k key with rfl | hne
    · simp
    · by_cases hsame : collation k = collation key
      · simp [weights, hne, hsame]
      · simpa [weights, hne, hsame] using h k
  | longTermCacheEmpty =>
    simp only [perform, longTermCacheEmpty, SparesCopies, valueAt_longTermCacheEmpty, or_self,
      true_implies]
  | longTermCacheSweeperInfo =>
    simp only [perform, longTermCacheSweeperInfo, SparesCopies, valueAt_sweep, true_implies]
    refine forall_congr' fun k => ?_
    split
    · next hexp => exact ⟨fun hk _ => or_self_iff.mp hk, fun hk => Or.inl (hk hexp)⟩
    · next hexp => exact iff_of_true (h k) fun hex => absurd hex hexp

/-- One step of a run keeps the agreement exactly when it spares the copies. -/
theorem exec_agrees {subdomain : String} (valid : ℤ → Bool) {w : World collation}
    (h : FastAgrees subdomain w) (op : Op) :
    FastAgrees subdomain (exec (oneSite subdomain valid) w op) ↔
      SparesCopies subdomain (oneSite subdomain valid) w op := by
  cases op with
  | call id c =>
    cases hid : valid id with
    | false =>
      have hnone : oneSite subdomain valid id = none := by simp [oneSite, hid]
      simp only [exec, hnone]
      refine iff_of_true h ?_
      cases c <;> simp [SparesCopies, hnone]
    | true =>
      have hsome : oneSite subdomain valid id = some subdomain := by simp [oneSite, hid]
      simp only [exec, hsome]
      rw [perform_agrees h]
      cases c <;> simp [SparesCopies, hsome]
  | tick d =>
    refine iff_of_true ?_ trivial
    rw [fastAgrees_iff] at h ⊢
    exact h
  | drop key =>
    refine iff_of_true ?_ trivial
    rw [fastAgrees_iff] at h ⊢
    intro k
    simp only [exec]
    rw [get_remove]
    split
    · exact Or.inl rfl
    · exact h k

/-- CORRECT: along a run of the cache operations by sessions of one site, the fast path agrees with
    the `kvstore` path in every state exactly when every call that writes rows finds no copies of them
    that it leaves behind. -/
theorem longTermCache_agrees_iff (collation : Collation) (subdomain : String) (valid : ℤ → Bool)
    (now : ℤ) (kv : KvTable collation) (ops : List Op) :
    (∀ pre, pre <+: ops → FastAgrees subdomain
        (pre.foldl (exec (oneSite subdomain valid)) ⟨now, kv, fun _ => none⟩)) ↔
      Meets (fun (w : World collation) op => some (exec (oneSite subdomain valid) w op))
        (SparesCopies subdomain (oneSite subdomain valid)) ⟨now, kv, fun _ => none⟩ ops := by
  have hinit : FastAgrees subdomain ⟨now, kv, fun _ => none⟩ :=
    (fastAgrees_iff _ _).mpr fun _ => Or.inl rfl
  rw [← forall_prefix_iff_meets (P := FastAgrees subdomain) ?_ hinit
    ⟨_, run_eq_foldl (exec (oneSite subdomain valid)) _ ops⟩]
  · simp only [run_eq_foldl, Option.some.injEq, forall_eq']
  · intro w op w' hw hstep
    cases hstep
    exact exec_agrees valid hw op

/-- Set an entry, then empty the long-term cache: the fast path still answers the old value. -/
theorem longTermCacheEmpty_stale :
    (longTermCacheGet ([Op.call 1 (.longTermCacheSet "k" "v" 30 0), .call 1 .longTermCacheEmpty].foldl
        (exec (oneSite "shop" fun _ => true)) (World.init foldCase 0)) "shop" "k" 0 1).1 = "v" ∧
    (longTermCacheGet ([Op.call 1 (.longTermCacheSet "k" "v" 30 0), .call 1 .longTermCacheEmpty].foldl
        (exec (oneSite "shop" fun _ => true)) (World.init foldCase 0)) "shop" "k" 0 0).1 = "" := by
  decide +kernel

end VaeDb.Cache
