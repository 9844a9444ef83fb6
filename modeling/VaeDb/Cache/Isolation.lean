import Mathlib.Data.Set.Operations
import VaeDb.Cache.Operations

/-! Isolation of tenants and of cache kinds in memcached.

    A full key does not quote its parts, so two different (kind, subdomain, key) triples can build
    the same one. Exactly which subdomains let that happen is `Clash`: one subdomain followed by ":"
    starts with another subdomain followed by a marker.

        short "a"  "b:c"   ─┐                      long  "shop"          "cart" ─┐
        short "a:b" "c"    ─┴▶ VaedbProxy:a:b:c    short "shopLongTerm2" "cart" ─┴▶ VaedbProxy:shopLongTerm2:cart

    Over a set of subdomains without a clash the full keys are injective. In the table it is the
    collation that keeps sites apart, so two subdomains must not differ in their spelling only. From
    both, every run of the cache operations keeps the provenance of what memcached and the table hold:
    a read answers only what a session of the same site stored under the same kind and key. -/

namespace VaeDb.Cache
open Schemes Kvstore

/-- `b` extends `a` by ":…", by "LongTerm2" or by "LongTerm2:…". -/
def Clash (a b : String) : Prop :=
  a ≠ b ∧ ∃ kind : Kind, (a ++ kind.marker).toList <+: (b ++ ":").toList

/-- Different (kind, subdomain, key) triples over the subdomains `D` have different full keys. -/
def KeysDisjoint (D : Set String) : Prop :=
  ∀ kind kind' : Kind, ∀ a ∈ D, ∀ b ∈ D, ∀ key key', (kind, a, key) ≠ (kind', b, key') →
    fullKey kind a key ≠ fullKey kind' b key'

/-- The call stores `value` under this kind, site and key. -/
def Stores (sessions : ℤ → Option String) (kind : Kind) (a key value : String) : Op → Prop
  | .call id (.shortTermCacheSet k v) =>
    kind = .shortTerm ∧ sessions id = some a ∧ k = key ∧ v = value
  | .call id (.longTermCacheSet k v _ _) =>
    kind = .longTerm ∧ sessions id = some a ∧ k = key ∧ v = value
  | _ => False

/-- Whether an entry of this kind can be stored under one key and read under the other: the table
    compares keys by its collation. -/
def Kind.SameKey (collation : Collation) : Kind → String → String → Prop
  | .shortTerm, key', key => key' = key
  | .longTerm, key', key => collation key' = collation key

/-- One of the calls stores `value` under this kind, site and key. -/
def Stored (collation : Collation) (sessions : ℤ → Option String) (ops : List Op) (kind : Kind)
    (a key value : String) : Prop :=
  ∃ op ∈ ops, ∃ key', kind.SameKey collation key' key ∧ Stores sessions kind a key' value op

/-- After any run by sessions of the sites `D`, what a get of site `a` answers is empty or was stored
    by a session of `a` under the same kind and key. -/
def RunsIsolated (collation : Collation) (D : Set String) : Prop :=
  ∀ sessions : ℤ → Option String, (∀ id a, sessions id = some a → a ∈ D) →
    ∀ (now : ℤ) (ops : List Op), ∀ a ∈ D, ∀ key,
      (∀ v, shortTermCacheGet (ops.foldl (exec sessions) (World.init collation now)) a key = v →
        v ≠ "" → Stored collation sessions ops .shortTerm a key v) ∧
      (∀ renew use v, (longTermCacheGet (ops.foldl (exec sessions) (World.init collation now)) a key
        renew use).1 = v → v ≠ "" → Stored collation sessions ops .longTerm a key v)

/-! ### Full keys -/

theorem fullKey_eq_iff {kind kind' : Kind} {a b key key' : String} :
    fullKey kind a key = fullKey kind' b key' ↔
      a.toList ++ (kind.marker.toList ++ key.toList) =
        b.toList ++ (kind'.marker.toList ++ key'.toList) := by
  rw [← String.toList_inj]
  simp [fullKey, String.toList_append]

/-- A cut through "LongTerm2:" that leaves a rest starting like a marker is a cut before ":" or at
    the very end. -/
theorem longTerm_cut : ∀ n < 11, 0 < n →
    ("LongTerm2:".toList.drop n).head?.all (fun c => c = ':' ∨ c = 'L') = true →
    "LongTerm2:".toList <+: "LongTerm2:".toList.take n ++ [':'] := by
  decide +kernel

theorem marker_head (kind : Kind) (rest : List Char) :
    ∀ c, (kind.marker.toList ++ rest).head? = some c → c = ':' ∨ c = 'L' := by
  intro c h
  cases kind <;> simp [Kind.marker] at h <;> simp [← h]

/-- If "LongTerm2:" reaches into or past a word that a marker follows, then it is a prefix of the
    word followed by ":". -/
theorem longTerm_prefix {kind : Kind} {w key rest : List Char} (hw : w ≠ [])
    (h : "LongTerm2:".toList ++ key = w ++ (kind.marker.toList ++ rest)) :
    "LongTerm2:".toList <+: w ++ [':'] := by
  have hpos : 0 < w.length := List.length_pos_of_ne_nil hw
  rcases Nat.lt_or_ge w.length 11 with hlt | hge
  · have hle : w.length ≤ "LongTerm2:".toList.length := Nat.le_of_lt_succ hlt
    have htake : "LongTerm2:".toList.take w.length = w := by
      have := congrArg (List.take w.length) h
      rwa [List.take_append_of_le_length hle, List.take_left] at this
    have hdrop : "LongTerm2:".toList.drop w.length ++ key = kind.marker.toList ++ rest := by
      have := congrArg (List.drop w.length) h
      rwa [List.drop_append_of_le_length hle, List.drop_left] at this
    have hhead : ("LongTerm2:".toList.drop w.length).head?.all (fun c => c = ':' ∨ c = 'L') =
        true := by
      rw [Option.all_eq_true]
      intro c hc
      refine decide_eq_true (marker_head kind rest c ?_)
      rw [← hdrop, List.head?_append, hc]
      rfl
    have hcut := longTerm_cut w.length hlt hpos hhead
    rwa [htake] at hcut
  · -- the whole marker lies inside the word
    have hlen : "LongTerm2:".toList.length ≤ w.length := Nat.le_trans (by decide) hge
    have hpre : "LongTerm2:".toList <+: w :=
      List.prefix_of_prefix_length_le (List.prefix_append _ key) (h ▸ List.prefix_append w _) hlen
    exact hpre.trans (List.prefix_append _ _)

/-- Where the longer subdomain starts with the shorter one, equal full keys are a clash or equal
    triples. -/
theorem clash_of_extends {kind kind' : Kind} {a b key key' : String} {w : List Char}
    (hb : b.toList = a.toList ++ w)
    (h : kind.marker.toList ++ key.toList = w ++ (kind'.marker.toList ++ key'.toList)) :
    (kind, a, key) = (kind', b, key') ∨ Clash a b := by
  rcases eq_or_ne w [] with rfl | hw
  · -- same subdomain: the first character after it tells the kinds apart
    have hab : a = b := by rw [← String.toList_inj, hb, List.append_nil]
    left
    cases kind <;> cases kind' <;> simp [Kind.marker, String.toList_inj] at h
    · rw [hab, h]
    · rw [hab, h]
  · right
    refine ⟨fun hab => hw ?_, kind, ?_⟩
    · rw [hab] at hb
      simpa using hb
    · rw [String.toList_append, String.toList_append, hb, List.append_assoc,
        List.prefix_append_right_inj]
      cases kind with
      | shortTerm =>
        obtain ⟨c, w, rfl⟩ := List.exists_cons_of_ne_nil hw
        simp only [Kind.marker, String.reduceToList, List.cons_append, List.cons.injEq] at h
        simp [Kind.marker, ← h.1]
      | longTerm => exact longTerm_prefix hw h

/-- Full keys over `D` are injective exactly when no two of its subdomains clash. -/
theorem keysDisjoint_iff (D : Set String) :
    KeysDisjoint D ↔ ∀ a ∈ D, ∀ b ∈ D, ¬ Clash a b := by
  constructor
  · rintro hD a ha b hb ⟨hne, kind, u, hu⟩
    -- the rest of the longer subdomain moves into the key of the shorter one
    refine hD kind .shortTerm a ha b hb (String.ofList u) "" (fun h => hne ?_) ?_
    · exact congrArg (fun t : Kind × String × String => t.2.1) h
    · rw [fullKey_eq_iff, ← List.append_assoc, ← String.toList_append, String.toList_ofList, hu]
      simp [Kind.marker]
  · intro hD kind kind' a ha b hb key key' hne heq
    rw [fullKey_eq_iff] at heq
    rcases List.append_eq_append_iff.mp heq with ⟨w, hb', h⟩ | ⟨w, ha', h⟩
    · rcases clash_of_extends hb' h with h | h
      · exact hne h
      · exact hD a ha b hb h
    · rcases clash_of_extends ha' h with h | h
      · exact hne h.symm
      · exact hD b hb a ha h

/-! ### Provenance along a run -/

variable {collation : Collation} {D : Set String} {sessions : ℤ → Option String} {ops : List Op}

/-- What a call stores is stored under its own key, and under every key that compares equal. -/
theorem Stored.of_op {op : Op} (hop : op ∈ ops) {kind : Kind} {a key key' value : String}
    (hkey : kind.SameKey collation key' key) (h : Stores sessions kind a key' value op) :
    Stored collation sessions ops kind a key value := ⟨op, hop, key', hkey, h⟩

theorem Kind.SameKey.refl (kind : Kind) (key : String) : kind.SameKey collation key key := by
  cases kind <;> rfl

variable (collation D sessions ops)

/-- Every copy memcached holds for a site of `D` was stored by one of the calls `ops`. -/
def CopiesStored (mc : Memcached) : Prop :=
  ∀ kind, ∀ a ∈ D, ∀ key v, mc (fullKey kind a key) = some v → v ≠ "" →
    Stored collation sessions ops kind a key v

/-- Every row of a site of `D` was stored by one of the calls `ops`. -/
def RowsStored (kv : KvTable collation) : Prop :=
  ∀ a ∈ D, ∀ key, valueAt kv a key ≠ "" →
    Stored collation sessions ops .longTerm a key (valueAt kv a key)

variable {collation D sessions ops}

/-- Writing a value stored for (kind, a, key) under its full key: no other triple shares it. -/
theorem CopiesStored.set {mc : Memcached} (h : CopiesStored collation D sessions ops mc)
    (hD : KeysDisjoint D) {kind : Kind} {a key value : String} (ha : a ∈ D)
    (hstored : value ≠ "" → Stored collation sessions ops kind a key value) :
    CopiesStored collation D sessions ops (mc.set (fullKey kind a key) value) := by
  intro kind' b hb key' v hv hne
  by_cases htriple : (kind', b, key') = (kind, a, key)
  · obtain ⟨rfl, rfl, rfl⟩ : kind' = kind ∧ b = a ∧ key' = key := by simpa using htriple
    rw [Memcached.set_self, Option.some.injEq] at hv
    exact hv ▸ hstored (hv ▸ hne)
  · rw [Memcached.set_of_ne _ _ (hD kind' kind b hb a ha key' key htriple)] at hv
    exact h kind' b hb key' v hv hne

theorem CopiesStored.remove {mc : Memcached} (h : CopiesStored collation D sessions ops mc)
    (key : String) : CopiesStored collation D sessions ops (mc.remove key) := by
  intro kind a ha k v hv hne
  by_cases hk : fullKey kind a k = key
  · rw [hk, Memcached.remove_self] at hv
    cases hv
  · rw [Memcached.remove_of_ne _ hk] at hv
    exact h kind a ha k v hv hne

/-- A table whose values are each empty, old or just stored. -/
theorem RowsStored.of_values {kv kv' : KvTable collation}
    (h : RowsStored collation D sessions ops kv)
    (hkv : ∀ a ∈ D, ∀ key, valueAt kv' a key = "" ∨ valueAt kv' a key = valueAt kv a key ∨
      Stored collation sessions ops .longTerm a key (valueAt kv' a key)) :
    RowsStored collation D sessions ops kv' := by
  intro a ha key hne
  rcases hkv a ha key with hv | hv | hv
  · exact absurd hv hne
  · rw [hv] at hne ⊢
    exact h a ha key hne
  · exact hv

/-- A DELETE leaves every value as it was or empty. -/
theorem valueAt_deleteWhere (t : KvTable collation) (p : Row → Bool) (a key : String) :
    valueAt (t.deleteWhere p) a key = "" ∨ valueAt (t.deleteWhere p) a key = valueAt t a key := by
  rw [valueAt, valueAt, Table.rowAt_deleteWhere]
  cases t.rowAt (weights collation a key) with
  | none => exact Or.inl rfl
  | some r => by_cases hp : p r <;> simp [Option.filter, hp]

theorem RowsStored.deleteWhere {kv : KvTable collation}
    (h : RowsStored collation D sessions ops kv) (p : Row → Bool) :
    RowsStored collation D sessions ops (kv.deleteWhere p) :=
  h.of_values fun a _ key => (valueAt_deleteWhere kv p a key).imp_right Or.inl

/-- One call of a session of `a` keeps the provenance, given that a set is among the calls. -/
theorem stored_perform (hD : KeysDisjoint D) (hapart : Set.InjOn collation D)
    {w : World collation} (hc : CopiesStored collation D sessions ops w.mc)
    (hr : RowsStored collation D sessions ops w.kv) {id : ℤ} {a : String} (ha : a ∈ D)
    (hid : sessions id = some a) (c : Call) (hop : Op.call id c ∈ ops) :
    CopiesStored collation D sessions ops (perform w a c).mc ∧
      RowsStored collation D sessions ops (perform w a c).kv := by
  cases c with
  | shortTermCacheGet key => exact ⟨hc, hr⟩
  | shortTermCacheSet key value =>
    exact ⟨hc.set hD ha fun _ => .of_op hop (.refl _ key) ⟨rfl, hid, rfl, rfl⟩, hr⟩
  | shortTermCacheDelete key => exact ⟨hc.remove _, hr⟩
  | longTermCacheGet key renewExpiry useShortTermCache =>
    obtain ⟨hkv, hmc⟩ := longTermCacheGet_snd w a key renewExpiry useShortTermCache
    refine ⟨?_, hr.of_values fun b _ k => Or.inr (Or.inl (hkv b k))⟩
    rcases hmc with hmc | hmc
    · exact hmc ▸ hc
    · exact hmc ▸ hc.set hD ha fun hne => hr a ha key hne
  | longTermCacheSet key value expireInterval isFilename =>
    have hstores : Stores sessions .longTerm a key value
        (.call id (.longTermCacheSet key value expireInterval isFilename)) := ⟨rfl, hid, rfl, rfl⟩
    refine ⟨hc.set hD ha fun _ => .of_op hop (.refl _ key) hstores, hr.of_values fun b hb k => ?_⟩
    simp only [perform, longTermCacheSet]
    rw [valueAt_longTermCacheSet]
    split
    · -- the row answers for every spelling of the key, and for no other site
      next hsame =>
      obtain ⟨hab, hkey⟩ := Prod.mk.inj hsame
      obtain rfl := hapart hb ha hab
      exact Or.inr (Or.inr (.of_op hop hkey.symm hstores))
    · exact Or.inr (Or.inl rfl)
  | longTermCacheDelete key => exact ⟨hc.remove _, hr.deleteWhere _⟩
  | longTermCacheEmpty => exact ⟨hc, hr.deleteWhere _⟩
  | longTermCacheSweeperInfo => exact ⟨hc, hr.deleteWhere _⟩

theorem stored_exec (hD : KeysDisjoint D) (hapart : Set.InjOn collation D)
    (hsess : ∀ id a, sessions id = some a → a ∈ D) {w : World collation}
    (hc : CopiesStored collation D sessions ops w.mc)
    (hr : RowsStored collation D sessions ops w.kv) (op : Op) (hop : op ∈ ops) :
    CopiesStored collation D sessions ops (exec sessions w op).mc ∧
      RowsStored collation D sessions ops (exec sessions w op).kv := by
  cases op with
  | call id c =>
    cases hid : sessions id with
    | none => simpa [exec, hid] using ⟨hc, hr⟩
    | some a => simpa [exec, hid] using stored_perform hD hapart hc hr (hsess id a hid) hid c hop
  | tick d => exact ⟨hc, hr⟩
  | drop key => exact ⟨hc.remove key, hr⟩

/-- A run of calls taken from `ops` keeps the provenance. -/
theorem stored_run (hD : KeysDisjoint D) (hapart : Set.InjOn collation D)
    (hsess : ∀ id a, sessions id = some a → a ∈ D) :
    ∀ (done : List Op) {w : World collation}, (∀ op ∈ done, op ∈ ops) →
      CopiesStored collation D sessions ops w.mc → RowsStored collation D sessions ops w.kv →
      CopiesStored collation D sessions ops (done.foldl (exec sessions) w).mc ∧
        RowsStored collation D sessions ops (done.foldl (exec sessions) w).kv
  | [], _, _, hc, hr => ⟨hc, hr⟩
  | op :: done, w, hmem, hc, hr => by
      obtain ⟨hc', hr'⟩ := stored_exec hD hapart hsess hc hr op (hmem op List.mem_cons_self)
      exact stored_run hD hapart hsess done (fun o ho => hmem o (List.mem_cons_of_mem _ ho)) hc' hr'

theorem runsIsolated_of_apart (hD : KeysDisjoint D) (hapart : Set.InjOn collation D) :
    RunsIsolated collation D := by
  intro sessions hsess now ops a ha key
  obtain ⟨hc, hr⟩ : CopiesStored collation D sessions ops _ ∧
      RowsStored collation D sessions ops _ :=
    stored_run hD hapart hsess ops (w := World.init collation now) (fun _ h => h)
      (fun _ _ _ _ _ h => by simp [World.init] at h) (fun _ _ _ hne => absurd rfl hne)
  generalize ops.foldl (exec sessions) (World.init collation now) = w at hc hr ⊢
  have hcopy : ∀ kind v, w.mc.get (fullKey kind a key) = v → v ≠ "" →
      Stored collation sessions ops kind a key v := by
    intro kind v hv hne
    cases hm : w.mc (fullKey kind a key) with
    | none =>
      rw [Memcached.get, hm] at hv
      exact absurd hv.symm hne
    | some u =>
      rw [Memcached.get, hm, Option.getD_some] at hv
      exact hc kind a ha key v (hv ▸ hm) hne
  refine ⟨hcopy .shortTerm, fun renew use v hv hne => ?_⟩
  rw [longTermCacheGet_fst] at hv
  split at hv
  · exact hcopy .longTerm v hv hne
  · exact hv ▸ hr a ha key (hv ▸ hne)

/-- Two sites that the table takes for one read each other's rows. -/
theorem apart_of_runsIsolated (h : RunsIsolated collation D) : Set.InjOn collation D := by
  intro a ha b hb hab
  -- session 0 is of site `a`, the others of site `b`, and only session 1 stores anything
  have hget := (h (fun id => some (if id = 0 then a else b)) (fun id c hc => by
    rw [← Option.some.inj hc]
    split
    · exact ha
    · exact hb) 0 [.call 1 (.longTermCacheSet "k" "v" 1 0)] a ha "k").2 0 0 "v"
  obtain ⟨op, hop, key', -, hstores⟩ := hget (by
    rw [longTermCacheGet_fst, if_neg (by simp)]
    simp only [List.foldl_cons, List.foldl_nil, exec, perform, longTermCacheSet]
    rw [if_neg Int.one_ne_zero, valueAt_longTermCacheSet, if_pos (by rw [weights, weights, hab])])
    (by decide)
  rw [List.mem_singleton.mp hop] at hstores
  exact (Option.some.inj hstores.2.1).symm

/-- CORRECT: over the sites `D`, full keys are injective and every run of the cache operations is
    isolated, exactly when no subdomain of `D` clashes with another, and no two of them compare equal
    in the table. -/
theorem cache_isolation_iff (collation : Collation) (D : Set String) :
    (KeysDisjoint D ∧ RunsIsolated collation D) ↔
      (∀ a ∈ D, ∀ b ∈ D, ¬ Clash a b) ∧ Set.InjOn collation D := by
  rw [← keysDisjoint_iff]
  exact and_congr_right fun hD => ⟨apart_of_runsIsolated, runsIsolated_of_apart hD⟩

/-- Site "shop" reads as its own long-term entry what site "shopLongTerm2" stored as a short-term
    entry, or what site "Shop" stored as a long-term entry, and nothing else was ever stored. -/
theorem cache_leak :
    fullKey .longTerm "shop" "cart" = fullKey .shortTerm "shopLongTerm2" "cart" ∧
    (longTermCacheGet
      (exec (fun id => if id = 1 then some "shop" else some "shopLongTerm2")
        (World.init foldCase 0) (.call 2 (.shortTermCacheSet "cart" "secret")))
      "shop" "cart" 0 1).1 = "secret" ∧
    (longTermCacheGet
      (exec (fun id => if id = 1 then some "shop" else some "Shop") (World.init foldCase 0)
        (.call 2 (.longTermCacheSet "cart" "secret" 7 0))) "shop" "cart" 0 1).1 = "secret" := by
  decide +kernel

end VaeDb.Cache
