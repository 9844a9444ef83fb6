import VaeDb.QueryCache.FetchQuery
import VaeDb.Schemes.Runs

/-! One query cache, and any number of requests at the same time.

    The mutex of the cache makes each of its operations one step. Between the `fetch` and the `insert`
    of a request nothing is locked: other requests come in between, also for the same key, and then
    its query is constructed twice and the second insert replaces the first. `broken` stands for an
    operation that is undefined.

        fetch ─── hit ──▶ return
          └── null ──▶ new Query ──▶ insert ──▶ return
                           └── exception ──▶ return -/

namespace VaeDb.LruCache
namespace Sharing
open Schemes Xml

/-- The next step of a request. -/
inductive Pc (Key Query : Type) where
  | idle
  | fetch (key : Key)
  | construct (key : Key)
  | insert (key : Key) (query : Query)

variable {Key Query ε : Type}

/-- The cache, the requests, and the answers given so far. -/
structure State (Key Query ε : Type) where
  query_cache : LRUCache Key (Option Query)
  broken : Bool
  requests : ℕ → Pc Key Query
  returned : List (Key × Except ε Query)

def State.init (Size : UInt64) : State Key Query ε := ⟨.new Size, false, fun _ => .idle, []⟩

def State.goTo (s : State Key Query ε) (t : ℕ) (pc : Pc Key Query) : State Key Query ε :=
  { s with requests := Function.update s.requests t pc }

def State.give (s : State Key Query ε) (t : ℕ) (key : Key) (answer : Except ε Query) :
    State Key Query ε :=
  { s.goTo t .idle with returned := (key, answer) :: s.returned }

/-- The start of a request, or the next step of one. -/
inductive Act (Key : Type) where
  | request (t : ℕ) (key : Key)
  | next (t : ℕ)

section Steps

variable [DecidableEq Key]

def advance (build : Key → Except ε Query) (s : State Key Query ε) (t : ℕ) :
    Pc Key Query → Option (State Key Query ε)
  | .idle => none
  | .fetch key => match s.query_cache.fetch key false with
    | some (some query, c) => some ({ s with query_cache := c }.give t key (.ok query))
    | some (none, c) => some ({ s with query_cache := c }.goTo t (.construct key))
    | none => some { s with broken := true }
  | .construct key => match build key with
    | .ok query => some (s.goTo t (.insert key query))
    | .error e => some (s.give t key (.error e))
  | .insert key query => match s.query_cache.insert Countfn key (some query) with
    | some c => some ({ s with query_cache := c }.give t key (.ok query))
    | none => some { s with broken := true }

def step (build : Key → Except ε Query) (s : State Key Query ε) :
    Act Key → Option (State Key Query ε)
  | .request t key => match s.requests t with
    | .idle => some (s.goTo t (.fetch key))
    | _ => none
  | .next t => advance build s t (s.requests t)

end Steps

/-! ### The invariant -/

variable {build : Key → Except ε Query} {s s' : State Key Query ε} {n : ℕ}

/-- Whatever is in the cache, on its way into it or returned is what the constructor gives. -/
structure Inv (build : Key → Except ε Query) (n : ℕ) (s : State Key Query ε) : Prop where
  sound : s.query_cache.Sound Countfn
  max_size : s.query_cache._max_size.toNat = n
  whole : s.broken = false
  entries : ∀ e ∈ s.query_cache.entries, ∃ query, e.2 = some query ∧ build e.1 = .ok query
  requests : ∀ t key query, s.requests t = .insert key query → build key = .ok query
  returned : ∀ r ∈ s.returned, r.2 = build r.1

namespace Inv

theorem goTo (h : Inv build n s) (t : ℕ) (pc : Pc Key Query)
    (hpc : ∀ key query, pc = .insert key query → build key = .ok query) :
    Inv build n (s.goTo t pc) where
  __ := h
  requests t' key query ht' := by
    rw [State.goTo] at ht'
    dsimp only at ht'
    rcases eq_or_ne t' t with rfl | hne
    · rw [Function.update_self] at ht'
      exact hpc key query ht'
    · rw [Function.update_of_ne hne] at ht'
      exact h.requests t' key query ht'

theorem give (h : Inv build n s) (t : ℕ) {key : Key} {answer : Except ε Query}
    (hanswer : answer = build key) : Inv build n (s.give t key answer) where
  __ := h.goTo t .idle (by rintro _ _ ⟨⟩)
  returned := List.forall_mem_cons.mpr ⟨hanswer, h.returned⟩

theorem init {Size : UInt64} (hsize : Size.toNat = n) : Inv build n (State.init Size) where
  sound := LRUCache.sound_new Size
  max_size := hsize
  whole := rfl
  entries := by simp [State.init, LRUCache.new, LRUCache.entries]
  requests := by simp [State.init]
  returned := by simp [State.init]

/-- No more entries than the cache was made for. -/
theorem length_le (h : Inv build n s) : s.query_cache._list.length ≤ n := by
  have hle := UInt64.le_iff_toNat_le.mp h.sound.size_le
  rw [h.sound.curr_size, h.max_size] at hle
  have hlen := (Recency.total_one s.query_cache.entries).symm.le.trans hle
  rwa [LRUCache.entries, List.length_map] at hlen

variable [DecidableEq Key]

/-- The cache is not locked between the steps of a request, so the invariant is all that a step
    relies on. -/
theorem advance (h : Inv build n s) (hn : n + 1 < 2 ^ 64) {t : ℕ} {pc : Pc Key Query}
    (hpc : ∀ key query, pc = .insert key query → build key = .ok query)
    (hadvance : Sharing.advance build s t pc = some s') : Inv build n s' := by
  cases pc with
  | idle => cases hadvance
  | fetch key =>
    rw [Sharing.advance, h.sound.fetched key] at hadvance
    cases hlook : Recency.lookup s.query_cache.entries key with
    | none =>
      rw [hlook] at hadvance
      cases hadvance
      exact h.goTo _ _ (by rintro _ _ ⟨⟩)
    | some p_query =>
      have hmem := (Recency.lookup_eq_some h.sound.nodup_entries).mp hlook
      obtain ⟨query, rfl, hbuild⟩ := h.entries _ hmem
      rw [hlook] at hadvance
      cases hadvance
      exact h.give t hbuild.symm
  | construct key =>
    rw [Sharing.advance] at hadvance
    cases hbuild : build key with
    | error e =>
      rw [hbuild] at hadvance
      cases hadvance
      exact h.give t hbuild.symm
    | ok query =>
      rw [hbuild] at hadvance
      cases hadvance
      exact h.goTo _ _ (by rintro _ _ ⟨⟩; exact hbuild)
  | insert key query =>
    have hbuild := hpc key query rfl
    have hroom : s.query_cache._max_size.toNat + (Countfn (some query)).toNat < 2 ^ 64 := by
      rw [h.max_size]
      exact hn
    obtain ⟨c, hc, hsound, hentries, hmax⟩ := h.sound.inserted key hroom
    rw [Sharing.advance, hc] at hadvance
    cases hadvance
    have hc : Inv build n { s with query_cache := c } := {
      h with
      sound := hsound
      max_size := hmax ▸ h.max_size
      entries := fun e he => by
        rw [hentries] at he
        rcases List.mem_cons.mp ((Recency.fitting_isPrefix _ _).mem he) with rfl | hold
        · exact ⟨query, rfl, hbuild⟩
        · exact h.entries e (Recency.mem_without.mp hold).1 }
    exact hc.give t hbuild.symm

theorem step (h : Inv build n s) (hn : n + 1 < 2 ^ 64) {a : Act Key}
    (hstep : Sharing.step build s a = some s') : Inv build n s' := by
  cases a with
  | request t key =>
    rw [Sharing.step] at hstep
    split at hstep <;> cases hstep
    exact h.goTo _ _ (by rintro _ _ ⟨⟩)
  | next t => exact h.advance hn (h.requests t) hstep

end Inv

/-! ### The main result -/

/-- CORRECT: however the steps of any number of requests to one Site interleave, no operation of its
    query cache is undefined, every request is answered as the constructor of a query answers, and
    the cache keeps to its size with one entry for a key. -/
theorem requests_answered {lib : Libxml} {site : Site} {acts : List (Act (Option NodeId × String))}
    {s : State (Option NodeId × String) VaeDb.Query Failure}
    (h : run (step (newQuery lib site)) (State.init 384) acts = some s) :
    s.broken = false ∧ (∀ r ∈ s.returned, r.2 = newQuery lib site r.1) ∧
      s.query_cache._list.length ≤ 384 ∧ (s.query_cache.get_all_keys).Nodup := by
  have hinv : Inv (newQuery lib site) 384 s :=
    run_invariant' (fun _ _ _ hs hstep => hs.step (by decide) hstep) (.init rfl) h
  exact ⟨hinv.whole, hinv.returned, hinv.length_le, hinv.sound.keys⟩

/-- Two requests for one key, the second one between the steps of the first: both construct. -/
def overlapping : List (Act (Option NodeId × String)) :=
  [.request 0 (none, "7"), .request 1 (none, "7"), .next 0, .next 1, .next 0, .next 1, .next 0,
    .next 1]

theorem requests_answered_overlapping :
    ∃ s, run (step (newQuery sampleLib (Site.blank "shop" false []))) (State.init 384) overlapping
        = some s ∧ s.returned.length = 2 ∧ s.broken = false ∧
      (∀ r ∈ s.returned, r.2 = newQuery sampleLib (Site.blank "shop" false []) r.1) ∧
      s.query_cache._list.length ≤ 384 ∧ (s.query_cache.get_all_keys).Nodup := by
  have hreturned : ((run (step (newQuery sampleLib (Site.blank "shop" false [])))
      (State.init 384) overlapping).map fun s => s.returned.length) = some 2 := by
    decide +kernel
  obtain ⟨s, hrun, hs⟩ := Option.map_eq_some_iff.mp hreturned
  exact ⟨s, hrun, hs, requests_answered hrun⟩

end Sharing
end VaeDb.LruCache
