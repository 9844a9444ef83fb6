import Mathlib.Data.List.Perm.Basic
import Mathlib.Order.Lattice
import Mathlib.Tactic.Common

/-! Pools: a map from resources to whether they are free, with the handles that are out.

    The map is the list of its entries in the order of their keys. `take` marks the first free entry
    as in use, `giveBack` marks the entry of a resource as free. `Balanced` ties the map to the
    handles: a resource is out once if it is in use, and not at all otherwise. Handing a resource out
    with `take` and taking one back that is out both keep it, and count up or down by one what is
    free.

        [a use, b free, c free]  ── take ──▶  b, [a use, b use, c free]  ── giveBack a ──▶
        [a free, b use, c free] -/

namespace Schemes

inductive Status where
  | free
  | inuse
  deriving DecidableEq

namespace Pool

variable {κ : Type}

/-- How many entries are free. -/
def frees (pool : List (κ × Status)) : ℕ := pool.countP fun e => e.2 = .free

/-- Take the first free entry. -/
def take : List (κ × Status) → Option (κ × List (κ × Status))
  | [] => none
  | (k, .free) :: pool => some (k, (k, .inuse) :: pool)
  | (k, .inuse) :: pool => (take pool).map fun (k', pool) => (k', (k, .inuse) :: pool)

theorem take_eq_none {pool : List (κ × Status)} : take pool = none ↔ frees pool = 0 := by
  induction pool with
  | nil => simp [take, frees]
  | cons e pool ih =>
    obtain ⟨k, st⟩ := e
    cases st with
    | free => simp [take, frees]
    | inuse =>
      rw [take, Option.map_eq_none_iff, ih]
      simp [frees]

/-- The entry that is taken was free, and is the only one that changes. -/
theorem take_eq_some {pool pool' : List (κ × Status)} {k : κ} (h : take pool = some (k, pool')) :
    ∃ l r, pool = l ++ (k, .free) :: r ∧ pool' = l ++ (k, .inuse) :: r := by
  induction pool generalizing pool' with
  | nil => cases h
  | cons e pool ih =>
    obtain ⟨k', st⟩ := e
    cases st with
    | free =>
      cases h
      exact ⟨[], pool, rfl, rfl⟩
    | inuse =>
      obtain ⟨⟨k'', pool''⟩, htake, heq⟩ := Option.map_eq_some_iff.mp h
      cases heq
      obtain ⟨l, r, rfl, rfl⟩ := ih htake
      exact ⟨(k', .inuse) :: l, r, rfl, rfl⟩

/-- With distinct keys, the entries around one have other keys. -/
theorem others_ne {l r : List (κ × Status)} {k : κ} {st : Status}
    (hkeys : ((l ++ (k, st) :: r).map Prod.fst).Nodup) :
    (∀ e ∈ l, e.1 ≠ k) ∧ ∀ e ∈ r, e.1 ≠ k := by
  rw [List.map_append, List.map_cons, List.nodup_append] at hkeys
  obtain ⟨-, hr, hdisjoint⟩ := hkeys
  refine ⟨fun e he => ?_, fun e he heq => ?_⟩
  · exact hdisjoint e.1 (List.mem_map_of_mem he) k List.mem_cons_self
  · exact (List.nodup_cons.mp hr).1 (List.mem_map.mpr ⟨e, he, heq⟩)

section Keys

variable [DecidableEq κ]

/-- Mark the entry of a resource as free. -/
def giveBack (k : κ) (pool : List (κ × Status)) : List (κ × Status) :=
  pool.map fun e => if e.1 = k then (e.1, .free) else e

/-- How many entries a resource has. -/
def entries (k : κ) (pool : List (κ × Status)) : ℕ := pool.countP fun e => e.1 = k

/-- The entry of a resource is the only one that `giveBack` changes. -/
theorem giveBack_eq {l r : List (κ × Status)} {k : κ} {st : Status}
    (hkeys : ((l ++ (k, st) :: r).map Prod.fst).Nodup) :
    giveBack k (l ++ (k, st) :: r) = l ++ (k, .free) :: r ∧ entries k (l ++ (k, st) :: r) = 1 := by
  have hsame : ∀ l' : List (κ × Status), (∀ e ∈ l', e.1 ≠ k) →
      giveBack k l' = l' ∧ entries k l' = 0 := by
    intro l' hl'
    refine ⟨?_, List.countP_eq_zero.mpr fun e he => by simpa using hl' e he⟩
    rw [giveBack, List.map_congr_left fun e he => if_neg (hl' e he), List.map_id']
  obtain ⟨hl, hr⟩ := others_ne hkeys
  obtain ⟨hgl, hel⟩ := hsame l hl
  obtain ⟨hgr, her⟩ := hsame r hr
  constructor
  · rw [giveBack] at hgl hgr ⊢
    rw [List.map_append, List.map_cons, hgl, hgr, if_pos rfl]
  · rw [entries] at hel her ⊢
    rw [List.countP_append, List.countP_cons, hel, her]
    simp

/-! ### Handles -/

/-- Keys are distinct, and a resource is out once if it is in use and not at all otherwise. -/
structure Balanced (pool : List (κ × Status)) (handles : List κ) : Prop where
  keys : (pool.map Prod.fst).Nodup
  out : ∀ k, handles.count k = if (k, .inuse) ∈ pool then 1 else 0

/-- Which resources are in use, around an entry with a key of its own. -/
theorem mem_inuse {l r : List (κ × Status)} {k : κ} {st : Status}
    (hkeys : ((l ++ (k, st) :: r).map Prod.fst).Nodup) (k' : κ) :
    (k', .inuse) ∈ l ++ (k, st) :: r ↔
      if k' = k then st = .inuse else (k', .inuse) ∈ l ∨ (k', .inuse) ∈ r := by
  obtain ⟨hl, hr⟩ := others_ne hkeys
  rw [List.mem_append, List.mem_cons, Prod.mk.injEq]
  split
  · next heq =>
    subst heq
    constructor
    · rintro (h | ⟨-, h⟩ | h)
      · exact absurd rfl (hl _ h)
      · exact h.symm
      · exact absurd rfl (hr _ h)
    · exact fun h => .inr (.inl ⟨rfl, h.symm⟩)
  · next hne => simp [hne]

theorem Balanced.not_inuse {pool : List (κ × Status)} {handles : List κ} {k : κ}
    (h : Balanced pool handles) (hfree : (k, .free) ∈ pool) : (k, .inuse) ∉ pool := by
  obtain ⟨l, r, rfl⟩ := List.append_of_mem hfree
  simp [mem_inuse h.keys]

/-- Handing out a free resource. -/
theorem Balanced.take {pool pool' : List (κ × Status)} {handles : List κ} {k : κ}
    (h : Balanced pool handles) (htake : Pool.take pool = some (k, pool')) :
    Balanced pool' (k :: handles) ∧ frees pool = frees pool' + 1 := by
  obtain ⟨l, r, rfl, rfl⟩ := take_eq_some htake
  have hkeys : ((l ++ (k, .inuse) :: r).map Prod.fst).Nodup := by
    have := h.keys
    rwa [List.map_append, List.map_cons] at this ⊢
  refine ⟨⟨hkeys, fun k' => ?_⟩, ?_⟩
  · have hout := h.out k'
    simp only [mem_inuse h.keys] at hout
    simp only [mem_inuse hkeys, List.count_cons, hout]
    by_cases heq : k' = k
    · simp [heq]
    · simp [heq, Ne.symm heq]
  · simp [frees]
    omega

/-- Taking back a resource that is out. -/
theorem Balanced.giveBack {pool : List (κ × Status)} {before after : List κ} {k : κ}
    (h : Balanced pool (before ++ k :: after)) :
    Balanced (Pool.giveBack k pool) (before ++ after) ∧ entries k pool = 1 ∧
      frees (Pool.giveBack k pool) = frees pool + 1 := by
  have hmem : (k, .inuse) ∈ pool := by
    by_contra hnot
    have hout := h.out k
    rw [if_neg hnot, List.count_append, List.count_cons_self] at hout
    omega
  obtain ⟨l, r, rfl⟩ := List.append_of_mem hmem
  obtain ⟨hback, hone⟩ := giveBack_eq h.keys
  have hkeys : ((l ++ (k, .free) :: r).map Prod.fst).Nodup := by
    have := h.keys
    rwa [List.map_append, List.map_cons] at this ⊢
  rw [hback]
  refine ⟨⟨hkeys, fun k' => ?_⟩, hone, ?_⟩
  · have hout := h.out k'
    simp only [mem_inuse h.keys, List.count_append, List.count_cons] at hout
    simp only [mem_inuse hkeys, List.count_append]
    by_cases heq : k' = k
    · simp [heq] at hout ⊢
      omega
    · simpa [heq, Ne.symm heq] using hout
  · simp [frees]
    omega

end Keys

/-! ### Filling a pool -/

section Order

variable [LinearOrder κ]

/-- Set the entry of a resource, new or not. -/
def assign (k : κ) (st : Status) : List (κ × Status) → List (κ × Status)
  | [] => [(k, st)]
  | e :: pool =>
    if k < e.1 then (k, st) :: e :: pool
    else if k = e.1 then (k, st) :: pool
    else e :: assign k st pool

/-- A new resource gets an entry of its own. -/
theorem assign_perm {k : κ} {st : Status} {pool : List (κ × Status)}
    (hk : k ∉ pool.map Prod.fst) : (assign k st pool).Perm ((k, st) :: pool) := by
  induction pool with
  | nil => exact .refl _
  | cons e pool ih =>
    rw [List.map_cons, List.mem_cons, not_or] at hk
    obtain ⟨hne, hpool⟩ := hk
    rw [assign, if_neg hne]
    split
    · exact .refl _
    · exact ((ih hpool).cons e).trans (.swap _ _ _)

/-- Adding a free resource. -/
theorem Balanced.assign {pool : List (κ × Status)} {handles : List κ} {k : κ}
    (h : Balanced pool handles) (hk : k ∉ pool.map Prod.fst) :
    Balanced (Pool.assign k .free pool) handles ∧
      frees (Pool.assign k .free pool) = frees pool + 1 := by
  have hperm : (Pool.assign k .free pool).Perm ((k, .free) :: pool) := assign_perm hk
  refine ⟨⟨?_, fun k' => ?_⟩, ?_⟩
  · rw [(hperm.map Prod.fst).nodup_iff]
    exact List.nodup_cons.mpr ⟨hk, h.keys⟩
  · simp [h.out k', hperm.mem_iff]
  · rw [frees, frees, hperm.countP_eq]
    simp

end Order

end Pool

end Schemes
