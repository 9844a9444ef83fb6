import Mathlib.Data.Int.Notation
import Mathlib.Data.Nat.Find
import Mathlib.Data.Set.Defs
import Mathlib.Tactic.Common

/-! Comparison by levels: the first level at which two things differ decides.

    Each level compares its own way, and its ties need not be transitive: a comparison up to a
    tolerance ties u with v and v with w and still tells u from w. The whole is a strict weak order
    on a set exactly if the levels below break every such chain on the right side.

        level 0   u = v = w
        level 1   u ≈ v ≈ w,  u before w      a chain
        level 2   u before v, or v before w?  -/

namespace Schemes

/-- What `std::sort` needs of a three-way comparison, on the elements of a set. Positive is before,
    zero a tie. -/
structure StrictWeak {α : Type*} (cmp : α → α → ℤ) (S : Set α) : Prop where
  before_trans : ∀ a ∈ S, ∀ b ∈ S, ∀ c ∈ S, 0 < cmp a b → 0 < cmp b c → 0 < cmp a c
  tie_trans : ∀ a ∈ S, ∀ b ∈ S, ∀ c ∈ S, cmp a b = 0 → cmp b c = 0 → cmp a c = 0
  tie_before : ∀ a ∈ S, ∀ b ∈ S, ∀ c ∈ S, cmp a b = 0 → 0 < cmp b c → 0 < cmp a c

/-- A comparison at each level: 1 before, -1 after, 0 a tie. -/
structure Levels (α : Type*) where
  level : ℕ → α → α → ℤ
  sign : ∀ k x y, level k x y = 1 ∨ level k x y = 0 ∨ level k x y = -1
  swap : ∀ k x y, level k y x = -level k x y
  trans : ∀ k x y z, level k x y = 1 → level k y z = 1 → level k x z = 1

namespace Levels

variable {α : Type*} (L : Levels α)

open Classical in
/-- What the first level from `k` on that is no tie says; 0 if there is none. -/
noncomputable def first (k : ℕ) (x y : α) : ℤ :=
  if h : ∃ j, k ≤ j ∧ L.level j x y ≠ 0 then L.level (Nat.find h) x y else 0

/-- The two tie at all levels below `k`. -/
def TieBelow (k : ℕ) (x y : α) : Prop := ∀ i < k, L.level i x y = 0

/-- From level `k` on, the first one that is no tie puts the two in this order. -/
def Before (k : ℕ) (x y : α) : Prop :=
  ∃ j, k ≤ j ∧ (∀ i, k ≤ i → i < j → L.level i x y = 0) ∧ L.level j x y = 1

/-- Ties at level `k` that do not add up to a tie. -/
structure Chain (k : ℕ) (u v w : α) : Prop where
  below_uv : L.TieBelow k u v
  below_vw : L.TieBelow k v w
  below_uw : L.TieBelow k u w
  tie_uv : L.level k u v = 0
  tie_vw : L.level k v w = 0
  before_uw : L.level k u w = 1

variable {L} {k : ℕ} {x y z : α} {S : Set α}

theorem first_of_ties (h : ∀ j, k ≤ j → L.level j x y = 0) : L.first k x y = 0 := by
  rw [first, dif_neg]
  rintro ⟨j, hj, hne⟩
  exact hne (h j hj)

/-- The first level that is no tie. -/
theorem first_eq_level {j : ℕ} (hj : k ≤ j) (hties : ∀ i, k ≤ i → i < j → L.level i x y = 0)
    (hne : L.level j x y ≠ 0) : L.first k x y = L.level j x y := by
  have hex : ∃ j, k ≤ j ∧ L.level j x y ≠ 0 := ⟨j, hj, hne⟩
  have hfind : Nat.find hex = j := by
    refine (Nat.find_eq_iff hex).mpr ⟨⟨hj, hne⟩, ?_⟩
    rintro i hi ⟨hki, hni⟩
    exact hni (hties i hki hi)
  rw [first, dif_pos hex]
  exact congrArg (L.level · x y) hfind

/-- Either a property holds at every level from `k` on, or it fails at one for the first time. -/
theorem all_or_first (P : ℕ → Prop) (k : ℕ) :
    (∀ j, k ≤ j → P j) ∨ ∃ j, k ≤ j ∧ (∀ i, k ≤ i → i < j → P i) ∧ ¬ P j := by
  classical
  by_cases h : ∃ j, k ≤ j ∧ ¬ P j
  · refine .inr ⟨Nat.find h, (Nat.find_spec h).1, ?_, (Nat.find_spec h).2⟩
    intro i hki hi
    exact not_not.mp fun hni => Nat.find_min h hi ⟨hki, hni⟩
  · exact .inl fun j hj => not_not.mp fun hnj => h ⟨j, hj, hnj⟩

theorem first_of_ne (h : L.level k x y ≠ 0) : L.first k x y = L.level k x y :=
  first_eq_level le_rfl (fun i hki hik => absurd hki (by omega)) h

theorem first_of_tie (h : L.level k x y = 0) : L.first k x y = L.first (k + 1) x y := by
  have hcons : ∀ j, (∀ i, k + 1 ≤ i → i < j → L.level i x y = 0) →
      ∀ i, k ≤ i → i < j → L.level i x y = 0 := by
    intro j hties i hki hij
    rcases Nat.eq_or_lt_of_le hki with rfl | hlt
    · exact h
    · exact hties i hlt hij
  obtain hall | ⟨j, hj, hties, hne⟩ := all_or_first (fun j => L.level j x y = 0) (k + 1)
  · rw [first_of_ties hall,
      first_of_ties fun j hj => hcons (j + 1) (fun i hi _ => hall i hi) j hj (by omega)]
  · rw [first_eq_level hj hties hne, first_eq_level (by omega) (hcons j hties) hne]

/-- One level, and the levels after it. -/
theorem first_step (k : ℕ) (x y : α) : (L.level k x y = 0 ∧ L.first k x y = L.first (k + 1) x y) ∨
    (L.level k x y ≠ 0 ∧ L.first k x y = L.level k x y) := by
  by_cases h : L.level k x y = 0
  · exact .inl ⟨h, first_of_tie h⟩
  · exact .inr ⟨h, first_of_ne h⟩

theorem first_of_tieBelow (h : L.TieBelow k x y) : L.first 0 x y = L.first k x y := by
  induction k with
  | zero => rfl
  | succ k ih => rw [ih fun i hi => h i (by omega), first_of_tie (h k (by omega))]

theorem TieBelow.symm (h : L.TieBelow k x y) : L.TieBelow k y x := by
  intro i hi
  rw [L.swap, h i hi, Int.neg_zero]

theorem first_swap (k : ℕ) (x y : α) : L.first k y x = -L.first k x y := by
  have hzero : ∀ j, L.level j y x = 0 ↔ L.level j x y = 0 := by
    intro j
    rw [L.swap j x y, Int.neg_eq_zero]
  obtain hall | ⟨j, hj, hties, hne⟩ := all_or_first (fun j => L.level j x y = 0) k
  · rw [first_of_ties hall, first_of_ties fun j hj => (hzero j).mpr (hall j hj)]
    rfl
  · rw [first_eq_level hj hties hne, ← L.swap]
    exact first_eq_level hj (fun i hki hij => (hzero i).mpr (hties i hki hij))
      fun h => hne ((hzero j).mp h)

theorem first_sign (k : ℕ) (x y : α) :
    L.first k x y = 1 ∨ L.first k x y = 0 ∨ L.first k x y = -1 := by
  obtain hall | ⟨j, hj, hties, hne⟩ := all_or_first (fun j => L.level j x y = 0) k
  · exact .inr (.inl (first_of_ties hall))
  · rw [first_eq_level hj hties hne]
    exact L.sign j x y

theorem first_eq_one : L.first k x y = 1 ↔ L.Before k x y := by
  constructor
  · intro h
    obtain hall | ⟨j, hj, hties, hne⟩ := all_or_first (fun j => L.level j x y = 0) k
    · rw [first_of_ties hall] at h
      cases h
    · exact ⟨j, hj, hties, by rw [← first_eq_level hj hties hne, h]⟩
  · rintro ⟨j, hj, hties, hone⟩
    rw [first_eq_level hj hties (by rw [hone]; decide), hone]

/-- Every chain is broken by the later levels. -/
def ChainsBroken (L : Levels α) (S : Set α) : Prop :=
  ∀ u ∈ S, ∀ v ∈ S, ∀ w ∈ S, ∀ k, L.Chain k u v w → L.Before (k + 1) u v ∨ L.Before (k + 1) v w

/-- What is before `w` is before everything, or everything is before `w`. -/
def Separates (cmp : α → α → ℤ) (S : Set α) : Prop :=
  ∀ u ∈ S, ∀ v ∈ S, ∀ w ∈ S, cmp u w = 1 → cmp u v = 1 ∨ cmp v w = 1

theorem strictWeak_iff_separates : StrictWeak (L.first 0) S ↔ Separates (L.first 0) S := by
  constructor
  · intro h u hu v hv w hw huw
    have hswap := first_swap (L := L) 0 u v
    have hties := h.tie_trans u hu v hv w hw
    have htie := h.tie_before v hv u hu w hw
    have htrans := h.before_trans v hv u hu w hw
    have hsuv := first_sign (L := L) 0 u v
    have hsvw := first_sign (L := L) 0 v w
    omega
  · intro h
    refine ⟨?_, ?_, ?_⟩ <;> intro a ha b hb c hc hab hbc
    · have hc := h a ha c hc b hb
      have hswap := first_swap (L := L) 0 b c
      have hsab := first_sign (L := L) 0 a b
      have hsac := first_sign (L := L) 0 a c
      omega
    · have hac := h a ha b hb c hc
      have hca := h c hc b hb a ha
      have hswap := first_swap (L := L) 0 a c
      have hswap' := first_swap (L := L) 0 a b
      have hswap'' := first_swap (L := L) 0 b c
      have hsac := first_sign (L := L) 0 a c
      omega
    · have hbac := h b hb a ha c hc
      have hswap := first_swap (L := L) 0 a b
      have hsbc := first_sign (L := L) 0 b c
      omega

theorem chainsBroken_of_separates (h : Separates (L.first 0) S) : L.ChainsBroken S := by
  intro u hu v hv w hw k hc
  have huw : L.first 0 u w = 1 := by
    rw [first_of_tieBelow hc.below_uw, first_of_ne (by rw [hc.before_uw]; decide), hc.before_uw]
  rw [← first_eq_one, ← first_eq_one, ← first_of_tie hc.tie_uv, ← first_of_tie hc.tie_vw,
    ← first_of_tieBelow hc.below_uv, ← first_of_tieBelow hc.below_vw]
  exact h u hu v hv w hw huw

/-- At the first level that does not tie all three: it tells them apart properly, or it has a chain. -/
theorem separates_of_chainsBroken (h : L.ChainsBroken S) : Separates (L.first 0) S := by
  simp only [ChainsBroken, ← first_eq_one] at h
  intro u hu v hv w hw huw
  obtain hall | ⟨k, -, hbelow, hk⟩ := all_or_first (fun k =>
    L.level k u v = 0 ∧ L.level k v w = 0 ∧ L.level k u w = 0) 0
  · rw [first_of_ties fun j hj => (hall j hj).2.2] at huw
    omega
  have buv : L.TieBelow k u v := fun i hi => (hbelow i i.zero_le hi).1
  have bvw : L.TieBelow k v w := fun i hi => (hbelow i i.zero_le hi).2.1
  have buw : L.TieBelow k u w := fun i hi => (hbelow i i.zero_le hi).2.2
  rw [first_of_tieBelow buw] at huw
  rw [first_of_tieBelow buv, first_of_tieBelow bvw]
  have hone : ∀ {x y}, L.level k x y = 1 → L.first k x y = 1 := fun hxy => by
    rw [first_of_ne (by rw [hxy]; decide), hxy]
  have hswap := L.swap k
  by_cases hdiff : L.level k u w = 0
  · -- `u` and `w` tie, so `v` is on one side of them or in a chain with them
    have hwu : L.first (k + 1) w u ≠ 1 := by
      rw [first_swap, ← first_of_tie hdiff, huw]
      decide
    rcases L.sign k u v with huv | huv | huv
    · exact .inl (hone huv)
    · rcases L.sign k v w with hvw | hvw | hvw
      · exact .inr (hone hvw)
      · exact absurd ⟨huv, hvw, hdiff⟩ hk
      · have hwv : L.level k w v = 1 := by rw [hswap, hvw]; rfl
        have hwu' : L.level k w u = 0 := by rw [hswap, hdiff]; rfl
        have hchain := h w hw u hu v hv k ⟨buw.symm, buv, bvw.symm, hwu', huv, hwv⟩
        rw [first_of_tie huv]
        exact .inl (hchain.resolve_left hwu)
    · have hvu : L.level k v u = 1 := by rw [hswap, huv]; rfl
      rcases L.sign k v w with hvw | hvw | hvw
      · exact .inr (hone hvw)
      · have hwu' : L.level k w u = 0 := by rw [hswap, hdiff]; rfl
        have hchain := h v hv w hw u hu k ⟨bvw, buw.symm, buv.symm, hvw, hwu', hvu⟩
        rw [first_of_tie hvw]
        exact .inr (hchain.resolve_right hwu)
      · have hwv : L.level k w v = 1 := by rw [hswap, hvw]; rfl
        have hwu' := L.trans k w v u hwv hvu
        rw [hswap, hdiff] at hwu'
        cases hwu'
  · rw [first_of_ne hdiff] at huw
    rcases L.sign k u v with huv | huv | huv
    · exact .inl (hone huv)
    · rcases L.sign k v w with hvw | hvw | hvw
      · exact .inr (hone hvw)
      · rw [first_of_tie huv, first_of_tie hvw]
        exact h u hu v hv w hw k ⟨buv, bvw, buw, huv, hvw, huw⟩
      · have hwv : L.level k w v = 1 := by rw [hswap, hvw]; rfl
        rw [L.trans k u w v huw hwv] at huv
        cases huv
    · have hvu : L.level k v u = 1 := by rw [hswap, huv]; rfl
      exact .inr (hone (L.trans k v u w hvu huw))

/-- CORRECT: comparing by levels is a strict weak order on a set exactly if every chain of ties in it
    is broken. -/
theorem strictWeak_iff : StrictWeak (L.first 0) S ↔ L.ChainsBroken S :=
  strictWeak_iff_separates.trans ⟨chainsBroken_of_separates, separates_of_chainsBroken⟩

end Levels

end Schemes
