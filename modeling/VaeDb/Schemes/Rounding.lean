import Mathlib.Algebra.Order.Group.Abs
import Mathlib.Algebra.Order.Monoid.OrderDual
import Mathlib.Data.Int.Log
import Mathlib.Data.Rat.Floor
import Mathlib.Order.Monotone.Odd
import Mathlib.Tactic.Linarith
import Mathlib.Tactic.Positivity

/-! Rounding to floating-point numbers of a given precision.

    `Rounding p fl` says what proofs about a program need of its rounding: it is monotone, gives
    numbers with at most `p` bits and leaves these alone. `nearest p` rounds to the nearest such
    number, of two at the same distance to the one with the even significand. The exponent is not
    bounded.

        p = 3    4   5   6   7   8      10      12      14      16
                 ├───┼───┼───┼───┼───────┼───────┼───────┼───────┤   -/

namespace Schemes

/-- What is known about rounding to `p` bits. -/
structure Rounding (p : ℕ) (fl : ℚ → ℚ) : Prop where
  mono : Monotone fl
  exact : ∀ m e : ℤ, |m| ≤ 2 ^ p → fl (m * 2 ^ e) = m * 2 ^ e
  floats : ∀ x, ∃ m e : ℤ, |m| ≤ 2 ^ p ∧ fl x = m * 2 ^ e

namespace Rounding

variable {p : ℕ} {fl : ℚ → ℚ} {x : ℚ} {k : ℤ}

theorem pow (h : Rounding p fl) (k : ℤ) : fl (2 ^ k) = 2 ^ k := by
  have hone := h.exact 1 k (by rw [abs_one]; exact one_le_pow₀ (by norm_num))
  rwa [Int.cast_one, one_mul] at hone

theorem neg_pow (h : Rounding p fl) (k : ℤ) : fl (-2 ^ k) = -2 ^ k := by
  have hone := h.exact (-1) k (by rw [abs_neg, abs_one]; exact one_le_pow₀ (by norm_num))
  rwa [Int.cast_neg, Int.cast_one, neg_one_mul] at hone

theorem zero (h : Rounding p fl) : fl 0 = 0 := by
  have hzero := h.exact 0 0 (by rw [abs_zero]; positivity)
  rwa [Int.cast_zero, zero_mul] at hzero

theorem nonneg (h : Rounding p fl) (hx : 0 ≤ x) : 0 ≤ fl x := h.zero ▸ h.mono hx

theorem nonpos (h : Rounding p fl) (hx : x ≤ 0) : fl x ≤ 0 := h.zero ▸ h.mono hx

/-- A power of two bounds what it bounded before. -/
theorem abs_le_pow (h : Rounding p fl) (hx : |x| ≤ 2 ^ k) : |fl x| ≤ 2 ^ k := by
  rw [abs_le] at *
  exact ⟨h.neg_pow k ▸ h.mono hx.1, h.pow k ▸ h.mono hx.2⟩

theorem pow_le_abs (h : Rounding p fl) (hx : 2 ^ k ≤ |x|) : 2 ^ k ≤ |fl x| := by
  rw [le_abs] at *
  refine hx.imp (fun hx => h.pow k ▸ h.mono hx) fun hx => ?_
  have hneg := h.mono (show x ≤ -2 ^ k by linarith)
  rw [h.neg_pow k] at hneg
  linarith

theorem idem (h : Rounding p fl) (x : ℚ) : fl (fl x) = fl x := by
  obtain ⟨m, e, hm, hx⟩ := h.floats x
  rw [hx, h.exact m e hm]

theorem neg_idem (h : Rounding p fl) (x : ℚ) : fl (-fl x) = -fl x := by
  obtain ⟨m, e, hm, hx⟩ := h.floats x
  have hneg := h.exact (-m) e (by rwa [abs_neg])
  rw [Int.cast_neg, neg_mul] at hneg
  rw [hx, hneg]

end Rounding

/-! ### To integers -/

/-- The nearest integer; a tie goes to the even one. -/
def roundEven (x : ℚ) : ℤ :=
  if Int.fract x < 1 / 2 then ⌊x⌋
  else if 1 / 2 < Int.fract x then ⌊x⌋ + 1
  else if ⌊x⌋ % 2 = 0 then ⌊x⌋ else ⌊x⌋ + 1

theorem roundEven_intCast (n : ℤ) : roundEven n = n := by
  simp [roundEven]

theorem roundEven_bounds (x : ℚ) : ⌊x⌋ ≤ roundEven x ∧ roundEven x ≤ ⌊x⌋ + 1 := by
  unfold roundEven
  split_ifs <;> omega

theorem roundEven_mono {x y : ℚ} (hxy : x ≤ y) : roundEven x ≤ roundEven y := by
  rcases lt_or_eq_of_le (Int.floor_le_floor hxy) with hlt | heq
  · have hx := (roundEven_bounds x).2
    have hy := (roundEven_bounds y).1
    omega
  · have hfract : Int.fract x ≤ Int.fract y := by
      rw [Int.fract, Int.fract, heq]
      linarith
    unfold roundEven
    rw [heq]
    split_ifs <;> first | omega | (exfalso; linarith)

theorem roundEven_neg (x : ℚ) : roundEven (-x) = -roundEven x := by
  by_cases hint : Int.fract x = 0
  · obtain ⟨n, rfl⟩ := Int.fract_eq_zero_iff.mp hint
    rw [← Int.cast_neg, roundEven_intCast, roundEven_intCast]
  · have hfract := Int.fract_neg hint
    have hfloor : ⌊-x⌋ = -⌊x⌋ - 1 := by
      have h : (⌊-x⌋ : ℚ) = -⌊x⌋ - 1 := by
        have hx := Int.floor_add_fract x
        have hnx := Int.floor_add_fract (-x)
        linarith
      exact_mod_cast h
    unfold roundEven
    rw [hfract, hfloor]
    split_ifs <;> first | omega | (exfalso; linarith)

/-! ### To floating-point numbers -/

/-- The distance of neighbours with `p` bits around `x`. -/
def unit (p : ℕ) (x : ℚ) : ℚ := 2 ^ (Int.log 2 |x| - (p - 1))

/-- The nearest number with `p` bits. -/
def nearest (p : ℕ) (x : ℚ) : ℚ := roundEven (x / unit p x) * unit p x

variable {p : ℕ} {x y : ℚ}

theorem unit_pos (p : ℕ) (x : ℚ) : 0 < unit p x := zpow_pos (by norm_num) _

theorem nearest_neg (p : ℕ) (x : ℚ) : nearest p (-x) = -nearest p x := by
  have hunit : unit p (-x) = unit p x := by rw [unit, unit, abs_neg]
  rw [nearest, nearest, hunit, neg_div, roundEven_neg]
  push_cast
  ring

/-- Counted in its units, a number has `p` digits. -/
theorem div_unit_bounds (hx : 0 < x) :
    (2 : ℚ) ^ ((p : ℤ) - 1) ≤ x / unit p x ∧ x / unit p x < 2 ^ (p : ℤ) := by
  have hlow : (2 : ℚ) ^ Int.log 2 x ≤ x := by
    have h := Int.zpow_log_le_self (b := 2) (by decide) hx
    exact_mod_cast h
  have hhigh : x < (2 : ℚ) ^ (Int.log 2 x + 1) := by
    have h := Int.lt_zpow_succ_log_self (b := 2) (by decide) x
    exact_mod_cast h
  rw [le_div_iff₀ (unit_pos p x), div_lt_iff₀ (unit_pos p x), unit, abs_of_pos hx,
    ← zpow_add₀ (by norm_num), ← zpow_add₀ (by norm_num)]
  constructor
  · rwa [show (p : ℤ) - 1 + (Int.log 2 x - (p - 1)) = Int.log 2 x by ring]
  · rwa [show (p : ℤ) + (Int.log 2 x - (p - 1)) = Int.log 2 x + 1 by ring]

theorem roundEven_unit_bounds (hp : 0 < p) (hx : 0 < x) :
    2 ^ (p - 1) ≤ roundEven (x / unit p x) ∧ roundEven (x / unit p x) ≤ 2 ^ p := by
  obtain ⟨hlow, hhigh⟩ := div_unit_bounds (p := p) hx
  have hpred : ((p - 1 : ℕ) : ℤ) = (p : ℤ) - 1 := by omega
  constructor
  · rw [← roundEven_intCast (2 ^ (p - 1))]
    apply roundEven_mono
    rw [Int.cast_pow, Int.cast_ofNat, ← zpow_natCast, hpred]
    exact hlow
  · rw [← roundEven_intCast (2 ^ p)]
    apply roundEven_mono
    rw [Int.cast_pow, Int.cast_ofNat, ← zpow_natCast]
    exact hhigh.le

/-- Rounding does not leave the powers of two around a number. -/
theorem nearest_bounds (hp : 0 < p) (hx : 0 < x) :
    2 ^ Int.log 2 x ≤ nearest p x ∧ nearest p x ≤ 2 ^ (Int.log 2 x + 1) := by
  obtain ⟨hlow, hhigh⟩ := roundEven_unit_bounds hp hx
  have hpred : ((p - 1 : ℕ) : ℤ) = (p : ℤ) - 1 := by omega
  have hlow' : (2 : ℚ) ^ ((p : ℤ) - 1) ≤ roundEven (x / unit p x) := by
    rw [← hpred, zpow_natCast]
    exact_mod_cast hlow
  have hhigh' : (roundEven (x / unit p x) : ℚ) ≤ 2 ^ (p : ℤ) := by
    rw [zpow_natCast]
    exact_mod_cast hhigh
  have hunit : unit p x = 2 ^ (Int.log 2 x - (p - 1)) := by rw [unit, abs_of_pos hx]
  constructor
  · calc (2 : ℚ) ^ Int.log 2 x
      _ = 2 ^ ((p : ℤ) - 1) * unit p x := by
        rw [hunit, ← zpow_add₀ (by norm_num)]
        congr 1
        ring
      _ ≤ nearest p x := mul_le_mul_of_nonneg_right hlow' (unit_pos p x).le
  · calc nearest p x
      _ ≤ 2 ^ (p : ℤ) * unit p x := mul_le_mul_of_nonneg_right hhigh' (unit_pos p x).le
      _ = 2 ^ (Int.log 2 x + 1) := by
        rw [hunit, ← zpow_add₀ (by norm_num)]
        congr 1
        ring

theorem nearest_zero (p : ℕ) : nearest p 0 = 0 := by
  have hzero : roundEven 0 = 0 := roundEven_intCast 0
  rw [nearest, zero_div, hzero, Int.cast_zero, zero_mul]

theorem nearest_mono (hp : 0 < p) : Monotone (nearest p) := by
  refine monotone_of_odd_of_monotoneOn_nonneg (nearest_neg p) ?_
  intro x hx y hy hxy
  rcases eq_or_lt_of_le (Set.mem_Ici.mp hx) with rfl | hx
  · rcases eq_or_lt_of_le hxy with rfl | hy
    · exact le_rfl
    · rw [nearest_zero]
      exact (zpow_pos (by norm_num) _).le.trans (nearest_bounds hp hy).1
  · have hy := hx.trans_le hxy
    rcases lt_or_eq_of_le (Int.log_mono_right (b := 2) hx hxy) with hlt | heq
    · -- a power of two lies between the two
      calc nearest p x
        _ ≤ 2 ^ (Int.log 2 x + 1) := (nearest_bounds hp hx).2
        _ ≤ 2 ^ Int.log 2 y := zpow_le_zpow_right₀ (by norm_num) hlt
        _ ≤ nearest p y := (nearest_bounds hp hy).1
    · have hunit : unit p x = unit p y := by
        rw [unit, unit, abs_of_pos hx, abs_of_pos hy, heq]
      rw [nearest, nearest, hunit]
      refine mul_le_mul_of_nonneg_right ?_ (unit_pos p y).le
      exact_mod_cast roundEven_mono (div_le_div_of_nonneg_right hxy (unit_pos p y).le)

/-- A whole number of units is left alone. -/
theorem nearest_of_units {n : ℤ} (h : x = n * unit p x) : nearest p x = x := by
  have hdiv : x / unit p x = n := by
    rw [div_eq_iff (unit_pos p x).ne']
    exact h
  rw [nearest, hdiv, roundEven_intCast, ← h]

theorem nearest_exact (hp : 0 < p) (m e : ℤ) (hm : |m| ≤ 2 ^ p) :
    nearest p (m * 2 ^ e) = m * 2 ^ e := by
  rcases eq_or_ne m 0 with rfl | hne
  · rw [Int.cast_zero, zero_mul, nearest_zero]
  have habs : |(m * 2 ^ e : ℚ)| = (|m| : ℤ) * 2 ^ e := by
    rw [abs_mul, abs_of_pos (zpow_pos (by norm_num : (0 : ℚ) < 2) e), Int.cast_abs]
  have hpos : (0 : ℚ) < (|m| : ℤ) * 2 ^ e :=
    mul_pos (by exact_mod_cast abs_pos.mpr hne) (zpow_pos (by norm_num) e)
  rcases lt_or_eq_of_le hm with hlt | heq
  · -- the unit is at most the last place of `m`
    have hlog : Int.log 2 |(m * 2 ^ e : ℚ)| < p + e := by
      rw [habs, ← Int.lt_zpow_iff_log_lt (b := 2) (by decide) hpos, zpow_add₀ (by norm_num)]
      refine mul_lt_mul_of_pos_right ?_ (zpow_pos (by norm_num) e)
      exact_mod_cast hlt
    obtain ⟨k, hk⟩ := Int.le.dest (show Int.log 2 |(m * 2 ^ e : ℚ)| - (p - 1) ≤ e by omega)
    refine nearest_of_units (n := m * 2 ^ k) ?_
    rw [unit]
    generalize Int.log 2 |(m * 2 ^ e : ℚ)| - (p - 1) = u at hk ⊢
    rw [← hk, zpow_add₀ (by norm_num), zpow_natCast]
    push_cast
    ring
  · -- a power of two, one place longer
    have hlog : Int.log 2 |(m * 2 ^ e : ℚ)| = p + e := by
      have h := Int.log_zpow (R := ℚ) (b := 2) (by decide) (p + e)
      rw [habs, heq, ← h, zpow_add₀ (by norm_num)]
      push_cast
      rfl
    have hhalf : m = 2 * (m / 2) := by
      have heven : (2 : ℤ) ∣ m := (dvd_abs 2 m).mp (heq ▸ dvd_pow_self 2 hp.ne')
      omega
    refine nearest_of_units (n := m / 2) ?_
    rw [unit, hlog, show (p : ℤ) + e - (p - 1) = e + 1 by ring, zpow_add₀ (by norm_num), zpow_one]
    have hcast : (m : ℚ) = 2 * (m / 2 : ℤ) := by exact_mod_cast hhalf
    rw [hcast]
    ring

theorem nearest_floats (hp : 0 < p) (x : ℚ) : ∃ m e : ℤ, |m| ≤ 2 ^ p ∧ nearest p x = m * 2 ^ e := by
  refine ⟨roundEven (x / unit p x), _, ?_, rfl⟩
  rcases lt_trichotomy x 0 with hneg | rfl | hpos
  · have hunit : unit p (-x) = unit p x := by rw [unit, unit, abs_neg]
    have h := roundEven_unit_bounds (x := -x) hp (by linarith)
    rw [hunit, neg_div, roundEven_neg] at h
    rw [abs_of_nonpos (by have : (0 : ℤ) < 2 ^ (p - 1) := by positivity
                          omega)]
    exact h.2
  · rw [zero_div, show roundEven 0 = 0 from roundEven_intCast 0, abs_zero]
    positivity
  · have h := roundEven_unit_bounds hp hpos
    rw [abs_of_nonneg (by have : (0 : ℤ) < 2 ^ (p - 1) := by positivity
                          omega)]
    exact h.2

theorem nearest_rounding (hp : 0 < p) : Rounding p (nearest p) :=
  ⟨nearest_mono hp, nearest_exact hp, nearest_floats hp⟩

end Schemes
