import VaeDb.Schemes.Rounding
import VaeDb.Session.Paging

/-! The arithmetic of paging: when everything that `Response::query` computes is defined.

    Four numbers of the client flow through sums, products and quotients. `Safe` says that no divisor
    is zero, nothing leaves the range of an `int`, every conversion fits, and that all nodes are
    taken from the node set. `Fits` says for which options and sizes that is so. It speaks of the
    page as it would be with unbounded integers (`pageAt`), and of its place only: the loop over the
    groups moves one way, so that its last round is its worst.

        groups > 0     skip ─────▶ size     never past the end
        groups < 0     ◀───── skip ─────▶   away from the size, without end

    `float` is any rounding to 24 bits. -/

namespace VaeDb
open Schemes Xml

namespace Request

/-- A value of type `int`. -/
def InInt (n : ℤ) : Prop := -2147483648 ≤ n ∧ n ≤ 2147483647

instance (n : ℤ) : Decidable (InInt n) := inferInstanceAs (Decidable (_ ∧ _))

/-- What one group takes of what is left, and how many pages there are: `ceil((float)a / b)`. -/
def share (fl : ℚ → ℚ) (a b : ℤ) : ℤ := ⌈fl (fl a / fl b)⌉

/-- Where group `j` starts, with unbounded integers. -/
def groupSkip (fl : ℚ → ℚ) (o : Request) (size : ℤ) : ℕ → ℤ
  | 0 => o.skip
  | j + 1 => groupSkip fl o size j + share fl (size - groupSkip fl o size j) (o.groups - j)

/-- The number of the asked page, without groups. -/
def pageNumber (fl : ℚ → ℚ) (o : Request) (size : ℤ) : ℤ :=
  max 1 (if o.page = -1 then share fl (size - o.skip) o.paginate else o.page)

/-- The asked page, with unbounded integers. -/
def pageAt (fl : ℚ → ℚ) (o : Request) (size : ℤ) : Page :=
  if o.groups ≠ 0 then
    let j := (max 1 o.page - 1).toNat
    ⟨groupSkip fl o size j, share fl (size - groupSkip fl o size j) (o.groups - j)⟩
  else ⟨o.skip + (pageNumber fl o size - 1) * o.paginate, o.paginate⟩

/-- A quotient is too large for an `int` only by rounding, and only if the divisor is 1 or -1. -/
def Converts (fl : ℚ → ℚ) (a b : ℤ) : Prop :=
  (b = 1 → fl a < 2147483648) ∧ (b = -1 → -2147483648 < fl a)

variable {fl : ℚ → ℚ} {o : Request} {size a b : ℤ}

/-! ### Quotients -/

theorem abs_quotient_le (h : Rounding 24 fl) {k : ℤ} (ha : |(a : ℚ)| ≤ 2 ^ k) (hb : 2 ≤ |b|) :
    |fl (fl a / fl b)| ≤ 2 ^ (k - 1) := by
  apply h.abs_le_pow
  have hb' : (2 : ℚ) ^ (1 : ℤ) ≤ |fl b| := by
    apply h.pow_le_abs
    rw [zpow_one]
    exact_mod_cast hb
  rw [abs_div, div_le_iff₀ (lt_of_lt_of_le (by norm_num) hb')]
  calc |fl a|
    _ ≤ 2 ^ k := h.abs_le_pow ha
    _ = 2 ^ (k - 1) * 2 ^ (1 : ℤ) := by
      rw [← zpow_add₀ (by norm_num)]
      congr 1
      ring
    _ ≤ 2 ^ (k - 1) * |fl b| := mul_le_mul_of_nonneg_left hb' (zpow_pos (by norm_num) _).le

theorem fl_one (h : Rounding 24 fl) : fl ((1 : ℤ) : ℚ) = 1 := by
  have hone := h.pow 0
  rwa [zpow_zero, ← Int.cast_one] at hone

theorem fl_neg_one (h : Rounding 24 fl) : fl ((-1 : ℤ) : ℚ) = -1 := by
  have hone := h.neg_pow 0
  rw [zpow_zero] at hone
  rw [Int.cast_neg, Int.cast_one, hone]

theorem share_one (h : Rounding 24 fl) (a : ℤ) : share fl a 1 = ⌈fl a⌉ := by
  rw [share, fl_one h, div_one, h.idem]

theorem share_neg_one (h : Rounding 24 fl) (a : ℤ) : share fl a (-1) = ⌈-fl a⌉ := by
  rw [share, fl_neg_one h, div_neg, div_one, h.neg_idem]

theorem abs_cast_le (ha : InInt a) : |(a : ℚ)| ≤ 2 ^ (31 : ℤ) := by
  rw [abs_le]
  obtain ⟨hlow, hhigh⟩ := ha
  constructor
  · have : (-2147483648 : ℚ) ≤ a := by exact_mod_cast hlow
    norm_num
    linarith
  · have : (a : ℚ) ≤ 2147483647 := by exact_mod_cast hhigh
    norm_num
    linarith

/-- Between the largest `int` and 2^31 there is no number with 24 bits. -/
theorem abs_fl_gap (h : Rounding 24 fl) (x : ℚ) (hx : |fl x| < 2147483648) :
    |fl x| ≤ 2147483647 := by
  obtain ⟨m, e, hm, hfl⟩ := h.floats x
  rcases le_or_gt 0 e with he | he
  · obtain ⟨n, hn⟩ : ∃ n : ℤ, fl x = n := by
      obtain ⟨k, rfl⟩ := Int.eq_ofNat_of_zero_le he
      exact ⟨m * 2 ^ k, by rw [hfl]; push_cast; rw [zpow_natCast]⟩
    rw [hn] at hx ⊢
    have hlt : |n| < 2147483648 := by exact_mod_cast hx
    exact_mod_cast (show |n| ≤ 2147483647 by omega)
  · have hm' : (|m| : ℚ) ≤ 2 ^ 24 := by exact_mod_cast hm
    have hsmall : (2 : ℚ) ^ e ≤ 1 := zpow_le_one_of_nonpos₀ (by norm_num) he.le
    calc |fl x|
      _ = |(m : ℚ)| * 2 ^ e := by 
        rw [hfl, abs_mul, abs_of_pos (zpow_pos (by norm_num : (0 : ℚ) < 2) e)]
      _ ≤ 2 ^ 24 * 1 := mul_le_mul hm' hsmall (zpow_pos (by norm_num) e).le (by norm_num)
      _ ≤ 2147483647 := by norm_num

/-- Rounding up a number that is not too large. -/
theorem ceil_inInt (h : Rounding 24 fl) {x y : ℚ} (hy : y = fl x ∨ y = -fl x)
    (hlow : -2147483648 ≤ y) : InInt ⌈y⌉ ↔ y < 2147483648 := by
  constructor
  · rintro ⟨-, hhigh⟩
    have hle := Int.ceil_le.mp hhigh
    push_cast at hle
    linarith
  · intro hlt
    have habs : |y| = |fl x| := by
      rcases hy with rfl | rfl
      · rfl
      · exact abs_neg _
    refine ⟨by rw [Int.le_ceil_iff]; push_cast; linarith, Int.ceil_le.mpr ?_⟩
    push_cast
    rcases eq_or_lt_of_le hlow with heq | hgt
    · linarith
    · have hgap := abs_fl_gap h x (by rw [← habs, abs_lt]; exact ⟨hgt, hlt⟩)
      rw [← habs, abs_le] at hgap
      exact hgap.2

/-- When the conversion of a quotient to `int` is defined. -/
theorem share_inInt (h : Rounding 24 fl) (ha : InInt a) (hb : b ≠ 0) :
    InInt (share fl a b) ↔ Converts fl a b := by
  have hfl := abs_le.mp (h.abs_le_pow (abs_cast_le ha))
  norm_num at hfl
  rcases eq_or_ne b 1 with rfl | hone
  · rw [share_one h, ceil_inInt h (.inl rfl) (by linarith)]
    simp [Converts]
  rcases eq_or_ne b (-1) with rfl | hminus
  · rw [share_neg_one h, ceil_inInt h (.inr rfl) (by linarith), neg_lt]
    simp [Converts]
  · have hq := abs_quotient_le (b := b) h (abs_cast_le ha) (by rw [le_abs]; omega)
    rw [abs_le] at hq
    norm_num at hq
    refine iff_of_true ⟨?_, ?_⟩ (by simp [Converts, hone, hminus])
    · rw [share, Int.le_ceil_iff]
      push_cast
      linarith
    · rw [share, Int.ceil_le]
      push_cast
      linarith

/-- The sign of a quotient. -/
theorem share_nonneg (h : Rounding 24 fl) (hab : 0 ≤ a ∧ 0 ≤ b ∨ a ≤ 0 ∧ b ≤ 0) :
    0 ≤ share fl a b := by
  refine Int.ceil_nonneg (h.nonneg ?_)
  rcases hab with ⟨ha, hb⟩ | ⟨ha, hb⟩
  · exact div_nonneg (h.nonneg (by exact_mod_cast ha)) (h.nonneg (by exact_mod_cast hb))
  · exact div_nonneg_of_nonpos (h.nonpos (by exact_mod_cast ha)) (h.nonpos (by exact_mod_cast hb))

theorem share_nonpos (h : Rounding 24 fl) (hab : 0 ≤ a ∧ b ≤ 0 ∨ a ≤ 0 ∧ 0 ≤ b) :
    share fl a b ≤ 0 := by
  refine Int.ceil_le.mpr ?_
  rw [Int.cast_zero]
  apply h.nonpos
  rcases hab with ⟨ha, hb⟩ | ⟨ha, hb⟩
  · exact div_nonpos_of_nonneg_of_nonpos (h.nonneg (by exact_mod_cast ha))
      (h.nonpos (by exact_mod_cast hb))
  · exact div_nonpos_of_nonpos_of_nonneg (h.nonpos (by exact_mod_cast ha))
      (h.nonneg (by exact_mod_cast hb))

/-- A power of two between half of a number and the number. -/
theorem exists_pow_between (ha : a ≠ 0) : ∃ k : ℤ, |(a : ℚ)| ≤ 2 ^ k ∧ 2 ^ (k - 1) ≤ |(a : ℚ)| := by
  have hpos : 0 < |(a : ℚ)| := abs_pos.mpr (by exact_mod_cast ha)
  have hlow := Int.zpow_log_le_self (b := 2) (by decide) hpos
  have hhigh := Int.lt_zpow_succ_log_self (b := 2) (by decide) |(a : ℚ)|
  push_cast at hlow hhigh
  exact ⟨Int.log 2 |(a : ℚ)| + 1, hhigh.le, by rwa [add_sub_cancel_right]⟩

/-- Of two parts or more, one is not more than the whole, whatever the rounding. -/
theorem share_between (h : Rounding 24 fl) (hb : 2 ≤ b) :
    (0 ≤ a → 0 ≤ share fl a b ∧ share fl a b ≤ a) ∧
    (a ≤ 0 → a ≤ share fl a b ∧ share fl a b ≤ 0) := by
  have hb' : 2 ≤ |b| := by rwa [abs_of_pos (by omega)]
  have hbound : a ≠ 0 → |fl (fl a / fl b)| ≤ |(a : ℚ)| := by
    intro hne
    obtain ⟨k, hk, hk'⟩ := exists_pow_between hne
    exact (abs_quotient_le h hk hb').trans hk'
  have hzero : a = 0 → share fl a b = 0 := by
    rintro rfl
    rw [share, Int.cast_zero, h.zero, zero_div, h.zero, Int.ceil_zero]
  constructor
  · intro ha
    refine ⟨share_nonneg h (.inl ⟨ha, by omega⟩), ?_⟩
    rcases eq_or_ne a 0 with heq | hne
    · rw [hzero heq, heq]
    · rw [share, Int.ceil_le]
      have hle := (abs_le.mp (hbound hne)).2
      rwa [abs_of_nonneg (by exact_mod_cast ha)] at hle
  · intro ha
    refine ⟨?_, share_nonpos h (.inr ⟨ha, by omega⟩)⟩
    rcases eq_or_ne a 0 with heq | hne
    · rw [hzero heq, heq]
    · have hle := (abs_le.mp (hbound hne)).1
      rw [abs_of_nonpos (by exact_mod_cast ha), neg_neg] at hle
      exact_mod_cast hle.trans (Int.le_ceil _)

/-- Half of a large number is large. -/
theorem le_share_two (h : Rounding 24 fl) (ha : 1073741824 ≤ a) : 536870912 ≤ share fl a 2 := by
  have hfl : (2 : ℚ) ^ (30 : ℤ) ≤ fl a := by
    rw [← h.pow 30]
    apply h.mono
    norm_num
    exact_mod_cast ha
  have htwo : fl ((2 : ℤ) : ℚ) = 2 := by
    have h2 := h.pow 1
    rw [zpow_one] at h2
    exact_mod_cast h2
  have hhalf : (2 : ℚ) ^ (29 : ℤ) ≤ fl (fl a / fl ((2 : ℤ) : ℚ)) := by
    rw [← h.pow 29, htwo]
    apply h.mono
    norm_num at hfl ⊢
    linarith
  norm_num at hhalf
  have hceil := hhalf.trans (Int.le_ceil _)
  exact_mod_cast hceil

/-! ### The loop over the groups -/

/-- What has to be in range in round `j`. -/
structure Round (fl : ℚ → ℚ) (o : Request) (size : ℤ) (j : ℕ) : Prop where
  skip : 0 < j → InInt (groupSkip fl o size j)
  left : InInt (size - groupSkip fl o size j)
  parts : InInt (o.groups - j)
  divisor : o.groups - j ≠ 0
  share : InInt (share fl (size - groupSkip fl o size j) (o.groups - j))

theorem ceilDiv_eq_ok {n : ℤ} : ceilDiv fl a b = .ok n ↔
    b ≠ 0 ∧ InInt (share fl a b) ∧ share fl a b = n := by
  rw [ceilDiv]
  split
  · next hb => simp [hb]
  · next hb => simp [int_eq_ok, hb, share, InInt]

theorem groupPage_round_iff {n j : ℕ} {before page : Page}
    (hbefore : (if (0 : ℤ) < j then before.skip + before.paginate else before.skip) =
      groupSkip fl o size j) :
    groupPage fl o.groups size (n + 1) j before = .ok page ↔
      Round fl o size j ∧ groupPage fl o.groups size n (j + 1)
        ⟨groupSkip fl o size j, share fl (size - groupSkip fl o size j) (o.groups - j)⟩ =
          .ok page := by
  constructor
  · intro h
    rw [groupPage, bind_eq_ok] at h
    obtain ⟨skip, hskip, h⟩ := h
    obtain ⟨left, hleft, h⟩ := bind_eq_ok.mp h
    obtain ⟨parts, hparts, h⟩ := bind_eq_ok.mp h
    obtain ⟨paginate, hshare, h⟩ := bind_eq_ok.mp h
    have hskip' : skip = groupSkip fl o size j ∧ (0 < j → InInt (groupSkip fl o size j)) := by
      rw [← hbefore]
      split at hskip
      · next hpos =>
        obtain ⟨hrange, rfl⟩ := int_eq_ok.mp hskip
        rw [if_pos hpos]
        exact ⟨rfl, fun _ => hrange⟩
      · next hpos =>
        rw [if_neg hpos, pure_eq_ok.mp hskip]
        exact ⟨rfl, fun hj => absurd hj (by omega)⟩
    obtain ⟨rfl, hrange⟩ := hskip'
    obtain ⟨hleft', rfl⟩ := int_eq_ok.mp hleft
    obtain ⟨hparts', rfl⟩ := int_eq_ok.mp hparts
    obtain ⟨hdivisor, hshare', rfl⟩ := ceilDiv_eq_ok.mp hshare
    exact ⟨⟨hrange, hleft', hparts', hdivisor, hshare'⟩, h⟩
  · rintro ⟨hround, h⟩
    rw [groupPage, bind_eq_ok]
    refine ⟨groupSkip fl o size j, ?_, bind_eq_ok.mpr ⟨_, int_eq_ok.mpr ⟨hround.left, rfl⟩,
      bind_eq_ok.mpr ⟨_, int_eq_ok.mpr ⟨hround.parts, rfl⟩, bind_eq_ok.mpr ⟨_, ceilDiv_eq_ok.mpr
        ⟨hround.divisor, hround.share, rfl⟩, h⟩⟩⟩⟩
    split
    · next hpos =>
      rw [if_pos hpos] at hbefore
      exact int_eq_ok.mpr ⟨hbefore ▸ hround.skip (by omega), hbefore⟩
    · next hpos =>
      rw [if_neg hpos] at hbefore
      exact pure_eq_ok.mpr hbefore

/-- The loop is defined if each of its rounds is, and then gives the page of the last one. -/
theorem groupPage_iff {n j : ℕ} {before page : Page}
    (hbefore : (if (0 : ℤ) < j then before.skip + before.paginate else before.skip) =
      groupSkip fl o size j) :
    groupPage fl o.groups size (n + 1) j before = .ok page ↔
      (∀ i, j ≤ i → i ≤ j + n → Round fl o size i) ∧
      page = ⟨groupSkip fl o size (j + n), share fl (size - groupSkip fl o size (j + n))
        (o.groups - (j + n : ℕ))⟩ := by
  induction n generalizing j before with
  | zero =>
    rw [groupPage_round_iff hbefore, groupPage, pure_eq_ok, eq_comm (b := page)]
    refine and_congr_left fun _ => ⟨fun h i hji hij => ?_, fun h => h j le_rfl le_rfl⟩
    obtain rfl : i = j := by omega
    exact h
  | succ n ih =>
    have hrest := @ih (j + 1)
      ⟨groupSkip fl o size j, share fl (size - groupSkip fl o size j) (o.groups - j)⟩
      (if_pos (by omega))
    rw [groupPage_round_iff hbefore, show ((j : ℤ) + 1) = (j + 1 : ℕ) by push_cast; rfl, hrest,
      ← and_assoc, show j + 1 + n = j + (n + 1) by ring]
    refine and_congr_left fun _ => ⟨?_, fun h => ⟨h j le_rfl (by omega), fun i hji hij =>
      h i (by omega) (by omega)⟩⟩
    rintro ⟨hfirst, hrest⟩ i hji hij
    rcases Nat.eq_or_lt_of_le hji with rfl | hlt
    · exact hfirst
    · exact hrest i hlt (by omega)

theorem left_succ (fl : ℚ → ℚ) (o : Request) (size : ℤ) (j : ℕ) :
    size - groupSkip fl o size (j + 1) = size - groupSkip fl o size j -
      share fl (size - groupSkip fl o size j) (o.groups - j) := by
  rw [groupSkip]
  ring

/-- A positive number of groups: what is left gets less, up to the last group. -/
theorem left_between (h : Rounding 24 fl) {j : ℕ} (hj : (j : ℤ) < o.groups) :
    (0 ≤ size - o.skip → 0 ≤ size - groupSkip fl o size j ∧
      size - groupSkip fl o size j ≤ size - o.skip) ∧
    (size - o.skip ≤ 0 → size - o.skip ≤ size - groupSkip fl o size j ∧
      size - groupSkip fl o size j ≤ 0) := by
  induction j with
  | zero => exact ⟨fun hle => ⟨hle, le_rfl⟩, fun hle => ⟨le_rfl, hle⟩⟩
  | succ j ih =>
    have hj' : (j : ℤ) + 1 < o.groups := by exact_mod_cast hj
    obtain ⟨hpos, hneg⟩ := ih (by omega)
    have hshare := share_between (a := size - groupSkip fl o size j) h
      (by omega : 2 ≤ o.groups - j)
    have hsucc := left_succ fl o size j
    constructor
    · intro hle
      have := hshare.1 (hpos hle).1
      have := hpos hle
      omega
    · intro hle
      have := hshare.2 (hneg hle).2
      have := hneg hle
      omega

/-- A negative number of groups: what is left moves away from zero, without end. -/
theorem left_away (h : Rounding 24 fl) (hgroups : o.groups < 0) {i j : ℕ} (hij : i ≤ j) :
    (0 ≤ size - o.skip → 0 ≤ size - groupSkip fl o size i ∧
      size - groupSkip fl o size i ≤ size - groupSkip fl o size j) ∧
    (size - o.skip ≤ 0 → size - groupSkip fl o size j ≤ size - groupSkip fl o size i ∧
      size - groupSkip fl o size i ≤ 0) := by
  have hstep : ∀ k : ℕ, (0 ≤ size - groupSkip fl o size k →
      size - groupSkip fl o size k ≤ size - groupSkip fl o size (k + 1)) ∧
      (size - groupSkip fl o size k ≤ 0 →
        size - groupSkip fl o size (k + 1) ≤ size - groupSkip fl o size k) := by
    intro k
    rw [left_succ]
    constructor
    · intro hle
      have := share_nonpos h (.inl ⟨hle, (by omega : o.groups - k ≤ 0)⟩)
      omega
    · intro hle
      have := share_nonneg h (.inr ⟨hle, (by omega : o.groups - k ≤ 0)⟩)
      omega
  have hsign : ∀ k : ℕ, (0 ≤ size - o.skip → 0 ≤ size - groupSkip fl o size k) ∧
      (size - o.skip ≤ 0 → size - groupSkip fl o size k ≤ 0) := by
    intro k
    induction k with
    | zero => exact ⟨id, id⟩
    | succ k ih =>
      have := hstep k
      omega
  induction j, hij using Nat.le_induction with
  | base =>
    have := hsign i
    omega
  | succ j hij ih =>
    have := hstep j
    have := hsign j
    have := hsign i
    omega

/-- Options that are values of type `int`, as the parser reads them. -/
structure Ints (o : Request) : Prop where
  skip : InInt o.skip
  groups : InInt o.groups
  paginate : InInt o.paginate
  page : InInt o.page

/-- All rounds of a loop over a positive number of groups. -/
theorem rounds_pos_iff (h : Rounding 24 fl) (ho : o.Ints) (hsize : 0 ≤ size)
    (hsize' : size ≤ 2147483647) (hgroups : 0 < o.groups) (n : ℕ) :
    (∀ j ≤ n, Round fl o size j) ↔
      (n : ℤ) < o.groups ∧ size - o.skip ≤ 2147483647 ∧ Converts fl (size - o.skip) o.groups := by
  have hskip := ho.skip
  have hint := ho.groups
  constructor
  · intro hrounds
    have hzero := hrounds 0 (by omega)
    have hleft : InInt (size - o.skip) := hzero.left
    refine ⟨?_, hleft.2, ?_⟩
    · by_contra hle
      have hdivisor := (hrounds o.groups.toNat (by omega)).divisor
      omega
    · rw [← share_inInt h hleft (by omega)]
      have hshare := hzero.share
      rwa [Int.natCast_zero, sub_zero] at hshare
  · rintro ⟨hn, hleft, hconverts⟩ j hj
    have hbetween := @left_between fl o size h _ (show (j : ℤ) < o.groups by omega)
    have hin : InInt (size - groupSkip fl o size j) := by
      unfold InInt at *
      omega
    refine ⟨fun _ => ?_, hin, ?_, by omega, ?_⟩
    · unfold InInt at *
      omega
    · unfold InInt at *
      omega
    · rw [share_inInt h hin (by omega)]
      refine ⟨fun hone => ?_, fun hminus => by omega⟩
      -- the last group: the only one, or half of what was left before is gone
      cases j with
      | zero =>
        rw [Int.natCast_zero, sub_zero] at hone
        exact hconverts.1 hone
      | succ j =>
        push_cast at hone
        have hprev := @left_between fl o size h _ (show (j : ℤ) < o.groups by omega)
        have hhalf := le_share_two (a := size - groupSkip fl o size j) h
        have hshare := (share_between (a := size - groupSkip fl o size j) (b := 2) h le_rfl).1
        have hsucc := left_succ fl o size j
        rw [show o.groups - (j : ℤ) = 2 by omega] at hsucc
        have hsmall : size - groupSkip fl o size (j + 1) ≤ 3 * 536870912 := by
          by_cases hlarge : 1073741824 ≤ size - groupSkip fl o size j
          · have := hhalf hlarge
            omega
          · omega
        have hfl : fl ((size - groupSkip fl o size (j + 1) : ℤ) : ℚ) ≤ (3 : ℤ) * 2 ^ (29 : ℤ) := by
          rw [← h.exact 3 29 (by norm_num)]
          apply h.mono
          have hcast : ((size - groupSkip fl o size (j + 1) : ℤ) : ℚ) ≤ 3 * 536870912 := by
            exact_mod_cast hsmall
          norm_num at hcast ⊢
          linarith
        norm_num at hfl ⊢
        linarith

/-- All rounds of a loop over a negative number of groups. -/
theorem rounds_neg_iff (h : Rounding 24 fl) (ho : o.Ints) (hsize : 0 ≤ size)
    (hsize' : size ≤ 2147483647) (hgroups : o.groups < 0) (n : ℕ) :
    (∀ j ≤ n, Round fl o size j) ↔
      (n : ℤ) ≤ o.groups + 2147483648 ∧ size - o.skip ≤ 2147483647 ∧
      Converts fl (size - o.skip) o.groups ∧
      size - groupSkip fl o size n ≤ 2147483647 ∧ groupSkip fl o size n ≤ 2147483647 := by
  have hskip := ho.skip
  have hint := ho.groups
  constructor
  · intro hrounds
    have hzero := hrounds 0 (by omega)
    have hlast := hrounds n le_rfl
    have hleft : InInt (size - o.skip) := hzero.left
    refine ⟨?_, hleft.2, ?_, hlast.left.2, ?_⟩
    · have hparts := hlast.parts
      unfold InInt at hparts
      omega
    · rw [← share_inInt h hleft (by omega)]
      have hshare := hzero.share
      rwa [Int.natCast_zero, sub_zero] at hshare
    · cases n with
      | zero => exact hskip.2
      | succ n => exact (hlast.skip (by omega)).2
  · rintro ⟨hn, hleft, hconverts, hlast, hlast'⟩ j hj
    have haway := @left_away fl o size h hgroups _ _ hj
    have hstart := @left_away fl o size h hgroups _ _ (Nat.zero_le j)
    have hzero : groupSkip fl o size 0 = o.skip := rfl
    have hin : InInt (size - groupSkip fl o size j) := by
      unfold InInt at *
      omega
    refine ⟨fun _ => ?_, hin, ?_, by omega, ?_⟩
    · unfold InInt at *
      omega
    · unfold InInt at *
      omega
    · rw [share_inInt h hin (by omega)]
      refine ⟨fun hone => by omega, fun hminus => ?_⟩
      obtain rfl : j = 0 := by omega
      exact hconverts.2 (by omega)

/-! ### Windows -/

theorem choosePage_group_iff (hgroups : o.groups ≠ 0) {page : Page} :
    o.choosePage fl size = .ok page ↔
      (∀ j ≤ (max 1 o.page - 1).toNat, Round fl o size j) ∧ page = o.pageAt fl size := by
  have hfirst : (if o.page ≤ 0 then 1 else o.page) = max 1 o.page := by split <;> omega
  have hcount : (max 1 o.page).toNat = (max 1 o.page - 1).toNat + 1 := by omega
  rw [choosePage, if_pos hgroups, pageAt, if_pos hgroups]
  dsimp only
  rw [hfirst, hcount, show (0 : ℤ) = ((0 : ℕ) : ℤ) from rfl,
    @groupPage_iff fl o size _ _ _ _ (by simp [groupSkip])]
  simp

theorem lastPage_eq_ok_iff {k : ℤ} : o.lastPage fl size = .ok k ↔
    InInt (size - o.skip) ∧ o.paginate ≠ 0 ∧ InInt (share fl (size - o.skip) o.paginate) ∧
      share fl (size - o.skip) o.paginate = k := by
  rw [lastPage, bind_eq_ok]
  constructor
  · rintro ⟨left, hleft, h⟩
    obtain ⟨hrange, rfl⟩ := int_eq_ok.mp hleft
    exact ⟨hrange, ceilDiv_eq_ok.mp h⟩
  · rintro ⟨hrange, h⟩
    exact ⟨_, int_eq_ok.mpr ⟨hrange, rfl⟩, ceilDiv_eq_ok.mpr h⟩

/-- The number of the page, where it is defined. -/
theorem number_eq_ok_iff {k : ℤ} :
    (if o.page = -1 then o.lastPage fl size else pure o.page) = .ok k ↔
      (o.page = -1 → InInt (size - o.skip) ∧ o.paginate ≠ 0 ∧
        InInt (share fl (size - o.skip) o.paginate)) ∧
      (if o.page = -1 then share fl (size - o.skip) o.paginate else o.page) = k := by
  split
  · next hlast => simp [lastPage_eq_ok_iff, hlast, and_assoc]
  · next hlast => simp [hlast, pure_eq_ok]

/-- The page by its number: what has to be in range. -/
theorem choosePage_plain_iff (hgroups : o.groups = 0) {page : Page} :
    o.choosePage fl size = .ok page ↔
      ((o.page = -1 → InInt (size - o.skip) ∧ o.paginate ≠ 0 ∧
        InInt (share fl (size - o.skip) o.paginate)) ∧
      InInt ((pageNumber fl o size - 1) * o.paginate) ∧ InInt (o.pageAt fl size).skip) ∧
      page = o.pageAt fl size := by
  have hfirst : ∀ k : ℤ, (if k ≤ 0 then 1 else k) = max 1 k := by
    intro k
    split <;> omega
  have hpage : o.pageAt fl size =
      ⟨o.skip + (pageNumber fl o size - 1) * o.paginate, o.paginate⟩ := by
    rw [pageAt, if_neg (not_not.mpr hgroups)]
  rw [choosePage, if_neg (not_not.mpr hgroups), plainPage, bind_eq_ok, hpage]
  constructor
  · rintro ⟨k, hk, h⟩
    obtain ⟨hlast, rfl⟩ := number_eq_ok_iff.mp hk
    obtain ⟨before, hbefore, h⟩ := bind_eq_ok.mp h
    obtain ⟨skip, hskip, h⟩ := bind_eq_ok.mp h
    rw [hfirst] at hbefore
    obtain ⟨hbefore', rfl⟩ := int_eq_ok.mp hbefore
    obtain ⟨hskip', rfl⟩ := int_eq_ok.mp hskip
    exact ⟨⟨hlast, hbefore', hskip'⟩, (pure_eq_ok.mp h).symm⟩
  · rintro ⟨⟨hlast, hbefore, hskip⟩, rfl⟩
    refine ⟨_, number_eq_ok_iff.mpr ⟨hlast, rfl⟩, ?_⟩
    rw [hfirst]
    exact bind_eq_ok.mpr ⟨_, int_eq_ok.mpr ⟨hbefore, rfl⟩,
      bind_eq_ok.mpr ⟨_, int_eq_ok.mpr ⟨hskip, rfl⟩, rfl⟩⟩

/-- The window is defined if the page is and an unordered page does not end out of range. -/
theorem window_defined_iff : (∃ w, o.window fl size = .ok w) ↔ ∃ page,
    o.choosePage fl size = .ok page ∧
      (o.sortType = .none → max 1 page.paginate + max 0 page.skip ≤ 2147483647) := by
  constructor
  · rintro ⟨w, hw⟩
    rw [window, bind_eq_ok] at hw
    obtain ⟨page, hpage, h⟩ := hw
    refine ⟨page, hpage, fun hsort => ?_⟩
    rw [if_pos hsort, bind_eq_ok] at h
    obtain ⟨reach, hreach, -⟩ := h
    have hrange := (int_eq_ok.mp hreach).1.2
    split at hrange <;> split at hrange <;> omega
  · rintro ⟨page, hpage, hreach⟩
    obtain ⟨w, hw, -⟩ := window_of_page hpage hreach
    exact ⟨w, hw⟩

/-! ### The options -/

theorem inInt_int32 (n : ℤ) : InInt (Cpp.int32 n) := by
  have hlow := Int.le_bmod (x := n) (m := 4294967296) (by decide)
  have hhigh := Int.bmod_lt (x := n) (m := 4294967296) (by decide)
  unfold InInt Cpp.int32
  omega

theorem inInt_atoi (s : String) : InInt (Cpp.atoi s) := by
  unfold Cpp.atoi
  split <;> exact inInt_int32 _

theorem Ints.readPage (ho : o.Ints) (page : String) : (o.readPage page).Ints := by
  have hlast : InInt (-1) := by decide
  have hall : InInt 999999999 := by decide
  unfold Request.readPage
  split
  · exact ⟨ho.skip, ho.groups, ho.paginate, hlast⟩
  · split
    · exact ⟨ho.skip, ho.groups, hall, ho.page⟩
    · exact ⟨ho.skip, ho.groups, ho.paginate, inInt_atoi _⟩

theorem Ints.readOrder (ho : o.Ints) (order : String) : (o.readOrder order).Ints := by
  unfold Request.readOrder
  split
  · exact ho
  · dsimp only
    split_ifs <;> exact ⟨ho.skip, ho.groups, ho.paginate, ho.page⟩

/-- Whatever the options say, they are read into `int`s. -/
theorem parse_ints (options : Options) : (parse options).Ints := by
  have hdefault : Ints {} := ⟨by decide, by decide, by decide, by decide⟩
  refine readAll ?_ hdefault
  simp only [List.forall_mem_cons, List.not_mem_nil, false_implies, implies_true, and_true]
  refine ⟨?_, ?_, ?_, ?_, ?_, ?_, ?_, ?_⟩ <;> intro o value ho
  · exact ⟨inInt_atoi _, ho.groups, ho.paginate, ho.page⟩
  · exact ⟨ho.skip, inInt_atoi _, ho.paginate, ho.page⟩
  · exact ⟨ho.skip, ho.groups, inInt_atoi _, ho.page⟩
  · exact ⟨ho.skip, ho.groups, inInt_atoi _, ho.page⟩
  · exact ⟨ho.skip, ho.groups, ho.paginate, ho.page⟩
  · exact ho.readPage value
  · exact ⟨ho.skip, ho.groups, ho.paginate, ho.page⟩
  · exact ho.readOrder value

/-! ### Safety -/

/-- Nothing in paging is undefined: the window is computed, the indices are those of nodes, and the
    counters of the loop that filters do not pass the size. -/
structure Safe (fl : ℚ → ℚ) (o : Request) (size : ℤ) : Prop where
  defined : ∃ w, o.window fl size = .ok w
  indices : ∀ w, o.window fl size = .ok w → ∀ i, w.start ≤ i → i < w.stop → 0 ≤ i ∧ i < size
  counters : ∀ (ops : Lookups Result) (site : Site) (w : Window) (nodes : List XmlNode)
    (t : Response.Tally), (nodes.length : ℤ) ≤ size →
    nodes.foldlM (Response.tallyNode ops site o w) {} = .ok t →
    0 ≤ t.skipped ∧ 0 ≤ t.included ∧ t.included + t.skipped ≤ t.total ∧ t.total ≤ size

/-- The options whose page can be computed, for a size. -/
structure PageFits (fl : ℚ → ℚ) (o : Request) (size : ℤ) : Prop where
  /-- There is such a group, and the last page has a length to count by. -/
  divisor : (0 < o.groups → max 1 o.page ≤ o.groups) ∧
    (o.groups = 0 → o.page = -1 → o.paginate ≠ 0)
  /-- What is left after skipping, and its quotient. -/
  left : o.groups ≠ 0 ∨ o.page = -1 → size - o.skip ≤ 2147483647 ∧
    Converts fl (size - o.skip) (if o.groups ≠ 0 then o.groups else o.paginate)
  /-- Negative groups move the page away from the size. -/
  away : o.groups < 0 → max 1 o.page - 1 ≤ o.groups + 2147483648 ∧
    size - (o.pageAt fl size).skip ≤ 2147483647 ∧ (o.pageAt fl size).skip ≤ 2147483647
  /-- The items before the page. -/
  before : o.groups = 0 → InInt ((o.pageNumber fl size - 1) * o.paginate) ∧
    InInt (o.pageAt fl size).skip

/-- The options that paging can compute with, for a size: a page that is not sorted also has to end
    in range. -/
structure Fits (fl : ℚ → ℚ) (o : Request) (size : ℤ) : Prop extends PageFits fl o size where
  stop : o.sortType = .none →
    max 1 (o.pageAt fl size).paginate + max 0 (o.pageAt fl size).skip ≤ 2147483647

/-- What is left after skipping, where it is divided by something. -/
theorem left_inInt_iff (h : Rounding 24 fl) (ho : o.Ints) (hsize : 0 ≤ size) :
    InInt (size - o.skip) ∧ b ≠ 0 ∧ InInt (share fl (size - o.skip) b) ↔
      b ≠ 0 ∧ size - o.skip ≤ 2147483647 ∧ Converts fl (size - o.skip) b := by
  have hskip := ho.skip
  constructor
  · rintro ⟨hleft, hb, hshare⟩
    exact ⟨hb, hleft.2, (share_inInt h hleft hb).mp hshare⟩
  · rintro ⟨hb, hleft, hconverts⟩
    have hin : InInt (size - o.skip) := by
      unfold InInt at *
      omega
    exact ⟨hin, hb, (share_inInt h hin hb).mpr hconverts⟩

theorem choosePage_iff_pos (h : Rounding 24 fl) (ho : o.Ints) (hsize : 0 ≤ size)
    (hsize' : size ≤ 2147483647) (hgroups : 0 < o.groups) {page : Page} :
    o.choosePage fl size = .ok page ↔ PageFits fl o size ∧ page = o.pageAt fl size := by
  have hne : o.groups ≠ 0 := by omega
  rw [choosePage_group_iff hne, rounds_pos_iff h ho hsize hsize' hgroups]
  refine and_congr_left fun _ => ⟨?_, fun hfits => ?_⟩
  · rintro ⟨hlt, hleft, hconverts⟩
    refine ⟨⟨fun _ => by omega, fun hzero => absurd hzero hne⟩, fun _ => ⟨hleft, ?_⟩,
      fun hneg => by omega, fun hzero => absurd hzero hne⟩
    rwa [if_pos hne]
  · obtain ⟨hleft, hconverts⟩ := hfits.left (.inl hne)
    have hlast := hfits.divisor.1 hgroups
    rw [if_pos hne] at hconverts
    exact ⟨by omega, hleft, hconverts⟩

theorem choosePage_iff_neg (h : Rounding 24 fl) (ho : o.Ints) (hsize : 0 ≤ size)
    (hsize' : size ≤ 2147483647) (hgroups : o.groups < 0) {page : Page} :
    o.choosePage fl size = .ok page ↔ PageFits fl o size ∧ page = o.pageAt fl size := by
  have hne : o.groups ≠ 0 := by omega
  have hskip : (o.pageAt fl size).skip = groupSkip fl o size (max 1 o.page - 1).toNat := by
    rw [pageAt, if_pos hne]
  rw [choosePage_group_iff hne, rounds_neg_iff h ho hsize hsize' hgroups, ← hskip]
  refine and_congr_left fun _ => ⟨?_, fun hfits => ?_⟩
  · rintro ⟨hparts, hleft, hconverts, hlast, hlast'⟩
    refine ⟨⟨fun hpos => by omega, fun hzero => absurd hzero hne⟩, fun _ => ⟨hleft, ?_⟩,
      fun _ => ⟨by omega, hlast, hlast'⟩, fun hzero => absurd hzero hne⟩
    rwa [if_pos hne]
  · obtain ⟨hleft, hconverts⟩ := hfits.left (.inl hne)
    obtain ⟨hparts, hlast, hlast'⟩ := hfits.away hgroups
    rw [if_pos hne] at hconverts
    exact ⟨by omega, hleft, hconverts, hlast, hlast'⟩

theorem choosePage_iff_zero (h : Rounding 24 fl) (ho : o.Ints) (hsize : 0 ≤ size)
    (hgroups : o.groups = 0) {page : Page} :
    o.choosePage fl size = .ok page ↔ PageFits fl o size ∧ page = o.pageAt fl size := by
  rw [choosePage_plain_iff hgroups]
  simp only [left_inInt_iff h ho hsize]
  refine and_congr_left fun _ => ⟨?_, fun hfits => ?_⟩
  · rintro ⟨hlast, hbefore⟩
    refine ⟨⟨fun hpos => by omega, fun _ hpage => (hlast hpage).1⟩, fun hor => ?_,
      fun hneg => by omega, fun _ => hbefore⟩
    obtain ⟨-, hleft, hconverts⟩ := hlast (hor.resolve_left (not_not.mpr hgroups))
    rw [if_neg (not_not.mpr hgroups)]
    exact ⟨hleft, hconverts⟩
  · refine ⟨fun hpage => ⟨hfits.divisor.2 hgroups hpage, ?_⟩, hfits.before hgroups⟩
    obtain ⟨hleft, hconverts⟩ := hfits.left (.inr hpage)
    rw [if_neg (not_not.mpr hgroups)] at hconverts
    exact ⟨hleft, hconverts⟩

/-- When the page is defined, and what it is then. -/
theorem choosePage_iff (h : Rounding 24 fl) (ho : o.Ints) (hsize : 0 ≤ size)
    (hsize' : size ≤ 2147483647) {page : Page} :
    o.choosePage fl size = .ok page ↔ PageFits fl o size ∧ page = o.pageAt fl size := by
  rcases lt_trichotomy o.groups 0 with hneg | hzero | hpos
  · exact choosePage_iff_neg h ho hsize hsize' hneg
  · exact choosePage_iff_zero h ho hsize hzero
  · exact choosePage_iff_pos h ho hsize hsize' hpos

end Request

namespace Response

variable {ops : Lookups Result} {site : Site} {o : Request} {w : Request.Window}

/-- The counters of the loop that filters: each node adds one to the total, and at most one to the
    skipped or the included. -/
structure Tally.Within (n : ℤ) (t : Tally) : Prop where
  skipped : 0 ≤ t.skipped
  included : 0 ≤ t.included
  counted : t.included + t.skipped ≤ t.total
  total : t.total ≤ n

theorem tallyNode_within {n : ℤ} {t t' : Tally} {node : XmlNode} (ht : t.Within n)
    (h : tallyNode ops site o w t node = .ok t') : t'.Within (n + 1) := by
  obtain ⟨hskipped, hincluded, hcounted, htotal⟩ := ht
  rw [tallyNode, bind_eq_ok] at h
  obtain ⟨⟨matched, found⟩, -, h⟩ := h
  dsimp only at h
  split at h
  · rw [← pure_eq_ok.mp h]
    exact ⟨hskipped, hincluded, hcounted, by dsimp only; omega⟩
  split at h
  · rw [← pure_eq_ok.mp h]
    exact ⟨by dsimp only; omega, hincluded, by dsimp only; omega, by dsimp only; omega⟩
  split at h
  · obtain ⟨ptr, -, h⟩ := bind_eq_ok.mp h
    split at h
    · rw [← pure_eq_ok.mp h]
      exact ⟨hskipped, by dsimp only; omega, by dsimp only; omega, by dsimp only; omega⟩
    · rw [← pure_eq_ok.mp h]
      exact ⟨hskipped, hincluded, by dsimp only; omega, by dsimp only; omega⟩
  · rw [← pure_eq_ok.mp h]
    exact ⟨hskipped, hincluded, by dsimp only; omega, by dsimp only; omega⟩

theorem tally_within {nodes : List XmlNode} {n : ℤ} {t t' : Tally} (ht : t.Within n)
    (h : nodes.foldlM (tallyNode ops site o w) t = .ok t') : t'.Within (n + nodes.length) := by
  induction nodes generalizing n t with
  | nil =>
    rw [← pure_eq_ok.mp h]
    simpa using ht
  | cons node nodes ih =>
    rw [List.foldlM_cons, bind_eq_ok] at h
    obtain ⟨t₁, ht₁, h⟩ := h
    have hrest := ih (tallyNode_within ht ht₁) h
    rwa [add_assoc, add_comm 1, ← Nat.cast_one, ← Nat.cast_add, ← List.length_cons (a := node)]
      at hrest

end Response

namespace Request

variable {fl : ℚ → ℚ} {o : Request} {size : ℤ}

/-- The window is computed exactly if the options fit. -/
theorem window_iff_fits (h : Rounding 24 fl) (ho : o.Ints) (hsize : 0 ≤ size)
    (hsize' : size ≤ 2147483647) : (∃ w, o.window fl size = .ok w) ↔ Fits fl o size := by
  rw [window_defined_iff]
  simp only [choosePage_iff h ho hsize hsize']
  constructor
  · rintro ⟨page, ⟨hfits, rfl⟩, hstop⟩
    exact ⟨hfits, hstop⟩
  · rintro ⟨hfits, hstop⟩
    exact ⟨_, ⟨hfits, rfl⟩, hstop⟩

/-- Paging is safe exactly if the options fit. -/
theorem safe_iff_fits (h : Rounding 24 fl) (ho : o.Ints) (hsize : 0 ≤ size)
    (hsize' : size ≤ 2147483647) : Safe fl o size ↔ Fits fl o size := by
  rw [← window_iff_fits h ho hsize hsize']
  refine ⟨fun hsafe => hsafe.defined, fun hdefined => ⟨hdefined, ?_, ?_⟩⟩
  · intro w hw i hstart hstop
    obtain ⟨page, -, hof⟩ := window_eq_ok hw
    have hskip := hof.skip
    have hstart' := hof.start
    have hstop' := hof.stop
    split at hstart' <;> split at hstop' <;> omega
  · intro ops site w nodes t hlength hfold
    obtain ⟨hskipped, hincluded, hcounted, htotal⟩ :=
      Response.tally_within (n := 0) ⟨le_rfl, le_rfl, le_rfl, le_rfl⟩ hfold
    exact ⟨hskipped, hincluded, hcounted, by omega⟩

/-- CORRECT: for all options that a client can send and every size of a result, the arithmetic of
    paging is defined exactly if the page asked for can be computed: it is one of the groups, or has
    a length; what is left after skipping and its quotient are `int`s; and so are the page's start
    and, where nothing is sorted, its end. -/
theorem paging_safe_iff (options : Options) (size : ℤ) (hsize : 0 ≤ size)
    (hsize' : size < 2147483648) :
    Safe (nearest 24) (parse options) size ↔ Fits (nearest 24) (parse options) size :=
  safe_iff_fits (nearest_rounding (by decide)) (parse_ints options) hsize (by omega)

/-- Two options, as a client sends them. -/
def sampleOptions (name₁ value₁ name₂ value₂ : String) : Options := fun name =>
  if name = name₁ then some value₁ else if name = name₂ then some value₂ else none

/-- Options that only set some of the four numbers. -/
structure Sets (options : Options) (skip groups paginate page : ℤ) : Prop where
  skip : (parse options).skip = skip
  groups : (parse options).groups = groups
  paginate : (parse options).paginate = paginate
  page : (parse options).page = page

/-- The second page of ten. -/
theorem paging_safe_iff_second :
    Safe (nearest 24) (parse (sampleOptions "page" "2" "paginate" "10")) 25 := by
  obtain ⟨hskip, hgroups, hpaginate, hpage⟩ : Sets (sampleOptions "page" "2" "paginate" "10")
      0 0 10 2 := ⟨by decide +kernel, by decide +kernel, by decide +kernel, by decide +kernel⟩
  have hat : (parse (sampleOptions "page" "2" "paginate" "10")).pageAt (nearest 24) 25 = ⟨10, 10⟩ := by
    simp [pageAt, pageNumber, hskip, hgroups, hpaginate, hpage]
  refine (paging_safe_iff _ 25 (by decide) (by decide)).mpr
    ⟨⟨⟨by omega, by omega⟩, by omega, by omega, fun _ => ?_⟩, fun _ => ?_⟩
  · rw [hat, pageNumber, hpaginate, hpage]
    decide
  · rw [hat]
    decide

/-- A page past the first few with the default length, the last page with length 0, a page past the
    groups, and a long page after a skip: each of them is undefined. -/
theorem paging_undefined :
    ¬ Safe (nearest 24) (parse (sampleOptions "page" "30" "" "")) 10 ∧
    ¬ Safe (nearest 24) (parse (sampleOptions "page" "last()" "paginate" "0")) 10 ∧
    ¬ Safe (nearest 24) (parse (sampleOptions "page" "2" "groups" "1")) 10 ∧
    ¬ Safe (nearest 24) (parse (sampleOptions "skip" "1" "limit" "2147483647")) 10 := by
  have hiff := fun options => @safe_iff_fits (nearest 24) _ 10
    (nearest_rounding (by decide)) (parse_ints options) (by decide) (by decide)
  refine ⟨?_, ?_, ?_, ?_⟩
  · obtain ⟨hskip, hgroups, hpaginate, hpage⟩ : Sets (sampleOptions "page" "30" "" "")
        0 0 99999999 30 := ⟨by decide +kernel, by decide +kernel, by decide +kernel, by decide +kernel⟩
    rw [hiff]
    intro hfits
    have hbefore := (hfits.before hgroups).1
    rw [pageNumber, hpaginate, hpage] at hbefore
    exact absurd hbefore (by decide)
  · obtain ⟨hskip, hgroups, hpaginate, hpage⟩ : Sets (sampleOptions "page" "last()" "paginate" "0")
        0 0 0 (-1) := ⟨by decide +kernel, by decide +kernel, by decide +kernel, by decide +kernel⟩
    rw [hiff]
    intro hfits
    exact hfits.divisor.2 hgroups hpage hpaginate
  · obtain ⟨hskip, hgroups, hpaginate, hpage⟩ : Sets (sampleOptions "page" "2" "groups" "1")
        0 1 99999999 2 := ⟨by decide +kernel, by decide +kernel, by decide +kernel, by decide +kernel⟩
    rw [hiff]
    intro hfits
    have hlast := hfits.divisor.1 (by omega)
    omega
  · obtain ⟨hskip, hgroups, hpaginate, hpage⟩ : Sets (sampleOptions "skip" "1" "limit" "2147483647")
        1 0 2147483647 1 := ⟨by decide +kernel, by decide +kernel, by decide +kernel, by decide +kernel⟩
    have hat : (parse (sampleOptions "skip" "1" "limit" "2147483647")).pageAt (nearest 24) 10 =
        ⟨1, 2147483647⟩ := by
      simp [pageAt, pageNumber, hskip, hgroups, hpaginate, hpage]
    rw [hiff]
    intro hfits
    have hstop := hfits.stop (by decide +kernel)
    rw [hat] at hstop
    exact absurd hstop (by decide)

end Request

end VaeDb
