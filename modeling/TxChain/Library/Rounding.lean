import TxChain.Library.Binary64

/-!
# Rounding to a double

The rounding of an exact number to 53 bits, ties to even, with gradual underflow. It
gives a nearest double, and it fails only where the rounded number reaches `2 ^ 1024`.
-/

namespace Binary64

/-- The nearest integer, the even one of two. -/
def roundEven (q : ℚ) : ℤ := if Int.fract q = 1 / 2 ∧ Even ⌊q⌋ then ⌊q⌋ else round q

/-- The exponent of the last place of the doubles next to `x`. -/
def exponent (x : ℚ) : ℤ := max (Int.log 2 |x| - 52) (-1074)

/-- The double that `x` is rounded to, if it is finite. -/
def toDouble (x : ℚ) : Option ℚ :=
  let d : ℚ := roundEven (x / 2 ^ exponent x) * 2 ^ exponent x
  if |d| < 2 ^ 1024 then some d else none

variable {x q d : ℚ}

/-! ### The nearest integer -/

theorem roundEven_closest (q : ℚ) (k : ℤ) : |q - roundEven q| ≤ |q - k| := by
  rw [roundEven]
  split
  next htie =>
    have hfloor : |q - ⌊q⌋| = |q - round q| := by
      rw [Int.self_sub_floor, abs_sub_round_eq_min, htie.1]
      norm_num
    rw [hfloor]
    exact round_le q k
  next => exact round_le q k

theorem abs_roundEven_le {n : ℕ} (h : |q| ≤ n) : |roundEven q| ≤ n := by
  obtain ⟨hlow, hhigh⟩ := abs_le.mp h
  have habove := roundEven_closest q n
  have hbelow := roundEven_closest q (-n)
  push_cast at habove hbelow
  rw [abs_of_nonpos (a := q - n) (by linarith)] at habove
  rw [abs_of_nonneg (a := q - -n) (by linarith)] at hbelow
  have hle := neg_abs_le (q - roundEven q)
  have hge := le_abs_self (q - roundEven q)
  have hupper : (roundEven q : ℚ) ≤ n := by linarith
  have hlower : (-n : ℚ) ≤ roundEven q := by linarith
  exact abs_le.mpr ⟨by exact_mod_cast hlower, by exact_mod_cast hupper⟩

theorem le_abs_roundEven {n : ℕ} (h : n ≤ |q|) : (n : ℤ) ≤ |roundEven q| := by
  obtain hpos | hneg := le_total 0 q
  · rw [abs_of_nonneg hpos] at h
    have hclose := roundEven_closest q n
    rw [Int.cast_natCast, abs_of_nonneg (a := q - n) (by linarith)] at hclose
    have hle : (n : ℚ) ≤ roundEven q := by linarith [le_abs_self (q - roundEven q)]
    have hcast : (n : ℤ) ≤ roundEven q := by exact_mod_cast hle
    exact hcast.trans (le_abs_self _)
  · rw [abs_of_nonpos hneg] at h
    have hclose := roundEven_closest q (-n)
    push_cast at hclose
    rw [abs_of_nonpos (a := q - -n) (by linarith)] at hclose
    have hle : (n : ℚ) ≤ -roundEven q := by linarith [neg_abs_le (q - roundEven q)]
    have hcast : (n : ℤ) ≤ -roundEven q := by exact_mod_cast hle
    exact hcast.trans (neg_le_abs _)

/-! ### The scale -/

theorem abs_lt_zpow (x : ℚ) : |x| < 2 ^ (exponent x + 53) := by
  have hlog := Int.lt_zpow_succ_log_self (b := 2) (by norm_num) |x|
  have hmono : (2 : ℚ) ^ (Int.log 2 |x| + 1) ≤ 2 ^ (exponent x + 53) := by
    refine zpow_le_zpow_right₀ (by norm_num) ?_
    have := le_max_left (Int.log 2 |x| - 52) (-1074)
    rw [exponent]
    omega
  exact lt_of_lt_of_le (by exact_mod_cast hlog) hmono

/-- Above the least exponent the number fills all bits. -/
theorem zpow_le_abs (hx : x ≠ 0) (hnormal : -1074 < exponent x) : 2 ^ (exponent x + 52) ≤ |x| := by
  have hexp : exponent x = Int.log 2 |x| - 52 := by
    rw [exponent] at hnormal ⊢
    omega
  have hself := Int.zpow_log_le_self (b := 2) (by norm_num) (abs_pos.mpr hx)
  rw [hexp, sub_add_cancel]
  exact_mod_cast hself

theorem abs_div_exponent (x : ℚ) : |x / 2 ^ exponent x| = |x| / 2 ^ exponent x := by
  rw [abs_div, abs_of_pos (a := (2 : ℚ) ^ exponent x) (by positivity)]

theorem abs_significand_le (x : ℚ) : |roundEven (x / 2 ^ exponent x)| ≤ 2 ^ 53 := by
  have hscaled : |x / 2 ^ exponent x| ≤ (2 ^ 53 : ℕ) := by
    have hlt := abs_lt_zpow x
    rw [zpow_add₀ two_ne_zero] at hlt
    rw [abs_div_exponent, div_le_iff₀ (by positivity)]
    push_cast
    rw [mul_comm]
    exact_mod_cast hlt.le
  exact_mod_cast abs_roundEven_le hscaled

theorem le_abs_significand (hx : x ≠ 0) (hnormal : -1074 < exponent x) :
    2 ^ 52 ≤ |roundEven (x / 2 ^ exponent x)| := by
  have hscaled : (2 ^ 52 : ℕ) ≤ |x / 2 ^ exponent x| := by
    have hle := zpow_le_abs hx hnormal
    rw [zpow_add₀ two_ne_zero] at hle
    rw [abs_div_exponent, le_div_iff₀ (by positivity), mul_comm]
    exact_mod_cast hle
  exact_mod_cast le_abs_roundEven hscaled

/-! ### The rounded number -/

theorem exponent_zero : exponent 0 = -52 := by
  rw [exponent, abs_zero, Int.log_zero_right]
  rfl

private theorem add_lt_of_mul_lt {k j : ℕ} {e : ℤ} (h : (2 : ℚ) ^ k * 2 ^ e < 2 ^ j) :
    k + e < j := by
  rw [← zpow_natCast, ← zpow_natCast, ← zpow_add₀ two_ne_zero] at h
  exact (zpow_lt_zpow_iff_right₀ one_lt_two).mp h

/-- What is not too large is a double. -/
theorem isDouble_scaled
    (hsmall : |(roundEven (x / 2 ^ exponent x) : ℚ) * 2 ^ exponent x| < 2 ^ 1024) :
    IsDouble (roundEven (x / 2 ^ exponent x) * 2 ^ exponent x) := by
  have hleast : -1074 ≤ exponent x := le_max_right _ _
  have hm := abs_significand_le x
  have hfull := le_abs_significand (x := x)
  generalize roundEven (x / 2 ^ exponent x) = m at hsmall hm hfull
  have hpos : (0 : ℚ) < 2 ^ exponent x := by positivity
  rw [abs_mul, abs_of_pos hpos] at hsmall
  obtain hlt | heq := hm.lt_or_eq
  · refine ⟨m, exponent x, hlt, hleast, ?_, rfl⟩
    by_contra hlarge
    -- from there on 53 bits in front of the scale would be too large
    have hx : x ≠ 0 := by
      rintro rfl
      rw [exponent_zero] at hlarge
      omega
    have hbits : (2 : ℚ) ^ 52 ≤ |(m : ℚ)| := by exact_mod_cast hfull hx (by omega)
    have hexp := add_lt_of_mul_lt (lt_of_le_of_lt (mul_le_mul_of_nonneg_right hbits hpos.le) hsmall)
    omega
  · -- the significand was rounded up to one more bit
    have hbits : |(m : ℚ)| = 2 ^ 53 := by exact_mod_cast heq
    rw [hbits] at hsmall
    have hexp := add_lt_of_mul_lt hsmall
    obtain ⟨k, rfl⟩ : ∃ k, m = k * 2 := by
      obtain h | h := (abs_eq (by norm_num)).mp heq
      · exact ⟨2 ^ 52, by rw [h]; norm_num⟩
      · exact ⟨-2 ^ 52, by rw [h]; norm_num⟩
    refine ⟨k, exponent x + 1, ?_, by omega, by omega, ?_⟩
    · rw [abs_mul] at heq
      norm_num at heq ⊢
      omega
    · rw [zpow_add₀ two_ne_zero, zpow_one]
      push_cast
      ring

theorem toDouble_eq_some (h : toDouble x = some d) :
    d = roundEven (x / 2 ^ exponent x) * 2 ^ exponent x ∧ |d| < 2 ^ 1024 := by
  rw [toDouble] at h
  split at h
  next hsmall =>
    obtain rfl := Option.some.inj h
    exact ⟨rfl, hsmall⟩
  next => cases h

/-- No number of the scale is closer. -/
theorem scaled_closest (x : ℚ) (k : ℤ) :
    |x - roundEven (x / 2 ^ exponent x) * 2 ^ exponent x| ≤ |x - k * 2 ^ exponent x| := by
  have hpos : (0 : ℚ) < 2 ^ exponent x := by positivity
  have hscale : ∀ j : ℤ, |x - j * 2 ^ exponent x| = |x / 2 ^ exponent x - j| * 2 ^ exponent x := by
    intro j
    have hmul : x - j * 2 ^ exponent x = (x / 2 ^ exponent x - j) * 2 ^ exponent x := by
      rw [sub_mul, div_mul_cancel₀ x hpos.ne']
    rw [hmul, abs_mul, abs_of_pos hpos]
  rw [hscale, hscale]
  exact mul_le_mul_of_nonneg_right (roundEven_closest _ k) hpos.le

/-- A rounded number is a nearest double. -/
theorem toDouble_nearest (h : toDouble x = some d) : Nearest x d := by
  obtain ⟨hd, hsmall⟩ := toDouble_eq_some h
  have hleast : -1074 ≤ exponent x := le_max_right _ _
  have hdouble : IsDouble d := hd ▸ isDouble_scaled (hd ▸ hsmall)
  refine ⟨hdouble, ?_⟩
  rintro d' ⟨m', e', hm', hlow', -, rfl⟩
  rw [hd]
  obtain hcoarse | hfine := le_or_gt (exponent x) e'
  · -- a double of a coarser scale is a number of this one
    obtain ⟨i, rfl⟩ : ∃ i : ℕ, e' = exponent x + i := ⟨(e' - exponent x).toNat, by omega⟩
    have hmul : (m' : ℚ) * 2 ^ (exponent x + i) = (m' * 2 ^ i : ℤ) * 2 ^ exponent x := by
      rw [zpow_add₀ two_ne_zero, zpow_natCast]
      push_cast
      ring
    rw [hmul]
    exact scaled_closest x _
  · obtain rfl | hx := eq_or_ne x 0
    · have hzero := scaled_closest 0 0
      rw [Int.cast_zero, zero_mul, sub_zero, abs_zero] at hzero
      exact hzero.trans (abs_nonneg _)
    · -- a double of a finer scale is no larger than the least one with all its bits
      have hfull := zpow_le_abs hx (by omega)
      have hbound : |(m' : ℚ) * 2 ^ e'| ≤ 2 ^ (exponent x + 52) := by
        have hcast : |(m' : ℚ)| ≤ 2 ^ (53 : ℤ) := by exact_mod_cast hm'.le
        have hpow : (2 : ℚ) ^ (53 + e') ≤ 2 ^ (exponent x + 52) :=
          zpow_le_zpow_right₀ one_le_two (by omega)
        rw [abs_mul, abs_of_pos (a := (2 : ℚ) ^ e') (by positivity)]
        rw [zpow_add₀ two_ne_zero] at hpow
        exact (mul_le_mul_of_nonneg_right hcast (by positivity)).trans hpow
      have hsplit : (2 : ℚ) ^ (exponent x + 52) = (2 ^ 52 : ℤ) * 2 ^ exponent x := by
        rw [zpow_add₀ two_ne_zero, mul_comm]
        norm_cast
      have hgap : |x| - 2 ^ (exponent x + 52) ≤ |x - m' * 2 ^ e'| :=
        (sub_le_sub_left hbound _).trans (abs_sub_abs_le_abs_sub _ _)
      obtain hpos | hneg := le_total 0 x
      · have hclose := scaled_closest x (2 ^ 52)
        rw [abs_of_nonneg hpos] at hfull hgap
        rw [← hsplit, abs_of_nonneg (a := x - 2 ^ (exponent x + 52)) (by linarith)] at hclose
        exact hclose.trans hgap
      · have hclose := scaled_closest x (-2 ^ 52)
        rw [abs_of_nonpos hneg] at hfull hgap
        rw [Int.cast_neg, neg_mul, ← hsplit, sub_neg_eq_add,
          abs_of_nonpos (a := x + 2 ^ (exponent x + 52)) (by linarith)] at hclose
        linarith

/-- Numbers well below the largest double are rounded to a finite one. -/
theorem toDouble_isSome (hx : |x| < 2 ^ 1023) : ∃ d, toDouble x = some d := by
  have hsmall : |(roundEven (x / 2 ^ exponent x) : ℚ) * 2 ^ exponent x| < 2 ^ 1024 := by
    have hpos : (0 : ℚ) < 2 ^ exponent x := by positivity
    have hm : |(roundEven (x / 2 ^ exponent x) : ℚ)| ≤ 2 ^ (53 : ℤ) := by
      exact_mod_cast abs_significand_le x
    rw [abs_mul, abs_of_pos hpos]
    refine lt_of_le_of_lt (mul_le_mul_of_nonneg_right hm hpos.le) ?_
    have hexp : exponent x ≤ 970 := by
      by_contra hlarge
      obtain rfl | hne := eq_or_ne x 0
      · rw [exponent_zero] at hlarge
        omega
      · have hfull := lt_of_le_of_lt (zpow_le_abs hne (by omega)) hx
        have hcast : (2 : ℚ) ^ (exponent x + 52) < 2 ^ (1023 : ℤ) := by exact_mod_cast hfull
        have := (zpow_lt_zpow_iff_right₀ one_lt_two).mp hcast
        omega
    have hlt : (2 : ℚ) ^ (53 + exponent x) < 2 ^ (1024 : ℤ) :=
      zpow_lt_zpow_right₀ one_lt_two (by omega)
    rw [zpow_add₀ two_ne_zero] at hlt
    exact_mod_cast hlt
  rw [toDouble]
  exact ⟨_, if_pos hsmall⟩

theorem toDouble_natCast {n k : ℕ} (hk : k ≤ 1023) (hn : n < 2 ^ k) : ∃ d, toDouble n = some d := by
  refine toDouble_isSome ?_
  rw [Nat.abs_cast]
  calc (n : ℚ) < 2 ^ k := by exact_mod_cast hn
    _ ≤ 2 ^ 1023 := pow_le_pow_right₀ one_le_two hk

end Binary64
