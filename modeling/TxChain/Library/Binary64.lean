import Mathlib

/-!
# Words and doubles

A finite double is an integer of at most 53 bits times a power of two. From `2 ^ 63`
on the doubles are multiples of `2 ^ 11`, so a 64-bit word of that size keeps its
value under rounding exactly when it is such a multiple, however ties are broken.
-/

namespace Binary64

/-- The value of a finite double. -/
def IsDouble (d : ℚ) : Prop :=
  ∃ m e : ℤ, |m| < 2 ^ 53 ∧ -1074 ≤ e ∧ e ≤ 971 ∧ d = m * 2 ^ e

/-- A double than which no double is closer to `x`. -/
structure Nearest (x d : ℚ) : Prop where
  isDouble : IsDouble d
  closest : ∀ d', IsDouble d' → |x - d| ≤ |x - d'|

theorem isDouble_two_pow {n : ℕ} (hn : n ≤ 971) : IsDouble (2 ^ n) := by
  refine ⟨1, n, by norm_num, by omega, by omega, ?_⟩
  rw [Int.cast_one, one_mul, zpow_natCast]

theorem isDouble_mul {k : ℕ} (hk : k < 2 ^ 53) : IsDouble (k * 2 ^ 11) := by
  refine ⟨k, 11, ?_, by norm_num, by norm_num, by norm_cast⟩
  rw [Nat.abs_cast]
  exact_mod_cast hk

theorem isDouble_natCast {k : ℕ} (hk : k < 2 ^ 53) : IsDouble k := by
  refine ⟨k, 0, ?_, by norm_num, by norm_num, by simp⟩
  rw [Nat.abs_cast]
  exact_mod_cast hk

/-- Doubles of at least `2 ^ (52 + j)` are multiples of `2 ^ j`. -/
theorem IsDouble.multiple_of_le {d : ℚ} (h : IsDouble d) {j : ℕ} (hlow : 2 ^ (52 + j) ≤ d) :
    ∃ k : ℕ, d = k * 2 ^ j := by
  obtain ⟨m, e, hm, -, -, rfl⟩ := h
  have hpos : (0 : ℚ) < 2 ^ e := by positivity
  have hsmall : (m : ℚ) < 2 ^ 53 := by exact_mod_cast (abs_lt.mp hm).2
  have he : (j : ℤ) ≤ e := by
    by_contra hlt
    have hstep : e ≤ j - 1 := by omega
    have hpow : (2 : ℚ) ^ e ≤ 2 ^ ((j : ℤ) - 1) := zpow_le_zpow_right₀ (by norm_num) hstep
    have hprod : (m : ℚ) * 2 ^ e < 2 ^ 53 * 2 ^ e := mul_lt_mul_of_pos_right hsmall hpos
    have hbound : (2 : ℚ) ^ 53 * 2 ^ ((j : ℤ) - 1) = 2 ^ (52 + j) := by
      rw [← zpow_natCast, ← zpow_natCast, ← zpow_add₀ two_ne_zero]
      congr 1
      push_cast
      ring
    linarith
  have hnonneg : 0 ≤ m := by
    by_contra hneg
    have hcast : (m : ℚ) < 0 := by exact_mod_cast not_le.mp hneg
    have hprod : (m : ℚ) * 2 ^ e < 0 := mul_neg_of_neg_of_pos hcast hpos
    have hpow : (0 : ℚ) < 2 ^ (52 + j) := by positivity
    linarith
  obtain ⟨i, rfl⟩ : ∃ i : ℕ, e = i + j := ⟨(e - j).toNat, by omega⟩
  lift m to ℕ using hnonneg
  refine ⟨m * 2 ^ i, ?_⟩
  rw [zpow_add₀ two_ne_zero, zpow_natCast, zpow_natCast]
  push_cast
  ring

/-- From `2 ^ 63` on they are multiples of `2 ^ 11`. -/
theorem IsDouble.multiple {d : ℚ} (h : IsDouble d) (hlow : 2 ^ 63 ≤ d) :
    ∃ k : ℕ, d = k * 2 ^ 11 :=
  h.multiple_of_le (j := 11) hlow

/-- From `2 ^ 52` on they are whole. -/
theorem IsDouble.whole {d : ℚ} (h : IsDouble d) (hlow : 2 ^ 52 ≤ d) : ∃ k : ℕ, d = k := by
  obtain ⟨k, hk⟩ := h.multiple_of_le (j := 0) hlow
  exact ⟨k, by rw [hk, pow_zero, mul_one]⟩

theorem nearest_self {d : ℚ} (h : IsDouble d) : Nearest d d := by
  refine ⟨h, fun d' _ => ?_⟩
  rw [sub_self, abs_zero]
  exact abs_nonneg _

/-- A double is its own nearest double. -/
theorem Nearest.eq_of_isDouble {x d : ℚ} (h : Nearest x d) (hx : IsDouble x) : d = x := by
  have hclose := h.closest x hx
  rw [sub_self, abs_zero] at hclose
  exact (sub_eq_zero.mp (abs_nonpos_iff.mp hclose)).symm

/-- A large integer rounds to a multiple of `2 ^ 11`. -/
theorem Nearest.multiple {n : ℕ} {d : ℚ} (h : Nearest n d) (hlow : 2 ^ 63 ≤ n) :
    ∃ k : ℕ, d = k * 2 ^ 11 := by
  have hcast : (2 : ℚ) ^ 63 ≤ n := by exact_mod_cast hlow
  have hclose := h.closest _ (isDouble_two_pow (n := 63) (by norm_num))
  rw [abs_of_nonneg (sub_nonneg.mpr hcast)] at hclose
  have hle := le_abs_self ((n : ℚ) - d)
  exact h.isDouble.multiple (by linarith)

/-- A word that is the whole part of its nearest double, in 64 bits, is a double. -/
theorem Nearest.isDouble_of_floor {n : ℕ} {d : ℚ} (h : Nearest n d)
    (hfloor : ⌊d⌋₊ % 2 ^ 64 = n) : IsDouble n := by
  by_cases hsmall : n < 2 ^ 53
  · exact isDouble_natCast hsmall
  · have hlow : (2 : ℚ) ^ 53 ≤ n := by exact_mod_cast Nat.not_lt.mp hsmall
    have hword : n < 2 ^ 64 := hfloor ▸ Nat.mod_lt _ (by norm_num)
    have hhigh : (n : ℚ) ≤ 2 ^ 64 := by exact_mod_cast hword.le
    -- the powers of two around the word bound the distance to its nearest double
    have hbelow := h.closest _ (isDouble_two_pow (n := 53) (by norm_num))
    have habove := h.closest _ (isDouble_two_pow (n := 64) (by norm_num))
    rw [abs_of_nonneg (sub_nonneg.mpr hlow)] at hbelow
    rw [abs_of_nonpos (sub_nonpos.mpr hhigh)] at habove
    have hleft := le_abs_self ((n : ℚ) - d)
    have hright := neg_le_abs ((n : ℚ) - d)
    obtain ⟨k, rfl⟩ := h.isDouble.whole (by norm_num at hbelow hleft ⊢; linarith)
    have hk : k ≤ 2 ^ 64 := by
      have : (k : ℚ) ≤ 2 ^ 64 := by linarith
      exact_mod_cast this
    rw [Nat.floor_natCast] at hfloor
    obtain rfl : k = n := by omega
    exact h.isDouble

/-- The words among the doubles, from `2 ^ 63` on. -/
theorem isDouble_word_iff {n : ℕ} (hlow : 2 ^ 63 ≤ n) (hhigh : n < 2 ^ 64) :
    IsDouble n ↔ 2 ^ 11 ∣ n := by
  constructor
  · intro h
    obtain ⟨k, hk⟩ := h.multiple (by exact_mod_cast hlow)
    exact ⟨k, by rw [mul_comm]; exact_mod_cast hk⟩
  · rintro ⟨k, rfl⟩
    have hk : k < 2 ^ 53 := by omega
    have hdouble := isDouble_mul hk
    rw [mul_comm] at hdouble
    exact_mod_cast hdouble

/-- A multiple at half the spacing or less is a nearest double. -/
theorem nearest_of_close {n k : ℕ} (hlow : 2 ^ 63 ≤ n) (hk : IsDouble (k * 2 ^ 11))
    (hclose : |(n : ℚ) - k * 2 ^ 11| ≤ 2 ^ 10) : Nearest n (k * 2 ^ 11) := by
  have hmultiple : ∀ k' : ℕ, |(n : ℚ) - k * 2 ^ 11| ≤ |(n : ℚ) - k' * 2 ^ 11| := by
    intro k'
    by_cases hsame : k' = k
    · rw [hsame]
    · -- two different multiples are a whole spacing apart
      have hgap : (1 : ℚ) ≤ |(k : ℚ) - k'| := by
        have hne : (k : ℤ) - k' ≠ 0 := by omega
        exact_mod_cast Int.one_le_abs hne
      have hapart : |(k : ℚ) * 2 ^ 11 - k' * 2 ^ 11| = |(k : ℚ) - k'| * 2 ^ 11 := by
        rw [← sub_mul, abs_mul, abs_of_pos (by positivity : (0 : ℚ) < 2 ^ 11)]
      have htriangle := abs_sub_le ((k : ℚ) * 2 ^ 11) (n : ℚ) ((k' : ℚ) * 2 ^ 11)
      rw [hapart, abs_sub_comm ((k : ℚ) * 2 ^ 11) (n : ℚ)] at htriangle
      norm_num at hclose htriangle ⊢
      linarith
  refine ⟨hk, fun d' hd' => ?_⟩
  by_cases hlarge : 2 ^ 63 ≤ d'
  · obtain ⟨k', rfl⟩ := hd'.multiple hlarge
    exact hmultiple k'
  · have hcast : (2 : ℚ) ^ 63 ≤ n := by exact_mod_cast hlow
    have hbase := hmultiple (2 ^ 52)
    have hpow : ((2 ^ 52 : ℕ) : ℚ) * 2 ^ 11 = 2 ^ 63 := by norm_num
    rw [hpow, abs_of_nonneg (sub_nonneg.mpr hcast)] at hbase
    have hle := le_abs_self ((n : ℚ) - d')
    linarith [not_le.mp hlarge]

end Binary64
