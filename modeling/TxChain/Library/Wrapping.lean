import Mathlib

/-!
# Numbers read into fields

A field holds the integers of a range. The number read for it may be any rational; the
faithful reading takes it if it is an integer of the range and the default otherwise. The
careless one drops a negative number, cuts a fraction off and wraps what is left into the
range.
-/

namespace Wrapping

/-- The integer of the range that a number stands for. -/
def within (lo hi : ℤ) (q : ℚ) : Option ℤ :=
  if q.den = 1 ∧ lo ≤ q.num ∧ q.num < hi then some q.num else none

/-- The member of the range that is congruent to an integer. -/
structure Wraps (lo hi x c : ℤ) : Prop where
  low : lo ≤ c
  high : c < hi
  congruent : c ≡ x [ZMOD hi - lo]

/-- What the careless reading makes of a number. -/
structure Careless (lo hi builtin : ℤ) (number : Option ℚ) (c : ℤ) : Prop where
  missing : number = none → c = builtin
  negative : ∀ q, number = some q → q < 0 → c = builtin
  other : ∀ q, number = some q → 0 ≤ q → Wraps lo hi ⌊q⌋ c

/-- The numbers that both readings take alike. -/
structure Kept (lo hi builtin : ℤ) (number : Option ℚ) : Prop where
  negative : ∀ q, number = some q → q < 0 → q.den = 1 → q.num < lo
  other : ∀ q, number = some q → 0 ≤ q →
    (q.den = 1 ∧ q.num < hi) ∨ ⌊q⌋ ≡ builtin [ZMOD hi - lo]

section Readings

variable {lo hi builtin c x y : ℤ} {number : Option ℚ} {q : ℚ}

theorem floor_of_den (h : q.den = 1) : ⌊q⌋ = q.num := by
  rw [← Rat.coe_int_num_of_den_eq_one h, Int.floor_intCast, Rat.num_intCast]

/-- A range as long as the modulus has one member of every class. -/
theorem Wraps.eq_iff (h : Wraps lo hi x c) (hlow : lo ≤ y) (hhigh : y < hi) :
    c = y ↔ x ≡ y [ZMOD hi - lo] := by
  constructor
  · rintro rfl
    exact h.congruent.symm
  · intro hxy
    have hdvd : hi - lo ∣ c - y := (h.congruent.trans hxy).symm.dvd
    have hnear : |c - y| < hi - lo := by
      have hl := h.low
      have hh := h.high
      rw [abs_lt]
      omega
    have hzero := Int.eq_zero_of_abs_lt_dvd hdvd hnear
    omega

theorem within_of_mem (hden : q.den = 1) (hlow : lo ≤ q.num) (hhigh : q.num < hi) :
    within lo hi q = some q.num := if_pos ⟨hden, hlow, hhigh⟩

/-- For a default that is not negative, the readings agree on exactly the kept numbers. -/
theorem Careless.eq_iff (h : Careless lo hi builtin number c) (hlo : lo ≤ 0) (hlow : 0 ≤ builtin)
    (hhigh : builtin < hi) :
    c = (number.bind (within lo hi)).getD builtin ↔ Kept lo hi builtin number := by
  cases number with
  | none => exact ⟨fun _ => ⟨nofun, nofun⟩, fun _ => h.missing rfl⟩
  | some q =>
      rw [Option.bind_some]
      by_cases hneg : q < 0
      · have hbuiltin := h.negative q rfl hneg
        have hnum : q.num < 0 := Rat.num_neg.mpr hneg
        constructor
        · intro heq
          refine ⟨?_, fun p hp hpos => absurd hpos (not_le.mpr (Option.some.inj hp ▸ hneg))⟩
          rintro p ⟨⟩ - hden
          by_contra hin
          rw [within_of_mem hden (not_lt.mp hin) (by omega), Option.getD_some] at heq
          omega
        · intro hkept
          have hout : within lo hi q = none :=
            if_neg fun hin => absurd (hkept.negative q rfl hneg hin.1) (not_lt.mpr hin.2.1)
          rw [hout, hbuiltin]
          rfl
      · have hpos := not_lt.mp hneg
        have hnum : 0 ≤ q.num := Rat.num_nonneg.mpr hpos
        have hwraps := h.other q rfl hpos
        have hkept : Kept lo hi builtin (some q) ↔
            (q.den = 1 ∧ q.num < hi) ∨ ⌊q⌋ ≡ builtin [ZMOD hi - lo] := by
          refine ⟨fun hk => hk.other q rfl hpos, fun hk => ⟨?_, ?_⟩⟩
          · rintro p ⟨⟩ hp
            exact absurd hp hneg
          · rintro p ⟨⟩ -
            exact hk
        rw [hkept]
        by_cases hin : q.den = 1 ∧ q.num < hi
        · rw [within_of_mem hin.1 (by omega) hin.2, Option.getD_some,
            hwraps.eq_iff (by omega) hin.2, floor_of_den hin.1]
          exact ⟨fun _ => .inl hin, fun _ => Int.ModEq.refl _⟩
        · have hout : within lo hi q = none := if_neg fun h => hin ⟨h.1, h.2.2⟩
          rw [hout, Option.getD_none, hwraps.eq_iff (by omega) hhigh]
          exact ⟨.inr, fun h => h.resolve_left hin⟩

end Readings

/-! ### Machine words -/

section Words

theorem wraps_uint64 (n : ℕ) : Wraps 0 (2 ^ 64) n (UInt64.ofNat n).toNat := by
  rw [UInt64.toNat_ofNat']
  exact ⟨by omega, by omega, by rw [Int.ModEq]; omega⟩

theorem wraps_uint32 (n : ℕ) : Wraps 0 (2 ^ 32) n (UInt64.ofNat n).toUInt32.toNat := by
  rw [UInt64.toNat_toUInt32, UInt64.toNat_ofNat']
  exact ⟨by omega, by omega, by rw [Int.ModEq]; omega⟩

theorem wraps_int32 (n : ℕ) :
    Wraps (-2 ^ 31) (2 ^ 31) n (UInt64.ofNat n).toInt64.toInt32.toInt := by
  have hword : (UInt64.ofNat n).toInt64.toInt32 = Int32.ofInt n := by
    rw [Int32.ofInt_eq_ofNat]
    simp
  have hsize : (2 ^ 31 : ℤ) - -2 ^ 31 = Int32.size := by decide
  refine ⟨Int32.le_toInt _, Int32.toInt_lt _, ?_⟩
  rw [hword, Int32.toInt_ofInt, hsize]
  exact Int.bmod_emod

end Words

end Wrapping
