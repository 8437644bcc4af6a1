import TxChain.Crypto.HashUtil
import TxChain.Library.BigEndian

/-!
# The proof-of-work target

A digest is read as a big-endian integer of 256 bits. The nested loops over its bytes and
their bits count what the integer lacks of 256 bits, so meeting a difficulty is lying below
a power of two.
-/

namespace TxChain

open BigEndian

/-- A digest as an integer, its first byte on top. -/
def Digest32.toNat (h : Digest32) : ℕ := value h.toList

theorem Digest32.size_toNat_le (h : Digest32) : h.toNat.size ≤ 256 := by
  have hsize := size_value_le h.toList
  rwa [Vector.length_toList] at hsize

/-- The bit that the scan tests is the top bit of what the scan has left. -/
theorem top_bit_iff {n k : ℕ} (hn : n < 2 ^ (k + 1)) : (n >>> k) &&& 1 = 1 ↔ 2 ^ k ≤ n := by
  have htop : n / 2 ^ k < 2 := by
    rw [Nat.div_lt_iff_lt_mul (Nat.two_pow_pos k), ← Nat.pow_succ']
    exact hn
  rw [Nat.and_one_is_mod, Nat.shiftRight_eq_div_pow, Nat.mod_eq_of_lt htop]
  constructor
  · intro hone
    have hpos : 0 < n / 2 ^ k := by omega
    exact (Nat.div_pos_iff.mp hpos).2
  · intro hle
    have hpos : 0 < n / 2 ^ k := Nat.div_pos hle (Nat.two_pow_pos k)
    omega

/-- The bit loop ends at the highest bit of a byte that is not zero. -/
theorem scanBits_found {b : Byte} (hb : b ≠ 0) {k : ℕ} (hk : b.toNat < 2 ^ k) (count : ℕ) :
    ∃ found, scanBits b (List.range k).reverse count = (true, found) ∧
      found + b.toNat.size = count + k := by
  induction k generalizing count with
  | zero => exact absurd (UInt8.toNat_inj.mp (Nat.lt_one_iff.mp hk)) hb
  | succ k ih =>
      rw [List.range_succ, List.reverse_append, List.reverse_singleton, List.singleton_append,
        scanBits]
      by_cases htop : 2 ^ k ≤ b.toNat
      · have hsize : b.toNat.size = k + 1 :=
          Nat.le_antisymm (Nat.size_le.mpr hk) (Nat.lt_size.mpr htop)
        rw [if_pos ((top_bit_iff hk).mpr htop)]
        exact ⟨count, rfl, by rw [hsize]⟩
      · obtain ⟨found, hscan, hfound⟩ := ih (Nat.not_le.mp htop) (count + 1)
        rw [if_neg ((top_bit_iff hk).not.mpr htop)]
        exact ⟨found, hscan, by omega⟩

/-- The byte loop adds to the count what the rest of the digest lacks of its full length. -/
theorem leadingZeroBitsFrom_add_size (bytes : List Byte) (count : ℕ) :
    leadingZeroBitsFrom bytes count + (value bytes).size = count + 8 * bytes.length := by
  induction bytes generalizing count with
  | nil => rfl
  | cons b bytes ih =>
      rw [leadingZeroBitsFrom, List.length_cons]
      by_cases hb : b = 0
      · have hrest := ih (count + 8)
        rw [if_pos hb, hb, value_zero_cons]
        omega
      · obtain ⟨found, hscan, hfound⟩ := scanBits_found hb b.toNat_lt count
        have hbits : [7, 6, 5, 4, 3, 2, 1, 0] = (List.range 8).reverse := rfl
        rw [if_neg hb, hbits, hscan, size_value_cons hb]
        dsimp only
        omega

theorem leadingZeroBits_eq (h : Digest32) : leadingZeroBits h = 256 - h.toNat.size := by
  have hcount := leadingZeroBitsFrom_add_size h.toList 0
  rw [Vector.length_toList] at hcount
  rw [leadingZeroBits, Digest32.toNat]
  omega

theorem meetsDifficulty_iff (h : Digest32) (D : UInt32) :
    meetsDifficulty h D = true ↔ D.toNat ≤ 256 ∧ h.toNat < 2 ^ (256 - D.toNat) := by
  have hsize := h.size_toNat_le
  rw [meetsDifficulty, decide_eq_true_eq, leadingZeroBits_eq, ← Nat.size_le]
  omega

theorem meetsDifficulty_mono {h : Digest32} {D D' : UInt32} (hle : D' ≤ D)
    (hmeets : meetsDifficulty h D = true) : meetsDifficulty h D' = true := by
  rw [meetsDifficulty, decide_eq_true_eq] at hmeets ⊢
  exact (UInt32.le_iff_toNat_le.mp hle).trans hmeets

/-- The target is a threshold on the digest as an integer. -/
theorem target_is_threshold (h : Digest32) :
    leadingZeroBits h = 256 - h.toNat.size ∧
      ∀ D : UInt32,
        (meetsDifficulty h D = true ↔ D.toNat ≤ 256 ∧ h.toNat < 2 ^ (256 - D.toNat)) ∧
        (meetsDifficulty h D = true → ∀ D' ≤ D, meetsDifficulty h D' = true) := by
  refine ⟨leadingZeroBits_eq h, fun D => ⟨meetsDifficulty_iff h D, ?_⟩⟩
  intro hmeets D' hle
  exact meetsDifficulty_mono hle hmeets

/-- Sixteen zero bits and no more. -/
def sixteenZeros : Digest32 := Vector.ofFn fun i => if i = 2 then 0xFF else 0

theorem sixteenZeros_meets : leadingZeroBits sixteenZeros = 16 ∧
    ∀ D' ≤ 16, meetsDifficulty sixteenZeros D' = true := by
  obtain ⟨hcount, htarget⟩ := target_is_threshold sixteenZeros
  obtain ⟨hiff, hsmaller⟩ := htarget 16
  refine ⟨hcount.trans (by decide +kernel), hsmaller (hiff.mpr ⟨by decide, ?_⟩)⟩
  decide +kernel

end TxChain
