import Mathlib

/-!
# Big-endian words

A word of `w` bytes and its value, most significant byte first. Writing and reading
are inverse to each other: on values below `256 ^ w` and on strings of `w` bytes. The number
of bits of a value is counted from its first byte that is not zero.
-/

namespace BigEndian

/-- The value of a byte string. -/
def value (bytes : List UInt8) : ℕ := bytes.foldl (fun v b => v * 256 + b.toNat) 0

/-- The last `w` bytes of a value. -/
def digits : ℕ → ℕ → List UInt8
  | 0, _ => []
  | w + 1, v => digits w (v / 256) ++ [UInt8.ofNat v]

@[simp] theorem length_digits (w v : ℕ) : (digits w v).length = w := by
  induction w generalizing v with
  | zero => rfl
  | succ w ih => simp [digits, ih]

@[simp] theorem value_concat (bytes : List UInt8) (b : UInt8) :
    value (bytes ++ [b]) = value bytes * 256 + b.toNat := by
  simp [value]

theorem value_lt (bytes : List UInt8) : value bytes < 256 ^ bytes.length := by
  induction bytes using List.reverseRecOn with
  | nil => exact Nat.zero_lt_one
  | append_singleton bytes b ih =>
      have hb := b.toNat_lt
      rw [value_concat, List.length_append, List.length_singleton, Nat.pow_succ]
      omega

theorem value_digits (w v : ℕ) : value (digits w v) = v % 256 ^ w := by
  induction w generalizing v with
  | zero => rw [Nat.pow_zero, Nat.mod_one]; rfl
  | succ w ih =>
      have hlast : (UInt8.ofNat v).toNat = v % 256 := UInt8.toNat_ofNat'
      rw [digits, value_concat, ih, hlast, Nat.pow_succ', Nat.mod_mul]
      omega

theorem digits_value (bytes : List UInt8) : digits bytes.length (value bytes) = bytes := by
  induction bytes using List.reverseRecOn with
  | nil => rfl
  | append_singleton bytes b ih =>
      have hb := b.toNat_lt
      have hfront : (value bytes * 256 + b.toNat) / 256 = value bytes := by omega
      have hlast : UInt8.ofNat (value bytes * 256 + b.toNat) = b := by
        apply UInt8.toNat_inj.mp
        rw [UInt8.toNat_ofNat']
        omega
      rw [List.length_append, List.length_singleton, digits, value_concat, hfront, hlast, ih]

/-! ### The number of bits -/

theorem value_cons (b : UInt8) (bytes : List UInt8) :
    value (b :: bytes) = b.toNat * 256 ^ bytes.length + value bytes := by
  induction bytes using List.reverseRecOn with
  | nil => simp [value]
  | append_singleton bytes c ih =>
      rw [← List.cons_append, value_concat, ih, value_concat, List.length_append,
        List.length_singleton, Nat.pow_succ]
      ring

@[simp] theorem value_zero_cons (bytes : List UInt8) : value (0 :: bytes) = value bytes := by
  rw [value_cons, UInt8.toNat_zero, Nat.zero_mul, Nat.zero_add]

/-- A number below `2 ^ k` fits under `k` further bits. -/
theorem size_mul_add {n r k : ℕ} (hn : n ≠ 0) (hr : r < 2 ^ k) :
    (n * 2 ^ k + r).size = n.size + k := by
  refine Nat.le_antisymm (Nat.size_le.mpr ?_) ?_
  · have htop : n + 1 ≤ 2 ^ n.size := Nat.lt_size_self n
    calc
      n * 2 ^ k + r < (n + 1) * 2 ^ k := by
        rw [Nat.succ_mul]
        exact Nat.add_lt_add_left hr _
      _ ≤ 2 ^ n.size * 2 ^ k := Nat.mul_le_mul_right _ htop
      _ = 2 ^ (n.size + k) := (Nat.pow_add 2 n.size k).symm
  · rw [← Nat.size_shiftLeft hn k, Nat.shiftLeft_eq]
    exact Nat.size_le_size (Nat.le_add_right _ r)

theorem pow_bytes (n : ℕ) : 256 ^ n = 2 ^ (8 * n) := by rw [Nat.pow_mul]

theorem size_value_le (bytes : List UInt8) : (value bytes).size ≤ 8 * bytes.length := by
  rw [Nat.size_le, ← pow_bytes]
  exact value_lt bytes

theorem size_value_cons {b : UInt8} (hb : b ≠ 0) (bytes : List UInt8) :
    (value (b :: bytes)).size = b.toNat.size + 8 * bytes.length := by
  have hne : b.toNat ≠ 0 := fun h => hb (UInt8.toNat_inj.mp h)
  have hrest := value_lt bytes
  rw [pow_bytes] at hrest
  rw [value_cons, pow_bytes, size_mul_add hne hrest]

end BigEndian
