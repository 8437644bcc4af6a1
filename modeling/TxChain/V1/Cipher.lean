import TxChain.Library.Scan

/-!
# The cipher of the first version

Letters are shifted within their case and digits modulo ten; every other symbol stands for
itself. Only the main server encrypts and decrypts. A shift permutes the letters and digits,
so it has an inverse and touches neither white space, signs nor the end of a C string.
-/

namespace TxChain.V1

open Scan

/-- Texts hold one character a byte. -/
abbrev Text := List Char

/-- Rotate the `size` symbols from `first` by `k` places. -/
def rotate (first : Char) (size k : ℕ) (c : Char) : Char :=
  Char.ofNat (first.toNat + (c.toNat - first.toNat + k) % size)

def shiftChar (letters digits : ℕ) (c : Char) : Char :=
  if 'a' ≤ c ∧ c ≤ 'z' then rotate 'a' 26 letters c
  else if 'A' ≤ c ∧ c ≤ 'Z' then rotate 'A' 26 letters c
  else if '0' ≤ c ∧ c ≤ '9' then rotate '0' 10 digits c
  else c

def encChar (c : Char) : Char := shiftChar 3 3 c

def decChar (c : Char) : Char := shiftChar 23 7 c

def encStr (s : Text) : Text := s.map encChar

def decStr (s : Text) : Text := s.map decChar

variable {c : Char} {s : Text} {first : Char} {size : ℕ}

/-! ### One rotation -/

def InBlock (first : Char) (size : ℕ) (c : Char) : Prop :=
  first.toNat ≤ c.toNat ∧ c.toNat < first.toNat + size

instance (first : Char) (size : ℕ) (c : Char) : Decidable (InBlock first size c) :=
  inferInstanceAs (Decidable (_ ∧ _))

theorem lower_iff : 'a' ≤ c ∧ c ≤ 'z' ↔ InBlock 'a' 26 c := by
  have hlast : c ≤ 'z' ↔ c.toNat ≤ 122 := Iff.rfl
  have hfirst : 'a' ≤ c ↔ 97 ≤ c.toNat := Iff.rfl
  have hcode : ('a' : Char).toNat = 97 := rfl
  rw [InBlock, hfirst, hlast, hcode]
  omega

theorem upper_iff : 'A' ≤ c ∧ c ≤ 'Z' ↔ InBlock 'A' 26 c := by
  have hlast : c ≤ 'Z' ↔ c.toNat ≤ 90 := Iff.rfl
  have hfirst : 'A' ≤ c ↔ 65 ≤ c.toNat := Iff.rfl
  have hcode : ('A' : Char).toNat = 65 := rfl
  rw [InBlock, hfirst, hlast, hcode]
  omega

theorem digit_iff : '0' ≤ c ∧ c ≤ '9' ↔ InBlock '0' 10 c := by
  have hlast : c ≤ '9' ↔ c.toNat ≤ 57 := Iff.rfl
  have hfirst : '0' ≤ c ↔ 48 ≤ c.toNat := Iff.rfl
  have hcode : ('0' : Char).toNat = 48 := rfl
  rw [InBlock, hfirst, hlast, hcode]
  omega

theorem toNat_ofNat {n : ℕ} (h : n < 128) : (Char.ofNat n).toNat = n := by
  have hvalid : n.isValidChar := .inl (by omega)
  rw [Char.ofNat, dif_pos hvalid]
  rfl

theorem toNat_rotate (hsize : 0 < size) (hfirst : first.toNat + size ≤ 128) (k : ℕ) (c : Char) :
    (rotate first size k c).toNat = first.toNat + (c.toNat - first.toNat + k) % size := by
  have hplace := Nat.mod_lt (c.toNat - first.toNat + k) hsize
  exact toNat_ofNat (by omega)

theorem rotate_mem (hsize : 0 < size) (hfirst : first.toNat + size ≤ 128) (k : ℕ) (c : Char) :
    InBlock first size (rotate first size k c) := by
  have hplace := Nat.mod_lt (c.toNat - first.toNat + k) hsize
  rw [InBlock, toNat_rotate hsize hfirst]
  omega

/-- Two rotations that add up to a full turn leave a symbol of the block alone. -/
theorem rotate_rotate {j k : ℕ} (hfirst : first.toNat + size ≤ 128) (hturn : j + k = size)
    (hc : InBlock first size c) : rotate first size j (rotate first size k c) = c := by
  have hsize : 0 < size := by
    have hwithin := hc.2
    have hlow := hc.1
    omega
  have hback : ((c.toNat - first.toNat + k) % size + j) % size = c.toNat - first.toNat := by
    rw [Nat.mod_add_mod, Nat.add_assoc, Nat.add_comm k j, hturn, Nat.add_mod_right]
    exact Nat.mod_eq_of_lt (Nat.sub_lt_left_of_lt_add hc.1 hc.2)
  rw [rotate, toNat_rotate hsize hfirst, Nat.add_sub_cancel_left, hback,
    Nat.add_sub_cancel' hc.1, Char.ofNat_toNat]

/-! ### The shift -/

theorem shiftChar_lower (h : InBlock 'a' 26 c) (letters digits : ℕ) :
    shiftChar letters digits c = rotate 'a' 26 letters c := by
  rw [shiftChar, if_pos (lower_iff.mpr h)]

theorem shiftChar_upper (h : InBlock 'A' 26 c) (letters digits : ℕ) :
    shiftChar letters digits c = rotate 'A' 26 letters c := by
  have hlower : ¬InBlock 'a' 26 c := by
    have hbelow : c.toNat < 91 := h.2
    intro hl
    have habove : 97 ≤ c.toNat := hl.1
    omega
  rw [shiftChar, if_neg (lower_iff.not.mpr hlower), if_pos (upper_iff.mpr h)]

theorem shiftChar_digit (h : InBlock '0' 10 c) (letters digits : ℕ) :
    shiftChar letters digits c = rotate '0' 10 digits c := by
  have hbelow : c.toNat < 58 := h.2
  have hlower : ¬InBlock 'a' 26 c := by
    intro hl
    have habove : 97 ≤ c.toNat := hl.1
    omega
  have hupper : ¬InBlock 'A' 26 c := by
    intro hu
    have habove : 65 ≤ c.toNat := hu.1
    omega
  rw [shiftChar, if_neg (lower_iff.not.mpr hlower), if_neg (upper_iff.not.mpr hupper),
    if_pos (digit_iff.mpr h)]

/-- The symbols that a shift may move. -/
def IsAlnum (c : Char) : Prop := InBlock 'a' 26 c ∨ InBlock 'A' 26 c ∨ InBlock '0' 10 c

instance (c : Char) : Decidable (IsAlnum c) := inferInstanceAs (Decidable (_ ∨ _))

theorem shiftChar_other (h : ¬IsAlnum c) (letters digits : ℕ) : shiftChar letters digits c = c := by
  simp only [IsAlnum, not_or] at h
  rw [shiftChar, if_neg (lower_iff.not.mpr h.1), if_neg (upper_iff.not.mpr h.2.1),
    if_neg (digit_iff.not.mpr h.2.2)]

theorem shiftChar_alnum (h : IsAlnum c) (letters digits : ℕ) :
    IsAlnum (shiftChar letters digits c) := by
  rcases h with h | h | h
  · rw [shiftChar_lower h]
    exact .inl (rotate_mem (by decide) (by decide) letters c)
  · rw [shiftChar_upper h]
    exact .inr (.inl (rotate_mem (by decide) (by decide) letters c))
  · rw [shiftChar_digit h]
    exact .inr (.inr (rotate_mem (by decide) (by decide) digits c))

theorem shiftChar_shiftChar {j k i m : ℕ} (hletters : j + k = 26) (hdigits : i + m = 10)
    (c : Char) : shiftChar j i (shiftChar k m c) = c := by
  by_cases h : IsAlnum c
  · rcases h with h | h | h
    · rw [shiftChar_lower h, shiftChar_lower (rotate_mem (by decide) (by decide) k c)]
      exact rotate_rotate (by decide) hletters h
    · rw [shiftChar_upper h, shiftChar_upper (rotate_mem (by decide) (by decide) k c)]
      exact rotate_rotate (by decide) hletters h
    · rw [shiftChar_digit h, shiftChar_digit (rotate_mem (by decide) (by decide) m c)]
      exact rotate_rotate (by decide) hdigits h
  · rw [shiftChar_other h, shiftChar_other h]

/-! ### Encryption of texts -/

@[simp] theorem decStr_encStr (s : Text) : decStr (encStr s) = s := by
  rw [decStr, encStr, List.map_map]
  have hinverse : decChar ∘ encChar = id := funext (shiftChar_shiftChar rfl rfl)
  rw [hinverse, List.map_id]

theorem encStr_injective : Function.Injective encStr :=
  Function.LeftInverse.injective decStr_encStr

theorem encStr_inj {s t : Text} : encStr s = encStr t ↔ s = t := encStr_injective.eq_iff

theorem encStr_eq_nil : encStr s = [] ↔ s = [] := List.map_eq_nil_iff

/-- A symbol that is no letter or digit stands for itself, and for nothing else. -/
theorem encChar_eq_iff {d : Char} (hd : ¬IsAlnum d) : encChar c = d ↔ c = d := by
  constructor
  · intro h
    by_cases hc : IsAlnum c
    · exact absurd (h ▸ shiftChar_alnum hc 3 3) hd
    · rwa [encChar, shiftChar_other hc] at h
  · rintro rfl
    exact shiftChar_other hd 3 3

theorem not_isAlnum_of_isSpace (h : isSpace c = true) : ¬IsAlnum c := by
  have hcode : c.toNat < 48 := by
    simp only [isSpace, Bool.or_eq_true, decide_eq_true_eq] at h
    rcases h with ((((rfl | rfl) | rfl) | rfl) | rfl) | rfl <;> decide
  rintro (hc | hc | hc)
  · have hlow : 97 ≤ c.toNat := hc.1
    omega
  · have hlow : 65 ≤ c.toNat := hc.1
    omega
  · have hlow : 48 ≤ c.toNat := hc.1
    omega

theorem isSpace_encChar (c : Char) : isSpace (encChar c) = isSpace c := by
  by_cases h : isSpace c = true
  · rw [(encChar_eq_iff (not_isAlnum_of_isSpace h)).mpr rfl]
  · by_cases henc : isSpace (encChar c) = true
    · have hc := (encChar_eq_iff (not_isAlnum_of_isSpace henc)).mp rfl
      rw [← hc]
    · rw [Bool.eq_false_of_not_eq_true h, Bool.eq_false_of_not_eq_true henc]

theorem isWord_encStr (h : IsWord s) : IsWord (encStr s) := by
  refine ⟨fun hnil => h.nonempty (encStr_eq_nil.mp hnil), fun c hc => ?_⟩
  obtain ⟨d, hd, rfl⟩ := List.mem_map.mp hc
  rw [isSpace_encChar, h.solid d hd]

theorem mem_encStr {d : Char} (hd : ¬IsAlnum d) : d ∈ encStr s ↔ d ∈ s := by
  rw [encStr, List.mem_map]
  constructor
  · rintro ⟨c, hc, henc⟩
    rwa [← (encChar_eq_iff hd).mp henc]
  · intro h
    exact ⟨d, h, (encChar_eq_iff hd).mpr rfl⟩

end TxChain.V1
