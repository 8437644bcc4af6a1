import TxChain.Crypto.HashUtil

/-!
# The hex codec is exact

Writing and reading are inverse to each other up to the case of the digits: what was written
reads back as itself, and what can be read is, in lowercase, what writing its bytes gives.
-/

namespace TxChain

/-- The digit of a nibble is the digit it was read from, in lowercase. -/
theorem kHex_of_nib {c : Char} {n : ℕ} (h : nib c = some n) :
    n < 16 ∧ kHex.getD n '0' = c.toLower := by
  -- every hex digit is an ASCII character, so the table below decides all of them
  have hascii : c.toNat < 128 := by
    have hcode : ∀ d : Char, c ≤ d → c.toNat ≤ d.toNat := fun _ hle => hle
    rcases isHexDigit_of_nib h with ⟨-, hle⟩ | ⟨-, hle⟩ | ⟨-, hle⟩
    · exact (hcode '9' hle).trans_lt (by decide)
    · exact (hcode 'f' hle).trans_lt (by decide)
    · exact (hcode 'F' hle).trans_lt (by decide)
  have htable : ∀ m < 128, ∀ v ∈ nib (Char.ofNat m),
      v < 16 ∧ kHex.getD v '0' = (Char.ofNat m).toLower := by decide +kernel
  have hc := htable c.toNat hascii
  rw [Char.ofNat_toNat] at hc
  exact hc n h

/-- The halves of a byte that was put together from two nibbles. -/
theorem nibbles_of_byte {h l : ℕ} (hh : h < 16) (hl : l < 16) :
    (((h <<< 4) ||| l).toUInt8 >>> 4).toNat = h ∧
      (((h <<< 4) ||| l).toUInt8 &&& 0x0F).toNat = l := by
  rw [toNat_high_nibble, toNat_low_nibble, toNat_join_nibbles hh hl]
  constructor
  · omega
  · omega

/-- Writing what was read gives the text in lowercase. -/
theorem toHex_of_decodeNibbles {hex : List Char} {bytes : List Byte} {n : ℕ}
    (hlen : hex.length = 2 * n) (hbytes : decodeNibbles hex = some bytes) :
    toHex bytes = hex.map Char.toLower := by
  induction n generalizing hex bytes with
  | zero =>
      obtain rfl := List.eq_nil_of_length_eq_zero hlen
      obtain rfl := Option.some.inj hbytes
      rfl
  | succ n ih =>
      obtain ⟨hi, lo, rest, rfl, hrest⟩ := exists_pair hlen
      obtain ⟨h, l, tail, hh, hl, htail, rfl⟩ := decodeNibbles_cons_eq_some.mp hbytes
      obtain ⟨hhi, hhigh⟩ := kHex_of_nib hh
      obtain ⟨hlo, hlow⟩ := kHex_of_nib hl
      obtain ⟨hfirst, hsecond⟩ := nibbles_of_byte hhi hlo
      rw [toHex_cons, hfirst, hsecond, hhigh, hlow, ih hrest htail]
      rfl

theorem toHex_of_fromHex {n : ℕ} {s : List Char} {a : Vector Byte n}
    (h : fromHex n s = some a) : toHex a.toList = s.map Char.toLower := by
  obtain ⟨hlen, hbytes⟩ := fromHex_eq_some_iff.mp h
  exact toHex_of_decodeNibbles hlen hbytes

/-- At every width the codec accepts exactly the texts of the right length in hex digits, and
its two directions are inverse to each other up to the case of the digits. -/
theorem hex_codec_exact (n : ℕ) :
    (∀ a : Vector Byte n, fromHex n (toHex a.toList) = some a) ∧
      ∀ s : List Char,
        ((∃ a : Vector Byte n, fromHex n s = some a) ↔
          s.length = 2 * n ∧ ∀ c ∈ s, IsHexDigit c) ∧
        ∀ a : Vector Byte n, fromHex n s = some a → toHex a.toList = s.map Char.toLower :=
  ⟨fromHex_toHex, fun s => ⟨fromHex_isSome_iff n s, fun _ => toHex_of_fromHex⟩⟩

/-- A byte written with digits of both cases. -/
theorem mixed_case_read : toHex [0xAF] = ['a', 'f'] :=
  ((hex_codec_exact 1).2 ['A', 'f']).2 #v[0xAF] (by decide +kernel)

end TxChain
