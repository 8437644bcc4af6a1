import TxChain.Crypto.Bytes

/-!
# Hex codec, proof-of-work target and block work

Hex is the display boundary of the chain file and of the RPC surface; it is never
hashed. The same leading-zero count decides mining, commitment and replay.
-/

namespace TxChain

/-! ### Hex -/

def kHex : List Char :=
  ['0', '1', '2', '3', '4', '5', '6', '7', '8', '9', 'a', 'b', 'c', 'd', 'e', 'f']

/-- Lowercase hex, two digits a byte, no separators. -/
def toHex (bytes : List Byte) : List Char :=
  bytes.flatMap fun (byte : Byte) =>
    [kHex.getD (byte >>> 4).toNat '0', kHex.getD (byte &&& 0x0F).toNat '0']

/-- The value of one hex digit of either case. -/
def nib (c : Char) : Option ℕ :=
  if '0' ≤ c ∧ c ≤ '9' then some (c.toNat - '0'.toNat)
  else if 'a' ≤ c ∧ c ≤ 'f' then some (c.toNat - 'a'.toNat + 10)
  else if 'A' ≤ c ∧ c ≤ 'F' then some (c.toNat - 'A'.toNat + 10)
  else none

def decodeNibbles : List Char → Option (List Byte)
  | hi :: lo :: rest => do
      let h ← nib hi
      let l ← nib lo
      let bytes ← decodeNibbles rest
      return ((h <<< 4) ||| l).toUInt8 :: bytes
  | _ => some []

/-- Fixed-width decoding: a wrong length or a non-hex character fails. -/
def fromHex (n : ℕ) (hex : List Char) : Option (Vector Byte n) :=
  if hex.length ≠ 2 * n then none
  else
    (decodeNibbles hex).bind fun bytes =>
      if h : bytes.length = n then some ⟨bytes.toArray, by simpa using h⟩ else none

private theorem nib_kHex : ∀ n < 16, nib (kHex.getD n '0') = some n := by decide

private theorem kHex_getD_mem (n : ℕ) : kHex.getD n '0' ∈ kHex := by
  by_cases h : n < kHex.length
  · rw [List.getD_eq_getElem _ _ h]
    exact List.getElem_mem h
  · rw [List.getD_eq_default _ _ (by omega)]
    decide

theorem toNat_high_nibble (b : Byte) : (b >>> 4).toNat = b.toNat / 16 := by
  rw [UInt8.toNat_shiftRight, Nat.shiftRight_eq_div_pow]
  rfl

theorem toNat_low_nibble (b : Byte) : (b &&& 0x0F).toNat = b.toNat % 16 := by
  rw [UInt8.toNat_and]
  exact Nat.and_two_pow_sub_one_eq_mod b.toNat 4

/-- Two nibbles put together. -/
theorem toNat_join_nibbles {h l : ℕ} (hh : h < 16) (hl : l < 16) :
    ((h <<< 4) ||| l).toUInt8.toNat = 16 * h + l := by
  have hlow : l < 2 ^ 4 := hl
  have hjoin : (h <<< 4) ||| l = 16 * h + l := by
    rw [← Nat.shiftLeft_add_eq_or_of_lt hlow, Nat.shiftLeft_eq]
    omega
  rw [hjoin, Nat.toUInt8_eq, UInt8.toNat_ofNat']
  omega

private theorem high_nibble_lt (b : Byte) : (b >>> 4).toNat < 16 := by
  have hb := b.toNat_lt
  rw [toNat_high_nibble]
  omega

private theorem low_nibble_lt (b : Byte) : (b &&& 0x0F).toNat < 16 := by
  rw [toNat_low_nibble]
  omega

private theorem byte_halves (b : Byte) :
    (((b >>> 4).toNat <<< 4) ||| (b &&& 0x0F).toNat).toUInt8 = b := by
  apply UInt8.toNat_inj.mp
  rw [toNat_join_nibbles (high_nibble_lt b) (low_nibble_lt b), toNat_high_nibble, toNat_low_nibble]
  omega

@[simp] theorem length_toHex (bytes : List Byte) : (toHex bytes).length = 2 * bytes.length := by
  induction bytes with
  | nil => rfl
  | cons b bytes ih =>
      simp only [toHex, List.flatMap_cons, List.length_append, List.length_cons,
        List.length_nil] at ih ⊢
      omega

theorem toHex_cons (b : Byte) (bytes : List Byte) :
    toHex (b :: bytes) =
      kHex.getD (b >>> 4).toNat '0' :: kHex.getD (b &&& 0x0F).toNat '0' :: toHex bytes := rfl

/-- Two digits decode to one byte in front of what the rest decodes to. -/
theorem decodeNibbles_cons_eq_some {hi lo : Char} {rest : List Char} {bytes : List Byte} :
    decodeNibbles (hi :: lo :: rest) = some bytes ↔
      ∃ h l tail, nib hi = some h ∧ nib lo = some l ∧ decodeNibbles rest = some tail ∧
        ((h <<< 4) ||| l).toUInt8 :: tail = bytes := by
  simp [decodeNibbles, Option.bind_eq_some_iff]

/-- Two digits a byte are consumed two at a time. -/
theorem exists_pair {hex : List Char} {n : ℕ} (hlen : hex.length = 2 * (n + 1)) :
    ∃ hi lo rest, hex = hi :: lo :: rest ∧ rest.length = 2 * n := by
  cases hex with
  | nil => exact absurd hlen (by simp)
  | cons hi hex =>
      cases hex with
      | nil => exact absurd hlen (by simp; omega)
      | cons lo rest =>
          simp only [List.length_cons] at hlen
          exact ⟨hi, lo, rest, rfl, by omega⟩

theorem decodeNibbles_toHex (bytes : List Byte) : decodeNibbles (toHex bytes) = some bytes := by
  induction bytes with
  | nil => rfl
  | cons b bytes ih =>
      rw [toHex_cons, decodeNibbles_cons_eq_some]
      exact ⟨_, _, bytes, nib_kHex _ (high_nibble_lt b), nib_kHex _ (low_nibble_lt b), ih,
        congrArg (· :: bytes) (byte_halves b)⟩

/-- Fixed-width decoding succeeds on the right length, with the bytes that the digits spell. -/
theorem fromHex_eq_some_iff {n : ℕ} {hex : List Char} {a : Vector Byte n} :
    fromHex n hex = some a ↔ hex.length = 2 * n ∧ decodeNibbles hex = some a.toList := by
  rw [fromHex]
  by_cases hlen : hex.length = 2 * n
  · rw [if_neg (not_not.mpr hlen), Option.bind_eq_some_iff]
    constructor
    · rintro ⟨bytes, hbytes, ha⟩
      split at ha
      next =>
        obtain rfl := Option.some.inj ha
        exact ⟨hlen, hbytes⟩
      next => cases ha
    · rintro ⟨-, hbytes⟩
      refine ⟨a.toList, hbytes, ?_⟩
      rw [dif_pos Vector.length_toList]
      exact congrArg some (Vector.toArray_inj.mp Array.toArray_toList)
  · rw [if_pos hlen]
    exact ⟨nofun, fun h => absurd h.1 hlen⟩

/-- Every array that was rendered in hex reads back as itself. -/
theorem fromHex_toHex {n : ℕ} (a : Vector Byte n) : fromHex n (toHex a.toList) = some a := by
  refine fromHex_eq_some_iff.mpr ⟨?_, decodeNibbles_toHex _⟩
  rw [length_toHex, Vector.length_toList]

theorem mem_toHex {c : Char} {bytes : List Byte} (h : c ∈ toHex bytes) : c ∈ kHex := by
  obtain ⟨b, -, hb⟩ := List.mem_flatMap.mp h
  simp only [List.mem_cons, List.not_mem_nil, or_false] at hb
  rcases hb with rfl | rfl <;> exact kHex_getD_mem _

/-- A hex digit of either case. -/
def IsHexDigit (c : Char) : Prop :=
  ('0' ≤ c ∧ c ≤ '9') ∨ ('a' ≤ c ∧ c ≤ 'f') ∨ ('A' ≤ c ∧ c ≤ 'F')

theorem nib_eq_none_iff (c : Char) : nib c = none ↔ ¬IsHexDigit c := by
  rw [nib, IsHexDigit]
  split_ifs <;> simp_all

theorem isHexDigit_of_nib {c : Char} {n : ℕ} (h : nib c = some n) : IsHexDigit c := by
  refine not_not.mp fun hnot => ?_
  rw [(nib_eq_none_iff c).mpr hnot] at h
  cases h

/-- Two digits a byte decode exactly if they all are hex digits. -/
theorem decodeNibbles_iff {hex : List Char} {n : ℕ} (hlen : hex.length = 2 * n) :
    (∃ bytes, decodeNibbles hex = some bytes ∧ bytes.length = n) ↔ ∀ c ∈ hex, IsHexDigit c := by
  induction n generalizing hex with
  | zero =>
      obtain rfl := List.eq_nil_of_length_eq_zero hlen
      exact ⟨fun _ c hc => absurd hc List.not_mem_nil, fun _ => ⟨[], rfl, rfl⟩⟩
  | succ n ih =>
      obtain ⟨hi, lo, rest, rfl, hrest⟩ := exists_pair hlen
      rw [List.forall_mem_cons, List.forall_mem_cons, ← ih hrest]
      constructor
      · rintro ⟨bytes, hbytes, hcount⟩
        obtain ⟨h, l, tail, hh, hl, htail, rfl⟩ := decodeNibbles_cons_eq_some.mp hbytes
        exact ⟨isHexDigit_of_nib hh, isHexDigit_of_nib hl, tail, htail, Nat.succ.inj hcount⟩
      · rintro ⟨hhi, hlo, tail, htail, hcount⟩
        obtain ⟨h, hh⟩ := Option.ne_none_iff_exists'.mp fun hn => (nib_eq_none_iff hi).mp hn hhi
        obtain ⟨l, hl⟩ := Option.ne_none_iff_exists'.mp fun hn => (nib_eq_none_iff lo).mp hn hlo
        exact ⟨_, decodeNibbles_cons_eq_some.mpr ⟨h, l, tail, hh, hl, htail, rfl⟩,
          congrArg (· + 1) hcount⟩

/-- A text decodes to `n` bytes exactly if it is `2 * n` hex digits. -/
theorem fromHex_isSome_iff (n : ℕ) (hex : List Char) :
    (∃ a : Vector Byte n, fromHex n hex = some a) ↔
      hex.length = 2 * n ∧ ∀ c ∈ hex, IsHexDigit c := by
  constructor
  · rintro ⟨a, ha⟩
    obtain ⟨hlen, hbytes⟩ := fromHex_eq_some_iff.mp ha
    exact ⟨hlen, (decodeNibbles_iff hlen).mp ⟨_, hbytes, Vector.length_toList⟩⟩
  · rintro ⟨hlen, hdigits⟩
    obtain ⟨bytes, hbytes, hcount⟩ := (decodeNibbles_iff hlen).mpr hdigits
    subst hcount
    exact ⟨⟨bytes.toArray, by simp⟩, fromHex_eq_some_iff.mpr ⟨hlen, hbytes⟩⟩

/-! ### Proof-of-work target and cumulative work -/

/-- Scan the given bit positions of one byte; a set bit ends the whole count. -/
def scanBits (b : Byte) : List ℕ → ℕ → Bool × ℕ
  | [], count => (false, count)
  | bit :: bits, count =>
      if (b.toNat >>> bit) &&& 1 = 1 then (true, count) else scanBits b bits (count + 1)

def leadingZeroBitsFrom : List Byte → ℕ → ℕ
  | [], count => count
  | b :: bytes, count =>
      if b = 0 then leadingZeroBitsFrom bytes (count + 8)
      else
        match scanBits b [7, 6, 5, 4, 3, 2, 1, 0] count with
        | (true, found) => found
        | (false, next) => leadingZeroBitsFrom bytes next

/-- Leading zero bits of a digest, most significant byte first. -/
def leadingZeroBits (hash : Digest32) : ℕ := leadingZeroBitsFrom hash.toList 0

def meetsDifficulty (hash : Digest32) (D : UInt32) : Bool := D.toNat ≤ leadingZeroBits hash

@[simp] theorem meetsDifficulty_zero (hash : Digest32) : meetsDifficulty hash 0 = true := by
  simp [meetsDifficulty]

/-- The 128-bit fork-choice accumulator. -/
abbrev Work := BitVec 128

/-- `2^D`, saturating where the shift would leave the word. -/
def blockWork (D : UInt32) : Work :=
  if 128 ≤ D.toNat then ~~~0 else (1 : Work) <<< D.toNat

end TxChain
