import TxChain.Crypto.Bytes
import TxChain.Library.BigEndian
import TxChain.Library.FixedWidth

/-!
# Canonical binary form

The structs hold field values; `serialize` is the only function that turns them
into the big-endian, fixed-width bytes that are hashed and signed;
`deserializeTxn` and `deserializeHeader` read them back. Both layouts are fixed-width
encoders, so a digest of the bytes commits to every field and an undelimited
concatenation of transactions commits to the whole list.
-/

namespace TxChain

def kTxnSize : ℕ := 153
def kHeaderSize : ℕ := 88
def kSignedPayloadSize : ℕ := 89
def kTxnVersion : UInt8 := 0x01

structure Txn where
  ver : UInt8 := kTxnVersion
  «from» : Address20 := Vector.replicate 20 0
  «to» : Address20 := Vector.replicate 20 0
  amount : UInt64 := 0
  nonce : UInt64 := 0
  pubkey : PubKey32 := Vector.replicate 32 0
  sig : Sig64 := Vector.replicate 64 0
  deriving DecidableEq

structure BlockHeader where
  index : UInt64 := 0
  timestamp : UInt64 := 0
  prevHash : Digest32 := Vector.replicate 32 0
  txnsHash : Digest32 := Vector.replicate 32 0
  nonce : UInt64 := 0
  deriving DecidableEq

@[ext]
structure Block where
  header : BlockHeader
  txns : List Txn
  deriving DecidableEq

/-! ### Serialization -/

/-- Big-endian bytes of a 64-bit word. -/
def putU64 (v : UInt64) : List Byte :=
  ([7, 6, 5, 4, 3, 2, 1, 0] : List UInt64).map fun i => ((v >>> (i * 8)) &&& 0xFF).toUInt8

def Txn.serialize (tx : Txn) : List Byte :=
  [tx.ver] ++ tx.from.toList ++ tx.to.toList ++ putU64 tx.amount ++ putU64 tx.nonce ++
    tx.pubkey.toList ++ tx.sig.toList

def BlockHeader.serialize (h : BlockHeader) : List Byte :=
  putU64 h.index ++ putU64 h.timestamp ++ h.prevHash.toList ++ h.txnsHash.toList ++ putU64 h.nonce

/-- The signed bytes are the serialized transaction without its signature. -/
def signedPayload (tx : Txn) : List Byte := tx.serialize.take kSignedPayloadSize

namespace Canonical

/-- The word of the next eight bytes. -/
def getU64 (p : List Byte) : UInt64 := (p.take 8).foldl (fun v b => (v <<< 8) ||| b.toUInt64) 0

/-- The array of the next `n` bytes. -/
def getArr (n : ℕ) (p : List Byte) : Vector Byte n := Vector.ofFn fun i : Fin n => p.getD i.val 0

end Canonical

/-- A wrong length or an unsupported version is refused. -/
def deserializeTxn (bytes : List Byte) : Option Txn :=
  if bytes.length ≠ kTxnSize then none
  else if bytes.getD 0 0 ≠ kTxnVersion then none
  else
    some
      { ver := bytes.getD 0 0
        «from» := Canonical.getArr 20 (bytes.drop 1)
        «to» := Canonical.getArr 20 (bytes.drop 21)
        amount := Canonical.getU64 (bytes.drop 41)
        nonce := Canonical.getU64 (bytes.drop 49)
        pubkey := Canonical.getArr 32 (bytes.drop 57)
        sig := Canonical.getArr 64 (bytes.drop 89) }

/-- Every byte string of the right length is a header. -/
def deserializeHeader (bytes : List Byte) : Option BlockHeader :=
  if bytes.length ≠ kHeaderSize then none
  else
    some
      { index := Canonical.getU64 bytes
        timestamp := Canonical.getU64 (bytes.drop 8)
        prevHash := Canonical.getArr 32 (bytes.drop 16)
        txnsHash := Canonical.getArr 32 (bytes.drop 48)
        nonce := Canonical.getU64 (bytes.drop 80) }

@[simp] theorem length_putU64 (v : UInt64) : (putU64 v).length = 8 := by
  simp [putU64]

/-- The byte at place `i` of a word. -/
private theorem putU64_byte (v i : UInt64) (hi : i.toNat < 8) :
    ((v >>> (i * 8)) &&& 0xFF).toUInt8 = UInt8.ofNat (v.toNat / 256 ^ i.toNat) := by
  have hshift : (i * 8).toNat % 64 = 8 * i.toNat := by
    rw [UInt64.toNat_mul]
    simp only [UInt64.reduceToNat]
    omega
  have hbase : 2 ^ (8 * i.toNat) = 256 ^ i.toNat := Nat.pow_mul 2 8 i.toNat
  apply UInt8.toNat_inj.mp
  rw [UInt64.toNat_toUInt8, UInt64.toNat_and, UInt64.toNat_shiftRight, hshift,
    Nat.shiftRight_eq_div_pow, hbase, UInt8.toNat_ofNat']
  have hmask := Nat.and_two_pow_sub_one_eq_mod (v.toNat / 256 ^ i.toNat) 8
  simp only [Nat.reducePow, Nat.add_one_sub_one] at hmask
  simp only [UInt64.reduceToNat, hmask, Nat.reducePow, Nat.mod_mod]

theorem putU64_eq (v : UInt64) : putU64 v = BigEndian.digits 8 v.toNat := by
  simp only [putU64, List.map_cons, List.map_nil]
  rw [putU64_byte v 7 (by decide), putU64_byte v 6 (by decide), putU64_byte v 5 (by decide),
    putU64_byte v 4 (by decide), putU64_byte v 3 (by decide), putU64_byte v 2 (by decide),
    putU64_byte v 1 (by decide), putU64_byte v 0 (by decide)]
  simp [BigEndian.digits, Nat.div_div_eq_div_mul]

/-! ### Decoding -/

private theorem shift_or_toNat (v : UInt64) (b : Byte) :
    ((v <<< 8) ||| b.toUInt64).toNat = (v.toNat * 256 + b.toNat) % 2 ^ 64 := by
  have hshift : v.toNat <<< 8 % 2 ^ 64 = (v.toNat % 2 ^ 56) <<< 8 := by
    rw [Nat.shiftLeft_eq, Nat.shiftLeft_eq]
    omega
  have hbyte := b.toNat_lt
  rw [UInt64.toNat_or, UInt64.toNat_shiftLeft, UInt8.toNat_toUInt64]
  simp only [UInt64.reduceToNat, Nat.reduceMod]
  rw [hshift, ← Nat.shiftLeft_add_eq_or_of_lt hbyte, Nat.shiftLeft_eq]
  omega

/-- The word read is the value of its bytes. -/
theorem getU64_toNat (p : List Byte) : (Canonical.getU64 p).toNat = BigEndian.value (p.take 8) := by
  have hfold : ∀ bytes : List Byte, bytes.length ≤ 8 →
      (bytes.foldl (fun (v : UInt64) b => (v <<< 8) ||| b.toUInt64) 0).toNat =
        BigEndian.value bytes := by
    intro bytes
    induction bytes using List.reverseRecOn with
    | nil => exact fun _ => rfl
    | append_singleton bytes b ih =>
        intro hlen
        have hfits : BigEndian.value (bytes ++ [b]) < 2 ^ 64 := by
          refine (BigEndian.value_lt _).trans_le ?_
          exact (Nat.pow_le_pow_right (by decide) hlen).trans (by decide)
        rw [BigEndian.value_concat] at hfits
        rw [List.length_append, List.length_singleton] at hlen
        rw [List.foldl_append, List.foldl_cons, List.foldl_nil, shift_or_toNat, ih (by omega),
          Nat.mod_eq_of_lt hfits, BigEndian.value_concat]
  exact hfold _ (List.length_take_le 8 p)

/-- The eight bytes give the word back, whatever stands behind them. -/
theorem getU64_putU64 (v : UInt64) (rest : List Byte) :
    Canonical.getU64 (putU64 v ++ rest) = v := by
  have htake : (putU64 v ++ rest).take 8 = putU64 v := List.take_left' (length_putU64 v)
  apply UInt64.toNat_inj.mp
  rw [getU64_toNat, htake, putU64_eq, BigEndian.value_digits]
  exact Nat.mod_eq_of_lt v.toNat_lt

/-- The word gives its eight bytes back. -/
theorem putU64_getU64 {p : List Byte} (hlen : 8 ≤ p.length) :
    putU64 (Canonical.getU64 p) = p.take 8 := by
  have hback := BigEndian.digits_value (p.take 8)
  rw [List.length_take_of_le hlen] at hback
  rw [putU64_eq, getU64_toNat, hback]

theorem putU64_injective : Function.Injective putU64 := by
  intro v w h
  have hread := congrArg (fun bytes => Canonical.getU64 (bytes ++ [])) h
  simpa only [getU64_putU64] using hread

theorem getArr_toList {n : ℕ} (a : Vector Byte n) (rest : List Byte) :
    Canonical.getArr n (a.toList ++ rest) = a := by
  apply Vector.ext
  intro i hi
  have hlen : i < a.toList.length := by rwa [Vector.length_toList]
  rw [Canonical.getArr, Vector.getElem_ofFn, List.getD_append _ _ _ _ hlen,
    List.getD_eq_getElem _ _ hlen, Vector.getElem_toList]

theorem toList_getArr {n : ℕ} {p : List Byte} (hlen : n ≤ p.length) :
    (Canonical.getArr n p).toList = p.take n := by
  apply List.ext_getElem
  · rw [Vector.length_toList, List.length_take_of_le hlen]
  · intro i hi _
    rw [Vector.length_toList] at hi
    simp only [Canonical.getArr, Vector.getElem_toList, Vector.getElem_ofFn, List.getElem_take]
    exact List.getD_eq_getElem _ _ (hi.trans_le hlen)

/-! ### Fixed-width layouts -/

def u64Codec : FixedWidth UInt64 Byte := ⟨8, putU64, length_putU64, putU64_injective⟩

/-- The 153-byte layout: version, addresses, amount, nonce, public key, signature. -/
def txnCodec : FixedWidth Txn Byte :=
  ((FixedWidth.symbol Byte).pair <| (FixedWidth.array Byte 20).pair <|
    (FixedWidth.array Byte 20).pair <| u64Codec.pair <| u64Codec.pair <|
    (FixedWidth.array Byte 32).pair (FixedWidth.array Byte 64)).comap
  (fun tx : Txn => (tx.ver, tx.from, tx.to, tx.amount, tx.nonce, tx.pubkey, tx.sig)) (by
    rintro ⟨⟩ ⟨⟩ h
    simpa using h)

/-- The 88-byte layout: index, timestamp, two digests, nonce. -/
def headerCodec : FixedWidth BlockHeader Byte :=
  (u64Codec.pair <| u64Codec.pair <| (FixedWidth.array Byte 32).pair <|
    (FixedWidth.array Byte 32).pair u64Codec).comap
  (fun h : BlockHeader => (h.index, h.timestamp, h.prevHash, h.txnsHash, h.nonce)) (by
    rintro ⟨⟩ ⟨⟩ h
    simpa using h)

theorem Txn.serialize_eq (tx : Txn) : tx.serialize = txnCodec.encode tx := by
  simp [Txn.serialize, txnCodec, FixedWidth.comap, FixedWidth.pair, FixedWidth.symbol,
    FixedWidth.array, u64Codec]

theorem BlockHeader.serialize_eq (h : BlockHeader) : h.serialize = headerCodec.encode h := by
  simp [BlockHeader.serialize, headerCodec, FixedWidth.comap, FixedWidth.pair,
    FixedWidth.array, u64Codec]

@[simp] theorem Txn.length_serialize (tx : Txn) : tx.serialize.length = kTxnSize := by
  rw [tx.serialize_eq, txnCodec.length_encode]
  rfl

@[simp] theorem BlockHeader.length_serialize (h : BlockHeader) :
    h.serialize.length = kHeaderSize := by
  rw [h.serialize_eq, headerCodec.length_encode]
  rfl

theorem BlockHeader.serialize_injective : Function.Injective BlockHeader.serialize := by
  intro h₁ h₂ heq
  rw [h₁.serialize_eq, h₂.serialize_eq] at heq
  exact headerCodec.injective heq

/-- The bytes a transaction commitment hashes: the transactions back to back. -/
def txnBytes (txns : List Txn) : List Byte := txns.flatMap Txn.serialize

theorem txnBytes_injective : Function.Injective txnBytes := by
  have hcodec : txnBytes = List.flatMap txnCodec.encode :=
    funext fun txns => List.flatMap_congr fun tx _ => tx.serialize_eq
  rw [hcodec]
  exact txnCodec.flatMap_injective (by decide)

/-- What follows a field of width `n` at the front. -/
theorem drop_field {bytes front rest : List Byte} {n : ℕ} (h : bytes = front ++ rest)
    (hlen : front.length = n) : bytes.drop n = rest := by
  rw [h]
  exact List.drop_left' hlen

/-- What follows a field of width `n` at offset `i`. -/
theorem drop_next {bytes front rest : List Byte} {i n : ℕ} (h : bytes.drop i = front ++ rest)
    (hlen : front.length = n) : bytes.drop (i + n) = rest := by
  rw [← List.drop_drop]
  exact drop_field h hlen

/-- Decoding a serialized transaction gives it back if its version is supported, and
nothing otherwise. -/
theorem deserializeTxn_serialize (tx : Txn) :
    deserializeTxn tx.serialize = if tx.ver = kTxnVersion then some tx else none := by
  have hbytes : tx.serialize = [tx.ver] ++ (tx.from.toList ++ (tx.to.toList ++ (putU64 tx.amount ++
      (putU64 tx.nonce ++ (tx.pubkey.toList ++ (tx.sig.toList ++ [])))))) := by
    simp only [Txn.serialize, List.append_assoc, List.append_nil]
  have hfrom := drop_field hbytes List.length_singleton
  have hto := drop_next hfrom Vector.length_toList
  have hamount := drop_next hto Vector.length_toList
  have hnonce := drop_next hamount (length_putU64 tx.amount)
  have hpubkey := drop_next hnonce (length_putU64 tx.nonce)
  have hsig := drop_next hpubkey Vector.length_toList
  have hver : tx.serialize.getD 0 0 = tx.ver := by rw [hbytes]; rfl
  have hlength : ¬tx.serialize.length ≠ kTxnSize := not_not.mpr tx.length_serialize
  rw [deserializeTxn, if_neg hlength, hver]
  by_cases hone : tx.ver = kTxnVersion
  · rw [if_neg (not_not.mpr hone), if_pos hone, hfrom, hto, hamount, hnonce, hpubkey, hsig]
    simp only [getArr_toList, getU64_putU64]
  · rw [if_pos hone, if_neg hone]

/-! ### Digests -/

section Digests

variable [Crypto]

def txid (tx : Txn) : Digest32 := Crypto.sha256 tx.serialize

/-- A flat commitment over the ordered transactions; the source streams them
into one SHA-256 context, which digests their concatenation. -/
def txnsHash (txns : List Txn) : Digest32 := Crypto.sha256 (txnBytes txns)

def blockHash (h : BlockHeader) : Digest32 := Crypto.sha256 h.serialize

def BlockHeader.hash (h : BlockHeader) : Digest32 := blockHash h

def Block.computeTxnsHash (b : Block) : Digest32 := TxChain.txnsHash b.txns

end Digests

end TxChain
