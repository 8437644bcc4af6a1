import TxChain.Serialize.Canonical

/-!
# The canonical codec is a bijection

Decoding succeeds on exactly the byte strings that serialization produces, and the
decoded value serializes to the string it came from. A layout is cut at its offsets
and put together again, so each field is checked against the bytes it was read from.
-/

namespace TxChain

/-- `decode` inverts `encode` between the valid values and the well-formed strings. -/
structure Inverts {α : Type} (decode : List Byte → Option α) (encode : α → List Byte)
    (valid : α → Prop) (wellFormed : List Byte → Prop) : Prop where
  decode_encode : ∀ a, valid a → decode (encode a) = some a
  succeeds_iff : ∀ bytes, (∃ a, decode bytes = some a) ↔ wellFormed bytes
  encode_decode : ∀ bytes a, decode bytes = some a → encode a = bytes

/-- A field and what follows it are what stood at its offset. -/
private theorem cut (bytes : List Byte) (i n : ℕ) :
    (bytes.drop i).take n ++ bytes.drop (i + n) = bytes.drop i := by
  rw [← List.drop_drop, List.take_append_drop]

/-! ### Transactions -/

theorem deserializeTxn_shape {bytes : List Byte} {t : Txn} (h : deserializeTxn bytes = some t) :
    bytes.length = kTxnSize ∧ bytes.head? = some kTxnVersion := by
  rw [deserializeTxn] at h
  split_ifs at h with hlen hver
  rw [not_not] at hlen hver
  refine ⟨hlen, ?_⟩
  cases bytes with
  | nil => exact absurd hlen (by decide)
  | cons b rest => exact congrArg some hver

theorem deserializeTxn_of_shape {bytes : List Byte} (hlen : bytes.length = kTxnSize)
    (hver : bytes.head? = some kTxnVersion) : ∃ t, deserializeTxn bytes = some t := by
  have hfirst : bytes.getD 0 0 = kTxnVersion := by
    rw [List.getD_eq_getElem?_getD, ← List.head?_eq_getElem?, hver]
    rfl
  rw [deserializeTxn, if_neg (not_not.mpr hlen), if_neg (not_not.mpr hfirst)]
  exact ⟨_, rfl⟩

theorem serialize_of_deserializeTxn {bytes : List Byte} {t : Txn}
    (h : deserializeTxn bytes = some t) : t.serialize = bytes := by
  obtain ⟨hlen, hver⟩ := deserializeTxn_shape h
  have hlen' : bytes.length = 153 := hlen
  rw [deserializeTxn] at h
  split_ifs at h
  obtain rfl := Option.some.inj h
  have hfirst : [bytes.getD 0 0] = bytes.take 1 := by
    cases bytes with
    | nil => cases hver
    | cons b rest => rfl
  have hlast : (bytes.drop 89).take 64 = bytes.drop 89 := by
    apply List.take_of_length_le
    rw [List.length_drop]
    omega
  have hroom : ∀ {i n : ℕ}, i + n ≤ 153 → n ≤ (bytes.drop i).length := by
    intro i n hn
    rw [List.length_drop]
    omega
  simp only [Txn.serialize]
  rw [hfirst, toList_getArr (hroom (by decide)), toList_getArr (hroom (by decide)),
    putU64_getU64 (hroom (by decide)), putU64_getU64 (hroom (by decide)),
    toList_getArr (hroom (by decide)), toList_getArr (hroom (by decide)), hlast]
  simp only [List.append_assoc]
  rw [cut bytes 57 32, cut bytes 49 8, cut bytes 41 8, cut bytes 21 20, cut bytes 1 20]
  exact List.take_append_drop 1 bytes

theorem deserializeTxn_inverts :
    Inverts deserializeTxn Txn.serialize (fun t => t.ver = kTxnVersion)
      (fun bytes => bytes.length = kTxnSize ∧ bytes.head? = some kTxnVersion) where
  decode_encode t hver := by rw [deserializeTxn_serialize, if_pos hver]
  succeeds_iff bytes :=
    ⟨fun ⟨_, h⟩ => deserializeTxn_shape h, fun h => deserializeTxn_of_shape h.1 h.2⟩
  encode_decode _ _ := serialize_of_deserializeTxn

theorem Txn.serialize_injective : Function.Injective Txn.serialize := by
  intro t u h
  rw [t.serialize_eq, u.serialize_eq] at h
  exact txnCodec.injective h

/-! ### Headers -/

theorem deserializeHeader_serialize (h : BlockHeader) : deserializeHeader h.serialize = some h := by
  have hbytes : h.serialize = putU64 h.index ++ (putU64 h.timestamp ++ (h.prevHash.toList ++
      (h.txnsHash.toList ++ (putU64 h.nonce ++ [])))) := by
    simp only [BlockHeader.serialize, List.append_assoc, List.append_nil]
  have htimestamp := drop_field hbytes (length_putU64 h.index)
  have hprevHash := drop_next htimestamp (length_putU64 h.timestamp)
  have htxnsHash := drop_next hprevHash Vector.length_toList
  have hnonce := drop_next htxnsHash Vector.length_toList
  rw [deserializeHeader, if_neg (not_not.mpr h.length_serialize), htimestamp, hprevHash, htxnsHash,
    hnonce, hbytes]
  simp only [getArr_toList, getU64_putU64]

theorem serialize_of_deserializeHeader {bytes : List Byte} {h : BlockHeader}
    (hdecode : deserializeHeader bytes = some h) : h.serialize = bytes := by
  rw [deserializeHeader] at hdecode
  split_ifs at hdecode with hlen
  have hlen' : bytes.length = 88 := not_not.mp hlen
  obtain rfl := Option.some.inj hdecode
  have hlast : (bytes.drop 80).take 8 = bytes.drop 80 := by
    apply List.take_of_length_le
    rw [List.length_drop]
    omega
  have hroom : ∀ {i n : ℕ}, i + n ≤ 88 → n ≤ (bytes.drop i).length := by
    intro i n hn
    rw [List.length_drop]
    omega
  have hindex : putU64 (Canonical.getU64 bytes) = bytes.take 8 := putU64_getU64 (by omega)
  simp only [BlockHeader.serialize]
  rw [hindex, putU64_getU64 (hroom (by decide)), toList_getArr (hroom (by decide)),
    toList_getArr (hroom (by decide)), putU64_getU64 (hroom (by decide)), hlast]
  simp only [List.append_assoc]
  rw [cut bytes 48 32, cut bytes 16 32, cut bytes 8 8]
  exact List.take_append_drop 8 bytes

theorem deserializeHeader_inverts :
    Inverts deserializeHeader BlockHeader.serialize (fun _ => True)
      (fun bytes => bytes.length = kHeaderSize) where
  decode_encode h _ := deserializeHeader_serialize h
  succeeds_iff bytes := by
    constructor
    · rintro ⟨h, hdecode⟩
      rw [deserializeHeader] at hdecode
      split_ifs at hdecode with hlen
      exact not_not.mp hlen
    · intro hlen
      rw [deserializeHeader, if_neg (not_not.mpr hlen)]
      exact ⟨_, rfl⟩
  encode_decode _ _ := serialize_of_deserializeHeader

/-! ### The signed payload -/

/-- The 89-byte layout under the signature. -/
def payloadCodec : FixedWidth (Byte × Address20 × Address20 × UInt64 × UInt64 × PubKey32) Byte :=
  (FixedWidth.symbol Byte).pair <| (FixedWidth.array Byte 20).pair <|
    (FixedWidth.array Byte 20).pair <| u64Codec.pair <| u64Codec.pair (FixedWidth.array Byte 32)

theorem signedPayload_eq (t : Txn) :
    signedPayload t = payloadCodec.encode (t.ver, t.from, t.to, t.amount, t.nonce, t.pubkey) := by
  have hsplit : t.serialize =
      payloadCodec.encode (t.ver, t.from, t.to, t.amount, t.nonce, t.pubkey) ++ t.sig.toList := by
    simp [Txn.serialize, payloadCodec, FixedWidth.pair, FixedWidth.symbol, FixedWidth.array,
      u64Codec]
  rw [signedPayload, hsplit]
  exact List.take_left' (payloadCodec.length_encode _)

theorem signedPayload_eq_iff (t u : Txn) :
    signedPayload t = signedPayload u ↔
      t.ver = u.ver ∧ t.from = u.from ∧ t.to = u.to ∧ t.amount = u.amount ∧ t.nonce = u.nonce ∧
        t.pubkey = u.pubkey := by
  rw [signedPayload_eq, signedPayload_eq, payloadCodec.injective.eq_iff]
  simp only [Prod.mk.injEq]

/-- The binary codec inverts itself in both directions on transactions and on headers,
no two transactions or lists of them share their bytes, and the payload leaves out the
signature alone. -/
theorem canonical_codec_bijective :
    Inverts deserializeTxn Txn.serialize (fun t => t.ver = 1)
        (fun bytes => bytes.length = 153 ∧ bytes.head? = some 1) ∧
      Inverts deserializeHeader BlockHeader.serialize (fun _ => True)
        (fun bytes => bytes.length = 88) ∧
      Function.Injective Txn.serialize ∧ Function.Injective txnBytes ∧
      ∀ t u : Txn, signedPayload t = signedPayload u ↔
        t.ver = u.ver ∧ t.from = u.from ∧ t.to = u.to ∧ t.amount = u.amount ∧
          t.nonce = u.nonce ∧ t.pubkey = u.pubkey :=
  ⟨deserializeTxn_inverts, deserializeHeader_inverts, Txn.serialize_injective, txnBytes_injective,
    signedPayload_eq_iff⟩

end TxChain
