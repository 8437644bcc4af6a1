import TxChain.Chain.Supply
import TxChain.Library.Binary64
import TxChain.Serialize.Json

/-!
# What a chain.jsonl line loses

The writer prints full 64-bit decimals. The parser hands a literal beyond the signed
range to the reader as the nearest double, which keeps 53 bits. So a line gives its
block back exactly when each of its integers is below `2 ^ 63` or a multiple of
`2 ^ 11`; the hex fields never lose anything.
-/

namespace TxChain

/-! ### Integer literals -/

/-- What the parser makes of an integer literal: an int64 if it fits, and otherwise
the nearest double. -/
def ReadsLiteral (n : ℕ) (v : Value) : Prop :=
  if n < 2 ^ 63 then v = .int64 n else ∃ d, v = .double d ∧ Binary64.Nearest n d

/-- The literals that come back as they were written. -/
def LosslessLiteral (n : ℕ) : Prop := n < 2 ^ 63 ∨ 2 ^ 11 ∣ n

/-- The reading of a number by `getU64`, once the key is found. -/
def readNumber : Value → Option UInt64
  | .int64 x => if x < 0 then none else some (UInt64.ofNat x.toNat)
  | .double d => if d < 0 then none else some (UInt64.ofNat ⌊d⌋₊)
  | _ => none

theorem getU64_eq (o : Fields) (key : String) :
    getU64 o key = (o.lookup key).bind readNumber := by
  rw [getU64]
  cases o.lookup key with
  | none => rfl
  | some v => cases v <;> rfl

/-- A word is read back exactly when its literal is lossless. -/
theorem readNumber_eq_iff {w : UInt64} {v : Value} (hv : ReadsLiteral w.toNat v) :
    readNumber v = some w ↔ LosslessLiteral w.toNat := by
  rw [ReadsLiteral] at hv
  split at hv
  next hsmall =>
    have hread : readNumber v = some w := by
      rw [hv]
      simp [readNumber]
    exact ⟨fun _ => .inl hsmall, fun _ => hread⟩
  next hlarge =>
    obtain ⟨d, rfl, hd⟩ := hv
    have hlow : 2 ^ 63 ≤ w.toNat := Nat.not_lt.mp hlarge
    obtain ⟨k, rfl⟩ := hd.multiple hlow
    have hcast : (k : ℚ) * 2 ^ 11 = ((k * 2 ^ 11 : ℕ) : ℚ) := by norm_cast
    have hnonneg : ¬(k : ℚ) * 2 ^ 11 < 0 := not_lt.mpr (by positivity)
    rw [readNumber, if_neg hnonneg, hcast, Nat.floor_natCast, Option.some.injEq,
      ← UInt64.toNat_inj, UInt64.toNat_ofNat', LosslessLiteral]
    constructor
    · intro h
      right
      omega
    · intro h
      have hdvd := h.resolve_left hlarge
      have hexact := hd.eq_of_isDouble ((Binary64.isDouble_word_iff hlow w.toNat_lt).mpr hdvd)
      have hvalue : k * 2 ^ 11 = w.toNat := by exact_mod_cast hexact
      rw [hvalue, Nat.mod_eq_of_lt w.toNat_lt]

/-- Every literal is read as some word. -/
theorem readNumber_isSome {n : ℕ} {v : Value} (hv : ReadsLiteral n v) :
    ∃ w, readNumber v = some w := by
  rw [ReadsLiteral] at hv
  split at hv
  next =>
    subst hv
    exact ⟨UInt64.ofNat n, by simp [readNumber]⟩
  next hlarge =>
    obtain ⟨d, rfl, hd⟩ := hv
    obtain ⟨k, rfl⟩ := hd.multiple (Nat.not_lt.mp hlarge)
    have hnonneg : ¬(k : ℚ) * 2 ^ 11 < 0 := not_lt.mpr (by positivity)
    rw [readNumber, if_neg hnonneg]
    exact ⟨_, rfl⟩

/-! ### Documents -/

section Documents

variable [Crypto]

/-- The object of a rendered transaction, with the numbers the parser made. -/
def txnFieldsWith (num : ℕ → Value) (t : Txn) : Fields :=
  [("ver", num t.ver.toNat), ("from", .string (toHex t.from.toList)),
   ("to", .string (toHex t.to.toList)), ("amount", num t.amount.toNat),
   ("nonce", num t.nonce.toNat), ("pubkey", .string (toHex t.pubkey.toList)),
   ("sig", .string (toHex t.sig.toList)), ("txid", .string (toHex (txid t).toList))]

def headerFieldsWith (num : ℕ → Value) (h : BlockHeader) : Fields :=
  [("index", num h.index.toNat), ("timestamp", num h.timestamp.toNat),
   ("prevHash", .string (toHex h.prevHash.toList)),
   ("txnsHash", .string (toHex h.txnsHash.toList)), ("nonce", num h.nonce.toNat)]

def documentWith (num : ℕ → Value) (b : Block) : Value :=
  .object
    [("header", .object (headerFieldsWith num b.header)),
     ("txns", .array (b.txns.map fun t => .object (txnFieldsWith num t))),
     ("blockHash", .string (toHex (blockHash b.header).toList))]

/-- The integers of a rendered block. -/
def Block.literals (b : Block) : List ℕ :=
  [b.header.index.toNat, b.header.timestamp.toNat, b.header.nonce.toNat] ++
    b.txns.flatMap fun t => [t.ver.toNat, t.amount.toNat, t.nonce.toNat]

/-- The parser reads a rendered block as its document, literal by literal. -/
def ParsesLiterally [Picojson] (b : Block) : Prop :=
  ∃ num : ℕ → Value, (∀ n ∈ b.literals, ReadsLiteral n (num n)) ∧
    Picojson.parse (toJsonLine b) = some (documentWith num b)

theorem genesisBlock_literals : ∀ n ∈ genesisBlock.literals, n < 2 ^ 63 := by
  have hliterals : genesisBlock.literals = [0, genesisTimestamp.toNat, 0] := rfl
  rw [hliterals]
  decide

variable {num : ℕ → Value} {b : Block} {t : Txn}

omit [Crypto] in
/-- A record read field by field is the given one exactly when both fields are. -/
theorem bind_bind_eq_some_iff {α β γ : Type} {x : Option α} {y : Option β} {mk : α → β → γ}
    (hmk : Function.Injective2 mk) {a : α} {c : β} :
    (x.bind fun a => y.bind fun c => some (mk a c)) = some (mk a c) ↔ x = some a ∧ y = some c := by
  constructor
  · intro hsome
    obtain ⟨a', ha, hrest⟩ := Option.bind_eq_some_iff.mp hsome
    obtain ⟨c', hc, heq⟩ := Option.bind_eq_some_iff.mp hrest
    obtain ⟨rfl, rfl⟩ := hmk (Option.some.inj heq)
    exact ⟨ha, hc⟩
  · rintro ⟨rfl, rfl⟩
    rfl

/-- Where all integers are small the parser has no choice. -/
theorem ParsesFaithfully.literally [Picojson] (h : ParsesFaithfully b)
    (hsmall : ∀ n ∈ b.literals, n < 2 ^ 63) : ParsesLiterally b := by
  refine ⟨fun n => .int64 n, fun n hn => ?_, h⟩
  rw [ReadsLiteral, if_pos (hsmall n hn)]

omit [Crypto] in
/-- Reading a header is reading its three numbers. -/
theorem readHeader_headerFieldsWith (h : BlockHeader) :
    readHeader (headerFieldsWith num h) =
      (readNumber (num h.index.toNat)).bind fun index =>
        (readNumber (num h.timestamp.toNat)).bind fun timestamp =>
          (readNumber (num h.nonce.toNat)).bind fun nonce =>
            some { h with index, timestamp, nonce } := by
  rw [readHeader, getU64_eq, getU64_eq, getU64_eq,
    getHex_string (headerFieldsWith num h) "prevHash" h.prevHash rfl,
    getHex_string (headerFieldsWith num h) "txnsHash" h.txnsHash rfl]
  rfl

omit [Crypto] in
theorem readHeader_eq_iff {h : BlockHeader}
    (hindex : ReadsLiteral h.index.toNat (num h.index.toNat))
    (htime : ReadsLiteral h.timestamp.toNat (num h.timestamp.toNat))
    (hnonce : ReadsLiteral h.nonce.toNat (num h.nonce.toNat)) :
    readHeader (headerFieldsWith num h) = some h ↔
      LosslessLiteral h.index.toNat ∧ LosslessLiteral h.timestamp.toNat ∧
        LosslessLiteral h.nonce.toNat := by
  rw [readHeader_headerFieldsWith, ← readNumber_eq_iff hindex, ← readNumber_eq_iff htime,
    ← readNumber_eq_iff hnonce]
  constructor
  · intro hsome
    obtain ⟨index, hi, hrest⟩ := Option.bind_eq_some_iff.mp hsome
    obtain ⟨timestamp, ht, hrest⟩ := Option.bind_eq_some_iff.mp hrest
    obtain ⟨nonce, hn, heq⟩ := Option.bind_eq_some_iff.mp hrest
    have hfields := Option.some.inj heq
    rw [hi, ht, hn, ← hfields]
    exact ⟨rfl, rfl, rfl⟩
  · rintro ⟨hi, ht, hn⟩
    rw [hi, ht, hn]
    rfl

/-- Reading the object of a version-1 transaction is reading its two other numbers. -/
theorem readTxn_txnFieldsWith (hver : t.ver = kTxnVersion)
    (hone : ReadsLiteral t.ver.toNat (num t.ver.toNat)) :
    readTxn (.object (txnFieldsWith num t)) =
      (readNumber (num t.amount.toNat)).bind fun amount =>
        (readNumber (num t.nonce.toNat)).bind fun nonce =>
          some { t with amount, nonce } := by
  have hgetVer : getU64 (txnFieldsWith num t) "ver" = some kTxnVersion.toUInt64 := by
    have hsmall : t.ver.toUInt64.toNat < 2 ^ 63 := by
      rw [hver]
      decide
    rw [← hver, getU64_eq]
    exact (readNumber_eq_iff (w := t.ver.toUInt64) hone).mpr (.inl hsmall)
  have hgetAmount : getU64 (txnFieldsWith num t) "amount" = readNumber (num t.amount.toNat) :=
    getU64_eq _ _
  have hgetNonce : getU64 (txnFieldsWith num t) "nonce" = readNumber (num t.nonce.toNat) :=
    getU64_eq _ _
  simp only [readTxn, Value.asObject, Option.bind_eq_bind, Option.bind_some, hgetVer, hgetAmount,
    hgetNonce,
    getHex_string (txnFieldsWith num t) "from" t.from rfl,
    getHex_string (txnFieldsWith num t) "to" t.to rfl,
    getHex_string (txnFieldsWith num t) "pubkey" t.pubkey rfl,
    getHex_string (txnFieldsWith num t) "sig" t.sig rfl]
  have hcast : kTxnVersion.toUInt64.toUInt8 = t.ver := hver.symm
  rw [hcast, guard, if_pos trivial]
  rfl

theorem readTxn_eq_iff (hver : t.ver = kTxnVersion)
    (hone : ReadsLiteral t.ver.toNat (num t.ver.toNat))
    (hamount : ReadsLiteral t.amount.toNat (num t.amount.toNat))
    (hnonce : ReadsLiteral t.nonce.toNat (num t.nonce.toNat)) :
    readTxn (.object (txnFieldsWith num t)) = some t ↔
      LosslessLiteral t.amount.toNat ∧ LosslessLiteral t.nonce.toNat := by
  have hmk : Function.Injective2 fun amount nonce => { t with amount, nonce } :=
    fun _ _ _ _ heq => ⟨congrArg Txn.amount heq, congrArg Txn.nonce heq⟩
  rw [readTxn_txnFieldsWith hver hone, ← readNumber_eq_iff hamount, ← readNumber_eq_iff hnonce]
  exact bind_bind_eq_some_iff hmk

omit [Crypto] in
/-- Reading a list element by element gives it back when each element comes back. -/
theorem mapM_map_eq_some_iff {α β : Type} {f : β → Option α} {g : α → β} {xs : List α} :
    (xs.map g).mapM f = some xs ↔ ∀ x ∈ xs, f (g x) = some x := by
  induction xs with
  | nil => simp
  | cons x xs ih =>
      rw [List.map_cons, List.mapM_cons, List.forall_mem_cons, ← ih]
      exact bind_bind_eq_some_iff fun _ _ _ _ heq => List.cons_eq_cons.mp heq

omit [Crypto] in
/-- What is read element by element comes from an element each. -/
theorem exists_of_mapM {α β : Type} {f : α → Option β} {xs : List α} {ys : List β}
    (h : xs.mapM f = some ys) : ∀ y ∈ ys, ∃ x ∈ xs, f x = some y := by
  induction xs generalizing ys with
  | nil =>
      obtain rfl := Option.some.inj h
      exact nofun
  | cons x xs ih =>
      rw [List.mapM_cons] at h
      obtain ⟨y, hy, hrest⟩ := Option.bind_eq_some_iff.mp h
      obtain ⟨ys, hys, heq⟩ := Option.bind_eq_some_iff.mp hrest
      obtain rfl := Option.some.inj heq
      refine List.forall_mem_cons.mpr ⟨⟨x, List.mem_cons_self, hy⟩, fun z hz => ?_⟩
      obtain ⟨w, hw, hread⟩ := ih hys z hz
      exact ⟨w, List.mem_cons_of_mem x hw, hread⟩

theorem readBlock_eq_iff (hver : ∀ t ∈ b.txns, t.ver = kTxnVersion)
    (hnum : ∀ n ∈ b.literals, ReadsLiteral n (num n)) :
    readBlock (documentWith num b) = some b ↔ ∀ n ∈ b.literals, LosslessLiteral n := by
  have htxn : ∀ t ∈ b.txns, ∀ n ∈ [t.ver.toNat, t.amount.toNat, t.nonce.toNat], n ∈ b.literals :=
    fun t ht n hn => List.mem_append_right _ (List.mem_flatMap.mpr ⟨t, ht, hn⟩)
  have hread : readBlock (documentWith num b) =
      (readHeader (headerFieldsWith num b.header)).bind fun header =>
        ((b.txns.map fun t => Value.object (txnFieldsWith num t)).mapM readTxn).bind fun txns =>
          some { header, txns } := rfl
  have hheader : readHeader (headerFieldsWith num b.header) = some b.header ↔ _ :=
    readHeader_eq_iff (hnum _ (by simp [Block.literals])) (hnum _ (by simp [Block.literals]))
      (hnum _ (by simp [Block.literals]))
  have htxns : (b.txns.map fun t => Value.object (txnFieldsWith num t)).mapM readTxn =
        some b.txns ↔
      ∀ t ∈ b.txns, LosslessLiteral t.amount.toNat ∧ LosslessLiteral t.nonce.toNat := by
    rw [mapM_map_eq_some_iff]
    refine forall₂_congr fun t ht => readTxn_eq_iff (hver t ht) ?_ ?_ ?_
    all_goals
      apply hnum
      apply htxn t ht
      simp
  have hone : ∀ t ∈ b.txns, LosslessLiteral t.ver.toNat := by
    intro t ht
    rw [hver t ht]
    exact .inl (by decide)
  have hliterals : (∀ n ∈ b.literals, LosslessLiteral n) ↔
      (LosslessLiteral b.header.index.toNat ∧ LosslessLiteral b.header.timestamp.toNat ∧
        LosslessLiteral b.header.nonce.toNat) ∧
      ∀ t ∈ b.txns, LosslessLiteral t.amount.toNat ∧ LosslessLiteral t.nonce.toNat := by
    simp only [Block.literals, List.forall_mem_append, List.forall_mem_cons, List.mem_flatMap,
      List.not_mem_nil, false_implies, implies_true, and_true, forall_exists_index, and_imp]
    constructor
    · rintro ⟨hhead, hall⟩
      exact ⟨hhead, fun t ht => ⟨hall _ t ht (by simp), hall _ t ht (by simp)⟩⟩
    · rintro ⟨hhead, hall⟩
      refine ⟨hhead, fun n t ht hn => ?_⟩
      simp only [List.mem_cons, List.not_mem_nil, or_false] at hn
      rcases hn with rfl | rfl | rfl
      · exact hone t ht
      · exact (hall t ht).1
      · exact (hall t ht).2
  have hmk : Function.Injective2 Block.mk :=
    fun _ _ _ _ heq => ⟨congrArg Block.header heq, congrArg Block.txns heq⟩
  rw [hliterals, hread, ← hheader, ← htxns]
  exact bind_bind_eq_some_iff hmk

/-- What the file format can carry is read back. -/
theorem ParsesLiterally.readable [Picojson] (hparse : ParsesLiterally b)
    (hver : ∀ t ∈ b.txns, t.ver = kTxnVersion) (hlossless : ∀ n ∈ b.literals, LosslessLiteral n) :
    fromJsonLine (toJsonLine b) = some b := by
  obtain ⟨num, hnum, hline⟩ := hparse
  rw [fromJsonLine, hline]
  exact (readBlock_eq_iff hver hnum).mpr hlossless

/-- A rendered block of version-1 transactions reads back as itself exactly when all
its integers are lossless. -/
theorem line_lossless_iff [Picojson] (hver : ∀ t ∈ b.txns, t.ver = kTxnVersion)
    (hparse : ParsesLiterally b) :
    fromJsonLine (toJsonLine b) = some b ↔ ∀ n ∈ b.literals, LosslessLiteral n := by
  obtain ⟨num, hnum, hline⟩ := hparse
  rw [fromJsonLine, hline]
  exact readBlock_eq_iff hver hnum

end Documents

section Samples

attribute [local instance] sampleKeys

/-- An empty block with a nonce of the caller's choice. -/
def nonceBlock (nonce : UInt64) : Block :=
  { header := { index := 1, timestamp := genesisTimestamp + 1, nonce }, txns := [] }

/-- The numbers of that block, its nonce read as a double. -/
def nonceNumbers (nonce : UInt64) (d : ℚ) (n : ℕ) : Value :=
  if n = nonce.toNat then .double d else .int64 n

/-- A parser that knows the line of that block. -/
abbrev nonceParser (nonce : UInt64) (d : ℚ) : Picojson :=
  .ofOption fun line => if line = toJsonLine (nonceBlock nonce) then
    some (documentWith (nonceNumbers nonce d) (nonceBlock nonce)) else none

theorem nonceParser_literally {nonce : UInt64} {d : ℚ} (hlarge : 2 ^ 63 ≤ nonce.toNat)
    (hd : Binary64.Nearest nonce.toNat d) :
    letI := nonceParser nonce d
    ParsesLiterally (nonceBlock nonce) := by
  refine ⟨nonceNumbers nonce d, ?_, (Picojson.parse_ofOption _ _).trans (if_pos rfl)⟩
  have hint : ∀ n < 2 ^ 63, ReadsLiteral n (nonceNumbers nonce d n) := by
    intro n hn
    rw [ReadsLiteral, if_pos hn, nonceNumbers, if_neg (by omega)]
  intro n hn
  simp only [Block.literals, nonceBlock, List.flatMap_nil, List.append_nil, List.mem_cons,
    List.not_mem_nil, or_false] at hn
  rcases hn with rfl | rfl | rfl
  · exact hint _ (by decide)
  · exact hint _ (by decide)
  · rw [ReadsLiteral, if_neg (Nat.not_lt.mpr hlarge), nonceNumbers, if_pos rfl]
    exact ⟨d, rfl, hd⟩

/-- The double next to both sample nonces. -/
theorem nearest_sample {n : ℕ} (hlow : 2 ^ 63 ≤ n) (hclose : n ≤ 2 ^ 63 + 2 ^ 10) :
    Binary64.Nearest n (2 ^ 63) := by
  have hpow : (2 : ℚ) ^ 63 = (2 ^ 52 : ℕ) * 2 ^ 11 := by norm_num
  have hlow' : (2 : ℚ) ^ 63 ≤ n := by exact_mod_cast hlow
  have hclose' : (n : ℚ) ≤ 2 ^ 63 + 2 ^ 10 := by exact_mod_cast hclose
  have hdouble : Binary64.IsDouble ((2 ^ 52 : ℕ) * 2 ^ 11) := Binary64.isDouble_mul (by norm_num)
  rw [hpow] at hlow' hclose' ⊢
  apply Binary64.nearest_of_close hlow hdouble
  rw [abs_of_nonneg (by linarith)]
  linarith

/-- A block whose nonce is one above `2 ^ 63` is read back as another one. -/
theorem large_nonce_lost :
    letI := nonceParser 9223372036854775809 (2 ^ 63)
    ParsesLiterally (nonceBlock 9223372036854775809) ∧
      fromJsonLine (toJsonLine (nonceBlock 9223372036854775809)) ≠
        some (nonceBlock 9223372036854775809) := by
  let := nonceParser 9223372036854775809 (2 ^ 63)
  have hparse : ParsesLiterally (nonceBlock 9223372036854775809) :=
    nonceParser_literally (by decide) (nearest_sample (by decide) (by decide))
  refine ⟨hparse, fun hsame => ?_⟩
  obtain ⟨num, hnum, hline⟩ := hparse
  rw [fromJsonLine, hline] at hsame
  have hlossless := (readBlock_eq_iff (by simp [nonceBlock]) hnum).mp hsame 9223372036854775809
    (by simp [Block.literals, nonceBlock])
  revert hlossless
  rw [LosslessLiteral]
  decide

/-- A nonce of exactly `2 ^ 63` survives, though it is read as a double. -/
theorem power_nonce_kept :
    letI := nonceParser 9223372036854775808 (2 ^ 63)
    fromJsonLine (toJsonLine (nonceBlock 9223372036854775808)) =
      some (nonceBlock 9223372036854775808) := by
  let := nonceParser 9223372036854775808 (2 ^ 63)
  have hparse : ParsesLiterally (nonceBlock 9223372036854775808) :=
    nonceParser_literally (by decide) (nearest_sample (by decide) (by decide))
  refine (line_lossless_iff (by simp [nonceBlock]) hparse).mpr ?_
  intro n hn
  simp only [Block.literals, nonceBlock, List.flatMap_nil, List.append_nil, List.mem_cons,
    List.not_mem_nil, or_false] at hn
  rcases hn with rfl | rfl | rfl
  · exact .inl (by decide)
  · exact .inl (by decide)
  · exact .inr (by decide)

end Samples

end TxChain
