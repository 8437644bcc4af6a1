import TxChain.Serialize.Canonical
import TxChain.Crypto.HashUtil

/-!
# The chain.jsonl line

`toJsonLine` renders a block as one line of JSON, with byte arrays in hex and two
display-only digests. `fromJsonLine` reads a parsed document back and rebuilds the
block. The parser itself is vendored and stands here as a parameter; `document`
is the value it has to produce for a rendered block.
-/

namespace TxChain

abbrev Text := List Char

/-- A parsed JSON value. Integers that fit 64 signed bits stay integers, other
numbers become doubles. -/
inductive Value where
  | null
  | bool (b : Bool)
  | int64 (x : ℤ)
  | double (d : ℚ)
  | string (s : Text)
  | array (xs : List Value)
  | object (fields : List (String × Value))

abbrev Fields := List (String × Value)

/-- How a parse fails: with an error message, or with an exception that no caller catches. -/
inductive ParseFault where
  | refused
  | threw
  deriving DecidableEq

/-- `picojson::parse`. -/
class Picojson where
  outcome : Text → Except ParseFault Value

/-- The value that a text is read as. Where the parser throws there is none either: the process
that called it ends there, and leaves its files as a refusal does. -/
def Picojson.parse [Picojson] (s : Text) : Option Value := (outcome s).toOption

/-- A parser that refuses every text it has no value for. -/
abbrev Picojson.ofOption (value : Text → Option Value) : Picojson where
  outcome s := (value s).elim (.error .refused) .ok

theorem Picojson.parse_ofOption (value : Text → Option Value) (s : Text) :
    letI := Picojson.ofOption value
    Picojson.parse s = value s := by
  change ((value s).elim (Except.error ParseFault.refused) Except.ok).toOption = value s
  cases value s <;> rfl

/-! ### Writing -/

/-- `std::to_string`. -/
def decimal (n : ℕ) : Text := Nat.toDigits 10 n

section Writer

variable [Crypto]

def txnToJson (t : Txn) : Text :=
  "\x7b".toList ++
  ("\"ver\":".toList ++ decimal t.ver.toNat ++ ",".toList) ++
  ("\"from\":\"".toList ++ toHex t.from.toList ++ "\",".toList) ++
  ("\"to\":\"".toList ++ toHex t.to.toList ++ "\",".toList) ++
  ("\"amount\":".toList ++ decimal t.amount.toNat ++ ",".toList) ++
  ("\"nonce\":".toList ++ decimal t.nonce.toNat ++ ",".toList) ++
  ("\"pubkey\":\"".toList ++ toHex t.pubkey.toList ++ "\",".toList) ++
  ("\"sig\":\"".toList ++ toHex t.sig.toList ++ "\",".toList) ++
  ("\"txid\":\"".toList ++ toHex (txid t).toList ++ "\"\x7d".toList)

def toJsonLine (b : Block) : Text :=
  "\x7b\"header\":\x7b".toList ++
  ("\"index\":".toList ++ decimal b.header.index.toNat ++ ",".toList) ++
  ("\"timestamp\":".toList ++ decimal b.header.timestamp.toNat ++ ",".toList) ++
  ("\"prevHash\":\"".toList ++ toHex b.header.prevHash.toList ++ "\",".toList) ++
  ("\"txnsHash\":\"".toList ++ toHex b.header.txnsHash.toList ++ "\",".toList) ++
  ("\"nonce\":".toList ++ decimal b.header.nonce.toNat ++ "\x7d,".toList) ++
  "\"txns\":[".toList ++ ",".toList.intercalate (b.txns.map txnToJson) ++ "],".toList ++
  ("\"blockHash\":\"".toList ++ toHex (blockHash b.header).toList ++ "\"\x7d".toList)

/-- The object a rendered transaction stands for. -/
def txnFields (t : Txn) : Fields :=
  [("ver", .int64 t.ver.toNat), ("from", .string (toHex t.from.toList)),
   ("to", .string (toHex t.to.toList)), ("amount", .int64 t.amount.toNat),
   ("nonce", .int64 t.nonce.toNat), ("pubkey", .string (toHex t.pubkey.toList)),
   ("sig", .string (toHex t.sig.toList)), ("txid", .string (toHex (txid t).toList))]

def headerFields (h : BlockHeader) : Fields :=
  [("index", .int64 h.index.toNat), ("timestamp", .int64 h.timestamp.toNat),
   ("prevHash", .string (toHex h.prevHash.toList)),
   ("txnsHash", .string (toHex h.txnsHash.toList)), ("nonce", .int64 h.nonce.toNat)]

/-- The document a rendered block stands for, as long as its integers fit. -/
def document (b : Block) : Value :=
  .object
    [("header", .object (headerFields b.header)),
     ("txns", .array (b.txns.map fun t => .object (txnFields t))),
     ("blockHash", .string (toHex (blockHash b.header).toList))]

end Writer

/-! ### Reading -/

def Value.asObject : Value → Option Fields
  | .object fields => some fields
  | _ => none

def Value.asArray : Value → Option (List Value)
  | .array xs => some xs
  | _ => none

/-- A non-negative number in integer or double form. -/
def getU64 (o : Fields) (key : String) : Option UInt64 :=
  match o.lookup key with
  | some (.int64 x) => if x < 0 then none else some (UInt64.ofNat x.toNat)
  | some (.double d) => if d < 0 then none else some (UInt64.ofNat ⌊d⌋₊)
  | _ => none

/-- A hex field of exactly the right width. -/
def getHex (n : ℕ) (o : Fields) (key : String) : Option (Vector Byte n) :=
  match o.lookup key with
  | some (.string s) => fromHex n s
  | _ => none

def readHeader (hobj : Fields) : Option BlockHeader := do
  let index ← getU64 hobj "index"
  let timestamp ← getU64 hobj "timestamp"
  let prevHash ← getHex 32 hobj "prevHash"
  let txnsHash ← getHex 32 hobj "txnsHash"
  let nonce ← getU64 hobj "nonce"
  return { index, timestamp, prevHash, txnsHash, nonce }

/-- The loader accepts version 1 only. -/
def readTxn (tv : Value) : Option Txn := do
  let o ← tv.asObject
  let ver ← getU64 o "ver"
  guard (ver = kTxnVersion.toUInt64)
  let sender ← getHex 20 o "from"
  let receiver ← getHex 20 o "to"
  let amount ← getU64 o "amount"
  let nonce ← getU64 o "nonce"
  let pubkey ← getHex 32 o "pubkey"
  let sig ← getHex 64 o "sig"
  return { ver := ver.toUInt8, «from» := sender, «to» := receiver, amount, nonce, pubkey, sig }

def readBlock (v : Value) : Option Block := do
  let root ← v.asObject
  let hobj ← (← root.lookup "header").asObject
  let header ← readHeader hobj
  let txns ← (← root.lookup "txns").asArray
  return { header, txns := ← txns.mapM readTxn }

def fromJsonLine [Picojson] (line : Text) : Option Block := (Picojson.parse line).bind readBlock

/-! ### The round trip -/

/-- The parser reads a rendered block as the document it stands for. -/
def ParsesFaithfully [Crypto] [Picojson] (b : Block) : Prop :=
  Picojson.parse (toJsonLine b) = some (document b)

/-- A line cut short is no document. -/
def TearsShow [Crypto] [Picojson] (b : Block) : Prop :=
  ∀ m, 0 < m → m < (toJsonLine b).length → Picojson.parse ((toJsonLine b).take m) = none

/-- Every integer of the block fits the parser's signed integers. -/
structure Block.InRange (b : Block) : Prop where
  index : b.header.index.toNat < 2 ^ 63
  timestamp : b.header.timestamp.toNat < 2 ^ 63
  nonce : b.header.nonce.toNat < 2 ^ 63
  txns : ∀ t ∈ b.txns, t.amount.toNat < 2 ^ 63 ∧ t.nonce.toNat < 2 ^ 63

private theorem getU64_int64 (o : Fields) (key : String) (v : UInt64)
    (h : o.lookup key = some (.int64 v.toNat)) : getU64 o key = some v := by
  rw [getU64, h]
  simp

theorem getHex_string {n : ℕ} (o : Fields) (key : String) (a : Vector Byte n)
    (h : o.lookup key = some (.string (toHex a.toList))) : getHex n o key = some a := by
  rw [getHex, h]
  exact fromHex_toHex a

section RoundTrip

variable [Crypto]

theorem readTxn_txnFields (t : Txn) (h : t.ver = kTxnVersion) :
    readTxn (.object (txnFields t)) = some t := by
  have hver : getU64 (txnFields t) "ver" = some t.ver.toUInt64 :=
    getU64_int64 (txnFields t) "ver" t.ver.toUInt64 rfl
  simp only [readTxn, Value.asObject, Option.bind_eq_bind, Option.bind_some, hver, h,
    getHex_string (txnFields t) "from" t.from rfl, getHex_string (txnFields t) "to" t.to rfl,
    getU64_int64 (txnFields t) "amount" t.amount rfl,
    getU64_int64 (txnFields t) "nonce" t.nonce rfl,
    getHex_string (txnFields t) "pubkey" t.pubkey rfl, getHex_string (txnFields t) "sig" t.sig rfl]
  cases t
  cases h
  rfl

theorem mapM_readTxn (txns : List Txn) (h : ∀ t ∈ txns, t.ver = kTxnVersion) :
    (txns.map fun t => Value.object (txnFields t)).mapM readTxn = some txns := by
  induction txns with
  | nil => rfl
  | cons t rest ih =>
      obtain ⟨ht, hrest⟩ := List.forall_mem_cons.mp h
      rw [List.map_cons, List.mapM_cons, readTxn_txnFields t ht, ih hrest]
      rfl

omit [Crypto] in
theorem readHeader_headerFields (h : BlockHeader) : readHeader (headerFields h) = some h := by
  rw [readHeader, getU64_int64 (headerFields h) "index" h.index rfl,
    getU64_int64 (headerFields h) "timestamp" h.timestamp rfl,
    getHex_string (headerFields h) "prevHash" h.prevHash rfl,
    getHex_string (headerFields h) "txnsHash" h.txnsHash rfl,
    getU64_int64 (headerFields h) "nonce" h.nonce rfl]
  rfl

theorem readBlock_document (b : Block) (h : ∀ t ∈ b.txns, t.ver = kTxnVersion) :
    readBlock (document b) = some b := by
  have hlines := mapM_readTxn b.txns h
  have hheader := readHeader_headerFields b.header
  change (readHeader (headerFields b.header)).bind (fun header =>
    ((b.txns.map fun t => Value.object (txnFields t)).mapM readTxn).bind fun txns =>
      some { header, txns }) = some b
  rw [hheader, hlines]
  rfl

/-- A line whose document is the rendered block reads back as the block. -/
theorem fromJsonLine_toJsonLine [Picojson] {b : Block} (hparse : ParsesFaithfully b)
    (hver : ∀ t ∈ b.txns, t.ver = kTxnVersion) : fromJsonLine (toJsonLine b) = some b := by
  rw [fromJsonLine, hparse]
  exact readBlock_document b hver

end RoundTrip

/-! ### One line -/

private theorem newline_not_mem_decimal (n : ℕ) : '\n' ∉ decimal n := by
  intro h
  exact absurd (Nat.isDigit_of_mem_toDigits (by decide) (by decide) h) (by decide)

private theorem newline_not_mem_toHex (bytes : List Byte) : '\n' ∉ toHex bytes := by
  intro h
  exact absurd (mem_toHex h) (by decide)

private theorem newline_not_mem_intercalate {sep : Text} (hsep : '\n' ∉ sep) (lines : List Text)
    (h : ∀ x ∈ lines, '\n' ∉ x) : '\n' ∉ sep.intercalate lines := by
  induction lines with
  | nil => simp
  | cons x lines ih =>
      obtain ⟨hx, hlines⟩ := List.forall_mem_cons.mp h
      by_cases hnil : lines = []
      · subst hnil
        simpa using hx
      · rw [List.intercalate_cons_of_ne_nil hnil, List.mem_append, List.mem_append, not_or, not_or]
        exact ⟨⟨hx, hsep⟩, ih hlines⟩

section OneLine

variable [Crypto]

private theorem newline_not_mem_txnToJson (t : Txn) : '\n' ∉ txnToJson t := by
  unfold txnToJson
  simp only [List.mem_append, not_or, newline_not_mem_decimal, newline_not_mem_toHex,
    not_false_eq_true, and_true]
  decide

theorem newline_not_mem_toJsonLine (b : Block) : '\n' ∉ toJsonLine b := by
  have htxns : '\n' ∉ ",".toList.intercalate (b.txns.map txnToJson) := by
    have hcomma : '\n' ∉ ",".toList := by decide
    refine newline_not_mem_intercalate hcomma _ fun x hx => ?_
    obtain ⟨t, -, rfl⟩ := List.mem_map.mp hx
    exact newline_not_mem_txnToJson t
  unfold toJsonLine
  simp only [List.mem_append, not_or, newline_not_mem_decimal, newline_not_mem_toHex, htxns,
    not_false_eq_true, and_true]
  decide

theorem toJsonLine_ne_nil (b : Block) : toJsonLine b ≠ [] := by
  intro h
  have hlast := (List.append_eq_nil_iff.mp h).2
  exact absurd (List.append_eq_nil_iff.mp hlast).2 (by decide)

/-- A parser that knows the rendered lines of these blocks and nothing else. -/
abbrev parserOf (blocks : List Block) : Picojson :=
  .ofOption fun line => (blocks.find? fun b => toJsonLine b = line).map document

theorem parserOf_pair {b₀ b₁ : Block} (hne : toJsonLine b₀ ≠ toJsonLine b₁) :
    letI := parserOf [b₀, b₁]
    ∀ b ∈ [b₀, b₁], ParsesFaithfully b := by
  intro b hb
  refine (Picojson.parse_ofOption _ _).trans ?_
  rcases List.mem_pair.mp hb with rfl | rfl <;>
    simp only [List.find?_cons, hne, decide_true, decide_false, Option.map_some]

/-- A rendered line begins with the index of its block. -/
theorem toJsonLine_index (b : Block) :
    "\x7b\"header\":\x7b".toList ++
      ("\"index\":".toList ++ decimal b.header.index.toNat ++ ",".toList) <+: toJsonLine b := by
  unfold toJsonLine
  iterate 7 apply List.IsPrefix.trans _ (List.prefix_append _ _)
  exact List.prefix_append _ _

/-- The lines of blocks zero and one are not the beginnings of one text. -/
theorem toJsonLine_apart {b b' : Block} (h : b.header.index = 0) (h' : b'.header.index = 1)
    {text : Text} (hb : toJsonLine b <+: text) : ¬toJsonLine b' <+: text := by
  intro hb'
  have hzero := (toJsonLine_index b).trans hb
  have hone := (toJsonLine_index b').trans hb'
  rw [h] at hzero
  rw [h'] at hone
  have hsame := (List.prefix_of_prefix_length_le hzero hone (by decide)).eq_of_length (by decide)
  exact absurd hsame (by decide)

theorem toJsonLine_ne_of_index {b b' : Block} (h : b.header.index = 0) (h' : b'.header.index = 1) :
    toJsonLine b ≠ toJsonLine b' := by
  intro heq
  have hself : toJsonLine b' <+: toJsonLine b := by rw [heq]
  exact toJsonLine_apart h h' List.prefix_rfl hself

end OneLine

end TxChain
