import TxChain.Json.RoundTrip
import TxChain.Serialize.Lossless

/-!
# The parser on lines of chain.jsonl

A rendered block is a written document, so what the loaders are promised of their parser
holds of the vendored one.
-/

namespace TxChain

open Json

section Lines

variable [Crypto]

def txnWritten (t : Txn) : Written :=
  .object
    [("ver", .number (.ofNat t.ver.toNat)), ("from", .string (toHex t.from.toList)),
     ("to", .string (toHex t.to.toList)), ("amount", .number (.ofNat t.amount.toNat)),
     ("nonce", .number (.ofNat t.nonce.toNat)), ("pubkey", .string (toHex t.pubkey.toList)),
     ("sig", .string (toHex t.sig.toList)), ("txid", .string (toHex (txid t).toList))]

def headerWritten (h : BlockHeader) : Written :=
  .object
    [("index", .number (.ofNat h.index.toNat)), ("timestamp", .number (.ofNat h.timestamp.toNat)),
     ("prevHash", .string (toHex h.prevHash.toList)),
     ("txnsHash", .string (toHex h.txnsHash.toList)), ("nonce", .number (.ofNat h.nonce.toNat))]

/-- The document that the line of a block spells. -/
def Block.written (b : Block) : Written :=
  .object
    [("header", headerWritten b.header), ("txns", .array (b.txns.map txnWritten)),
     ("blockHash", .string (toHex (blockHash b.header).toList))]

theorem txnToJson_eq (t : Txn) : txnToJson t = (txnWritten t).render := by
  rw [txnWritten, Written.render_object]
  simp only [txnToJson, List.map_cons, List.map_nil, fieldText, memberText, Written.render,
    NumberLiteral.text_ofNat]
  simp only [String.reduceToList, List.cons_append, List.nil_append, List.append_assoc,
    List.intercalate_cons_cons, List.intercalate_singleton]

omit [Crypto] in
theorem render_headerWritten (h : BlockHeader) :
    (headerWritten h).render =
      "\x7b".toList ++
      ("\"index\":".toList ++ decimal h.index.toNat ++ ",".toList) ++
      ("\"timestamp\":".toList ++ decimal h.timestamp.toNat ++ ",".toList) ++
      ("\"prevHash\":\"".toList ++ toHex h.prevHash.toList ++ "\",".toList) ++
      ("\"txnsHash\":\"".toList ++ toHex h.txnsHash.toList ++ "\",".toList) ++
      ("\"nonce\":".toList ++ decimal h.nonce.toNat ++ "\x7d".toList) := by
  rw [headerWritten, Written.render_object]
  simp only [List.map_cons, List.map_nil, fieldText, memberText, Written.render,
    NumberLiteral.text_ofNat]
  simp only [String.reduceToList, List.cons_append, List.nil_append, List.append_assoc,
    List.intercalate_cons_cons, List.intercalate_singleton]

theorem toJsonLine_eq (b : Block) : toJsonLine b = b.written.render := by
  have htxns : b.txns.map txnToJson = (b.txns.map txnWritten).map Written.render := by
    rw [List.map_map]
    exact List.map_congr_left fun t _ => txnToJson_eq t
  rw [Block.written, Written.render_object]
  simp only [List.map_cons, List.map_nil, fieldText, memberText, render_headerWritten,
    Written.render_array]
  simp only [Written.render]
  unfold toJsonLine
  rw [htxns]
  generalize decimal b.header.index.toNat = index
  generalize decimal b.header.timestamp.toNat = timestamp
  generalize decimal b.header.nonce.toNat = nonce
  generalize toHex b.header.prevHash.toList = prevHash
  generalize toHex b.header.txnsHash.toList = txnsHash
  generalize toHex (blockHash b.header).toList = hash
  generalize (b.txns.map txnWritten).map Written.render = txns
  simp only [String.reduceToList, List.cons_append, List.nil_append, List.append_assoc,
    List.intercalate_cons_cons, List.intercalate_singleton]

/-- The parser's number for each literal. -/
theorem toValue_written (b : Block) :
    b.written.toValue = documentWith (fun n => (NumberLiteral.ofNat n).toValue) b := by
  have htxn : ∀ t : Txn, (txnWritten t).toValue =
      .object (txnFieldsWith (fun n => (NumberLiteral.ofNat n).toValue) t) := by
    intro t
    rw [txnWritten, Written.toValue, fieldValues_eq]
    rfl
  rw [Block.written, Written.toValue, fieldValues_eq, documentWith]
  simp only [List.map_cons, List.map_nil, Written.toValue, itemValues_eq, headerWritten,
    fieldValues_eq, List.map_map]
  simp only [Function.comp_def, htxn]
  rfl

/-! ### The parser takes every line -/

theorem txnWritten_within {depths : ℕ} (t : Txn) :
    Written.Within NumberLiteral.Short (depths + 1) (txnWritten t) := by
  have hver : t.ver.toNat < 2 ^ 64 := t.ver.toNat_lt.trans (by norm_num)
  have hkeys : KeysFit ["ver", "from", "to", "amount", "nonce", "pubkey", "sig", "txid"] := by
    simp [KeysFit, Bare]
  refine .object hkeys ?_
  simp only [List.forall_mem_cons]
  exact ⟨number_within hver, hex_within _, hex_within _, word_within _, word_within _, hex_within _,
    hex_within _, hex_within _, by simp⟩

omit [Crypto] in
theorem headerWritten_within {depths : ℕ} (h : BlockHeader) :
    Written.Within NumberLiteral.Short (depths + 1) (headerWritten h) := by
  have hkeys : KeysFit ["index", "timestamp", "prevHash", "txnsHash", "nonce"] := by
    simp [KeysFit, Bare]
  refine .object hkeys ?_
  simp only [List.forall_mem_cons]
  exact ⟨word_within _, word_within _, hex_within _, hex_within _, word_within _, by simp⟩

theorem Block.written_within {depths : ℕ} (b : Block) :
    Written.Within NumberLiteral.Short (depths + 2) b.written := by
  have hkeys : KeysFit ["header", "txns", "blockHash"] := by simp [KeysFit, Bare]
  refine .object hkeys ?_
  simp only [List.forall_mem_cons]
  refine ⟨headerWritten_within _, .array fun w hw => ?_, hex_within _, by simp⟩
  obtain ⟨t, -, rfl⟩ := List.mem_map.mp hw
  exact txnWritten_within t

/-- A line is read as its block's document, whatever follows it. -/
theorem parse_toJsonLine (b : Block) (rest : Text) :
    parse (toJsonLine b ++ rest) =
      .ok (documentWith (fun n => (NumberLiteral.ofNat n).toValue) b, rest) := by
  rw [toJsonLine_eq, ← toValue_written]
  exact parse_render (b.written_within.mono fun _ hl => hl.readable) _ (fun _ h => by cases h)

omit [Crypto] in
theorem readsLiteral_toValue {n : ℕ} (hn : n < 2 ^ 64) :
    ReadsLiteral n (NumberLiteral.ofNat n).toValue := by
  have hvalue : (NumberLiteral.ofNat n).whole.value = n := Numeral.Literal.value_ofInt n
  rw [ReadsLiteral]
  obtain ⟨-, hfits, hint⟩ | ⟨hlarge, d, hdouble, hnearest⟩ :=
    NumberLiteral.toValue_readAs (NumberLiteral.short_ofNat hn).readable
  · rw [hvalue] at hfits hint
    have hsmall : n < 2 ^ 63 := by exact_mod_cast hfits.2
    rw [if_pos hsmall, hint]
  · have hnot : ¬n < 2 ^ 63 := by
      intro hsmall
      refine hlarge ⟨⟨rfl, rfl⟩, ?_⟩
      rw [hvalue, Scan.Fits]
      omega
    have hexact : (NumberLiteral.ofNat n).value = n := by
      rw [NumberLiteral.Plain.value_eq ⟨rfl, rfl⟩, hvalue, Int.cast_natCast]
    rw [hexact] at hnearest
    rw [if_neg hnot]
    exact ⟨d, hdouble, hnearest⟩

omit [Crypto] in
theorem Block.literals_lt (b : Block) : ∀ n ∈ b.literals, n < 2 ^ 64 := by
  intro n hn
  rw [Block.literals, List.mem_append, List.mem_flatMap] at hn
  obtain hhead | ⟨t, -, htxn⟩ := hn
  · simp only [List.mem_cons, List.not_mem_nil, or_false] at hhead
    obtain rfl | rfl | rfl := hhead
    · exact UInt64.toNat_lt _
    · exact UInt64.toNat_lt _
    · exact UInt64.toNat_lt _
  · simp only [List.mem_cons, List.not_mem_nil, or_false] at htxn
    obtain rfl | rfl | rfl := htxn
    · exact t.ver.toNat_lt.trans (by norm_num)
    · exact t.amount.toNat_lt
    · exact t.nonce.toNat_lt

/-! ### What the loaders are promised -/

attribute [local instance] picojson

/-- Every integer is read as itself or as its nearest double. -/
theorem picojson_parsesLiterally (b : Block) : ParsesLiterally b := by
  refine ⟨fun n => (NumberLiteral.ofNat n).toValue,
    fun n hn => readsLiteral_toValue (b.literals_lt n hn), ?_⟩
  have hparse := parse_toJsonLine b []
  rw [List.append_nil] at hparse
  rw [parse_picojson, hparse]
  rfl

theorem documentWith_congr {num : ℕ → Value} (num' : ℕ → Value) {b : Block}
    (h : ∀ n ∈ b.literals, num n = num' n) : documentWith num b = documentWith num' b := by
  simp only [Block.literals, List.forall_mem_append, List.forall_mem_cons, List.mem_flatMap] at h
  obtain ⟨⟨hindex, htime, hnonce, -⟩, htxns⟩ := h
  have htxn : ∀ t ∈ b.txns, txnFieldsWith num t = txnFieldsWith num' t := by
    intro t ht
    rw [txnFieldsWith, txnFieldsWith, htxns _ ⟨t, ht, by simp⟩, htxns _ ⟨t, ht, by simp⟩,
      htxns _ ⟨t, ht, by simp⟩]
  have htxns' : (b.txns.map fun t => Value.object (txnFieldsWith num t)) =
      b.txns.map fun t => Value.object (txnFieldsWith num' t) :=
    List.map_congr_left fun t ht => congrArg Value.object (htxn t ht)
  rw [documentWith, documentWith, headerFieldsWith, headerFieldsWith, hindex, htime, hnonce, htxns']

omit [Crypto] in
theorem Block.InRange.literals {b : Block} (h : b.InRange) : ∀ n ∈ b.literals, n < 2 ^ 63 := by
  intro n hn
  rw [Block.literals, List.mem_append, List.mem_flatMap] at hn
  obtain hhead | ⟨t, ht, htxn⟩ := hn
  · simp only [List.mem_cons, List.not_mem_nil, or_false] at hhead
    obtain rfl | rfl | rfl := hhead
    · exact h.index
    · exact h.timestamp
    · exact h.nonce
  · simp only [List.mem_cons, List.not_mem_nil, or_false] at htxn
    obtain rfl | rfl | rfl := htxn
    · exact t.ver.toNat_lt.trans (by norm_num)
    · exact (h.txns t ht).1
    · exact (h.txns t ht).2

/-- Integers of 63 bits are read as integers. -/
theorem picojson_parsesFaithfully {b : Block} (h : b.InRange) : ParsesFaithfully b := by
  have hparse := parse_toJsonLine b []
  rw [List.append_nil] at hparse
  have hint : documentWith (fun n => (NumberLiteral.ofNat n).toValue) b = document b := by
    refine documentWith_congr (fun n => .int64 n) fun n hn => ?_
    have hread := readsLiteral_toValue (b.literals_lt n hn)
    rwa [ReadsLiteral, if_pos (h.literals n hn)] at hread
  rw [ParsesFaithfully, parse_picojson, hparse, hint]
  rfl

/-- A line that is cut short is no document. -/
theorem picojson_tearsShow (b : Block) : TearsShow b := by
  intro m hpos hm
  have htorn : parse ((toJsonLine b).take m ++ []) = .error .refused := by
    rw [toJsonLine_eq] at hm ⊢
    refine parse_torn b.written_within apart_nil (List.take_prefix m _) ?_ fun hwhole => ?_
    · exact List.ne_nil_of_length_pos (by rw [List.length_take]; omega)
    · have hlen := congrArg List.length hwhole
      rw [List.length_take] at hlen
      change min m b.written.render.length = b.written.render.length at hlen
      omega
  rw [List.append_nil] at htorn
  rw [parse_picojson, htorn]
  rfl

/-- The parser does all that the loaders ask of one: on the line of any block integers are read
as themselves or as their nearest doubles, as themselves throughout if they have 63 bits, and
no proper part of the line from its beginning is accepted. -/
theorem vendored_parser_suffices (b : Block) :
    ParsesLiterally b ∧ (b.InRange → ParsesFaithfully b) ∧ TearsShow b :=
  ⟨picojson_parsesLiterally b, picojson_parsesFaithfully, picojson_tearsShow b⟩

/-- A line of version-1 transactions loads as its block exactly if all its integers are
lossless, and whatever is behind it on the line is ignored. -/
theorem chain_line_loads_iff {b : Block} (hver : ∀ t ∈ b.txns, t.ver = kTxnVersion)
    (trailing : Text) :
    fromJsonLine (toJsonLine b ++ trailing) = some b ↔ ∀ n ∈ b.literals, LosslessLiteral n := by
  have hparse : Picojson.parse (toJsonLine b ++ trailing) =
      some (documentWith (fun n => (NumberLiteral.ofNat n).toValue) b) := by
    rw [parse_picojson, parse_toJsonLine]
    rfl
  rw [fromJsonLine, hparse, Option.bind_some]
  exact readBlock_eq_iff hver fun n hn => readsLiteral_toValue (b.literals_lt n hn)

end Lines

end TxChain
