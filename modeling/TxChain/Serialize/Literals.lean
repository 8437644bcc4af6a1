import TxChain.Library.Scan
import TxChain.Serialize.Lossless

/-!
# Numbers as a line spells them

JSON spells numbers with fractions and exponents. The parser keeps a plain integer in
the signed range and turns every other spelling into the nearest double, and the
reader cuts a double off at its point. So the loader keeps a number exactly when it
is such an integer or a whole double, and accepts many others as different numbers.
-/

namespace TxChain

/-! ### Spelled documents -/

/-- Digits before the point, digits behind it and an exponent. -/
structure NumberLiteral where
  whole : Numeral.Literal
  fraction : Option (List Char) := none
  exponent : Option Numeral.Literal := none

namespace NumberLiteral

def value (l : NumberLiteral) : ℚ :=
  l.whole.sign.apply (Numeral.value (l.whole.digits ++ l.fraction.getD [])) *
    10 ^ ((l.exponent.map Numeral.Literal.value).getD 0 - (l.fraction.getD []).length)

/-- Neither a point nor an exponent. -/
def Plain (l : NumberLiteral) : Prop := l.fraction = none ∧ l.exponent = none

theorem Plain.value_eq {l : NumberLiteral} (h : l.Plain) : l.value = l.whole.value := by
  rw [value, h.1, h.2]
  simp [Numeral.Literal.value]

/-- The literal has exactly this value. -/
def Spells (l : NumberLiteral) (n : ℕ) : Prop := l.value = n

/-- Neither negative nor fractional, and not too large for a 64-bit field. -/
def InWord (l : NumberLiteral) : Prop := ∃ n, l.Spells n ∧ n < 2 ^ 64

/-- The spellings that the loader keeps: plain integers in the signed range, and whole doubles. -/
def Kept (l : NumberLiteral) : Prop :=
  ∃ n : ℕ, l.Spells n ∧ n < 2 ^ 64 ∧ (l.Plain ∧ n < 2 ^ 63 ∨ Binary64.IsDouble n)

/-- What the parser makes of a spelled number. -/
def ReadAs (l : NumberLiteral) (v : Value) : Prop :=
  (l.Plain ∧ Scan.Fits l.whole.value ∧ v = .int64 l.whole.value) ∨
    (¬(l.Plain ∧ Scan.Fits l.whole.value) ∧ ∃ d, v = .double d ∧ Binary64.Nearest l.value d)

/-- The reader takes the number for the word `u`. -/
def Yields (l : NumberLiteral) (u : UInt64) : Prop := ∃ v, l.ReadAs v ∧ readNumber v = some u

variable {l : NumberLiteral} {u : UInt64}

/-- A number that the reader accepts keeps its value exactly if it is one of those spellings. -/
theorem Yields.spells_iff (h : l.Yields u) : l.Spells u.toNat ↔ l.Kept := by
  obtain ⟨v, hread | ⟨hother, d, rfl, hd⟩, hv⟩ := h
  · obtain ⟨hplain, hfits, rfl⟩ := hread
    rw [readNumber] at hv
    split at hv
    next => cases hv
    next hnonneg =>
      have hsmall : l.whole.value.toNat < 2 ^ 63 := by
        have := hfits.2
        omega
      have hu : u.toNat = l.whole.value.toNat := by
        rw [← Option.some.inj hv, UInt64.toNat_ofNat', Nat.mod_eq_of_lt (by omega)]
      have hvalue : l.value = u.toNat := by
        have hcast : ((l.whole.value.toNat : ℤ) : ℚ) = l.whole.value :=
          congrArg _ (Int.toNat_of_nonneg (not_lt.mp hnonneg))
        rw [hplain.value_eq, hu, ← hcast, Int.cast_natCast]
      exact ⟨fun _ => ⟨u.toNat, hvalue, u.toNat_lt, .inl ⟨hplain, hu ▸ hsmall⟩⟩, fun _ => hvalue⟩
  · rw [readNumber] at hv
    split at hv
    next => cases hv
    next =>
      have hu : u.toNat = ⌊d⌋₊ % 2 ^ 64 := by
        rw [← Option.some.inj hv, UInt64.toNat_ofNat']
      constructor
      · intro (hvalue : l.value = u.toNat)
        rw [hvalue] at hd
        exact ⟨u.toNat, hvalue, u.toNat_lt, .inr (hd.isDouble_of_floor hu.symm)⟩
      · rintro ⟨n, hn, hword, hplain | hdouble⟩
        · refine absurd ⟨hplain.1, ?_⟩ hother
          rw [Spells] at hn
          have hwhole : l.whole.value = n := by
            have hcast : (l.whole.value : ℚ) = n := hplain.1.value_eq.symm.trans hn
            exact_mod_cast hcast
          rw [hwhole, Scan.Fits]
          omega
        · rw [Spells] at hn
          rw [hn] at hd
          have hexact := hd.eq_of_isDouble hdouble
          rw [Spells, hn, hu, hexact, Nat.floor_natCast, Nat.mod_eq_of_lt hword]

end NumberLiteral

/-- A JSON document with its numbers as they are spelled. -/
inductive Written where
  | null
  | bool (b : Bool)
  | number (l : NumberLiteral)
  | string (s : Text)
  | array (xs : List Written)
  | object (fields : List (String × Written))

abbrev WrittenFields := List (String × Written)

mutual

/-- The parser keeps the shape of a document and reads its numbers. -/
inductive Reads : Written → Value → Prop where
  | null : Reads .null .null
  | bool (b) : Reads (.bool b) (.bool b)
  | number {l v} (read : l.ReadAs v) : Reads (.number l) v
  | string (s) : Reads (.string s) (.string s)
  | array {xs vs} (each : List.Forall₂ Reads xs vs) : Reads (.array xs) (.array vs)
  | object {fields vs} (each : ReadsFields fields vs) : Reads (.object fields) (.object vs)

inductive ReadsFields : WrittenFields → Fields → Prop where
  | nil : ReadsFields [] []
  | cons {key w v fields vs} (first : Reads w v) (others : ReadsFields fields vs) :
      ReadsFields ((key, w) :: fields) ((key, v) :: vs)

end

/-- The parser takes the line for this document. -/
def ParsesAs [Picojson] (line : Text) (w : Written) : Prop :=
  ∃ v, Picojson.parse line = some v ∧ Reads w v

namespace Written

def asObject : Written → Option WrittenFields
  | .object fields => some fields
  | _ => none

def asArray : Written → Option (List Written)
  | .array xs => some xs
  | _ => none

def asNumber : Written → Option NumberLiteral
  | .number l => some l
  | _ => none

/-- The number written for a key. -/
def numberAt (o : WrittenFields) (key : String) : Option NumberLiteral :=
  (o.lookup key).bind asNumber

def txnLiterals (w : Written) : Option (List NumberLiteral) := do
  let o ← w.asObject
  let ver ← numberAt o "ver"
  let amount ← numberAt o "amount"
  let nonce ← numberAt o "nonce"
  return [ver, amount, nonce]

/-- The numbers written for the integer fields of a block. -/
def integerLiterals (w : Written) : Option (List NumberLiteral) := do
  let root ← w.asObject
  let hobj ← (← root.lookup "header").asObject
  let index ← numberAt hobj "index"
  let timestamp ← numberAt hobj "timestamp"
  let nonce ← numberAt hobj "nonce"
  let txns ← (← root.lookup "txns").asArray
  let rest ← txns.mapM txnLiterals
  return [index, timestamp, nonce] ++ rest.flatten

end Written

/-! ### What the reader finds -/

variable {w : Written} {v : Value} {o : WrittenFields} {fields : Fields} {key : String}

theorem ReadAs_not_object {l : NumberLiteral} (h : l.ReadAs v) :
    v.asObject = none ∧ v.asArray = none := by
  obtain ⟨-, -, rfl⟩ | ⟨-, d, rfl, -⟩ := h
  · exact ⟨rfl, rfl⟩
  · exact ⟨rfl, rfl⟩

theorem Reads.asObject (h : Reads w v) (hv : v.asObject = some fields) :
    ∃ o, w.asObject = some o ∧ ReadsFields o fields := by
  cases h with
  | number read => simp [(ReadAs_not_object read).1] at hv
  | object each =>
      obtain rfl := Option.some.inj hv
      exact ⟨_, rfl, each⟩
  | _ => cases hv

theorem Reads.asArray (h : Reads w v) {vs : List Value} (hv : v.asArray = some vs) :
    ∃ ws, w.asArray = some ws ∧ List.Forall₂ Reads ws vs := by
  cases h with
  | number read => simp [(ReadAs_not_object read).2] at hv
  | array each =>
      obtain rfl := Option.some.inj hv
      exact ⟨_, rfl, each⟩
  | _ => cases hv

theorem ReadsFields.lookup (h : ReadsFields o fields) (hv : fields.lookup key = some v) :
    ∃ w, o.lookup key = some w ∧ Reads w v := by
  induction o generalizing fields with
  | nil =>
      cases h
      cases hv
  | cons f o ih =>
      cases h with
      | @cons key' w' v' _ vs first others =>
          rw [List.lookup_cons] at hv ⊢
          cases hkey : key == key' with
          | true =>
              rw [hkey] at hv
              obtain rfl := Option.some.inj hv
              exact ⟨w', rfl, first⟩
          | false =>
              rw [hkey] at hv
              exact ih others hv

/-- Where the reader finds a word, the document spells a number. -/
theorem ReadsFields.numberAt (h : ReadsFields o fields) {u : UInt64}
    (hu : getU64 fields key = some u) :
    ∃ l, Written.numberAt o key = some l ∧ l.Yields u := by
  rw [getU64_eq] at hu
  obtain ⟨v, hv, hnumber⟩ := Option.bind_eq_some_iff.mp hu
  obtain ⟨w, hw, hread⟩ := h.lookup hv
  rw [Written.numberAt, hw]
  cases hread with
  | number read => exact ⟨_, rfl, v, read, hnumber⟩
  | _ => cases hnumber

/-- The numbers spelled in a document, and what the reader took them for. -/
def YieldsAll (ls : List NumberLiteral) (ns : List ℕ) : Prop :=
  List.Forall₂ (fun l n => ∃ u : UInt64, u.toNat = n ∧ l.Yields u) ls ns

theorem Reads.txn (h : Reads w v) {t : Txn} (ht : readTxn v = some t) :
    ∃ ls, w.txnLiterals = some ls ∧ YieldsAll ls [t.ver.toNat, t.amount.toNat, t.nonce.toNat] := by
  simp only [readTxn, Option.bind_eq_bind, Option.bind_eq_some_iff] at ht
  obtain ⟨fields, hfields, ver, hver, _, hguard, _, -, _, -, amount, hamount, nonce, hnonce, _, -,
    _, -, ht⟩ := ht
  obtain ⟨o, ho, hread⟩ := h.asObject hfields
  obtain ⟨lver, hlver, hyver⟩ := hread.numberAt hver
  obtain ⟨lamount, hlamount, hyamount⟩ := hread.numberAt hamount
  obtain ⟨lnonce, hlnonce, hynonce⟩ := hread.numberAt hnonce
  obtain rfl := Option.some.inj ht
  refine ⟨[lver, lamount, lnonce], ?_, ?_⟩
  · rw [Written.txnLiterals, ho]
    simp [hlver, hlamount, hlnonce]
  · have hone : ver = kTxnVersion.toUInt64 := by
      by_contra hne
      rw [guard, if_neg hne] at hguard
      cases hguard
    have hversion : ver.toNat = ver.toUInt8.toNat := by
      rw [hone]
      rfl
    exact .cons ⟨ver, hversion, hyver⟩
      (.cons ⟨amount, rfl, hyamount⟩ (.cons ⟨nonce, rfl, hynonce⟩ .nil))

theorem reads_txns {ws : List Written} {vs : List Value} (h : List.Forall₂ Reads ws vs)
    {txns : List Txn} (htxns : vs.mapM readTxn = some txns) :
    ∃ lss, ws.mapM Written.txnLiterals = some lss ∧
      YieldsAll lss.flatten
        (txns.flatMap fun t => [t.ver.toNat, t.amount.toNat, t.nonce.toNat]) := by
  induction h generalizing txns with
  | nil =>
      obtain rfl := Option.some.inj htxns
      exact ⟨[], rfl, .nil⟩
  | @cons w v ws vs hread _ ih =>
      rw [List.mapM_cons] at htxns
      obtain ⟨t, ht, hrest⟩ := Option.bind_eq_some_iff.mp htxns
      obtain ⟨txns', htxns', heq⟩ := Option.bind_eq_some_iff.mp hrest
      obtain rfl := Option.some.inj heq
      obtain ⟨ls, hls, hyields⟩ := hread.txn ht
      obtain ⟨lss, hlss, hall⟩ := ih htxns'
      refine ⟨ls :: lss, ?_, ?_⟩
      · rw [List.mapM_cons, hls, hlss]
        rfl
      · rw [List.flatten_cons, List.flatMap_cons]
        exact List.rel_append hyields hall

/-- An accepted document spells a number for every integer field of the block. -/
theorem Reads.block (h : Reads w v) {b : Block} (hb : readBlock v = some b) :
    ∃ ls, w.integerLiterals = some ls ∧ YieldsAll ls b.literals := by
  simp only [readBlock, readHeader, Option.bind_eq_bind, Option.bind_eq_some_iff] at hb
  obtain ⟨root, hroot, header, hheader, hfields, hasHeader, hd, ⟨index, hindex, timestamp, htime,
    _, -, _, -, nonce, hnonce, hhd⟩, txnsValue, htxnsValue, vs, hvs, txns, htxns, hb⟩ := hb
  obtain ⟨o, ho, hread⟩ := h.asObject hroot
  obtain ⟨wh, hwh, hreadHeader⟩ := hread.lookup hheader
  obtain ⟨oh, hoh, hreadFields⟩ := hreadHeader.asObject hasHeader
  obtain ⟨li, hli, hyi⟩ := hreadFields.numberAt hindex
  obtain ⟨lt, hlt, hyt⟩ := hreadFields.numberAt htime
  obtain ⟨ln, hln, hyn⟩ := hreadFields.numberAt hnonce
  obtain ⟨wt, hwt, hreadTxns⟩ := hread.lookup htxnsValue
  obtain ⟨ws, hws, hreadAll⟩ := hreadTxns.asArray hvs
  obtain ⟨lss, hlss, hall⟩ := reads_txns hreadAll htxns
  obtain rfl := Option.some.inj hhd
  obtain rfl := Option.some.inj hb
  refine ⟨[li, lt, ln] ++ lss.flatten, ?_, ?_⟩
  · rw [Written.integerLiterals, ho]
    simp [hwh, hoh, hli, hlt, hln, hwt, hws, hlss]
  · have hhead : YieldsAll [li, lt, ln] [index.toNat, timestamp.toNat, nonce.toNat] :=
      .cons ⟨index, rfl, hyi⟩ (.cons ⟨timestamp, rfl, hyt⟩ (.cons ⟨nonce, rfl, hyn⟩ .nil))
    exact List.rel_append hhead hall

/-- The numbers are the spelled ones exactly if every spelling is one that is kept. -/
theorem YieldsAll.exact_iff {ls : List NumberLiteral} {ns : List ℕ} (h : YieldsAll ls ns) :
    List.Forall₂ NumberLiteral.Spells ls ns ↔ ∀ l ∈ ls, l.Kept := by
  induction h with
  | nil => simp
  | @cons l n ls ns hyields _ ih =>
      obtain ⟨u, rfl, hu⟩ := hyields
      rw [List.forall₂_cons, ih, hu.spells_iff, List.forall_mem_cons]

theorem NumberLiteral.Kept.inWord {l : NumberLiteral} (h : l.Kept) : l.InWord := by
  obtain ⟨n, hn, hword, -⟩ := h
  exact ⟨n, hn, hword⟩

/-- An accepted line gives every integer field the number spelled for it, and spells none that
a word cannot hold, exactly if each of these numbers is a plain integer below `2 ^ 63` or a
whole double below `2 ^ 64`. -/
theorem loader_keeps_numbers_iff [Picojson] {line : Text} {b : Block} (hline : ParsesAs line w)
    (hload : fromJsonLine line = some b) :
    ∃ ls, w.integerLiterals = some ls ∧
      (List.Forall₂ NumberLiteral.Spells ls b.literals ∧ (∀ l ∈ ls, l.InWord) ↔
        ∀ l ∈ ls, l.Kept) := by
  obtain ⟨v, hparse, hread⟩ := hline
  rw [fromJsonLine, hparse] at hload
  obtain ⟨ls, hls, hyields⟩ := hread.block hload
  refine ⟨ls, hls, ?_⟩
  rw [hyields.exact_iff]
  exact ⟨fun h => h.1, fun h => ⟨h, fun l hl => (h l hl).inWord⟩⟩

section Samples

/-- The literal of a number as the writer prints it. -/
def NumberLiteral.ofNat (n : ℕ) : NumberLiteral := { whole := .ofInt n }

/-- The line of an empty block, with some spelling of a number for its nonce. -/
def spelledLine (spelling : Text) : Text :=
  "\x7b\"header\":\x7b\"index\":1,\"timestamp\":1704067201,\"prevHash\":\"".toList ++
    List.replicate 64 '0' ++ "\",\"txnsHash\":\"".toList ++ List.replicate 64 '0' ++
    "\",\"nonce\":".toList ++ spelling ++ "\x7d,\"txns\":[]\x7d".toList

def spelledDocument (l : NumberLiteral) : Written :=
  .object
    [("header", .object
      [("index", .number (.ofNat 1)), ("timestamp", .number (.ofNat (genesisTimestamp + 1).toNat)),
       ("prevHash", .string (toHex (nonceBlock 2).header.prevHash.toList)),
       ("txnsHash", .string (toHex (nonceBlock 2).header.txnsHash.toList)), ("nonce", .number l)]),
     ("txns", .array [])]

/-- What the parser makes of it when the nonce becomes the double `d`. -/
def spelledValue (d : ℚ) : Value :=
  .object
    [("header", .object (headerFieldsWith (nonceNumbers 2 d) (nonceBlock 2).header)),
     ("txns", .array [])]

abbrev spelledParser (spelling : Text) (d : ℚ) : Picojson :=
  .ofOption fun line => if line = spelledLine spelling then some (spelledValue d) else none

theorem spelled_parses {l : NumberLiteral} {d : ℚ} (spelling : Text) (hl : ¬l.Plain)
    (hd : Binary64.Nearest l.value d) :
    letI := spelledParser spelling d
    ParsesAs (spelledLine spelling) (spelledDocument l) := by
  have hint : ∀ n, n < 2 ^ 63 → n ≠ 2 →
      (NumberLiteral.ofNat n).ReadAs (nonceNumbers 2 d n) := by
    intro n hsmall hne
    have hvalue : (NumberLiteral.ofNat n).whole.value = n := Numeral.Literal.value_ofInt n
    have hother : n ≠ (2 : UInt64).toNat := hne
    refine .inl ⟨⟨rfl, rfl⟩, ?_, ?_⟩
    · rw [hvalue, Scan.Fits]
      omega
    · rw [hvalue, nonceNumbers, if_neg hother]
  have hnonce : l.ReadAs (nonceNumbers 2 d 2) := .inr ⟨fun h => hl h.1, d, if_pos rfl, hd⟩
  refine ⟨spelledValue d, (Picojson.parse_ofOption _ _).trans (if_pos rfl),
    .object (.cons (.object ?_) (.cons (.array .nil) .nil))⟩
  exact .cons (.number (hint 1 (by decide) (by decide)))
    (.cons (.number (hint _ (by decide) (by decide)))
      (.cons (.string _) (.cons (.string _) (.cons (.number hnonce) .nil))))

theorem spelled_loads {d : ℚ} (spelling : Text) (hd : readNumber (.double d) = some 2) :
    letI := spelledParser spelling d
    fromJsonLine (spelledLine spelling) = some (nonceBlock 2) := by
  let := spelledParser spelling d
  have hparse : Picojson.parse (spelledLine spelling) = some (spelledValue d) :=
    (Picojson.parse_ofOption _ _).trans (if_pos rfl)
  have hheader : readHeader (headerFieldsWith (nonceNumbers 2 d) (nonceBlock 2).header) =
      some (nonceBlock 2).header := by
    have hnonce : readNumber (nonceNumbers 2 d (nonceBlock 2).header.nonce.toNat) = some 2 := hd
    rw [readHeader_headerFieldsWith, hnonce]
    rfl
  have hread : readBlock (spelledValue d) =
      (readHeader (headerFieldsWith (nonceNumbers 2 d) (nonceBlock 2).header)).bind
        fun header => some { header, txns := [] } := rfl
  rw [fromJsonLine, hparse, Option.bind_some, hread, hheader]
  rfl

/-- `2.5`. -/
def twoAndAHalf : NumberLiteral := { whole := .ofInt 2, fraction := some ['5'] }

/-- `2e0`. -/
def twoScaled : NumberLiteral := { whole := .ofInt 2, exponent := some (.ofInt 0) }

theorem twoAndAHalf_value : twoAndAHalf.value = 5 / 2 := by
  have hdigits : Numeral.value (twoAndAHalf.whole.digits ++ ['5']) = 25 := by decide
  have hvalue : twoAndAHalf.value =
      (Numeral.value (twoAndAHalf.whole.digits ++ ['5']) : ℤ) * 10 ^ (0 - 1 : ℤ) := rfl
  rw [hvalue, hdigits]
  norm_num

theorem twoScaled_value : twoScaled.value = 2 := by
  have hdigits : Numeral.value (twoScaled.whole.digits ++ []) = 2 := by decide
  have hvalue : twoScaled.value =
      (Numeral.value (twoScaled.whole.digits ++ []) : ℤ) *
        10 ^ ((Numeral.Literal.ofInt 0).value - 0 : ℤ) := rfl
  rw [hvalue, hdigits, Numeral.Literal.value_ofInt]
  norm_num

/-- A fractional nonce is accepted and cut off. -/
theorem fraction_dropped :
    letI := spelledParser "2.5".toList (5 / 2)
    ParsesAs (spelledLine "2.5".toList) (spelledDocument twoAndAHalf) ∧
      fromJsonLine (spelledLine "2.5".toList) = some (nonceBlock 2) ∧
      twoAndAHalf ∈ (spelledDocument twoAndAHalf).integerLiterals.getD [] ∧
      ¬twoAndAHalf.InWord := by
  have hdouble : Binary64.IsDouble (5 / 2) :=
    ⟨5, -1, by norm_num, by norm_num, by norm_num, by norm_num⟩
  refine ⟨spelled_parses _ (fun h => by cases h.1) ?_, spelled_loads _ ?_, ?_, ?_⟩
  · rw [twoAndAHalf_value]
    exact Binary64.nearest_self hdouble
  · have hfloor : ⌊(5 / 2 : ℚ)⌋₊ = 2 := by norm_num [Nat.floor_eq_iff]
    rw [readNumber, if_neg (by norm_num), hfloor]
    rfl
  · exact List.mem_cons_of_mem _ (List.mem_cons_of_mem _ List.mem_cons_self)
  · rintro ⟨n, hn, -⟩
    rw [NumberLiteral.Spells, twoAndAHalf_value] at hn
    have htwice : (5 : ℚ) = (2 * n : ℕ) := by
      push_cast
      linarith
    have : 5 = 2 * n := by exact_mod_cast htwice
    omega

/-- A whole number behind an exponent is kept. -/
theorem scaled_kept :
    letI := spelledParser "2e0".toList 2
    ∃ ls, (spelledDocument twoScaled).integerLiterals = some ls ∧
      (List.Forall₂ NumberLiteral.Spells ls (nonceBlock 2).literals ∧ (∀ l ∈ ls, l.InWord) ↔
        ∀ l ∈ ls, l.Kept) := by
  let := spelledParser "2e0".toList 2
  have hparses : ParsesAs (spelledLine "2e0".toList) (spelledDocument twoScaled) := by
    refine spelled_parses _ (fun h => by cases h.2) ?_
    rw [twoScaled_value]
    exact Binary64.nearest_self (Binary64.isDouble_natCast (k := 2) (by norm_num))
  have hloads : fromJsonLine (spelledLine "2e0".toList) = some (nonceBlock 2) := by
    refine spelled_loads _ ?_
    have hfloor : ⌊(2 : ℚ)⌋₊ = 2 := Nat.floor_ofNat 2
    rw [readNumber, if_neg (by norm_num), hfloor]
    rfl
  exact loader_keeps_numbers_iff hparses hloads

end Samples

end TxChain
