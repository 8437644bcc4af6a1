import TxChain.Json.Rules
import TxChain.Serialize.Literals

/-!
# Written documents

A document is written without white space and without escapes. The parser reads it back
as the value it spells, whatever follows it, and refuses every text that stops inside it.
-/

namespace TxChain

open Parsing

/-! ### Texts -/

def NumberLiteral.text (l : NumberLiteral) : Text :=
  l.whole.text ++ (Scan.fractionText l.fraction ++ Scan.exponentText l.exponent)

mutual

/-- The text of a document. -/
def Written.render : Written → Text
  | .null => "null".toList
  | .bool true => "true".toList
  | .bool false => "false".toList
  | .number l => l.text
  | .string s => '"' :: (s ++ ['"'])
  | .array xs => '[' :: ([','].intercalate (renderItems xs) ++ [']'])
  | .object fields => '\x7b' :: ([','].intercalate (renderMembers fields) ++ ['\x7d'])

def renderItems : List Written → List Text
  | [] => []
  | w :: ws => w.render :: renderItems ws

def renderMembers : WrittenFields → List Text
  | [] => []
  | (key, w) :: fields => Json.memberText key.toList w.render :: renderMembers fields

end

theorem renderItems_eq (ws : List Written) : renderItems ws = ws.map Written.render := by
  induction ws with
  | nil => rfl
  | cons w ws ih => rw [renderItems, ih, List.map_cons]

theorem renderMembers_eq (fields : WrittenFields) :
    renderMembers fields = fields.map fun f => Json.memberText f.1.toList f.2.render := by
  induction fields with
  | nil => rfl
  | cons f fields ih => rw [renderMembers, ih, List.map_cons]

/-! ### Values -/

/-- An integer in range stays one. -/
def NumberLiteral.IsInt64 (l : NumberLiteral) : Prop := l.Plain ∧ Scan.Fits l.whole.value

instance (l : NumberLiteral) : Decidable l.Plain :=
  decidable_of_iff (l.fraction.isNone = true ∧ l.exponent.isNone = true)
    (and_congr Option.isNone_iff_eq_none Option.isNone_iff_eq_none)

instance (l : NumberLiteral) : Decidable l.IsInt64 := inferInstanceAs (Decidable (_ ∧ _))

def NumberLiteral.toValue (l : NumberLiteral) : Value :=
  if l.IsInt64 then .int64 l.whole.value else .double ((Binary64.toDouble l.value).getD 0)

mutual

/-- The value a document spells. -/
def Written.toValue : Written → Value
  | .null => .null
  | .bool b => .bool b
  | .number l => l.toValue
  | .string s => .string s
  | .array xs => .array (itemValues xs)
  | .object fields => .object (fieldValues fields)

def itemValues : List Written → List Value
  | [] => []
  | w :: ws => w.toValue :: itemValues ws

def fieldValues : WrittenFields → Fields
  | [] => []
  | (key, w) :: fields => (key, w.toValue) :: fieldValues fields

end

theorem itemValues_eq (ws : List Written) : itemValues ws = ws.map Written.toValue := by
  induction ws with
  | nil => rfl
  | cons w ws ih => rw [itemValues, ih, List.map_cons]

theorem fieldValues_eq (fields : WrittenFields) :
    fieldValues fields = fields.map fun f => (f.1, f.2.toValue) := by
  induction fields with
  | nil => rfl
  | cons f fields ih => rw [fieldValues, ih, List.map_cons]

/-- What the parser can take: arrays nested no deeper than `depths`, strings without escapes,
different keys in an object, numbers that satisfy `P`. -/
inductive Written.Within (P : NumberLiteral → Prop) : ℕ → Written → Prop where
  | null {depths} : Within P depths .null
  | bool {depths b} : Within P depths (.bool b)
  | number {depths l} (spelled : P l) : Within P depths (.number l)
  | string {depths s} (bare : Json.Bare s) : Within P depths (.string s)
  | array {depths xs} (each : ∀ w ∈ xs, Within P depths w) : Within P (depths + 1) (.array xs)
  | object {depths fields} (keys : Json.KeysFit (fields.map Prod.fst))
      (each : ∀ f ∈ fields, Within P (depths + 1) f.2) : Within P (depths + 1) (.object fields)

/-! ### Numbers -/

/-- A text that may follow a number. -/
def Json.Stops (rest : Text) : Prop := ∀ c ∈ rest.head?, Json.isNumberChar c = false

namespace NumberLiteral

/-- A number as JSON spells it, and not too large for a double. -/
structure Readable (l : NumberLiteral) : Prop where
  sign : l.whole.sign ≠ .plus
  digit : ∀ f ∈ l.fraction, ∀ c ∈ f, c.isDigit = true
  finite : l.IsInt64 ∨ ∃ d, Binary64.toDouble l.value = some d

/-- A natural number of no more digits than a 64-bit word has. -/
structure Short (l : NumberLiteral) : Prop where
  plain : l.Plain
  sign : l.whole.sign = .absent
  length : l.whole.digits.length ≤ 20

variable {l : NumberLiteral} {c : Char} {u : Text}

theorem Plain.text_eq (h : l.Plain) : l.text = l.whole.text := by
  rw [text, h.1, h.2]
  exact List.append_nil _

theorem text_ne_nil (l : NumberLiteral) : l.text ≠ [] :=
  List.append_ne_nil_of_left_ne_nil l.whole.text_ne_nil _

theorem strtod_text (hdigit : ∀ f ∈ l.fraction, ∀ c ∈ f, c.isDigit = true) :
    Scan.strtod l.text = (Binary64.toDouble l.value, []) := by
  rw [Scan.strtod, text, Scan.readDecimal_text l.whole hdigit l.exponent]
  rfl

/-- Only an integer in range is converted as one. -/
theorem strtoimax_text (l : NumberLiteral) :
    (l.IsInt64 ∧ Scan.strtoimax l.text = (some l.whole.value, [])) ∨
      (¬l.IsInt64 ∧ ∀ i, Scan.strtoimax l.text ≠ (some i, [])) := by
  by_cases hplain : l.Plain
  · rw [hplain.text_eq, Scan.strtoimax_literal]
    by_cases hfits : Scan.Fits l.whole.value
    · exact .inl ⟨⟨hplain, hfits⟩, by rw [if_pos hfits]⟩
    · exact .inr ⟨fun h => hfits h.2, fun i => by simp [hfits]⟩
  · refine .inr ⟨fun h => hplain h.1, fun i hi => hplain ?_⟩
    have hends : Scan.EndsNumeral
        (Scan.fractionText l.fraction ++ Scan.exponentText l.exponent) := by
      cases l.fraction with
      | none => exact Scan.endsNumeral_exponentText _
      | some f => simp [Scan.EndsNumeral, Scan.fractionText]
    have hrest := Scan.strtoimax_stops (l := l.whole) hends
    rw [text] at hi
    rw [hi] at hrest
    obtain ⟨hfraction, hexponent⟩ := List.append_eq_nil_iff.mp hrest.symm
    constructor
    · cases hf : l.fraction with
      | none => rfl
      | some f => simp [hf, Scan.fractionText] at hfraction
    · cases he : l.exponent with
      | none => rfl
      | some e => simp [he, Scan.exponentText] at hexponent

theorem numberValue_text (h : l.Readable) : Json.numberValue l.text = .ok l.toValue := by
  obtain ⟨hint, hconv⟩ | ⟨hint, hconv⟩ := l.strtoimax_text
  · rw [Json.numberValue, hconv, toValue, if_pos hint]
    exact if_neg l.text_ne_nil
  · obtain ⟨d, hd⟩ := h.finite.resolve_left hint
    rw [Json.numberValue, strtod_text h.digit, hd, toValue, if_neg hint, hd]
    split
    next i hi => exact absurd hi (hconv i)
    next => rfl

/-- The value is what the format makes of the spelling. -/
theorem toValue_readAs (h : l.Readable) : l.ReadAs l.toValue := by
  rw [toValue]
  split
  next hint => exact .inl ⟨hint.1, hint.2, rfl⟩
  next hint =>
    obtain ⟨d, hd⟩ := h.finite.resolve_left hint
    refine .inr ⟨hint, d, ?_, Binary64.toDouble_nearest hd⟩
    rw [hd]
    rfl

theorem isNumberChar_of_mem (hdigit : ∀ f ∈ l.fraction, ∀ c ∈ f, c.isDigit = true)
    (hc : c ∈ l.text) : Json.isNumberChar c = true := by
  have hliteral : ∀ n : Numeral.Literal, c ∈ n.text → Json.isNumberChar c = true := by
    intro n hn
    obtain rfl | rfl | hd := Numeral.Literal.mem_text hn
    · decide
    · decide
    · simp [Json.isNumberChar, hd]
  rw [text, List.mem_append, List.mem_append] at hc
  obtain hwhole | hfraction | hexponent := hc
  · exact hliteral _ hwhole
  · cases hf : l.fraction with
    | none => simp [hf, Scan.fractionText] at hfraction
    | some f =>
        rw [hf, Scan.fractionText, List.mem_cons] at hfraction
        obtain rfl | hmem := hfraction
        · decide
        · simp [Json.isNumberChar, hdigit f hf c hmem]
  · cases he : l.exponent with
    | none => simp [he, Scan.exponentText] at hexponent
    | some e =>
        rw [he, Scan.exponentText, List.mem_cons] at hexponent
        obtain rfl | hmem := hexponent
        · decide
        · exact hliteral _ hmem

theorem parseNumber_reads (h : l.Readable) :
    Parsing.Reads Json.parseNumber l.text l.toValue Json.Stops := by
  intro rest hrest
  obtain ⟨htake, hdrop⟩ := Scan.span_append (fun c => isNumberChar_of_mem h.digit) hrest
  rw [Json.parseNumber, htake, hdrop, numberValue_text h]
  rfl

theorem Short.readable (h : l.Short) : l.Readable := by
  have hbound : Numeral.value l.whole.digits < 2 ^ 67 :=
    calc Numeral.value l.whole.digits < 10 ^ l.whole.digits.length := Scan.value_lt l.whole.digit
      _ ≤ 10 ^ 20 := Nat.pow_le_pow_right (by norm_num) h.length
      _ ≤ 2 ^ 67 := by norm_num
  have hvalue : l.value = (Numeral.value l.whole.digits : ℚ) := by
    rw [h.plain.value_eq, Numeral.Literal.value, h.sign]
    rfl
  refine ⟨by simp [h.sign], by simp [h.plain.1], .inr ?_⟩
  rw [hvalue]
  exact Binary64.toDouble_natCast (by norm_num) hbound

/-- The digits of a number that is cut short are a number again. -/
theorem Short.parseNumber_cut {t : Text} (h : l.Short) (hne : u ≠ []) (hu : u <+: l.text)
    (ht : Json.Stops t) : ∃ v, Json.parseNumber (u ++ t) = .ok (v, t) := by
  have htext : l.text = l.whole.digits := by
    rw [h.plain.text_eq, Numeral.Literal.text, h.sign]
    rfl
  rw [htext] at hu
  let l' : NumberLiteral :=
    { whole := ⟨.absent, u, hne, fun c hc => l.whole.digit c (hu.subset hc)⟩ }
  have hshort : l'.Short := ⟨⟨rfl, rfl⟩, rfl, hu.length_le.trans h.length⟩
  have hread := parseNumber_reads hshort.readable t ht
  rw [Plain.text_eq ⟨rfl, rfl⟩] at hread
  exact ⟨_, hread⟩

theorem short_ofNat {n : ℕ} (hn : n < 2 ^ 64) : (ofNat n).Short :=
  ⟨⟨rfl, rfl⟩, by simp [ofNat, Numeral.Literal.ofInt],
    (Nat.length_toDigits_le_iff (by norm_num) (by norm_num)).mpr (hn.trans (by norm_num))⟩

theorem text_ofNat (n : ℕ) : (ofNat n).text = decimal n := by
  rw [Plain.text_eq ⟨rfl, rfl⟩]
  rfl

end NumberLiteral

end TxChain
