import TxChain.Library.Rounding
import TxChain.Library.Scan

/-!
# Decimal numbers

The C conversions of a text to an integer or a double, with the place where they stop. A
decimal number has digits before and behind a point and an exponent of ten. Its value is
read exactly and then rounded once. Hexadecimal numbers, infinities and NaN are spelled
with letters other than an exponent's and are not read here.
-/

namespace Scan

open Numeral

/-- The digits behind a point. -/
def readFraction : List Char → List Char × List Char
  | '.' :: s => (s.takeWhile Char.isDigit, s.dropWhile Char.isDigit)
  | s => ([], s)

/-- An exponent without digits is left alone. -/
def readExponent : List Char → ℤ × List Char
  | [] => (0, [])
  | c :: s =>
      let signed := readSign s
      let digits := signed.2.takeWhile Char.isDigit
      if (c = 'e' ∨ c = 'E') ∧ digits ≠ [] then
        (signed.1.apply (value digits), signed.2.dropWhile Char.isDigit)
      else (0, c :: s)

/-- The exact value of a decimal number, and what is behind it. -/
def readDecimal (s : List Char) : Option (ℚ × List Char) :=
  let signed := readSign (s.dropWhile isSpace)
  let whole := signed.2.takeWhile Char.isDigit
  let fraction := readFraction (signed.2.dropWhile Char.isDigit)
  let exponent := readExponent fraction.2
  if whole ++ fraction.1 = [] then none
  else
    some (signed.1.apply (value (whole ++ fraction.1)) * 10 ^ (exponent.1 - fraction.1.length),
      exponent.2)

/-- The value, absent on `ERANGE`, and the end of what was converted. -/
def strtoimax (s : List Char) : Option ℤ × List Char :=
  match readInt s with
  | none => (some 0, s)
  | some (i, rest) => (if Fits i then some i else none, rest)

/-- The value, absent if it is infinite, and the end of what was converted. -/
def strtod (s : List Char) : Option ℚ × List Char :=
  match readDecimal s with
  | none => (some 0, s)
  | some (x, rest) => (Binary64.toDouble x, rest)

/-! ### Spelled numbers -/

/-- Digits denote less than the next power of ten. -/
theorem value_lt {digits : List Char} (h : ∀ c ∈ digits, c.isDigit = true) :
    value digits < 10 ^ digits.length := by
  have hgeneral : ∀ v, Nat.ofDigitChars 10 digits v < (v + 1) * 10 ^ digits.length := by
    induction digits with
    | nil =>
        intro v
        rw [Nat.ofDigitChars_nil]
        simp
    | cons c digits ih =>
        intro v
        obtain ⟨hc, hdigits⟩ := List.forall_mem_cons.mp h
        have hdigit : c.toNat - '0'.toNat < 10 := by
          have hrange := Char.isDigit_iff_toNat.mp hc
          have hzero : '0'.toNat = 48 := rfl
          have hnine : '9'.toNat = 57 := rfl
          omega
        rw [Nat.ofDigitChars_cons, List.length_cons, pow_succ']
        calc _ < (10 * v + (c.toNat - '0'.toNat) + 1) * 10 ^ digits.length := ih hdigits _
          _ ≤ (10 * (v + 1)) * 10 ^ digits.length := Nat.mul_le_mul_right _ (by omega)
          _ = _ := by ring
  simpa [value] using hgeneral 0

/-- A point and the digits behind it. -/
def fractionText : Option (List Char) → List Char
  | none => []
  | some digits => '.' :: digits

def exponentText : Option Literal → List Char
  | none => []
  | some e => 'e' :: e.text

theorem readFraction_text {fraction : Option (List Char)} {rest : List Char}
    (hdigit : ∀ f ∈ fraction, ∀ c ∈ f, c.isDigit = true) (hrest : EndsNumeral rest)
    (hpoint : ∀ c ∈ rest.head?, c ≠ '.') :
    readFraction (fractionText fraction ++ rest) = (fraction.getD [], rest) := by
  cases fraction with
  | none =>
      cases rest with
      | nil => rfl
      | cons c rest =>
          rw [fractionText, List.nil_append, readFraction]
          · rfl
          · rintro t ⟨⟩
            exact hpoint '.' rfl rfl
  | some f =>
      obtain ⟨htake, hdrop⟩ := span_append (hdigit f rfl) hrest
      rw [fractionText, List.cons_append, readFraction, htake, hdrop]
      rfl

theorem readExponent_text (exponent : Option Literal) :
    readExponent (exponentText exponent) = ((exponent.map Literal.value).getD 0, []) := by
  cases exponent with
  | none => rfl
  | some e =>
      have hsign := readSign_text e []
      obtain ⟨htake, hdrop⟩ := span_append e.digit endsNumeral_nil
      simp only [List.append_nil] at hsign htake hdrop
      rw [exponentText, readExponent, hsign, htake, hdrop, if_pos ⟨.inl rfl, e.nonempty⟩]
      rfl

theorem endsNumeral_exponentText (exponent : Option Literal) :
    EndsNumeral (exponentText exponent) := by
  cases exponent with
  | none => exact endsNumeral_nil
  | some e => simp [EndsNumeral, exponentText]

theorem point_not_exponentText (exponent : Option Literal) :
    ∀ c ∈ (exponentText exponent).head?, c ≠ '.' := by
  cases exponent with
  | none => simp [exponentText]
  | some e => simp [exponentText]

/-- A spelled number is read with its value. -/
theorem readDecimal_text (whole : Literal) {fraction : Option (List Char)}
    (hdigit : ∀ f ∈ fraction, ∀ c ∈ f, c.isDigit = true) (exponent : Option Literal) :
    readDecimal (whole.text ++ (fractionText fraction ++ exponentText exponent)) =
      some ((whole.sign.apply (value (whole.digits ++ fraction.getD [])) : ℚ) *
        10 ^ ((exponent.map Literal.value).getD 0 - (fraction.getD []).length), []) := by
  have hends : EndsNumeral (fractionText fraction ++ exponentText exponent) := by
    cases fraction with
    | none => exact endsNumeral_exponentText exponent
    | some f => simp [EndsNumeral, fractionText]
  obtain ⟨htake, hdrop⟩ := span_append whole.digit hends
  rw [readDecimal, (isWord_literal whole).dropWhile, readSign_text]
  simp only [htake, hdrop, readFraction_text hdigit (endsNumeral_exponentText exponent)
    (point_not_exponentText exponent), readExponent_text]
  rw [if_neg (List.append_ne_nil_of_left_ne_nil whole.nonempty _)]

/-- An integer is converted to the end of its text. -/
theorem strtoimax_literal (l : Literal) :
    strtoimax l.text = (if Fits l.value then some l.value else none, []) := by
  have hread := readInt_literal l endsNumeral_nil
  rw [List.append_nil] at hread
  rw [strtoimax, hread]

/-- In front of a point or an exponent the conversion stops. -/
theorem strtoimax_stops {l : Literal} {rest : List Char} (hrest : EndsNumeral rest) :
    (strtoimax (l.text ++ rest)).2 = rest := by
  rw [strtoimax, readInt_literal l hrest]

end Scan
