import Mathlib

/-!
# Decimal numerals

Texts of decimal digits against the numbers they denote. A reader that folds over the
digits computes the image of the number under whatever arithmetic it folds with, wrapping
or not, as `foldl_value` states. A `Literal` is a numeral with an optional sign.
-/

namespace Numeral

universe u

/-- The number a text of digits denotes; the empty text denotes zero. -/
def value (digits : List Char) : ℕ := Nat.ofDigitChars 10 digits 0

@[simp] theorem value_toDigits (n : ℕ) : value (Nat.toDigits 10 n) = n :=
  Nat.ofDigitChars_ten_toDigits

/-- A fold that follows the positional rule in the image of `f` computes the image. -/
theorem foldl_value {R : Type u} (f : ℕ → R) (step : R → Char → R)
    (hstep : ∀ v c, step (f v) c = f (10 * v + (c.toNat - '0'.toNat))) (digits : List Char) :
    digits.foldl step (f 0) = f (value digits) := by
  have hgeneral : ∀ v, digits.foldl step (f v) = f (Nat.ofDigitChars 10 digits v) := by
    induction digits with
    | nil =>
        intro v
        rw [Nat.ofDigitChars_nil]
        rfl
    | cons c rest ih =>
        intro v
        rw [List.foldl_cons, hstep, ih, Nat.ofDigitChars_cons]
  exact hgeneral 0

theorem isDigit_toDigits {c : Char} {n : ℕ} (h : c ∈ Nat.toDigits 10 n) : c.isDigit = true :=
  Nat.isDigit_of_mem_toDigits (by decide) (by decide) h

theorem takeWhile_toDigits (n : ℕ) :
    (Nat.toDigits 10 n).takeWhile Char.isDigit = Nat.toDigits 10 n :=
  List.takeWhile_eq_self_iff.mpr fun _ h => isDigit_toDigits h

/-- A symbol that fails the test ends the scan, whatever follows it. -/
theorem takeWhile_stop {α : Type u} {p : α → Bool} {x : α} (hx : p x = false) (s t : List α) :
    (s ++ x :: t).takeWhile p = s.takeWhile p := by
  induction s with
  | nil => exact List.takeWhile_cons_of_neg (by simp [hx])
  | cons c rest ih =>
      cases hc : p c with
      | true =>
          rw [List.cons_append, List.takeWhile_cons_of_pos hc, List.takeWhile_cons_of_pos hc, ih]
      | false =>
          have hneg : ¬p c = true := by simp [hc]
          rw [List.cons_append, List.takeWhile_cons_of_neg hneg, List.takeWhile_cons_of_neg hneg]

/-- The same for a scan behind leading symbols of another kind. -/
theorem takeWhile_dropWhile_stop {α : Type u} {p q : α → Bool} {x : α} (hp : p x = false)
    (hq : q x = false) (s t : List α) :
    ((s ++ x :: t).dropWhile q).takeWhile p = (s.dropWhile q).takeWhile p := by
  induction s with
  | nil =>
      have hneg : ¬q x = true := by simp [hq]
      rw [List.nil_append, List.dropWhile_cons_of_neg hneg]
      exact takeWhile_stop hp [] t
  | cons c rest ih =>
      cases hc : q c with
      | true =>
          rw [List.cons_append, List.dropWhile_cons_of_pos hc, List.dropWhile_cons_of_pos hc, ih]
      | false =>
          have hneg : ¬q c = true := by simp [hc]
          rw [List.cons_append, List.dropWhile_cons_of_neg hneg, List.dropWhile_cons_of_neg hneg,
            ← List.cons_append, takeWhile_stop hp]

/-! ### Signed literals -/

inductive Sign where
  | absent
  | plus
  | minus
  deriving DecidableEq

def Sign.text : Sign → List Char
  | .absent => []
  | .plus => ['+']
  | .minus => ['-']

def Sign.apply : Sign → ℕ → ℤ
  | .minus, n => -n
  | _, n => n

/-- An optional sign and at least one digit. -/
structure Literal where
  sign : Sign
  digits : List Char
  nonempty : digits ≠ []
  digit : ∀ c ∈ digits, c.isDigit = true

namespace Literal

def text (l : Literal) : List Char := l.sign.text ++ l.digits

def value (l : Literal) : ℤ := l.sign.apply (Numeral.value l.digits)

/-- The literal without leading zeros and without a plus sign. -/
def ofInt (i : ℤ) : Literal where
  sign := if i < 0 then .minus else .absent
  digits := Nat.toDigits 10 i.natAbs
  nonempty := Nat.toDigits_ne_nil
  digit := fun _ h => isDigit_toDigits h

@[simp] theorem value_ofInt (i : ℤ) : (ofInt i).value = i := by
  rw [value, ofInt, value_toDigits]
  split_ifs with h
  · rw [Sign.apply]
    omega
  · rw [Sign.apply]
    · omega
    · simp

theorem mem_text {l : Literal} {c : Char} (h : c ∈ l.text) :
    c = '+' ∨ c = '-' ∨ c.isDigit = true := by
  rw [text, List.mem_append] at h
  rcases h with hsign | hdigit
  · cases hs : l.sign with
    | absent => simp [hs, Sign.text] at hsign
    | plus => exact .inl (by simpa [hs, Sign.text] using hsign)
    | minus => exact .inr (.inl (by simpa [hs, Sign.text] using hsign))
  · exact .inr (.inr (l.digit c hdigit))

theorem text_ne_nil (l : Literal) : l.text ≠ [] := by
  rw [text]
  exact List.append_ne_nil_of_right_ne_nil _ l.nonempty

end Literal

def print (i : ℤ) : List Char := (Literal.ofInt i).text

end Numeral
