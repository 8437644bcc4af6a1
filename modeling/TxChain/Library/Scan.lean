import TxChain.Library.Numeral

/-!
# Formatted input

The readers of a stream that holds a text: words between white space, signed decimal
integers, lines. White space is that of the C locale. A `long` has 64 bits: a stream refuses
a numeral outside its range, the string conversion `strtol` saturates. Each reader is the
inverse of writing what it reads, up to the symbol at which it stops.
-/

namespace Scan

open Numeral

def isSpace (c : Char) : Bool :=
  c = ' ' || c = '\t' || c = '\n' || c = '\x0b' || c = '\x0c' || c = '\r'

/-- The next word and what is behind it. -/
def readWord (s : List Char) : Option (List Char × List Char) :=
  let t := s.dropWhile isSpace
  if t = [] then none
  else some (t.takeWhile fun c => !isSpace c, t.dropWhile fun c => !isSpace c)

/-- A word that is missing is read as the empty text. -/
def nextWord (s : List Char) : List Char × List Char := (readWord s).getD ([], [])

def readSign : List Char → Sign × List Char
  | '+' :: s => (.plus, s)
  | '-' :: s => (.minus, s)
  | s => (.absent, s)

/-- The next integer, of any size, and what is behind it. -/
def readInt (s : List Char) : Option (ℤ × List Char) :=
  let signed := readSign (s.dropWhile isSpace)
  let digits := signed.2.takeWhile Char.isDigit
  if digits = [] then none
  else some (signed.1.apply (value digits), signed.2.dropWhile Char.isDigit)

/-- The range of a `long`. -/
def Fits (i : ℤ) : Prop := -2 ^ 63 ≤ i ∧ i < 2 ^ 63

instance (i : ℤ) : Decidable (Fits i) := inferInstanceAs (Decidable (_ ∧ _))

def readLong (s : List Char) : Option (Int64 × List Char) :=
  match readInt s with
  | none => none
  | some (i, rest) => if Fits i then some (Int64.ofInt i, rest) else none

def strtol (s : List Char) : Int64 :=
  match readInt s with
  | none => 0
  | some (i, _) =>
      if i < -2 ^ 63 then Int64.minValue
      else if 2 ^ 63 ≤ i then Int64.maxValue
      else Int64.ofInt i

/-- A magnitude out of range saturates before its sign is applied. -/
def strtoull (s : List Char) : UInt64 :=
  match readInt s with
  | none => 0
  | some (i, _) => if 2 ^ 64 ≤ i.natAbs then UInt64.ofNat (2 ^ 64 - 1) else UInt64.ofInt i

/-- The text up to the next newline and what is behind it. -/
def readLine (s : List Char) : Option (List Char × List Char) :=
  if s = [] then none
  else some (s.takeWhile (· ≠ '\n'), (s.dropWhile (· ≠ '\n')).drop 1)

theorem Fits.toInt {i : ℤ} (h : Fits i) : (Int64.ofInt i).toInt = i :=
  Int64.toInt_ofInt_of_le h.1 h.2

theorem fits_toInt (i : Int64) : Fits i.toInt :=
  ⟨Int64.le_toInt i, Int64.toInt_lt i⟩

/-! ### Words -/

variable {s w rest : List Char} {c : Char}

/-- A text that may follow a word. -/
def EndsWord (rest : List Char) : Prop := ∀ c ∈ rest.head?, isSpace c = true

/-- A non-empty text without white space. -/
structure IsWord (w : List Char) : Prop where
  nonempty : w ≠ []
  solid : ∀ c ∈ w, isSpace c = false

theorem endsWord_nil : EndsWord [] := by simp [EndsWord]

theorem endsWord_space (s : List Char) : EndsWord (' ' :: s) := by simp [EndsWord, isSpace]

theorem readWord_space (h : isSpace c = true) (s : List Char) : readWord (c :: s) = readWord s := by
  rw [readWord, readWord, List.dropWhile_cons_of_pos h]

theorem IsWord.dropWhile (hw : IsWord w) (rest : List Char) :
    (w ++ rest).dropWhile isSpace = w ++ rest := by
  cases w with
  | nil => exact absurd rfl hw.nonempty
  | cons c w =>
      have hc : ¬isSpace c = true := by simp [hw.solid c List.mem_cons_self]
      rw [List.cons_append, List.dropWhile_cons_of_neg hc]

/-- A scan over a text that passes the test ends where the rest fails it. -/
theorem span_append {p : Char → Bool} (hw : ∀ c ∈ w, p c = true)
    (hrest : ∀ c ∈ rest.head?, p c = false) :
    (w ++ rest).takeWhile p = w ∧ (w ++ rest).dropWhile p = rest := by
  rw [List.takeWhile_append_of_pos hw, List.dropWhile_append_of_pos hw]
  cases rest with
  | nil => simp
  | cons c rest =>
      have hc : ¬p c = true := by simp [hrest c (by simp)]
      rw [List.takeWhile_cons_of_neg hc, List.dropWhile_cons_of_neg hc, List.append_nil]
      exact ⟨rfl, rfl⟩

theorem IsWord.read (hw : IsWord w) (hrest : EndsWord rest) :
    readWord (w ++ rest) = some (w, rest) := by
  have hne : w ++ rest ≠ [] := List.append_ne_nil_of_left_ne_nil hw.nonempty _
  have hsolid : ∀ c ∈ w, (!isSpace c) = true := by
    intro c hc
    rw [hw.solid c hc]
    rfl
  have hstop : ∀ c ∈ rest.head?, (!isSpace c) = false := by
    intro c hc
    rw [hrest c hc]
    rfl
  obtain ⟨htake, hdrop⟩ := span_append hsolid hstop
  rw [readWord, hw.dropWhile, if_neg hne, htake, hdrop]

theorem IsWord.read_last (hw : IsWord w) : readWord w = some (w, []) := by
  have hread := hw.read endsWord_nil
  rwa [List.append_nil] at hread

theorem IsWord.next (hw : IsWord w) (hrest : EndsWord rest) :
    nextWord (' ' :: (w ++ rest)) = (w, rest) := by
  rw [nextWord, readWord_space (by decide), hw.read hrest, Option.getD_some]

theorem IsWord.next_last (hw : IsWord w) : nextWord (' ' :: w) = (w, []) := by
  rw [nextWord, readWord_space (by decide), hw.read_last, Option.getD_some]

/-! ### Integers -/

/-- A text that may follow a numeral. -/
def EndsNumeral (rest : List Char) : Prop := ∀ c ∈ rest.head?, c.isDigit = false

theorem endsNumeral_nil : EndsNumeral [] := by simp [EndsNumeral]

theorem endsNumeral_space (s : List Char) : EndsNumeral (' ' :: s) := by simp [EndsNumeral]

theorem not_isSpace_of_isDigit (h : c.isDigit = true) : isSpace c = false := by
  have hrange : 48 ≤ c.toNat := (Char.isDigit_iff_toNat.mp h).1
  have hne : ∀ d : Char, d.toNat < 48 → c ≠ d := by
    rintro d hd rfl
    omega
  simp [isSpace, hne ' ' (by decide), hne '\t' (by decide), hne '\n' (by decide),
    hne '\x0b' (by decide), hne '\x0c' (by decide), hne '\r' (by decide)]

theorem isWord_literal (l : Literal) : IsWord l.text := by
  refine ⟨l.text_ne_nil, fun c hc => ?_⟩
  rcases Literal.mem_text hc with rfl | rfl | hdigit
  · decide
  · decide
  · exact not_isSpace_of_isDigit hdigit

theorem readSign_text (l : Literal) (rest : List Char) :
    readSign (l.text ++ rest) = (l.sign, l.digits ++ rest) := by
  rw [Literal.text]
  cases hs : l.sign with
  | plus => rfl
  | minus => rfl
  | absent =>
      cases hd : l.digits with
      | nil => exact absurd hd l.nonempty
      | cons c digits =>
          have hc : c.isDigit = true := l.digit c (by simp [hd])
          simp only [Sign.text, List.nil_append, List.cons_append]
          rw [readSign]
          · rintro t ⟨⟩
            exact absurd hc (by decide)
          · rintro t ⟨⟩
            exact absurd hc (by decide)

theorem readInt_literal (l : Literal) (hrest : EndsNumeral rest) :
    readInt (l.text ++ rest) = some (l.value, rest) := by
  obtain ⟨htake, hdrop⟩ := span_append l.digit hrest
  rw [readInt, (isWord_literal l).dropWhile, readSign_text]
  simp only [htake, hdrop, if_neg l.nonempty]
  rfl

theorem readLong_literal {l : Literal} (hfits : Fits l.value) (hrest : EndsNumeral rest) :
    readLong (l.text ++ rest) = some (Int64.ofInt l.value, rest) := by
  rw [readLong, readInt_literal l hrest]
  exact if_pos hfits

theorem strtol_literal {l : Literal} (hfits : Fits l.value) :
    strtol l.text = Int64.ofInt l.value := by
  have hread := readInt_literal l endsNumeral_nil
  rw [List.append_nil] at hread
  rw [strtol, hread]
  dsimp only
  rw [if_neg (not_lt.mpr hfits.1), if_neg (not_le.mpr hfits.2)]

theorem strtol_print (i : Int64) : strtol (print i.toInt) = i := by
  have hfits : Fits (Literal.ofInt i.toInt).value := by
    rw [Literal.value_ofInt]
    exact fits_toInt i
  rw [print, strtol_literal hfits, Literal.value_ofInt, Int64.ofInt_toInt]

theorem print_injective {i j : ℤ} (h : print i = print j) : i = j := by
  have hi := readInt_literal (Literal.ofInt i) endsNumeral_nil
  have hj := readInt_literal (Literal.ofInt j) endsNumeral_nil
  rw [print, print] at h
  rw [h, hj] at hi
  simpa using hi.symm

/-! ### Lines -/

theorem span_line (h : '\n' ∉ w) (hrest : ∀ c ∈ rest.head?, c = '\n') :
    (w ++ rest).takeWhile (· ≠ '\n') = w ∧ (w ++ rest).dropWhile (· ≠ '\n') = rest := by
  refine span_append (fun c hc => ?_) (fun c hc => ?_)
  · have hne : c ≠ '\n' := ne_of_mem_of_not_mem hc h
    simpa using hne
  · simpa using hrest c hc

/-- The first line of a text, when the next one follows it or nothing does. -/
theorem readLine_append (h : '\n' ∉ w) (hne : w ≠ []) (hrest : ∀ c ∈ rest.head?, c = '\n') :
    readLine (w ++ rest) = some (w, rest.drop 1) := by
  obtain ⟨htake, hdrop⟩ := span_line h hrest
  rw [readLine, if_neg (List.append_ne_nil_of_left_ne_nil hne _), htake, hdrop]

end Scan
