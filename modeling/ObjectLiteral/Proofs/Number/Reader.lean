import Mathlib.Algebra.Order.Ring.Rat
import Mathlib.Tactic.FieldSimp
import Mathlib.Tactic.Ring
import ObjectLiteral.Number.Decimal
import ObjectLiteral.Proofs.Text.Numeral
/-!
Reading decimal numerals.  The reader takes any whole part, with or without a fraction and an
exponent of ten; the two forms in which doubles are written are among what it reads.
-/

namespace ObjectLiteral.Numeral

open Decimal (exponentMark)

/-- The text before the first occurrence of a character, and the text after it if there is one. -/
def splitAt (mark : Char) : List Char → List Char × Option (List Char)
  | [] => ([], none)
  | c :: cs =>
    if c = mark then ([], some cs)
    else (c :: (splitAt mark cs).1, (splitAt mark cs).2)

/-- The number that digits denote, with zeros in front or not. -/
def readDigits? (cs : List Char) : Option ℕ :=
  if cs ≠ [] ∧ cs.all Char.isDigit then some (Nat.ofDigitChars 10 cs 0) else none

/-- The number that digits denote, with a point between them or not. -/
def readPointed? (cs : List Char) : Option ℚ :=
  match splitAt '.' cs with
  | (whole, none) => (readDigits? whole).map fun a : ℕ => (a : ℚ)
  | (whole, some fraction) => do
    let a ← readDigits? whole
    let b ← readDigits? fraction
    pure (a + b / 10 ^ fraction.length)

/-- The exponent that digits denote, with a sign in front or not. -/
def readExponent? : List Char → Option ℤ
  | '+' :: cs => (readDigits? cs).map fun n : ℕ => (n : ℤ)
  | '-' :: cs => (readDigits? cs).map fun n : ℕ => -(n : ℤ)
  | cs => (readDigits? cs).map fun n : ℕ => (n : ℤ)

/-- The number that a numeral without a sign denotes. -/
def readUnsigned? (cs : List Char) : Option ℚ :=
  match splitAt 'e' cs with
  | (front, none) => readPointed? front
  | (front, some back) => do
    let q ← readPointed? front
    let e ← readExponent? back
    pure (q * 10 ^ e)

def readDecimal? : List Char → Option ℚ
  | '-' :: cs => (readUnsigned? cs).map fun q => -q
  | cs => readUnsigned? cs

/-- A whole part, and a fraction behind a point unless it is empty. -/
def pointed (whole fraction : List Char) : List Char :=
  whole ++ if fraction = [] then [] else '.' :: fraction

/-- The number that digits denote if the last ones stand behind a point. -/
def scaled (whole fraction : List Char) : ℚ :=
  (Nat.ofDigitChars 10 (whole ++ fraction) 0 : ℕ) / 10 ^ fraction.length

/-- Digits that may stand behind a point: there is no zero at their end. -/
structure IsFraction (cs : List Char) : Prop where
  digits : ∀ c ∈ cs, c.isDigit = true
  no_zero : cs.getLast? ≠ some '0'

/-- A plain numeral has a whole part without a superfluous zero, and no point if it is whole. -/
def Plain (cs : List Char) : Prop :=
  ∃ whole fraction, cs = pointed whole fraction ∧ isCanonical whole = true ∧ IsFraction fraction

/-- A numeral with an exponent has one digit in front of the point, which is no zero, and a sign in
front of the exponent. -/
def Scientific (cs : List Char) : Prop :=
  ∃ lead fraction e, cs = pointed [lead] fraction ++ exponentMark e ∧ lead.isDigit = true ∧
    lead ≠ '0' ∧ IsFraction fraction

section Split

variable {mark : Char} {cs : List Char}

theorem splitAt_of_not_mem (hcs : mark ∉ cs) : splitAt mark cs = (cs, none) := by
  induction cs with
  | nil => rfl
  | cons c cs ih =>
      simp only [List.mem_cons, not_or] at hcs
      simp [splitAt, Ne.symm hcs.1, ih hcs.2]

theorem splitAt_append (hcs : mark ∉ cs) (rest : List Char) :
    splitAt mark (cs ++ mark :: rest) = (cs, some rest) := by
  induction cs with
  | nil => simp [splitAt]
  | cons c cs ih =>
      simp only [List.mem_cons, not_or] at hcs
      simp [splitAt, Ne.symm hcs.1, ih hcs.2]

end Split

section Forms

variable {whole fraction : List Char}

theorem not_mem_of_digits {cs : List Char} {mark : Char} (hcs : ∀ c ∈ cs, c.isDigit = true)
    (hmark : mark.isDigit = false) : mark ∉ cs := by
  intro hmem
  have hdigit := hcs mark hmem
  simp [hmark] at hdigit

theorem readDigits?_of_digits {cs : List Char} (hcs : ∀ c ∈ cs, c.isDigit = true) (hne : cs ≠ []) :
    readDigits? cs = some (Nat.ofDigitChars 10 cs 0) :=
  if_pos ⟨hne, List.all_eq_true.mpr hcs⟩

/-- Of a pointed numeral the digits are read as if there were no point, and then scaled. -/
theorem readPointed?_pointed (hwhole : ∀ c ∈ whole, c.isDigit = true) (hne : whole ≠ [])
    (hfraction : ∀ c ∈ fraction, c.isDigit = true) :
    readPointed? (pointed whole fraction) =
      some (scaled whole fraction) := by
  have hpoint : '.' ∉ whole := not_mem_of_digits hwhole (by decide)
  by_cases hempty : fraction = []
  · simp [readPointed?, pointed, scaled, hempty, splitAt_of_not_mem hpoint,
      readDigits?_of_digits hwhole hne]
  · have hvalue : scaled whole fraction = (Nat.ofDigitChars 10 whole 0 : ℕ) +
        (Nat.ofDigitChars 10 fraction 0 : ℕ) / (10 ^ fraction.length : ℚ) := by
      rw [scaled, Nat.ofDigitChars_append, Nat.ofDigitChars_eq_ofDigitChars_zero]
      push_cast
      field_simp
    simp [readPointed?, pointed, hempty, splitAt_append hpoint,
      readDigits?_of_digits hwhole hne, readDigits?_of_digits hfraction hempty, hvalue]

theorem mem_pointed {c : Char} (hc : c ∈ pointed whole fraction) :
    c ∈ whole ∨ c = '.' ∨ c ∈ fraction := by
  unfold pointed at hc
  split at hc <;> simp_all

/-- There is a point only in front of a fraction. -/
theorem point_mem_pointed_iff (hwhole : ∀ c ∈ whole, c.isDigit = true) :
    '.' ∈ pointed whole fraction ↔ fraction ≠ [] := by
  have hpoint : '.' ∉ whole := not_mem_of_digits hwhole (by decide)
  by_cases hempty : fraction = [] <;> simp [pointed, hempty, hpoint]

theorem not_mem_pointed (hwhole : ∀ c ∈ whole, c.isDigit = true)
    (hfraction : ∀ c ∈ fraction, c.isDigit = true) {mark : Char} (hmark : mark.isDigit = false)
    (hpoint : mark ≠ '.') : mark ∉ pointed whole fraction := by
  intro hmem
  rcases mem_pointed hmem with hw | heq | hf
  · exact not_mem_of_digits hwhole hmark hw
  · exact hpoint heq
  · exact not_mem_of_digits hfraction hmark hf

theorem head?_pointed_append (hwhole : ∀ c ∈ whole, c.isDigit = true) (hne : whole ≠ [])
    (rest : List Char) : (pointed whole fraction ++ rest).head? ≠ some '-' := by
  obtain ⟨c, cs, rfl⟩ := List.exists_cons_of_ne_nil hne
  have hdigit := hwhole c (by simp)
  have hminus : c ≠ '-' := by
    rintro rfl
    exact absurd hdigit (by decide)
  simpa [pointed] using hminus

theorem readUnsigned?_pointed (hwhole : ∀ c ∈ whole, c.isDigit = true) (hne : whole ≠ [])
    (hfraction : ∀ c ∈ fraction, c.isDigit = true) :
    readUnsigned? (pointed whole fraction) =
      some (scaled whole fraction) := by
  have hmark : 'e' ∉ pointed whole fraction :=
    not_mem_pointed hwhole hfraction (by decide) (by decide)
  simp [readUnsigned?, splitAt_of_not_mem hmark, readPointed?_pointed hwhole hne hfraction]

theorem readExponent?_mark (e : ℤ) : readExponent? (exponentMark e).tail = some e := by
  have hdigits := readDigits?_of_digits (fun _ => isDigit_of_mem_digits) (digits_ne_nil e.natAbs)
  rw [digits, Nat.ofDigitChars_ten_toDigits, ← digits] at hdigits
  by_cases hneg : e < 0
  · have habs : -(e.natAbs : ℤ) = e := by omega
    rw [exponentMark, if_pos hneg, List.tail_cons, readExponent?, hdigits, Option.map_some, habs]
  · have habs : (e.natAbs : ℤ) = e := by omega
    rw [exponentMark, if_neg hneg, List.tail_cons, readExponent?, hdigits, Option.map_some, habs]

theorem readUnsigned?_scientific (hwhole : ∀ c ∈ whole, c.isDigit = true) (hne : whole ≠ [])
    (hfraction : ∀ c ∈ fraction, c.isDigit = true) (e : ℤ) :
    readUnsigned? (pointed whole fraction ++ exponentMark e) =
      some (scaled whole fraction * 10 ^ e) := by
  have hmark : 'e' ∉ pointed whole fraction :=
    not_mem_pointed hwhole hfraction (by decide) (by decide)
  have hsplit : exponentMark e = 'e' :: (exponentMark e).tail := rfl
  rw [hsplit, readUnsigned?, splitAt_append hmark]
  simp [readPointed?_pointed hwhole hne hfraction, readExponent?_mark]

/-- A sign in front of a numeral that starts with a digit. -/
theorem readDecimal?_of_digit {cs : List Char} (hcs : cs.head? ≠ some '-') :
    readDecimal? cs = readUnsigned? cs ∧
      readDecimal? ('-' :: cs) = (readUnsigned? cs).map fun q => -q := by
  refine ⟨?_, rfl⟩
  unfold readDecimal?
  split
  · simp at hcs
  · rfl

end Forms

theorem Plain.not_mem {cs : List Char} (hplain : Plain cs) : 'e' ∉ cs := by
  obtain ⟨whole, fraction, rfl, hcanonical, hfraction⟩ := hplain
  exact not_mem_pointed (isDigit_of_isCanonical hcanonical) hfraction.digits (by decide) (by decide)

theorem Scientific.mem {cs : List Char} (hscientific : Scientific cs) : 'e' ∈ cs := by
  obtain ⟨lead, fraction, e, rfl, -⟩ := hscientific
  simp [exponentMark]

end ObjectLiteral.Numeral
