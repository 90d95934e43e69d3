import ObjectLiteral.Proofs.Number.Reader
import ObjectLiteral.Proofs.Number.Shortest
/-!
The layout of decimals.  Each of the four layouts cuts the digits where there are digits and adds
zeros where some are missing, so a decimal is written as exactly the number that it denotes: in
plain from `10 ^ (-6)` up to `10 ^ 21`, and with an exponent otherwise.
-/

namespace ObjectLiteral.Decimal

open Numeral

/-- The place of the decimal point in the digits of a decimal. -/
def place (d : Decimal) : Int :=
  d.length + d.exponent

/-- How a decimal is laid out.  Counts of digits and of zeros are what they should be: nothing is
cut out of range, and no count is below zero. -/
inductive Laid (d : Decimal) : List Char → Prop
  /-- A whole number, with the zeros that are missing. -/
  | whole (zeros : Nat) (hzeros : d.exponent = zeros) (hplace : d.place ≤ 21) :
      Laid d (digits d.coefficient ++ List.replicate zeros '0')
  /-- A point among the digits. -/
  | split (front back : List Char) (hdigits : digits d.coefficient = front ++ back)
      (hfront : front ≠ []) (hback : back ≠ []) (hexponent : d.exponent = -back.length)
      (hplace : d.place ≤ 21) : Laid d (front ++ '.' :: back)
  /-- A point in front of the digits, and zeros between them. -/
  | small (zeros : Nat) (hzeros : d.place = -zeros) (hplace : -6 < d.place) :
      Laid d ('0' :: '.' :: List.replicate zeros '0' ++ digits d.coefficient)
  /-- One digit in front of the point, and an exponent. -/
  | scientific (lead : Char) (rest : List Char) (hdigits : digits d.coefficient = lead :: rest)
      (hplace : d.place ≤ -6 ∨ 21 < d.place) :
      Laid d (pointed [lead] rest ++ exponentMark (d.place - 1))

/-- The text of a decimal is laid out so. -/
theorem laid_text (d : Decimal) : d.Laid d.text.toList := by
  have hplace : d.place = (digits d.coefficient).length + d.exponent := rfl
  have hlength := length_digits_pos d.coefficient
  simp only [text, String.toList_ofList, lastPlace, firstPlace, ← hplace]
  split
  · rename_i hwhole
    exact .whole d.exponent.toNat (by omega) hwhole.1
  split
  · rename_i hnot hsplit
    have hlt : d.place.toNat < (digits d.coefficient).length := by omega
    refine .split _ _ (List.take_append_drop d.place.toNat _).symm ?_ ?_ ?_ hsplit.1
    · rw [ne_eq, ← List.length_eq_zero_iff, List.length_take]
      omega
    · rw [ne_eq, ← List.length_eq_zero_iff, List.length_drop]
      omega
    · rw [List.length_drop]
      omega
  split
  · rename_i hsmall
    exact .small (-d.place).toNat (by omega) (by omega)
  · rename_i hwhole hsplit hsmall
    obtain ⟨lead, rest, hdigits⟩ := List.exists_cons_of_ne_nil (digits_ne_nil d.coefficient)
    have hform : (digits d.coefficient).take 1 ++ (if (digits d.coefficient).length = 1 then []
        else '.' :: (digits d.coefficient).drop 1) = pointed [lead] rest := by
      cases rest <;> simp [hdigits, pointed]
    rw [hform]
    exact .scientific lead rest hdigits (by omega)

section Range

variable {d : Decimal}

/-- The place says between which powers of ten a decimal lies. -/
theorem value_bounds (hpos : 0 < d.coefficient) :
    (10 : ℚ) ^ (d.place - 1) ≤ d.value ∧ d.value < 10 ^ d.place := by
  have hscale := ten_zpow_pos d.exponent
  have hlength : 0 < d.length := length_digits_pos _
  constructor
  · have hle : ((10 ^ (d.length - 1) : ℕ) : ℚ) ≤ d.coefficient := by
      exact_mod_cast ten_pow_le hpos
    have hpower : (10 : ℚ) ^ (d.place - 1) = (10 ^ (d.length - 1) : ℕ) * 10 ^ d.exponent := by
      push_cast
      rw [← zpow_natCast, ← zpow_add₀ (by norm_num)]
      congr 1
      simp only [place]
      omega
    rw [hpower]
    exact mul_le_mul_of_nonneg_right hle (le_of_lt hscale)
  · have hlt : (d.coefficient : ℚ) < 10 ^ d.length := by
      exact_mod_cast lt_ten_pow_length d.coefficient
    rw [place, zpow_add₀ (by norm_num), zpow_natCast]
    exact mul_lt_mul_of_pos_right hlt hscale

theorem value_lt_iff (hpos : 0 < d.coefficient) (e : ℤ) : d.value < 10 ^ e ↔ d.place ≤ e := by
  obtain ⟨hlower, hupper⟩ := value_bounds hpos
  constructor
  · intro hlt
    have hpower := lt_of_le_of_lt hlower hlt
    rw [zpow_lt_zpow_iff_right₀ (by norm_num)] at hpower
    omega
  · intro hle
    exact lt_of_lt_of_le hupper (zpow_le_zpow_right₀ (by norm_num) hle)

/-- The numbers that are written in plain. -/
theorem plain_range_iff (hpos : 0 < d.coefficient) :
    (10 : ℚ) ^ (-6 : ℤ) ≤ d.value ∧ d.value < 10 ^ (21 : ℤ) ↔ -6 < d.place ∧ d.place ≤ 21 := by
  rw [value_lt_iff hpos, ← not_lt, value_lt_iff hpos, not_le]

/-- A decimal without a zero at its end is a whole number if it has no decimal places. -/
theorem isInt_value_iff (hzero : d.coefficient % 10 ≠ 0) :
    (∃ z : ℤ, d.value = z) ↔ 0 ≤ d.exponent := by
  constructor
  · rintro ⟨z, hz⟩
    by_contra hneg
    obtain ⟨k, hk⟩ : ∃ k : ℕ, d.exponent = -(k + 1 : ℕ) := ⟨(-d.exponent - 1).toNat, by omega⟩
    rw [value, hk, zpow_neg, zpow_natCast, ← div_eq_mul_inv, div_eq_iff (by positivity)] at hz
    have hcast : (d.coefficient : ℤ) = z * 10 ^ (k + 1) := by exact_mod_cast hz
    rw [pow_succ, ← mul_assoc] at hcast
    generalize z * 10 ^ k = w at hcast
    omega
  · intro hle
    obtain ⟨k, hk⟩ := Int.eq_ofNat_of_zero_le hle
    refine ⟨d.coefficient * 10 ^ k, ?_⟩
    rw [value, hk, zpow_natCast]
    push_cast
    rfl

end Range

/-- A decimal is written: in plain exactly from `10 ^ (-6)` up to `10 ^ 21`, with a point exactly if
it is not whole there, and otherwise with an exponent; and what is written denotes it. -/
structure Written (d : Decimal) (cs : List Char) : Prop where
  laid : d.Laid cs
  plain_iff : Plain cs ↔ (10 : ℚ) ^ (-6 : ℤ) ≤ d.value ∧ d.value < 10 ^ (21 : ℤ)
  scientific_iff : Scientific cs ↔
    ¬ ((10 : ℚ) ^ (-6 : ℤ) ≤ d.value ∧ d.value < 10 ^ (21 : ℤ))
  point_iff : Plain cs → ('.' ∈ cs ↔ ¬ ∃ z : ℤ, d.value = z)
  unsigned : cs.head? ≠ some '-'
  read : readUnsigned? cs = some d.value

section Forms

variable {d : Decimal} {cs : List Char}

theorem getLast?_digits {n : Nat} (hzero : n % 10 ≠ 0) : (digits n).getLast? ≠ some '0' := by
  have hlast : (n % 10).digitChar ≠ '0' := digitChar_ne_zero (by omega) (by omega)
  rcases Nat.lt_or_ge n 10 with hlt | hge
  · rw [digits_of_lt hlt]
    simpa [Nat.mod_eq_of_lt hlt] using hlast
  · simpa [digits_of_le hge] using hlast

theorem getLast?_of_append {front back : List Char} {c : Char} (hne : back ≠ [])
    (hlast : (front ++ back).getLast? ≠ some c) : back.getLast? ≠ some c := by
  rwa [List.getLast?_append_of_ne_nil _ hne] at hlast

/-- The number that the digits of a decimal denote with a point `k` digits from their end. -/
theorem scaled_eq_value {whole fraction : List Char} {e : ℤ}
    (hdigits : Nat.ofDigitChars 10 (whole ++ fraction) 0 = d.coefficient)
    (hexponent : d.exponent = e - fraction.length) :
    scaled whole fraction * 10 ^ e = d.value := by
  rw [scaled, hdigits, value, hexponent, zpow_sub₀ (by norm_num), zpow_natCast]
  ring

theorem ofDigitChars_digits (n : Nat) : Nat.ofDigitChars 10 (digits n) 0 = n :=
  Nat.ofDigitChars_ten_toDigits

/-- A decimal that is laid out in plain. -/
structure PlainForm (d : Decimal) (whole fraction : List Char) : Prop where
  range : -6 < d.place ∧ d.place ≤ 21
  canonical : isCanonical whole = true
  is_fraction : IsFraction fraction
  value : scaled whole fraction = d.value
  whole_iff : fraction = [] ↔ 0 ≤ d.exponent

/-- A decimal that is laid out with an exponent. -/
structure ScientificForm (d : Decimal) (lead : Char) (fraction : List Char) : Prop where
  range : ¬ (-6 < d.place ∧ d.place ≤ 21)
  digit : lead.isDigit = true
  lead_ne : lead ≠ '0'
  is_fraction : IsFraction fraction
  value : scaled [lead] fraction * 10 ^ (d.place - 1) = d.value

theorem isDigit_zeros_append {digits : List Char} (hdigits : ∀ c ∈ digits, c.isDigit = true)
    (zeros : Nat) : ∀ c ∈ List.replicate zeros '0' ++ digits, c.isDigit = true := by
  intro c hc
  rcases List.mem_append.mp hc with hadded | hdigit
  · simp [List.eq_of_mem_replicate hadded]
  · exact hdigits c hdigit

/-- With the zeros that are missing at their end the digits are a whole number. -/
theorem PlainForm.whole (hpos : 0 < d.coefficient) {zeros : Nat} (hzeros : d.exponent = zeros)
    (hplace : d.place ≤ 21) :
    d.PlainForm (digits d.coefficient ++ List.replicate zeros '0') [] := by
  have hne := digits_ne_nil d.coefficient
  have hlength := length_digits_pos d.coefficient
  have hpoint : d.place = (digits d.coefficient).length + d.exponent := rfl
  refine ⟨by omega, ?_, ⟨by simp, by simp⟩, ?_, by simp [hzeros]⟩
  · apply isCanonical_of_head?
    · intro c hc
      rw [List.mem_append, or_comm, ← List.mem_append] at hc
      exact isDigit_zeros_append (fun _ => isDigit_of_mem_digits) zeros c hc
    · simp [hne]
    · rw [List.head?_append_of_ne_nil _ hne]
      exact head?_digits_ne_zero hpos
  · simp [scaled, Nat.ofDigitChars_append, ofDigitChars_digits, Decimal.value, hzeros, mul_comm]

/-- A point among the digits leaves a whole part and a fraction. -/
theorem PlainForm.split (hpos : 0 < d.coefficient) (hzero : d.coefficient % 10 ≠ 0)
    {front back : List Char} (hdigits : digits d.coefficient = front ++ back) (hfront : front ≠ [])
    (hback : back ≠ []) (hexponent : d.exponent = -back.length) (hplace : d.place ≤ 21) :
    d.PlainForm front back := by
  have hall : ∀ c ∈ front ++ back, c.isDigit = true := fun _ hc =>
    isDigit_of_mem_digits (hdigits ▸ hc)
  have hhead := hdigits ▸ head?_digits_ne_zero hpos
  have hlast := hdigits ▸ getLast?_digits hzero
  have hvalue := hdigits ▸ ofDigitChars_digits d.coefficient
  have hbefore : 0 < front.length := List.length_pos_iff.mpr hfront
  have hafter : 0 < back.length := List.length_pos_iff.mpr hback
  have hpoint : d.place = (digits d.coefficient).length + d.exponent := rfl
  rw [hdigits, List.length_append] at hpoint
  refine ⟨by omega, ?_, ⟨?_, ?_⟩, ?_, ?_⟩
  · apply isCanonical_of_head? (fun c hc => hall c (List.mem_append_left _ hc)) hfront
    rwa [List.head?_append_of_ne_nil _ hfront] at hhead
  · exact fun c hc => hall c (List.mem_append_right _ hc)
  · exact getLast?_of_append hback hlast
  · have hscaled := scaled_eq_value (e := 0) hvalue (by omega)
    simpa using hscaled
  · simp [hback]
    omega

/-- With zeros in front of them all digits are a fraction. -/
theorem PlainForm.small (hzero : d.coefficient % 10 ≠ 0) {zeros : Nat} (hzeros : d.place = -zeros)
    (hplace : -6 < d.place) :
    d.PlainForm ['0'] (List.replicate zeros '0' ++ digits d.coefficient) := by
  have hne := digits_ne_nil d.coefficient
  have hlength := length_digits_pos d.coefficient
  have hpoint : d.place = (digits d.coefficient).length + d.exponent := rfl
  refine ⟨by omega, by decide, ⟨?_, ?_⟩, ?_, ?_⟩
  · exact isDigit_zeros_append (fun _ => isDigit_of_mem_digits) zeros
  · rw [List.getLast?_append_of_ne_nil _ hne]
    exact getLast?_digits hzero
  · have hscaled : scaled ['0'] (List.replicate zeros '0' ++ digits d.coefficient) *
        10 ^ (0 : ℤ) = d.value := by
      apply scaled_eq_value
      · simp [Nat.ofDigitChars_cons, Nat.ofDigitChars_append, ofDigitChars_digits]
      · rw [List.length_append, List.length_replicate]
        omega
    simpa using hscaled
  · simp [hne]
    omega

/-- The digits behind the first one are the fraction of a numeral with an exponent. -/
theorem ScientificForm.of_digits (hpos : 0 < d.coefficient) (hzero : d.coefficient % 10 ≠ 0)
    {lead : Char} {rest : List Char} (hdigits : digits d.coefficient = lead :: rest)
    (hplace : d.place ≤ -6 ∨ 21 < d.place) : d.ScientificForm lead rest := by
  have hall : ∀ c ∈ lead :: rest, c.isDigit = true := fun _ hc =>
    isDigit_of_mem_digits (hdigits ▸ hc)
  have hhead := hdigits ▸ head?_digits_ne_zero hpos
  have hlast := hdigits ▸ getLast?_digits hzero
  have hvalue := hdigits ▸ ofDigitChars_digits d.coefficient
  have hpoint : d.place = (digits d.coefficient).length + d.exponent := rfl
  refine ⟨by omega, hall lead (by simp), by simpa using hhead, ⟨?_, ?_⟩, ?_⟩
  · exact fun c hc => hall c (List.mem_cons_of_mem _ hc)
  · cases rest with
    | nil => simp
    | cons c cs =>
        exact getLast?_of_append (by simp)
          (show ([lead] ++ c :: cs).getLast? ≠ some '0' from hlast)
  · apply scaled_eq_value hvalue
    rw [hpoint, hdigits, List.length_cons]
    push_cast
    ring

/-- Each layout of a decimal without a zero at its end is of one of the two forms. -/
theorem Laid.form (hlaid : d.Laid cs) (hpos : 0 < d.coefficient) (hzero : d.coefficient % 10 ≠ 0) :
    (∃ whole fraction, cs = pointed whole fraction ∧ d.PlainForm whole fraction) ∨
      ∃ lead fraction, cs = pointed [lead] fraction ++ exponentMark (d.place - 1) ∧
        d.ScientificForm lead fraction := by
  cases hlaid with
  | whole zeros hzeros hplace =>
      exact Or.inl ⟨_, [], by simp [pointed], .whole hpos hzeros hplace⟩
  | split front back hdigits hfront hback hexponent hplace =>
      refine Or.inl ⟨front, back, by simp [pointed, hback], ?_⟩
      exact .split hpos hzero hdigits hfront hback hexponent hplace
  | small zeros hzeros hplace =>
      exact Or.inl ⟨['0'], _, by simp [pointed, digits_ne_nil], .small hzero hzeros hplace⟩
  | scientific lead rest hdigits hplace =>
      exact Or.inr ⟨lead, rest, rfl, .of_digits hpos hzero hdigits hplace⟩

end Forms

/-- What is laid out is written. -/
theorem Laid.written {d : Decimal} {cs : List Char} (hlaid : d.Laid cs) (hpos : 0 < d.coefficient)
    (hzero : d.coefficient % 10 ≠ 0) : d.Written cs := by
  have hrange := plain_range_iff hpos
  have hwhole := isInt_value_iff hzero
  rcases hlaid.form hpos hzero with ⟨whole, fraction, rfl, hform⟩ | ⟨lead, fraction, rfl, hform⟩
  · have hdigits := isDigit_of_isCanonical hform.canonical
    have hne : whole ≠ [] := by
      rintro rfl
      exact absurd hform.canonical (by decide)
    have hplain : Plain (pointed whole fraction) :=
      ⟨whole, fraction, rfl, hform.canonical, hform.is_fraction⟩
    refine ⟨hlaid, ?_, ?_, ?_, ?_, ?_⟩
    · simp only [hplain, hrange, hform.range]
      simp
    · have hnot : ¬ Scientific (pointed whole fraction) := fun h => hplain.not_mem h.mem
      simp only [hnot, hrange, hform.range]
      simp
    · intro _
      rw [point_mem_pointed_iff hdigits, hwhole, ← hform.whole_iff]
    · simpa using head?_pointed_append hdigits hne []
    · rw [readUnsigned?_pointed hdigits hne hform.is_fraction.digits, hform.value]
  · have hdigits : ∀ c ∈ [lead], c.isDigit = true := by simpa using hform.digit
    have hscientific : Scientific (pointed [lead] fraction ++ exponentMark (d.place - 1)) :=
      ⟨lead, fraction, _, rfl, hform.digit, hform.lead_ne, hform.is_fraction⟩
    have hnot : ¬ Plain (pointed [lead] fraction ++ exponentMark (d.place - 1)) :=
      fun h => h.not_mem hscientific.mem
    refine ⟨hlaid, ?_, ?_, fun h => absurd h hnot, ?_, ?_⟩
    · simp only [hnot, hrange, hform.range]
    · simp only [hscientific, hrange, hform.range]
      simp
    · exact head?_pointed_append hdigits (by simp) _
    · rw [readUnsigned?_scientific hdigits (by simp) hform.is_fraction.digits, hform.value]

end ObjectLiteral.Decimal
