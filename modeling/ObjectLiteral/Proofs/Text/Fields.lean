import Mathlib.Data.String.Basic
import ObjectLiteral.Proofs.Text.Numeral
/-!
Fields of digits.  A field shows a number in a fixed width, and a row of fields has a mark behind
each of them.  A row of known widths can be read in one way only, and rows of the same widths and
marks are ordered as texts just as their numbers are, from the left.
-/

namespace ObjectLiteral.Numeral

/-- `IsField width n cs`: the digits `cs`, as many as the width, show `n`. -/
structure IsField (width n : Nat) (cs : List Char) : Prop where
  length : cs.length = width
  digits : ∀ c ∈ cs, c.isDigit = true
  value : Nat.ofDigitChars 10 cs 0 = n

/-- `IsRow shape ns cs`: `cs` shows the numbers one after the other, each in a field of the width and
with the mark behind it that the shape gives. -/
inductive IsRow : List (Nat × Char) → List Nat → List Char → Prop
  | nil : IsRow [] [] []
  | cons {width n : Nat} {mark : Char} {shape : List (Nat × Char)} {ns : List Nat}
      {front rest : List Char} (hfield : IsField width n front) (hrest : IsRow shape ns rest) :
      IsRow ((width, mark) :: shape) (n :: ns) (front ++ mark :: rest)

theorem isField_padded {width n : Nat} (hwidth : 0 < width) (hn : n < 10 ^ width) :
    IsField width n (padded width n).toList := by
  have hlength := (length_digits_le_iff hwidth).mpr hn
  rw [padded, String.toList_ofList]
  refine ⟨?_, ?_, ?_⟩
  · rw [List.length_append, List.length_replicate]
    omega
  · intro c hc
    rcases List.mem_append.mp hc with hzero | hdigit
    · rw [List.eq_of_mem_replicate hzero]
      rfl
    · exact isDigit_of_mem_digits hdigit
  · rw [Nat.ofDigitChars_append, Nat.ofDigitChars_replicate_zero, Nat.mul_zero]
    exact Nat.ofDigitChars_ten_toDigits

/-- No digit is a mark. -/
theorem IsField.head?_ne {width n : Nat} {cs rest : List Char} {mark : Char}
    (hfield : IsField width n cs) (hwidth : 0 < width) (hmark : mark.isDigit = false) :
    (cs ++ rest).head? ≠ some mark := by
  intro hhead
  have hpos := hfield.length ▸ hwidth
  obtain ⟨c, cs, rfl⟩ := List.exists_cons_of_length_pos hpos
  obtain rfl : c = mark := Option.some.inj hhead
  have hdigit := hfield.digits c List.mem_cons_self
  rw [hmark] at hdigit
  contradiction

/-- Numbers are ordered by what stands before their remainders first. -/
theorem radix_lt_iff {base x y a b : Nat} (ha : a < base) (hb : b < base) :
    base * x + a < base * y + b ↔ x < y ∨ x = y ∧ a < b := by
  rcases Nat.lt_trichotomy x y with hlt | rfl | hgt
  · have hstep := Nat.mul_le_mul_left base hlt
    rw [Nat.mul_succ] at hstep
    omega
  · omega
  · have hstep := Nat.mul_le_mul_left base hgt
    rw [Nat.mul_succ] at hstep
    omega

theorem digit_eq_iff {c d : Char} (hc : c.isDigit = true) (hd : d.isDigit = true) :
    c.toNat - '0'.toNat = d.toNat - '0'.toNat ↔ c = d := by
  refine ⟨fun hsame => ?_, fun hsame => by rw [hsame]⟩
  have hdigits := (digits_toNat_sub hc).2
  rw [hsame, (digits_toNat_sub hd).2] at hdigits
  exact (List.singleton_inj.mp hdigits).symm

theorem digit_lt_iff {c d : Char} (hc : c.isDigit = true) (hd : d.isDigit = true) :
    c.toNat - '0'.toNat < d.toNat - '0'.toNat ↔ c < d := by
  have hcode : c < d ↔ c.toNat < d.toNat := Char.lt_def.trans UInt32.lt_iff_toNat_lt
  have hbound : ∀ {b : Char}, b.isDigit = true → 48 ≤ b.toNat := by
    intro b hb
    simp only [Char.isDigit, Bool.and_eq_true, decide_eq_true_eq, ge_iff_le,
      UInt32.le_iff_toNat_le] at hb
    exact hb.1
  have hc' := hbound hc
  have hd' := hbound hd
  rw [hcode]
  change c.toNat - 48 < d.toNat - 48 ↔ c.toNat < d.toNat
  omega

theorem ofDigitChars_lt {cs : List Char} (hcs : ∀ c ∈ cs, c.isDigit = true) :
    Nat.ofDigitChars 10 cs 0 < 10 ^ cs.length := by
  induction cs with
  | nil => exact Nat.one_pos
  | cons c cs ih =>
      obtain ⟨hc, hrest⟩ := List.forall_mem_cons.mp hcs
      have hdigit := (digits_toNat_sub hc).1
      have hbelow := ih hrest
      rw [Nat.ofDigitChars_cons, Nat.ofDigitChars_eq_ofDigitChars_zero, Nat.mul_zero,
        Nat.zero_add, List.length_cons, Nat.pow_succ]
      have hstep := Nat.mul_le_mul_left (10 ^ cs.length) (Nat.succ_le_of_lt hdigit)
      rw [Nat.mul_succ] at hstep
      omega

/-- Of as many digits each the greater number has the later text. -/
theorem ofDigitChars_lt_iff {cs ds : List Char} (hlength : cs.length = ds.length)
    (hcs : ∀ c ∈ cs, c.isDigit = true) (hds : ∀ d ∈ ds, d.isDigit = true) :
    Nat.ofDigitChars 10 cs 0 < Nat.ofDigitChars 10 ds 0 ↔ cs < ds := by
  induction cs generalizing ds with
  | nil =>
      obtain rfl := List.length_eq_zero_iff.mp hlength.symm
      simp
  | cons c cs ih =>
      obtain ⟨d, ds, rfl⟩ := List.exists_cons_of_length_eq_add_one hlength.symm
      obtain ⟨hc, hcs⟩ := List.forall_mem_cons.mp hcs
      obtain ⟨hd, hds⟩ := List.forall_mem_cons.mp hds
      have hlength := Nat.succ.inj hlength
      have hbelow := ofDigitChars_lt hds
      rw [← hlength] at hbelow
      simp only [Nat.ofDigitChars_cons, Nat.mul_zero, Nat.zero_add]
      rw [Nat.ofDigitChars_eq_ofDigitChars_zero, Nat.ofDigitChars_eq_ofDigitChars_zero (l := ds),
        ← hlength, radix_lt_iff (ofDigitChars_lt hcs) hbelow, digit_lt_iff hc hd,
        digit_eq_iff hc hd, ih hlength hcs hds, List.cons_lt_cons_iff]

theorem IsField.lt_iff {width n m : Nat} {cs ds : List Char} (hn : IsField width n cs)
    (hm : IsField width m ds) : cs < ds ↔ n < m := by
  rw [← hn.value, ← hm.value]
  exact (ofDigitChars_lt_iff (hn.length.trans hm.length.symm) hn.digits hm.digits).symm

/-- A number stands in one way only in a field of given width. -/
theorem IsField.eq_iff {width n m : Nat} {cs ds : List Char} (hn : IsField width n cs)
    (hm : IsField width m ds) : cs = ds ↔ n = m := by
  constructor
  · rintro rfl
    exact hn.value.symm.trans hm.value
  · rintro rfl
    have hbefore : ¬ cs < ds := fun hlt => Nat.lt_irrefl n ((hn.lt_iff hm).mp hlt)
    have hafter : ¬ ds < cs := fun hlt => Nat.lt_irrefl n ((hm.lt_iff hn).mp hlt)
    exact List.le_antisymm hafter hbefore

/-- Texts that begin with as many characters each are ordered by these first. -/
theorem append_lt_append_iff {cs ds rest rest' : List Char} (hlength : cs.length = ds.length) :
    cs ++ rest < ds ++ rest' ↔ cs < ds ∨ cs = ds ∧ rest < rest' := by
  induction cs generalizing ds with
  | nil =>
      obtain rfl := List.length_eq_zero_iff.mp hlength.symm
      simp
  | cons c cs ih =>
      obtain ⟨d, ds, rfl⟩ := List.exists_cons_of_length_eq_add_one hlength.symm
      simp only [List.cons_append, List.cons_lt_cons_iff, List.cons.injEq,
        ih (Nat.succ.inj hlength)]
      tauto

/-- Between the same texts, texts of one length keep their order. -/
theorem between_lt_between_iff (opening closing : String) {s t : String}
    (hlength : s.toList.length = t.toList.length) :
    opening ++ s ++ closing < opening ++ t ++ closing ↔ s < t := by
  simp only [String.lt_iff_toList_lt, String.toList_append, List.append_assoc]
  rw [append_lt_append_iff rfl, append_lt_append_iff hlength]
  simp only [List.lt_irrefl, true_and, false_or, and_false, or_false]

/-- A row of known shape can be read in one way only. -/
theorem IsRow.numbers_eq {shape : List (Nat × Char)} {ns ms : List Nat} {cs : List Char}
    (hns : IsRow shape ns cs) (hms : IsRow shape ms cs) : ns = ms := by
  induction hns generalizing ms with
  | nil =>
      cases hms
      rfl
  | @cons width n mark shape ns front rest hfield _ ih =>
      generalize hcs : front ++ mark :: rest = cs at hms
      cases hms with
      | @cons _ m _ _ ms front' rest' hfield' hrest' =>
          obtain ⟨hfront, hrest⟩ :=
            List.append_inj hcs (hfield.length.trans hfield'.length.symm)
          rw [(hfield.eq_iff hfield').mp hfront]
          rw [← (List.cons.inj hrest).2] at hrest'
          rw [ih hrest']

theorem IsRow.length_eq {shape : List (Nat × Char)} {ns ms : List Nat} {cs ds : List Char}
    (hns : IsRow shape ns cs) (hms : IsRow shape ms ds) : cs.length = ds.length := by
  induction hns generalizing ms ds with
  | nil =>
      cases hms
      rfl
  | cons hfield _ ih =>
      cases hms with
      | cons hfield' hrest' =>
          rw [List.length_append, List.length_append, hfield.length, hfield'.length,
            List.length_cons, List.length_cons, ih hrest']

/-- A row begins with a digit. -/
theorem IsRow.head?_ne {width : Nat} {mark mark' : Char} {shape : List (Nat × Char)}
    {ns : List Nat} {cs : List Char} (hrow : IsRow ((width, mark') :: shape) ns cs)
    (hwidth : 0 < width) (hmark : mark.isDigit = false) : cs.head? ≠ some mark := by
  cases hrow with
  | cons hfield _ => exact hfield.head?_ne hwidth hmark

/-- Rows of one shape are ordered as their numbers. -/
theorem IsRow.lt_iff {shape : List (Nat × Char)} {ns ms : List Nat} {cs ds : List Char}
    (hns : IsRow shape ns cs) (hms : IsRow shape ms ds) : cs < ds ↔ ns < ms := by
  induction hns generalizing ms ds with
  | nil =>
      cases hms
      exact iff_of_false (List.not_lt_nil _) (List.not_lt_nil _)
  | @cons width n mark shape ns front rest hfield _ ih =>
      cases hms with
      | @cons _ m _ _ ms front' rest' hfield' hrest' =>
          have hlength := hfield.length.trans hfield'.length.symm
          rw [append_lt_append_iff hlength, hfield.lt_iff hfield', hfield.eq_iff hfield',
            List.cons_lt_cons_iff, List.cons_lt_cons_iff, ih hrest']
          simp

end ObjectLiteral.Numeral
