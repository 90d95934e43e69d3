import ObjectLiteral.Number.Basic
import ObjectLiteral.Proofs.Number.Layout
/-!
The text of a double.  It denotes the shortest decimal that is rounded to the double, so reading and
rounding it gives the double back, and no two finite doubles but the zeros have one text.
-/

namespace ObjectLiteral

open Numeral (readDecimal? readUnsigned?)

/-- Digits without a zero at either end are laid out canonically at every exponent, and what is
written denotes the decimal that they stand for. -/
theorem Decimal.written_text {d : Decimal} (hpos : 0 < d.coefficient)
    (hzero : d.coefficient % 10 ≠ 0) : d.Written d.text.toList :=
  d.laid_text.written hpos hzero

namespace Binary64

def IsFinite (x : Binary64) : Prop :=
  x.magnitude < infinityMagnitude

def sign (x : Binary64) : List Char :=
  if x.isNegative then ['-'] else []

def signed (x : Binary64) (q : ℚ) : ℚ :=
  if x.isNegative then -q else q

/-- The double is what a number is rounded to: it has its sign, where zero has none, and its absolute
value is the nearest one, ties to even. -/
structure Rounded (q : ℚ) (x : Binary64) : Prop where
  sign : x.isNegative = decide (q < 0)
  nearest : Nearest |q| x.magnitude

theorem eq_of_magnitude {x y : Binary64} (hsign : x.isNegative = y.isNegative)
    (hmagnitude : x.magnitude = y.magnitude) : x = y := by
  have hx := x.bits.toNat_lt
  have hy := y.bits.toNat_lt
  simp only [isNegative, magnitude, Nat.pow_eq, decide_eq_decide] at hsign hmagnitude
  have hbits : x.bits.toNat = y.bits.toNat := by omega
  obtain ⟨xbits⟩ := x
  obtain ⟨ybits⟩ := y
  exact congrArg _ (UInt64.toNat_inj.mp hbits)

theorem Rounded.unique {q : ℚ} {x y : Binary64} (hx : Rounded q x) (hy : Rounded q y) : x = y :=
  eq_of_magnitude (hx.sign.trans hy.sign.symm) (hx.nearest.unique hy.nearest)

section Parts

variable {x : Binary64}

theorem text_of_isNaN (hx : x.isNaN = true) : x.text = "NaN" := by
  simp [text, hx]

theorem text_of_isInfinite (hx : x.isInfinite = true) :
    x.text = if x.isNegative then "-Infinity" else "Infinity" := by
  have hnan : x.isNaN = false := by
    simp only [isInfinite, decide_eq_true_eq] at hx
    simp [isNaN, hx]
  simp [text, hnan, hx]

theorem IsFinite.text_eq (hx : x.IsFinite) : x.text = if x.isZero then "0" else
    (if x.isNegative then "-" else "") ++ (Decimal.shortest x.magnitude).text := by
  unfold IsFinite at hx
  have hnan : x.isNaN = false := by simpa [isNaN] using Nat.le_of_lt hx
  have hinfinite : x.isInfinite = false := by simpa [isInfinite] using Nat.ne_of_lt hx
  simp [text, hnan, hinfinite]

theorem text_of_isZero (hx : x.isZero = true) : x.text = "0" := by
  have hfinite : x.IsFinite := by
    have hmagnitude : x.magnitude = 0 := by simpa [isZero] using hx
    rw [IsFinite, hmagnitude]
    decide
  rw [hfinite.text_eq, if_pos hx]

/-- The decimal of a finite double other than zero stands for it. -/
theorem IsFinite.stands (hx : x.IsFinite) (hzero : ¬ x.isZero = true) :
    (Decimal.shortest x.magnitude).Stands x.magnitude := by
  apply Decimal.stands_shortest _ (Nat.le_of_lt hx)
  simpa [isZero, Nat.pos_iff_ne_zero] using hzero

theorem toList_signed (negative : Bool) (t : String) :
    ((if negative then "-" else "") ++ t).toList =
      (if negative then ['-'] else []) ++ t.toList := by
  cases negative <;> simp

theorem IsFinite.toList_text (hx : x.IsFinite) (hzero : ¬ x.isZero = true) :
    x.text.toList = x.sign ++ (Decimal.shortest x.magnitude).text.toList := by
  rw [hx.text_eq, if_neg hzero, toList_signed, sign]

/-- The number that the text of a finite double denotes. -/
def decimal (x : Binary64) : ℚ :=
  if x.isZero then 0 else x.signed (Decimal.shortest x.magnitude).value

/-- What is written for a decimal is read as it, with the sign of a double in front as well. -/
theorem readDecimal?_sign_append (x : Binary64) {d : Decimal} {cs : List Char}
    (hwritten : d.Written cs) : readDecimal? (x.sign ++ cs) = some (x.signed d.value) := by
  obtain ⟨hplain, hminus⟩ := Numeral.readDecimal?_of_digit hwritten.unsigned
  rw [sign, signed]
  split
  · rw [List.singleton_append, hminus, hwritten.read, Option.map_some]
  · rw [List.nil_append, hplain, hwritten.read]

theorem readDecimal?_zero : readDecimal? "0".toList = some 0 := by
  have hdigits : ∀ c ∈ ['0'], c.isDigit = true := List.forall_mem_singleton.mpr rfl
  have hread := Numeral.readUnsigned?_pointed hdigits (List.cons_ne_nil _ _)
    (List.forall_mem_nil fun c : Char => c.isDigit = true)
  have hvalue : Numeral.scaled ['0'] [] = 0 := by
    simp [Numeral.scaled, Nat.ofDigitChars_cons]
  rw [hvalue] at hread
  exact hread

theorem IsFinite.readDecimal?_text (hx : x.IsFinite) :
    readDecimal? x.text.toList = some x.decimal := by
  by_cases hzero : x.isZero = true
  · rw [text_of_isZero hzero, decimal, if_pos hzero, readDecimal?_zero]
  · have hstands := hx.stands hzero
    rw [hx.toList_text hzero, decimal, if_neg hzero]
    exact x.readDecimal?_sign_append (Decimal.written_text hstands.pos hstands.no_zero)

theorem abs_signed (x : Binary64) {q : ℚ} (hq : 0 < q) : |x.signed q| = q := by
  unfold signed
  split
  · rw [abs_neg, abs_of_pos hq]
  · exact abs_of_pos hq

theorem rounded_signed {q : ℚ} (hq : 0 < q) (hnearest : Nearest q x.magnitude) :
    Rounded (x.signed q) x := by
  refine ⟨?_, (x.abs_signed hq).symm ▸ hnearest⟩
  unfold signed
  cases x.isNegative with
  | true => simp [hq]
  | false => simp [le_of_lt hq]

/-- A finite double is what its decimal is rounded to, unless it is the negative zero. -/
theorem IsFinite.rounded (hx : x.IsFinite) (hminus : ¬ (x.isZero = true ∧ x.isNegative = true)) :
    Rounded x.decimal x := by
  by_cases hzero : x.isZero = true
  · have hmagnitude : x.magnitude = 0 := by simpa [isZero] using hzero
    have hpositive : x.isNegative = false := by simpa [hzero] using hminus
    rw [decimal, if_pos hzero]
    refine ⟨by simp [hpositive], ?_⟩
    rw [hmagnitude, abs_zero, ← absolute_zero]
    exact nearest_absolute (Nat.zero_le _)
  · have hstands := hx.stands hzero
    rw [decimal, if_neg hzero]
    exact rounded_signed hstands.value_pos hstands.nearest

theorem IsFinite.decimal_eq_zero_iff (hx : x.IsFinite) : x.decimal = 0 ↔ x.isZero = true := by
  by_cases hzero : x.isZero = true
  · exact iff_of_true (if_pos hzero) hzero
  · have hvalue := (hx.stands hzero).value_pos
    have habs := x.abs_signed hvalue
    rw [decimal, if_neg hzero, ← abs_eq_zero, habs]
    exact iff_of_false (ne_of_gt hvalue) hzero

/-- Two finite doubles with one decimal are equal or both zero. -/
theorem IsFinite.eq_of_decimal {y : Binary64} (hx : x.IsFinite) (hy : y.IsFinite)
    (heq : x.decimal = y.decimal) : x = y ∨ x.isZero = true ∧ y.isZero = true := by
  by_cases hzero : x.isZero = true
  · exact Or.inr ⟨hzero, hy.decimal_eq_zero_iff.mp (heq ▸ hx.decimal_eq_zero_iff.mpr hzero)⟩
  · have hzero' : ¬ y.isZero = true := fun hy_zero =>
      hzero (hx.decimal_eq_zero_iff.mp (heq.trans (hy.decimal_eq_zero_iff.mpr hy_zero)))
    have hx_rounded := hx.rounded fun hboth => hzero hboth.1
    have hy_rounded := hy.rounded fun hboth => hzero' hboth.1
    exact Or.inl (hx_rounded.unique (heq ▸ hy_rounded))

end Parts

end Binary64

/-- The text of a double.  Of a finite one other than zero it is a sign and the written form of the
shortest decimal that is rounded to it.  Reading it gives the decimal, rounding that gives the double
back, and so no two finite doubles have one text except for the zeros. -/
theorem Number.text_float (x : Binary64) :
    (x.isNaN = true → (Number.float x).text = "NaN") ∧
      (x.isInfinite = true →
        (Number.float x).text = if x.isNegative then "-Infinity" else "Infinity") ∧
      (x.isZero = true → (Number.float x).text = "0") ∧
      (x.IsFinite → ¬ x.isZero = true →
        (Decimal.shortest x.magnitude).Stands x.magnitude ∧
        ∃ body, (Number.float x).text.toList = x.sign ++ body ∧
          (Decimal.shortest x.magnitude).Written body ∧
          readDecimal? (Number.float x).text.toList =
            some (x.signed (Decimal.shortest x.magnitude).value)) ∧
      (x.IsFinite → ¬ (x.isZero = true ∧ x.isNegative = true) →
        ∃ q, readDecimal? (Number.float x).text.toList = some q ∧
          ∀ y, Binary64.Rounded q y ↔ y = x) ∧
      ∀ y, x.IsFinite → y.IsFinite → (Number.float x).text = (Number.float y).text →
        x = y ∨ x.isZero = true ∧ y.isZero = true := by
  refine ⟨Binary64.text_of_isNaN, Binary64.text_of_isInfinite, Binary64.text_of_isZero,
    fun hx hzero => ⟨hx.stands hzero, _, hx.toList_text hzero,
      Decimal.written_text (hx.stands hzero).pos (hx.stands hzero).no_zero, ?_⟩,
    fun hx hminus => ⟨x.decimal, hx.readDecimal?_text, fun y => ⟨fun hy => ?_, ?_⟩⟩,
    fun y hx hy htext => ?_⟩
  · have hread := hx.readDecimal?_text
    rwa [Binary64.decimal, if_neg hzero] at hread
  · exact hy.unique (hx.rounded hminus)
  · rintro rfl
    exact hx.rounded hminus
  · have hread := hx.readDecimal?_text
    have hread' := hy.readDecimal?_text
    have hsame : x.text = y.text := htext
    rw [hsame, hread'] at hread
    exact hx.eq_of_decimal hy (Option.some.inj hread).symm

/-- Whichever shortest decimal stands for a double, its text with the sign in front denotes it, and
is rounded to the double alone. -/
theorem Binary64.written_of_stands (x : Binary64) {d : Decimal} (hd : d.Stands x.magnitude) :
    d.Written d.text.toList ∧
      readDecimal? (x.sign ++ d.text.toList) = some (x.signed d.value) ∧
      ∀ y, Binary64.Rounded (x.signed d.value) y ↔ y = x := by
  have hwritten := Decimal.written_text hd.pos hd.no_zero
  have hrounded := Binary64.rounded_signed (x := x) hd.value_pos hd.nearest
  refine ⟨hwritten, x.readDecimal?_sign_append hwritten, fun y => ⟨fun hy => ?_, ?_⟩⟩
  · exact hy.unique hrounded
  · rintro rfl
    exact hrounded

end ObjectLiteral
