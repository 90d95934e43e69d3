import ObjectLiteral.Proofs.Conversion.Integers
import ObjectLiteral.Proofs.Number.Value
/-!
Integers among the numbers.  A number is read as an integer of 64 bits exactly if it stands for one,
although the test for the range compares with a bound that is itself rounded.
-/

namespace ObjectLiteral

open Numeral (Fits fits_iff toInt_ofInt_of_fits)

/-- The number that a number stands for.  The special numbers stand for none. -/
def Number.value? : Number → Option ℚ
  | .integer i => some (i.toInt : ℚ)
  | .float x => x.value?
  | .infinity | .negativeInfinity | .nan => none

theorem Numeral.fits_toInt (i : Int64) : Fits i.toInt :=
  ⟨i.le_toInt, i.toInt_lt⟩

theorem Numeral.fits_iff_cast {z : ℤ} : Fits z ↔ (-2 ^ 63 : ℚ) ≤ z ∧ (z : ℚ) < 2 ^ 63 := by
  rw [Fits]
  constructor
  · rintro ⟨hlower, hupper⟩
    exact ⟨by exact_mod_cast hlower, by exact_mod_cast hupper⟩
  · rintro ⟨hlower, hupper⟩
    exact ⟨by exact_mod_cast hlower, by exact_mod_cast hupper⟩

namespace Binary64

variable {x : Binary64} {z : ℤ}

/-- A whole double stands for its whole part. -/
theorem value?_of_isWhole (hx : x.isWhole = true) : x.value? = some (x.truncate : ℚ) := by
  obtain ⟨hfinite, hrest⟩ := of_decide_eq_true hx
  refine value?_eq_some_iff.mpr ⟨hfinite, ?_⟩
  have hunits : unitsOf x.magnitude = unitsOf x.magnitude / unitsPerOne * unitsPerOne :=
    (Nat.div_mul_cancel (Nat.dvd_of_mod_eq_zero hrest)).symm
  have habsolute : absolute x.magnitude = (x.units / unitsPerOne : ℕ) := by
    rw [absolute, hunits, Nat.cast_mul, mul_div_cancel_right₀ _ (ne_of_gt unitsPerOne_pos)]
    rfl
  rw [signed, habsolute, truncate]
  split
  · rw [Int.cast_neg]
    rfl
  · rfl

/-- A double stands for an integer by the sign and the absolute value of it. -/
theorem absolute_of_value? (hx : x.value? = some (z : ℚ)) :
    absolute x.magnitude = (z.natAbs : ℚ) := by
  obtain ⟨-, hvalue⟩ := value?_eq_some_iff.mp hx
  rw [Nat.cast_natAbs, Int.cast_abs, ← hvalue, abs_signed_absolute]

/-- A double that stands for an integer is whole. -/
theorem isWhole_of_value? (hx : x.value? = some (z : ℚ)) : x.isWhole = true := by
  obtain ⟨hfinite, -⟩ := value?_eq_some_iff.mp hx
  have habs := absolute_of_value? hx
  rw [absolute, div_eq_iff (ne_of_gt unitsPerOne_pos)] at habs
  have hunits : x.units = z.natAbs * unitsPerOne := by exact_mod_cast habs
  have hrest : x.units % unitsPerOne = 0 := by rw [hunits, Nat.mul_mod_left]
  exact decide_eq_true ⟨hfinite, hrest⟩

theorem truncate_of_value? (hx : x.value? = some (z : ℚ)) : x.truncate = z := by
  have htruncate := value?_of_isWhole (isWhole_of_value? hx)
  rw [hx, Option.some.injEq] at htruncate
  exact_mod_cast htruncate.symm

/-- Within the range nothing is moved to an end of it. -/
theorem toInt64_of_value? {i : Int64} (hx : x.value? = some (i.toInt : ℚ)) : x.toInt64 = i := by
  have hfinite := (value?_eq_some_iff.mp hx).1
  obtain ⟨hlower, hupper⟩ := (fits_iff i.toInt).mp (Numeral.fits_toInt i)
  rw [toInt64, hfinite.isNaN_eq_false, if_neg Bool.false_ne_true, truncate_of_value? hx,
    min_eq_left hupper, max_eq_right hlower, Int64.ofInt_toInt]

theorem value?_lower : (ofInt Int64.minValue.toInt).value? = some (-2 ^ 63) := by
  have hlower : Int64.minValue.toInt = -2 ^ 63 := by decide
  have habs : Int64.minValue.toInt.natAbs = 2 ^ 53 * 2 ^ 10 := by decide
  rw [value?_ofInt habs (Nat.le_refl _) (Nat.le_refl _), hlower]
  norm_num

/-- The largest integer of 64 bits is rounded up. -/
theorem value?_upper : (ofInt Int64.maxValue.toInt).value? = some (2 ^ 63) := by
  obtain ⟨m, hm, hvalue⟩ := exists_absolute_eq (Nat.le_refl (2 ^ 53)) (Nat.le_refl 10)
  have hupper : Int64.maxValue.toInt = 2 ^ 63 - 1 := by decide
  have hnearest : Nearest |(Int64.maxValue.toInt : ℚ)| m := by
    apply nearest_of_close (Nat.le_of_lt hm)
    rw [hvalue, hupper]
    norm_num
  rw [(rounded_ofInt _).value?_eq hm hnearest, hvalue, hupper]
  norm_num

/-- The comparisons with both ends find out whether an integer is in the range. -/
theorem inRange_iff (hx : x.value? = some (z : ℚ)) :
    ((ofInt Int64.minValue.toInt).le x && x.lt (ofInt Int64.maxValue.toInt)) = true ↔ Fits z := by
  rw [Bool.and_eq_true, le_iff value?_lower hx, lt_iff hx value?_upper, Numeral.fits_iff_cast]

theorem toInt64?_eq_some_iff {i : Int64} :
    (Number.float x).toInt64? = some i ↔ x.value? = some (i.toInt : ℚ) := by
  rw [Number.toInt64?]
  constructor
  · intro hsome
    split at hsome
    · rename_i htest
      rw [Bool.and_assoc, Bool.and_eq_true] at htest
      have hx := value?_of_isWhole htest.1
      have hfits := (inRange_iff hx).mp htest.2
      rw [← toInt_ofInt_of_fits hfits] at hx
      rw [← Option.some.inj hsome, toInt64_of_value? hx, hx]
    · cases hsome
  · intro hx
    have htest := (inRange_iff hx).mpr (Numeral.fits_toInt i)
    rw [Bool.and_assoc, isWhole_of_value? hx, htest, toInt64_of_value? hx]
    rfl

theorem toInt64?_eq_none_iff :
    (Number.float x).toInt64? = none ↔ ¬ ∃ z, Fits z ∧ x.value? = some (z : ℚ) := by
  rw [Option.eq_none_iff_forall_ne_some]
  constructor
  · rintro hnone ⟨z, hfits, hx⟩
    rw [← toInt_ofInt_of_fits hfits] at hx
    exact hnone _ (toInt64?_eq_some_iff.mpr hx)
  · intro hnot i hsome
    exact hnot ⟨i.toInt, Numeral.fits_toInt i, toInt64?_eq_some_iff.mp hsome⟩

/-- An integer of at most `2 ^ 63` is rounded to such an integer: it is one that a double stands for,
or so large that no double around it has a fraction. -/
theorem exists_value?_ofInt (hz : |(z : ℚ)| ≤ 2 ^ 63) :
    ∃ w : ℤ, (ofInt z).value? = some (w : ℚ) ∧ |(w : ℚ)| ≤ 2 ^ 63 := by
  by_cases hsmall : z.natAbs ≤ 2 ^ 53
  · exact ⟨z, value?_ofInt (Nat.mul_one _).symm hsmall (Nat.zero_le 10), hz⟩
  obtain ⟨low, hlow, hlow_value⟩ := exists_absolute_eq (Nat.le_refl (2 ^ 53)) (Nat.zero_le 10)
  obtain ⟨high, hhigh, hhigh_value⟩ := exists_absolute_eq (Nat.le_refl (2 ^ 53)) (Nat.le_refl 10)
  have hnearest := (rounded_ofInt z).nearest
  generalize (ofInt z).magnitude = m at hnearest
  have hlarge : (2 ^ 53 : ℕ) ≤ |(z : ℚ)| := by
    rw [← Int.cast_abs, ← Nat.cast_natAbs]
    exact_mod_cast Nat.le_of_not_le hsmall
  have hlower : absolute low ≤ absolute m := by
    apply absolute_strictMono.monotone
    refine (nearest_absolute (Nat.le_of_lt hlow)).monotone hnearest ?_
    rwa [hlow_value, pow_zero, mul_one]
  have hupper : m ≤ high := by
    refine hnearest.monotone (nearest_absolute (Nat.le_of_lt hhigh)) ?_
    rw [hhigh_value]
    norm_num
    linarith
  have hupper_value := absolute_strictMono.monotone hupper
  rw [hlow_value] at hlower
  rw [hhigh_value] at hupper_value
  norm_num at hlower hupper_value
  obtain ⟨n, hunits⟩ := exists_nat_of_le (m := m) (by linarith)
  have habsolute : absolute m = n := by
    rw [absolute, hunits, Nat.cast_mul, mul_div_cancel_right₀ _ (ne_of_gt unitsPerOne_pos)]
  rw [(rounded_ofInt z).value?_eq (Nat.lt_of_le_of_lt hupper hhigh) hnearest, habsolute]
  rw [habsolute] at hupper_value
  split
  · refine ⟨-n, by push_cast; rfl, ?_⟩
    rw [Int.cast_neg, abs_neg, Int.cast_natCast, Nat.abs_cast]
    linarith
  · refine ⟨n, by push_cast; rfl, ?_⟩
    rw [Int.cast_natCast, Nat.abs_cast]
    linarith

/-- A rounded integer of 64 bits is beyond them only if it was rounded up to `2 ^ 63`. -/
theorem toInt64?_ofInt_eq_none_iff (hz : Fits z) :
    (Number.float (ofInt z)).toInt64? = none ↔ (ofInt z).value? = some (2 ^ 63) := by
  obtain ⟨hlower, hupper⟩ := Numeral.fits_iff_cast.mp hz
  obtain ⟨w, hw, hw_le⟩ := exists_value?_ofInt (abs_le.mpr ⟨hlower, le_of_lt hupper⟩)
  rw [toInt64?_eq_none_iff, hw, Option.some.injEq]
  have hfits : (∃ v : ℤ, Fits v ∧ some (w : ℚ) = some (v : ℚ)) ↔ (w : ℚ) < 2 ^ 63 := by
    constructor
    · rintro ⟨v, hv, heq⟩
      rw [Option.some.inj heq]
      exact (Numeral.fits_iff_cast.mp hv).2
    · intro hlt
      exact ⟨w, Numeral.fits_iff_cast.mpr ⟨(abs_le.mp hw_le).1, hlt⟩, rfl⟩
  rw [hfits, not_lt]
  exact ⟨fun hge => le_antisymm (abs_le.mp hw_le).2 hge, fun heq => le_of_eq heq.symm⟩

end Binary64

/-- A number is read as an integer exactly if it stands for one of 64 bits, and then as that one.  An
integer becomes the nearest double, ties to even; read again, this gives the integer exactly if some
double stands for it, and nothing exactly if it was rounded up to `2 ^ 63`. -/
theorem Number.toInt64?_exact :
    (∀ (n : Number) (i : Int64), n.toInt64? = some i ↔ n.value? = some (i.toInt : ℚ)) ∧
      (∀ n : Number, n.toInt64? = none ↔ ¬ ∃ z, Fits z ∧ n.value? = some (z : ℚ)) ∧
      ∀ i : Int64, Binary64.Rounded i.toInt (integer i).toBinary64 ∧
        ((float (integer i).toBinary64).toInt64? = some i ↔
          ∃ y : Binary64, y.value? = some (i.toInt : ℚ)) ∧
        ((float (integer i).toBinary64).toInt64? = none ↔
          (integer i).toBinary64.value? = some (2 ^ 63)) := by
  refine ⟨fun n i => ?_, fun n => ?_, fun i => ⟨Binary64.rounded_ofInt _, ?_, ?_⟩⟩
  · cases n with
    | float x => exact Binary64.toInt64?_eq_some_iff
    | integer j =>
        rw [toInt64?, value?, Option.some.injEq, Option.some.injEq, Int.cast_inj, Int64.toInt_inj]
    | _ => simp [toInt64?, value?]
  · cases n with
    | float x => exact Binary64.toInt64?_eq_none_iff
    | integer j =>
        rw [toInt64?, value?]
        exact iff_of_false (Option.some_ne_none j) (not_not.mpr ⟨_, Numeral.fits_toInt j, rfl⟩)
    | _ => simp [toInt64?, value?]
  · rw [Binary64.toInt64?_eq_some_iff]
    exact ⟨fun hx => ⟨_, hx⟩, fun ⟨_, hy⟩ => (Binary64.rounded_ofInt _).value?_eq_some hy⟩
  · exact Binary64.toInt64?_ofInt_eq_none_iff (Numeral.fits_toInt i)

end ObjectLiteral
