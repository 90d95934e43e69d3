import ObjectLiteral.Literal
import ObjectLiteral.Proofs.Number.Closest
import ObjectLiteral.Proofs.Number.Whole
/-!
Texts of whole numbers.  Up to `2 ^ 53` no decimal shorter than an integer is rounded to the double
of the integer, but one with zeros behind the same digits, so the double is written as the integer
is.
-/

namespace ObjectLiteral

open Binary64 (absolute Nearest)
open Numeral (digits)

/-- What is rounded to an integer is at most a half below it, and at most a half above it up to
`2 ^ 53`, where the doubles after it lie two apart. -/
theorem Binary64.Nearest.bounds_of_nat {q : ℚ} {m n : ℕ} (hq : Nearest q m)
    (hvalue : absolute m = n) (hpos : 0 < n) (hn : n ≤ 2 ^ 53) :
    2 * n ≤ 2 * q + 1 ∧ 2 * q ≤ 2 * n + 2 ∧ (n < 2 ^ 53 → 2 * q ≤ 2 * n + 1) := by
  obtain ⟨-, hbelow, habove, -⟩ := nearest_iff.mp hq
  refine ⟨?_, ?_⟩
  · obtain ⟨k, -, hk⟩ := exists_absolute_eq (n := n - 1) (k := 0) (by omega) (by omega)
    have hk_eq : absolute k = n - 1 := by
      rw [hk, Nat.cast_sub hpos, Nat.cast_one, pow_zero, mul_one]
    have hk_lt : k < m := absolute_strictMono.lt_iff_lt.mp (by linarith)
    have hmid := hbelow k hk_lt
    linarith
  · have hbetween : ∀ {k : ℕ} {r : ℚ}, k < infinityMagnitude → absolute k = r → n < r →
        2 * q ≤ n + r := by
      rintro k r hk rfl hlt
      have hk_lt : m < k := absolute_strictMono.lt_iff_lt.mp (by linarith)
      rw [← hvalue]
      exact habove k (Nat.le_of_lt hk) hk_lt
    rcases Nat.lt_or_ge n (2 ^ 53) with hlt | hge
    · obtain ⟨k, hk_lt, hk⟩ := exists_absolute_eq (n := n + 1) (k := 0) (by omega) (by omega)
      have hmid := hbetween hk_lt hk (by push_cast; linarith)
      push_cast at hmid
      exact ⟨by linarith, fun _ => by linarith⟩
    · obtain rfl : n = 2 ^ 53 := Nat.le_antisymm hn hge
      obtain ⟨k, hk_lt, hk⟩ := exists_absolute_eq (n := 2 ^ 52 + 1) (k := 1) (by omega) (by omega)
      have hmid := hbetween hk_lt hk (by push_cast; linarith)
      refine ⟨?_, fun hlt => absurd hlt (lt_irrefl _)⟩
      push_cast at hmid ⊢
      linarith

/-- A multiple of ten is rounded to no other integer. -/
theorem Binary64.Nearest.ten_mul_eq {m n t : ℕ} (ht : Nearest (10 * t : ℕ) m)
    (hvalue : absolute m = n) (hpos : 0 < n) (hn : n ≤ 2 ^ 53) : 10 * t = n := by
  obtain ⟨hlower, hupper, hupper_lt⟩ := ht.bounds_of_nat hvalue hpos hn
  have hlower' : 2 * n ≤ 2 * (10 * t) + 1 := by exact_mod_cast hlower
  have hupper' : 2 * (10 * t) ≤ 2 * n + 2 := by exact_mod_cast hupper
  have hupper_lt' : n < 2 ^ 53 → 2 * (10 * t) ≤ 2 * n + 1 := by exact_mod_cast hupper_lt
  omega

/-- No other integer lies between a number and the integer above it that it is rounded to. -/
theorem Binary64.Nearest.eq_of_lt_of_le {q : ℚ} {m n p : ℕ} (hq : Nearest q m)
    (hvalue : absolute m = n) (hpos : 0 < n) (hn : n ≤ 2 ^ 53) (hlt : q < p) (hle : p ≤ n) :
    p = n := by
  have hlower := (hq.bounds_of_nat hvalue hpos hn).1
  have hn_lt : (2 * n : ℚ) < 2 * p + 1 := by linarith
  have hn_lt' : 2 * n < 2 * p + 1 := by exact_mod_cast hn_lt
  omega

namespace Decimal

variable {d : Decimal} {m n : ℕ}

/-- An integer with its digits in front of a power of ten. -/
theorem value_natCast (n e : ℕ) : (⟨n, e⟩ : Decimal).value = n * 10 ^ e := by
  rw [value, zpow_natCast]

/-- Of the decimals of the fewest digits that are rounded to an integer the closest one is the
integer. -/
theorem value_eq_of_nat (hd : d.Stands m) (hclosest : d.Closest m) (hvalue : absolute m = n)
    (hpos : 0 < n) (hn : n ≤ 2 ^ 53) : d.value = n := by
  have hm := hd.nearest.le_infinity
  rcases Nat.lt_or_ge d.length (digits n).length with hshort | hlong
  · rcases lt_or_ge 0 d.exponent with hscaled | hflat
    · -- the decimal is a multiple of ten
      obtain ⟨k, hk⟩ : ∃ k : ℕ, d.exponent = (k + 1 : ℕ) := ⟨(d.exponent - 1).toNat, by omega⟩
      have hten : d.value = (10 * (d.coefficient * 10 ^ k) : ℕ) := by
        rw [value, hk, zpow_natCast, pow_succ]
        push_cast
        ring
      have hnearest := hd.nearest
      rw [hten] at hnearest ⊢
      rw [hnearest.ten_mul_eq hvalue hpos hn]
    · -- the decimal is below the least integer of so many digits, which one digit denotes
      have hpower : d.value < (10 ^ ((digits n).length - 1) : ℕ) := by
        rw [Nat.cast_pow, Nat.cast_ofNat, ← zpow_natCast]
        exact (value_lt_iff hd.pos _).mpr (by unfold place; omega)
      have hleast : 10 ^ ((digits n).length - 1) = n :=
        hd.nearest.eq_of_lt_of_le hvalue hpos hn hpower (Numeral.ten_pow_le hpos)
      have hone : (⟨1, ((digits n).length - 1 : ℕ)⟩ : Decimal).value = absolute m := by
        rw [value_natCast, hvalue, Nat.cast_one, one_mul]
        exact_mod_cast hleast
      have hlength : (digits 1).length ≤ d.length := Numeral.length_digits_pos d.coefficient
      rw [← hvalue]
      exact hclosest.value_eq hm hone hlength
  · have hself : (⟨n, (0 : ℕ)⟩ : Decimal).value = absolute m := by
      rw [value_natCast, hvalue, pow_zero, mul_one]
    rw [← hvalue]
    exact hclosest.value_eq hm hself hlong

/-- A whole number below `10 ^ 21` is written as the natural number is. -/
theorem text_eq_ofNat (hpos : 0 < d.coefficient) (hzero : d.coefficient % 10 ≠ 0)
    (hvalue : d.value = n) (hn : n < 10 ^ 21) : d.text = Numeral.ofNat n := by
  have hwhole : 0 ≤ d.exponent := (isInt_value_iff hzero).mp ⟨n, by rw [hvalue]; norm_cast⟩
  have hplace : d.place ≤ 21 := by
    rw [← value_lt_iff hpos, hvalue]
    exact_mod_cast hn
  obtain ⟨zeros, hzeros⟩ := Int.eq_ofNat_of_zero_le hwhole
  have hform := PlainForm.whole hpos hzeros hplace
  have hread : Numeral.read? (digits d.coefficient ++ List.replicate zeros '0') = some n := by
    have hscaled := hform.value
    rw [hvalue, Numeral.scaled, List.append_nil, List.length_nil, pow_zero, div_one] at hscaled
    rw [Numeral.read?, if_pos hform.canonical, Option.some.injEq]
    exact_mod_cast hscaled
  have htext : d.text = String.ofList (digits d.coefficient ++ List.replicate zeros '0') := by
    rw [text, if_pos ⟨hplace, hwhole⟩, hzeros, Int.toNat_natCast]
  rw [htext, Numeral.eq_digits_of_read? hread, Numeral.ofNat]

end Decimal

namespace Binary64

variable {x : Binary64} {z : ℤ}

theorem isNegative_of_value? (hx : x.value? = some (z : ℚ)) (hz : z ≠ 0) :
    x.isNegative = decide (z < 0) := by
  have hpos : 0 < absolute x.magnitude := by
    rw [absolute_of_value? hx]
    exact_mod_cast Int.natAbs_pos.mpr hz
  obtain ⟨-, hvalue⟩ := value?_eq_some_iff.mp hx
  unfold signed at hvalue
  split at hvalue
  · rename_i hnegative
    have hlt : (z : ℚ) < 0 := by linarith
    rw [hnegative, eq_comm, decide_eq_true_eq]
    exact_mod_cast hlt
  · rename_i hpositive
    have hgt : (0 : ℚ) < z := by linarith
    rw [Bool.not_eq_true] at hpositive
    rw [hpositive, eq_comm, decide_eq_false_iff_not, not_lt]
    exact_mod_cast le_of_lt hgt

theorem isZero_iff_of_value? (hx : x.value? = some (z : ℚ)) : x.isZero = true ↔ z = 0 := by
  have habs := absolute_of_value? hx
  rw [isZero, decide_eq_true_eq, ← absolute_le_zero_iff, habs, ← Int.natAbs_eq_zero]
  exact_mod_cast Nat.le_zero

/-- Whatever chooses a closest one of the shortest decimals, an integer up to `2 ^ 53` is written as
it is. -/
theorem text_of_value? (hx : x.value? = some (z : ℚ)) (hz : z.natAbs ≤ 2 ^ 53) (hzero : z ≠ 0)
    {d : Decimal} (hd : d.Stands x.magnitude) (hclosest : d.Closest x.magnitude) :
    (if x.isNegative then "-" else "") ++ d.text = Numeral.ofInt z := by
  have hvalue := Decimal.value_eq_of_nat hd hclosest (absolute_of_value? hx)
    (Int.natAbs_pos.mpr hzero) hz
  rw [Decimal.text_eq_ofNat hd.pos hd.no_zero hvalue (by omega), isNegative_of_value? hx hzero,
    Numeral.ofInt]
  by_cases hneg : z < 0
  · simp [hneg]
  · simp [hneg]

/-- The decimal of a finite double other than zero is the closest one of its length. -/
theorem IsFinite.closest (hx : x.IsFinite) (hzero : ¬ x.isZero = true) :
    (Decimal.shortest x.magnitude).Closest x.magnitude := by
  apply Decimal.closest_shortest _ (Nat.le_of_lt hx)
  simpa [isZero, Nat.pos_iff_ne_zero] using hzero

end Binary64

/-- A number that is made of a double is written as the double is: no number at all, infinite or
finite. -/
theorem Number.text_ofBinary64 (x : Binary64) : (ofBinary64 x).text = (float x).text := by
  unfold ofBinary64
  split
  · rename_i hnan
    exact (x.text_of_isNaN hnan).symm
  split
  · rename_i hinfinite
    rw [text, x.text_of_isInfinite hinfinite]
    split <;> rfl
  · rfl

theorem Number.text_float_eq_integer {i : Int64} {x : Binary64} (hi : i.toInt.natAbs ≤ 2 ^ 53)
    (hx : x.value? = some (i.toInt : ℚ)) : (float x).text = (integer i).text := by
  have hfinite := (Binary64.value?_eq_some_iff.mp hx).1
  rw [text, text, hfinite.text_eq]
  by_cases hzero : i.toInt = 0
  · rw [if_pos ((Binary64.isZero_iff_of_value? hx).mpr hzero), hzero]
    rfl
  · have hx_zero : ¬ x.isZero = true := fun h => hzero ((Binary64.isZero_iff_of_value? hx).mp h)
    rw [if_neg hx_zero]
    exact Binary64.text_of_value? hx hi hzero (hfinite.stands hx_zero) (hfinite.closest hx_zero)

/-- An integer up to `2 ^ 53`, of either sign, and a double that stands for it are written alike and
read as the same integer of 64 bits.  For the text of the double any closest one of the shortest
decimals would do, and the one that is computed is such a decimal.  A value that is made of a
double, finite or not, is written as the double is. -/
theorem Number.text_whole :
    (∀ (i : Int64) (x : Binary64), i.toInt.natAbs ≤ 2 ^ 53 → x.value? = some (i.toInt : ℚ) →
      (float x).text = (integer i).text ∧
        (float x).toInt64? = some i ∧ (integer i).toInt64? = some i ∧
        (¬ x.isZero = true → ∀ d : Decimal, d.Stands x.magnitude → d.Closest x.magnitude →
          (if x.isNegative then "-" else "") ++ d.text = (integer i).text)) ∧
      (∀ i : Int64, i.toInt.natAbs ≤ 2 ^ 53 →
        (integer i).toBinary64.value? = some (i.toInt : ℚ)) ∧
      (∀ x : Binary64, x.IsFinite → ¬ x.isZero = true →
        (Decimal.shortest x.magnitude).Stands x.magnitude ∧
          (Decimal.shortest x.magnitude).Closest x.magnitude) ∧
      ∀ (x : Binary64) (style : Style), (ofBinary64 x).text = (float x).text ∧
        (Atom.number (ofBinary64 x)).literal style = (float x).text := by
  refine ⟨fun i x hi hx => ⟨text_float_eq_integer hi hx, ?_, rfl, fun hx_zero d hd hclosest => ?_⟩,
    fun i hi => ?_, fun x hfinite hzero => ⟨hfinite.stands hzero, hfinite.closest hzero⟩,
    fun x style => ⟨text_ofBinary64 x, text_ofBinary64 x⟩⟩
  · exact Binary64.toInt64?_eq_some_iff.mpr hx
  · have hi_zero := mt (Binary64.isZero_iff_of_value? hx).mpr hx_zero
    exact Binary64.text_of_value? hx hi hi_zero hd hclosest
  · exact Binary64.value?_ofInt (n := i.toInt.natAbs) (k := 0) (by simp) hi (by decide)

/-- The double of the least of these integers, after which the doubles lie two apart. -/
theorem Number.text_whole_least :
    (integer (-9007199254740992)).toBinary64 = ⟨0xC340000000000000⟩ ∧
      (float ⟨0xC340000000000000⟩).text = "-9007199254740992" ∧
      (float ⟨0xC340000000000000⟩).toInt64? = some (-9007199254740992) := by
  have hdouble : (integer (-9007199254740992)).toBinary64 = ⟨0xC340000000000000⟩ := by
    decide +kernel
  have hvalue := text_whole.2.1 (-9007199254740992) (by decide +kernel)
  rw [hdouble] at hvalue
  obtain ⟨htext, hinteger, -, -⟩ := text_whole.1 _ _ (by decide +kernel) hvalue
  exact ⟨hdouble, htext.trans (by decide +kernel), hinteger⟩

end ObjectLiteral
