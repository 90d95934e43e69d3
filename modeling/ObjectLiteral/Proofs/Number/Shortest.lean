import Mathlib.Algebra.Order.Field.Power
import ObjectLiteral.Number.Decimal
import ObjectLiteral.Proofs.Number.Rounding
import ObjectLiteral.Proofs.Text.Numeral
/-!
Shortest decimals.  The decimal that stands for a double is rounded to it, has no zero at the end,
and no decimal of fewer digits is rounded to the double; seventeen digits are enough for all.
-/

namespace ObjectLiteral

open Binary64

namespace Decimal

def value (d : Decimal) : ℚ :=
  d.coefficient * 10 ^ d.exponent

def length (d : Decimal) : Nat :=
  (Numeral.digits d.coefficient).length

theorem ten_zpow_pos (e : ℤ) : (0 : ℚ) < 10 ^ e :=
  zpow_pos (by norm_num) e

theorem ten_zpow_eq_div (e : ℤ) : (10 : ℚ) ^ e = 10 ^ e.toNat / 10 ^ (-e).toNat := by
  rcases Int.le_total 0 e with hpos | hneg
  · obtain ⟨n, rfl⟩ := Int.eq_ofNat_of_zero_le hpos
    simp
  · obtain ⟨n, hn⟩ := Int.eq_ofNat_of_zero_le (Int.neg_nonneg_of_nonpos hneg)
    obtain rfl : e = -n := by omega
    simp

theorem den_pos (d : Decimal) : 0 < d.den :=
  Nat.pow_pos (by decide)

theorem value_eq_div (d : Decimal) : d.value = d.num / d.den := by
  simp only [value, num, den, Nat.pow_eq]
  rw [ten_zpow_eq_div]
  push_cast
  ring

theorem magnitude_eq_iff {d : Decimal} {m : Nat} : d.magnitude = m ↔ Nearest d.value m := by
  rw [magnitude, nearestMagnitude_eq_iff d.den_pos, value_eq_div]

section Strip

theorem value_strip (d : Decimal) : d.strip.value = d.value := by
  induction d using strip.induct with
  | case1 d hzero ih =>
      rw [strip, if_pos hzero, ih]
      have hsplit : (d.coefficient : ℚ) = (d.coefficient / 10 : ℕ) * 10 := by
        exact_mod_cast (Nat.div_mul_cancel (Nat.dvd_of_mod_eq_zero hzero.2)).symm
      simp only [value]
      rw [hsplit, zpow_add_one₀ (by norm_num)]
      ring
  | case2 d hzero => rw [strip, if_neg hzero]

theorem coefficient_strip_pos {d : Decimal} (hpos : 0 < d.coefficient) :
    0 < d.strip.coefficient ∧ d.strip.coefficient % 10 ≠ 0 := by
  induction d using strip.induct with
  | case1 d hzero ih =>
      rw [strip, if_pos hzero]
      apply ih
      show 0 < d.coefficient / 10
      omega
  | case2 d hzero =>
      rw [strip, if_neg hzero]
      omega

theorem coefficient_strip_le (d : Decimal) : d.strip.coefficient ≤ d.coefficient := by
  induction d using strip.induct with
  | case1 d hzero ih =>
      rw [strip, if_pos hzero]
      exact Nat.le_trans ih (Nat.div_le_self _ _)
  | case2 d hzero => rw [strip, if_neg hzero]

/-- Where a coefficient is at most a power of ten, it is less without the zeros at its end. -/
theorem coefficient_strip_lt {d : Decimal} {n : Nat} (hn : 0 < n) (hle : d.coefficient ≤ 10 ^ n) :
    d.strip.coefficient < 10 ^ n := by
  obtain ⟨k, rfl⟩ : ∃ k, n = k + 1 := ⟨n - 1, by omega⟩
  have hpower : 0 < 10 ^ k := Nat.pow_pos (by decide)
  rw [Nat.pow_succ] at hle ⊢
  rw [strip]
  split
  · have hstrip := coefficient_strip_le ⟨d.coefficient / 10, d.exponent + 1⟩
    simp only at hstrip
    omega
  · omega

end Strip

section Point

/-- The length of a scaled quotient, rounded down, says between which powers of ten the quotient
lies. -/
theorem bounds_of_scaled {num den k n length : Nat} (hden : 0 < den) (hlength : 0 < length)
    (hlower : n * den ≤ num * 10 ^ k) (hupper : num * 10 ^ k < (n + 1) * den)
    (hfirst : 10 ^ (length - 1) ≤ n) (hlast : n + 1 ≤ 10 ^ length) :
    (10 : ℚ) ^ (length - k - 1 : ℤ) ≤ num / den ∧ (num / den : ℚ) < 10 ^ (length - k : ℤ) := by
  have hscale : (0 : ℚ) < 10 ^ k := by positivity
  have hden' : (0 : ℚ) < den := by exact_mod_cast hden
  constructor
  · have hle : (10 ^ (length - 1) * den : ℚ) ≤ num * 10 ^ k := by
      exact_mod_cast Nat.le_trans (Nat.mul_le_mul_right _ hfirst) hlower
    have hpower : (10 : ℚ) ^ (length - k - 1 : ℤ) = 10 ^ (length - 1) / 10 ^ k := by
      rw [← zpow_natCast, ← zpow_natCast, ← zpow_sub₀ (by norm_num)]
      congr 1
      omega
    rw [hpower, div_le_div_iff₀ hscale hden']
    exact hle
  · have hlt : (num * 10 ^ k : ℚ) < 10 ^ length * den := by
      exact_mod_cast Nat.lt_of_lt_of_le hupper (Nat.mul_le_mul_right _ hlast)
    have hpower : (10 : ℚ) ^ (length - k : ℤ) = 10 ^ length / 10 ^ k := by
      rw [zpow_sub₀ (by norm_num), zpow_natCast, zpow_natCast]
    rw [hpower, div_lt_div_iff₀ hden' hscale]
    exact hlt

/-- A point is the length of the number of units after a scaling that leaves no unit below one. -/
theorem exists_scale : ∃ k, unitsPerOne ≤ Nat.pow 10 k ∧ ∀ units,
    pointOf units = (Numeral.digits (units * Nat.pow 10 k / unitsPerOne)).length - k :=
  ⟨330, by decide +kernel, fun _ => rfl⟩

/-- A positive number of units lies between the two powers of ten that its point says. -/
theorem pointOf_bounds {units : Nat} (hpos : 0 < units) :
    (10 : ℚ) ^ (pointOf units - 1) ≤ units / unitsPerOne ∧
      (units / unitsPerOne : ℚ) < 10 ^ pointOf units := by
  obtain ⟨k, hscale, hpoint⟩ := exists_scale
  have hone : 0 < unitsPerOne := by decide +kernel
  rw [hpoint]
  rw [Nat.pow_eq] at hscale ⊢
  have hn : 0 < units * 10 ^ k / unitsPerOne :=
    Nat.div_pos (Nat.le_trans hscale (Nat.le_mul_of_pos_left _ hpos)) hone
  exact bounds_of_scaled hone (Numeral.length_digits_pos _) (Nat.div_mul_le_self _ _)
    (Nat.lt_mul_of_div_lt (Nat.lt_succ_self _) hone) (Numeral.ten_pow_le hn)
    (Numeral.lt_ten_pow_length _)

end Point

section Grid

variable {m n : Nat}

/-- The exponent of the decimals of `n` digits that are tried for a double. -/
def gridExponent (m n : Nat) : Int :=
  pointOf (unitsOf m) - n

/-- The coefficient of the largest of them that is not above the double. -/
def below (m n : Nat) : Nat :=
  unitsOf m * Nat.pow 10 (-gridExponent m n).toNat
    / (unitsPerOne * Nat.pow 10 (gridExponent m n).toNat)

/-- A double lies between a decimal and the next one of as many digits. -/
theorem below_bounds (m n : Nat) :
    below m n * 10 ^ gridExponent m n ≤ absolute m ∧
      absolute m < (below m n + 1) * 10 ^ gridExponent m n := by
  have hone := unitsPerOne_pos
  rw [ten_zpow_eq_div]
  simp only [below, Nat.pow_eq]
  generalize (gridExponent m n).toNat = up
  generalize (-gridExponent m n).toNat = down
  have hden : 0 < unitsPerOne * 10 ^ up := Nat.mul_pos (by decide +kernel) (by positivity)
  have hdown : (0 : ℚ) < 10 ^ down := by positivity
  generalize hsteps : unitsOf m * 10 ^ down / (unitsPerOne * 10 ^ up) = steps
  have hlower : steps * (unitsPerOne * 10 ^ up) ≤ unitsOf m * 10 ^ down := by
    rw [← hsteps]
    exact Nat.div_mul_le_self _ _
  have hupper : unitsOf m * 10 ^ down < (steps + 1) * (unitsPerOne * 10 ^ up) := by
    rw [← hsteps]
    exact Nat.lt_mul_of_div_lt (Nat.lt_succ_self _) hden
  rw [absolute, mul_div_assoc', mul_div_assoc', div_le_div_iff₀ hdown hone,
    div_lt_div_iff₀ hone hdown]
  constructor
  · have hcast : (steps * (unitsPerOne * 10 ^ up) : ℚ) ≤ unitsOf m * 10 ^ down := by
      exact_mod_cast hlower
    linarith
  · have hcast : (unitsOf m * 10 ^ down : ℚ) < (steps + 1) * (unitsPerOne * 10 ^ up) := by
      exact_mod_cast hupper
    linarith

/-- A decimal that is found is one of the two next to the double, and is rounded to it. -/
theorem of_ofDigits?_eq_some {d : Decimal} (hd : ofDigits? m n = some d) :
    Nearest d.value m ∧ (d = ⟨below m n, gridExponent m n⟩ ∨
      d = ⟨below m n + 1, gridExponent m n⟩) := by
  have hmagnitude := List.find?_some hd
  have hmem := List.mem_of_find?_eq_some hd
  refine ⟨magnitude_eq_iff.mp (by simpa using hmagnitude), ?_⟩
  split at hmem
  · simpa [below, gridExponent] using hmem
  · simpa [below, gridExponent, or_comm] using hmem

/-- A decimal is found where one of the two next to the double is rounded to it. -/
theorem isSome_ofDigits? (hnear : Nearest (below m n * 10 ^ gridExponent m n) m ∨
    Nearest ((below m n + 1) * 10 ^ gridExponent m n) m) : (ofDigits? m n).isSome := by
  have hmem : ∃ d : Decimal, (d = ⟨below m n, gridExponent m n⟩ ∨
      d = ⟨below m n + 1, gridExponent m n⟩) ∧ d.magnitude = m := by
    rcases hnear with hlower | hupper
    · exact ⟨_, Or.inl rfl, magnitude_eq_iff.mpr hlower⟩
    · refine ⟨_, Or.inr rfl, magnitude_eq_iff.mpr ?_⟩
      simpa [value] using hupper
  obtain ⟨d, hd, hmagnitude⟩ := hmem
  rw [ofDigits?, List.find?_isSome]
  refine ⟨d, ?_, by simpa using hmagnitude⟩
  split
  · simpa [below, gridExponent] using hd
  · simpa [below, gridExponent, or_comm] using hd

/-- A decimal of `n` digits is found if there is one that is rounded to the double: the one next to
the double on its side is as good. -/
theorem isSome_ofDigits?_of_nearest (hm : m ≤ infinityMagnitude) {j : Nat}
    (hj : Nearest (j * 10 ^ gridExponent m n) m) : (ofDigits? m n).isSome := by
  obtain ⟨hlower, hupper⟩ := below_bounds m n
  have hself := nearest_absolute hm
  have hstep := ten_zpow_pos (gridExponent m n)
  apply isSome_ofDigits?
  rcases Nat.lt_or_ge (below m n) j with hlt | hge
  · right
    refine hself.between hj (le_of_lt hupper) ?_
    have hcast : (below m n + 1 : ℚ) ≤ j := by exact_mod_cast hlt
    exact mul_le_mul_of_nonneg_right hcast (le_of_lt hstep)
  · left
    refine hj.between hself ?_ hlower
    have hcast : (j : ℚ) ≤ below m n := by exact_mod_cast hge
    exact mul_le_mul_of_nonneg_right hcast (le_of_lt hstep)

/-- The value of a double, compared with the powers of ten next to it. -/
theorem absolute_bounds (hm : 0 < m) :
    (10 : ℚ) ^ (gridExponent m n + n - 1) ≤ absolute m ∧
      absolute m < 10 ^ (gridExponent m n + n) := by
  have hunits : 0 < unitsOf m := by simpa using unitsOf_strictMono hm
  rw [gridExponent, sub_add_cancel, absolute]
  exact pointOf_bounds hunits

theorem below_lt (hm : 0 < m) : below m n < 10 ^ n := by
  have hlower := (below_bounds m n).1
  have hupper := (absolute_bounds (n := n) hm).2
  have hstep := ten_zpow_pos (gridExponent m n)
  rw [zpow_add₀ (by norm_num), zpow_natCast] at hupper
  have hlt : (below m n : ℚ) < 10 ^ n := by
    refine lt_of_mul_lt_mul_right ?_ (le_of_lt hstep)
    linarith
  exact_mod_cast hlt

theorem below_pos (hm : 0 < m) (hn : 0 < n) : 0 < below m n := by
  have hlower := (absolute_bounds (n := n) hm).1
  have hupper := (below_bounds m n).2
  have hone : (10 : ℚ) ^ gridExponent m n ≤ 10 ^ (gridExponent m n + n - 1) :=
    zpow_le_zpow_right₀ (by norm_num) (by omega)
  have hstep := ten_zpow_pos (gridExponent m n)
  rcases Nat.eq_zero_or_pos (below m n) with hzero | hpos
  · simp [hzero] at hupper
    linarith
  · exact hpos

/-- Seventeen digits are enough. -/
theorem isSome_ofDigits?_seventeen (hpos : 0 < m) (hm : m ≤ infinityMagnitude) :
    (ofDigits? m 17).isSome := by
  obtain ⟨hlower, hupper⟩ := below_bounds m 17
  have hfine : (10 : ℚ) ^ gridExponent m 17 * 10 ^ 16 ≤ absolute m := by
    have hfirst := (absolute_bounds (n := 17) hpos).1
    rwa [show gridExponent m 17 + (17 : ℕ) - 1 = gridExponent m 17 + (16 : ℕ) by push_cast; ring,
      zpow_add₀ (by norm_num), zpow_natCast] at hfirst
  generalize hstep : (10 : ℚ) ^ gridExponent m 17 = step at hlower hupper hfine
  apply isSome_ofDigits?
  rw [hstep]
  by_cases hhalf : 2 * absolute m < (2 * below m 17 + 1) * step
  · left
    apply nearest_of_close hm
    rw [abs_lt]
    constructor <;> linarith
  · right
    apply nearest_of_close hm
    rw [abs_lt]
    constructor <;> linarith

end Grid

/-- A decimal stands for the double of a magnitude: it is rounded to it, it has no zero at the end,
and no decimal of fewer digits is rounded to the double. -/
structure Stands (d : Decimal) (m : Nat) : Prop where
  pos : 0 < d.coefficient
  no_zero : d.coefficient % 10 ≠ 0
  nearest : Nearest d.value m
  shortest : ∀ c : Decimal, Nearest c.value m → d.length ≤ c.length

theorem Stands.value_pos {d : Decimal} {m : Nat} (hd : d.Stands m) : 0 < d.value := by
  have hpos : (0 : ℚ) < d.coefficient := by exact_mod_cast hd.pos
  exact mul_pos hpos (ten_zpow_pos _)

/-- The search ends with the first number of digits for which there is a decimal. -/
theorem exists_first {m : Nat} (hpos : 0 < m) (hm : m ≤ infinityMagnitude) :
    ∃ i < 17, ∃ d, ofDigits? m (i + 1) = some d ∧ (∀ j < i, ofDigits? m (j + 1) = none) ∧
      shortest m = d.strip := by
  have hsome : ((List.range 17).findSome? fun i => ofDigits? m (i + 1)).isSome := by
    rw [List.findSome?_isSome_iff]
    exact ⟨16, by decide, isSome_ofDigits?_seventeen hpos hm⟩
  obtain ⟨d, hd⟩ := Option.isSome_iff_exists.mp hsome
  obtain ⟨front, i, back, hrange, hi, hfront⟩ := List.findSome?_eq_some_iff.mp hd
  have hsorted : (front ++ i :: back).Pairwise (· < ·) := hrange ▸ List.pairwise_lt_range
  have hmem : ∀ j, j ∈ front ++ i :: back ↔ j < 17 := by
    intro j
    rw [← hrange, List.mem_range]
  have hi_lt : i < 17 := (hmem i).mp (by simp)
  refine ⟨i, hi_lt, d, hi, fun j hj => hfront j ?_, ?_⟩
  · rcases List.mem_append.mp ((hmem j).mpr (by omega)) with hj_front | hj_back
    · exact hj_front
    · rcases List.mem_cons.mp hj_back with rfl | hj_back
      · omega
      · have hlt := List.rel_of_pairwise_cons (List.pairwise_append.mp hsorted).2.1 hj_back
        omega
  · rw [shortest, hd, Option.getD_some]

theorem length_le_iff {d : Decimal} {n : Nat} (hn : 0 < n) :
    d.length ≤ n ↔ d.coefficient < 10 ^ n :=
  Numeral.length_digits_le_iff hn

/-- Where a decimal is rounded to a double, one of as many digits that is tried is rounded to it too,
and is no farther from it. -/
theorem exists_on_grid {m : Nat} (hpos : 0 < m) {c : Decimal} (hc : Nearest c.value m) :
    ∃ j : ℕ, Nearest (j * 10 ^ gridExponent m c.length) m ∧
      |j * 10 ^ gridExponent m c.length - absolute m| ≤ |c.value - absolute m| := by
  have hlength : 0 < c.length := Numeral.length_digits_pos _
  have hlt : (c.coefficient : ℚ) ≤ 10 ^ c.length := by
    exact_mod_cast le_of_lt (Numeral.lt_ten_pow_length c.coefficient)
  rcases le_or_gt (gridExponent m c.length) c.exponent with hcoarse | hfine
  · -- the decimal itself is a multiple of the step
    obtain ⟨k, hk⟩ := Int.eq_ofNat_of_zero_le (Int.sub_nonneg_of_le hcoarse)
    have hvalue : (c.coefficient * 10 ^ k : ℕ) * 10 ^ gridExponent m c.length = c.value := by
      rw [value, show c.exponent = k + gridExponent m c.length by omega,
        zpow_add₀ (by norm_num), zpow_natCast]
      push_cast
      ring
    refine ⟨c.coefficient * 10 ^ k, ?_, ?_⟩
    · rwa [hvalue]
    · rw [hvalue]
  · -- the decimal is below the power of ten that is next below the double
    have hpower : ((10 ^ (c.length - 1) : ℕ) : ℚ) * 10 ^ gridExponent m c.length =
        10 ^ (gridExponent m c.length + c.length - 1) := by
      push_cast
      rw [← zpow_natCast, ← zpow_add₀ (by norm_num)]
      congr 1
      omega
    have hle : c.value ≤ 10 ^ (gridExponent m c.length + c.length - 1) :=
      calc c.value ≤ 10 ^ c.length * 10 ^ c.exponent :=
            mul_le_mul_of_nonneg_right hlt (le_of_lt (ten_zpow_pos _))
        _ = 10 ^ (c.length + c.exponent) := by rw [zpow_add₀ (by norm_num), zpow_natCast]
        _ ≤ 10 ^ (gridExponent m c.length + c.length - 1) :=
            zpow_le_zpow_right₀ (by norm_num) (by omega)
    have hbelow := (absolute_bounds (n := c.length) hpos).1
    refine ⟨10 ^ (c.length - 1), ?_, ?_⟩
    · rw [hpower]
      exact hc.between (nearest_absolute hc.le_infinity) hle hbelow
    · rw [hpower, abs_of_nonpos (by linarith), abs_of_nonpos (by linarith)]
      linarith

/-- Where a decimal is rounded to a double, the search finds one of no more digits. -/
theorem isSome_ofDigits?_length {m : Nat} (hpos : 0 < m) {c : Decimal}
    (hc : Nearest c.value m) : (ofDigits? m c.length).isSome := by
  obtain ⟨j, hj, -⟩ := exists_on_grid hpos hc
  exact isSome_ofDigits?_of_nearest hc.le_infinity hj

/-- Decimals that are rounded to a double have more digits than those that were tried in vain. -/
theorem lt_length_of_none {m i : Nat} (hpos : 0 < m)
    (hnone : ∀ j < i, ofDigits? m (j + 1) = none) {c : Decimal} (hc : Nearest c.value m) :
    i < c.length := by
  by_contra hless
  have hsome := isSome_ofDigits?_length hpos hc
  have hc_pos : 0 < c.length := Numeral.length_digits_pos _
  have hnone_c := hnone (c.length - 1) (by omega)
  rw [Nat.sub_add_cancel hc_pos] at hnone_c
  simp [hnone_c] at hsome

/-- What the search finds has no more digits than were asked for, once the zeros at its end are
gone. -/
theorem length_strip_le {m n : Nat} (hpos : 0 < m) (hn : 0 < n) {d : Decimal}
    (hd : ofDigits? m n = some d) : 0 < d.coefficient ∧ d.strip.length ≤ n := by
  have hbelow_pos := below_pos hpos hn
  have hbelow_lt := below_lt (n := n) hpos
  have hcoefficient : 0 < d.coefficient ∧ d.coefficient ≤ 10 ^ n := by
    rcases (of_ofDigits?_eq_some hd).2 with rfl | rfl <;> constructor <;> simp only <;> omega
  exact ⟨hcoefficient.1, (length_le_iff hn).mpr (coefficient_strip_lt hn hcoefficient.2)⟩

/-- The shortest decimal of a positive finite double stands for it. -/
theorem stands_shortest {m : Nat} (hpos : 0 < m) (hm : m ≤ infinityMagnitude) :
    (shortest m).Stands m := by
  obtain ⟨i, hi, d, hd, hnone, hshortest⟩ := exists_first hpos hm
  obtain ⟨hnearest, -⟩ := of_ofDigits?_eq_some hd
  obtain ⟨hcoefficient, hlength⟩ := length_strip_le hpos (Nat.succ_pos i) hd
  obtain ⟨hstrip_pos, hstrip_zero⟩ := coefficient_strip_pos hcoefficient
  rw [hshortest]
  refine ⟨hstrip_pos, hstrip_zero, (value_strip d).symm ▸ hnearest, fun c hc => ?_⟩
  have hfirst := lt_length_of_none hpos hnone hc
  omega

end Decimal

end ObjectLiteral
