import Mathlib.Algebra.GroupWithZero.Nat
import Mathlib.Algebra.Order.Field.Basic
import Mathlib.Algebra.Order.Ring.Rat
import Mathlib.Order.Monotone.Basic
import Mathlib.Tactic.FieldSimp
import Mathlib.Tactic.Linarith
import Mathlib.Tactic.Positivity
import Mathlib.Tactic.Ring
import ObjectLiteral.Number.Binary64
/-!
The spacing of doubles.  Magnitudes count the doubles of one sign from zero up to infinity, and the
distance from one to the next is a power of two that is at least the `2 ^ 53`th part of the larger
of the two.
-/

namespace ObjectLiteral.Binary64

/-- The distance from a magnitude to the next one, in units. -/
def gap (m : Nat) : Nat :=
  2 ^ (m / 2 ^ 52 - 1)

/-- The absolute value of the doubles of a magnitude.  That of infinity counts as the power of two
that comes next after the finite doubles. -/
def absolute (m : Nat) : ℚ :=
  unitsOf m / unitsPerOne

/-- A fraction of at most fifty-three binary places, with as many if it is shifted at all. -/
theorem unitsOf_add {shift r : Nat} (hr : r ≤ 2 ^ 53) (hplaces : shift = 0 ∨ 2 ^ 52 ≤ r) :
    unitsOf (shift * 2 ^ 52 + r) = r * 2 ^ shift := by
  simp only [unitsOf, Nat.pow_eq]
  rcases Nat.lt_or_ge r (2 ^ 52) with hsmall | hlarge
  · obtain rfl : shift = 0 := by omega
    have hexponent : (0 * 2 ^ 52 + r) / 2 ^ 52 = 0 := by omega
    have hfraction : (0 * 2 ^ 52 + r) % 2 ^ 52 = r := by omega
    rw [if_pos hexponent, hfraction, Nat.pow_zero, Nat.mul_one]
  rcases Nat.lt_or_ge r (2 ^ 53) with hlt | hge
  · have hexponent : (shift * 2 ^ 52 + r) / 2 ^ 52 = shift + 1 := by omega
    have hfraction : 2 ^ 52 + (shift * 2 ^ 52 + r) % 2 ^ 52 = r := by omega
    rw [hexponent, hfraction, if_neg (Nat.succ_ne_zero shift), Nat.add_sub_cancel]
  · have hexponent : (shift * 2 ^ 52 + r) / 2 ^ 52 = shift + 1 + 1 := by omega
    have hfraction : 2 ^ 52 + (shift * 2 ^ 52 + r) % 2 ^ 52 = 2 ^ 52 := by omega
    obtain rfl : r = 2 ^ 52 * 2 := by omega
    rw [hexponent, hfraction, if_neg (Nat.succ_ne_zero _), Nat.add_sub_cancel]
    ring

/-- A magnitude and the next one are so many gaps and one more. -/
theorem exists_steps (m : Nat) :
    ∃ r < 2 ^ 53, unitsOf m = r * gap m ∧ unitsOf (m + 1) = (r + 1) * gap m := by
  obtain ⟨r, hr, hm, hplaces⟩ : ∃ r < 2 ^ 53, m = (m / 2 ^ 52 - 1) * 2 ^ 52 + r ∧
      (m / 2 ^ 52 - 1 = 0 ∨ 2 ^ 52 ≤ r) := by
    refine ⟨m - (m / 2 ^ 52 - 1) * 2 ^ 52, ?_, ?_, ?_⟩ <;> omega
  refine ⟨r, hr, ?_, ?_⟩
  · rw [gap, ← unitsOf_add (by omega) hplaces, ← hm]
  · rw [gap, ← unitsOf_add (by omega) (by omega), ← Nat.add_assoc, ← hm]

theorem unitsOf_succ (m : Nat) : unitsOf (m + 1) = unitsOf m + gap m := by
  obtain ⟨r, -, hm, hnext⟩ := exists_steps m
  rw [hnext, hm, Nat.add_mul, Nat.one_mul]

/-- The distance to the next magnitude is no less than the `2 ^ 53`th part of it. -/
theorem unitsOf_succ_le (m : Nat) : unitsOf (m + 1) ≤ 2 ^ 53 * gap m := by
  obtain ⟨r, hr, -, hnext⟩ := exists_steps m
  rw [hnext]
  exact Nat.mul_le_mul_right _ hr

theorem gap_pos (m : Nat) : 0 < gap m :=
  Nat.pow_pos (by decide)

theorem unitsOf_strictMono : StrictMono unitsOf := by
  apply strictMono_nat_of_lt_succ
  intro m
  have hpos := gap_pos m
  have hsucc := unitsOf_succ m
  omega

@[simp] theorem unitsOf_zero : unitsOf 0 = 0 := rfl

theorem unitsPerOne_pos : (0 : ℚ) < unitsPerOne := by
  have hpos : 0 < unitsPerOne := by decide +kernel
  exact Nat.cast_pos.mpr hpos

@[simp] theorem absolute_zero : absolute 0 = 0 := by
  rw [absolute, unitsOf_zero, Nat.cast_zero, zero_div]

theorem absolute_strictMono : StrictMono absolute := by
  intro m n hlt
  have hunits : (unitsOf m : ℚ) < unitsOf n := by exact_mod_cast unitsOf_strictMono hlt
  exact div_lt_div_of_pos_right hunits unitsPerOne_pos

/-- Doubles of different magnitudes are at least the `2 ^ 53`th part of the larger one apart. -/
theorem absolute_sub_ge {m n : Nat} (hlt : m < n) :
    absolute n / 2 ^ 53 ≤ absolute n - absolute m := by
  obtain ⟨p, rfl⟩ : ∃ p, n = p + 1 := ⟨n - 1, by omega⟩
  have hle : unitsOf m ≤ unitsOf p := unitsOf_strictMono.monotone (by omega)
  have hunits : unitsOf (p + 1) + 2 ^ 53 * unitsOf m ≤ 2 ^ 53 * unitsOf (p + 1) := by
    have hsucc := unitsOf_succ p
    have hgap := unitsOf_succ_le p
    omega
  have hcast : (unitsOf (p + 1) : ℚ) + 2 ^ 53 * unitsOf m ≤ 2 ^ 53 * unitsOf (p + 1) := by
    exact_mod_cast hunits
  have hscaled := div_le_div_of_nonneg_right hcast (le_of_lt unitsPerOne_pos)
  simp only [absolute]
  rw [div_le_iff₀ (by positivity)]
  have hsplit : (unitsOf (p + 1) / unitsPerOne - unitsOf m / unitsPerOne : ℚ) * 2 ^ 53 =
      2 ^ 53 * unitsOf (p + 1) / unitsPerOne - 2 ^ 53 * unitsOf m / unitsPerOne := by
    ring
  rw [hsplit]
  rw [add_div] at hscaled
  linarith

end ObjectLiteral.Binary64
