import Mathlib.Algebra.Order.Group.Abs
import ObjectLiteral.Proofs.Number.Spacing
/-!
Rounding to doubles.  Of the magnitudes up to that of infinity one is nearest to a number, where a
tie goes to an even magnitude, and it is the one that `nearestMagnitude` computes.
-/

namespace ObjectLiteral.Binary64

/-- The doubles of magnitude `m` are nearest to a number that is not negative, and where others are
as near the magnitude is even.  Infinity stands for the power of two after the finite doubles. -/
structure Nearest (q : ℚ) (m : Nat) : Prop where
  le_infinity : m ≤ infinityMagnitude
  closest : ∀ n ≤ infinityMagnitude, |q - absolute m| ≤ |q - absolute n|
  even_of_tie : ∀ n ≤ infinityMagnitude, n ≠ m → |q - absolute n| = |q - absolute m| → m % 2 = 0

section Midpoints

variable {q a b : ℚ}

theorem abs_sub_le_iff_midpoint_le (hlt : a < b) : |q - b| ≤ |q - a| ↔ a + b ≤ 2 * q := by
  rcases abs_cases (q - a) with ⟨ha, _⟩ | ⟨ha, _⟩ <;>
    rcases abs_cases (q - b) with ⟨hb, _⟩ | ⟨hb, _⟩ <;>
    rw [ha, hb] <;> constructor <;> intro h <;> linarith

theorem abs_sub_le_iff_le_midpoint (hlt : a < b) : |q - a| ≤ |q - b| ↔ 2 * q ≤ a + b := by
  rcases abs_cases (q - a) with ⟨ha, _⟩ | ⟨ha, _⟩ <;>
    rcases abs_cases (q - b) with ⟨hb, _⟩ | ⟨hb, _⟩ <;>
    rw [ha, hb] <;> constructor <;> intro h <;> linarith

theorem abs_sub_eq_iff_midpoint (hne : a ≠ b) : |q - a| = |q - b| ↔ a + b = 2 * q := by
  rcases lt_or_gt_of_ne hne with hlt | hgt
  · rw [le_antisymm_iff, abs_sub_le_iff_le_midpoint hlt, abs_sub_le_iff_midpoint_le hlt, and_comm]
    exact le_antisymm_iff.symm
  · rw [le_antisymm_iff, abs_sub_le_iff_midpoint_le hgt, abs_sub_le_iff_le_midpoint hgt,
      add_comm b a]
    exact le_antisymm_iff.symm

end Midpoints

/-- A number is rounded to the magnitude whose midpoints with all others it lies between; it may lie
on one of them if the magnitude is even. -/
theorem nearest_iff {q : ℚ} {m : Nat} : Nearest q m ↔
    m ≤ infinityMagnitude ∧ (∀ n < m, absolute n + absolute m ≤ 2 * q) ∧
      (∀ n ≤ infinityMagnitude, m < n → 2 * q ≤ absolute m + absolute n) ∧
      ∀ n ≤ infinityMagnitude, n ≠ m → absolute n + absolute m = 2 * q → m % 2 = 0 := by
  constructor
  · rintro ⟨hle, hclosest, heven⟩
    refine ⟨hle, fun n hn => ?_, fun n hn hlt => ?_, fun n hn hne hmid => ?_⟩
    · exact (abs_sub_le_iff_midpoint_le (absolute_strictMono hn)).mp (hclosest n (by omega))
    · exact (abs_sub_le_iff_le_midpoint (absolute_strictMono hlt)).mp (hclosest n hn)
    · exact heven n hn hne
        ((abs_sub_eq_iff_midpoint (absolute_strictMono.injective.ne hne)).mpr hmid)
  · rintro ⟨hle, hbelow, habove, heven⟩
    refine ⟨hle, fun n hn => ?_, fun n hn hne htie => ?_⟩
    · rcases Nat.lt_trichotomy n m with hlt | rfl | hgt
      · exact (abs_sub_le_iff_midpoint_le (absolute_strictMono hlt)).mpr (hbelow n hlt)
      · exact le_refl _
      · exact (abs_sub_le_iff_le_midpoint (absolute_strictMono hgt)).mpr (habove n hn hgt)
    · exact heven n hn hne
        ((abs_sub_eq_iff_midpoint (absolute_strictMono.injective.ne hne)).mp htie)

namespace Nearest

variable {p q r : ℚ} {m n : Nat}

/-- Rounding keeps the order. -/
theorem monotone (hm : Nearest p m) (hn : Nearest q n) (hle : p ≤ q) : m ≤ n := by
  obtain ⟨hm_le, hm_below, hm_above, hm_even⟩ := nearest_iff.mp hm
  obtain ⟨hn_le, -, hn_above, hn_even⟩ := nearest_iff.mp hn
  by_contra hlt
  have hlower := hm_below n (by omega)
  have hupper := hn_above m hm_le (by omega)
  -- both numbers lie on the midpoint, so both magnitudes are even and one lies between them
  have hm_two := hm_even n hn_le (by omega) (by linarith)
  have hn_two := hn_even m hm_le (by omega) (by linarith)
  have hbetween := hm_below (n + 1) (by omega)
  have hstep := absolute_strictMono (Nat.lt_succ_self n)
  linarith

theorem unique (hm : Nearest q m) (hn : Nearest q n) : m = n :=
  Nat.le_antisymm (hm.monotone hn (le_refl q)) (hn.monotone hm (le_refl q))

/-- What lies between two numbers that are rounded alike is rounded like them. -/
theorem between (hp : Nearest p m) (hr : Nearest r m) (hpq : p ≤ q) (hqr : q ≤ r) :
    Nearest q m := by
  obtain ⟨hle, hp_below, -, hp_even⟩ := nearest_iff.mp hp
  obtain ⟨-, -, hr_above, hr_even⟩ := nearest_iff.mp hr
  refine nearest_iff.mpr ⟨hle, fun n hn => ?_, fun n hn hlt => ?_, fun n hn hne hmid => ?_⟩
  · have hlower := hp_below n hn
    linarith
  · have hupper := hr_above n hn hlt
    linarith
  · rcases Nat.lt_or_gt_of_ne hne with hlt | hgt
    · have hlower := hp_below n hlt
      exact hp_even n hn hne (by linarith)
    · have hupper := hr_above n hn hgt
      exact hr_even n hn hne (by linarith)

end Nearest

/-- What is closer to a double than half of the least distance to its neighbours is rounded to
it. -/
theorem nearest_of_close {q : ℚ} {m : Nat} (hle : m ≤ infinityMagnitude)
    (hclose : |q - absolute m| < absolute m / 2 ^ 54) : Nearest q m := by
  obtain ⟨hlower, hupper⟩ := abs_lt.mp hclose
  have hbelow : ∀ n < m, absolute n + absolute m < 2 * q := by
    intro n hn
    have hspace := absolute_sub_ge hn
    linarith
  have habove : ∀ n, m < n → 2 * q < absolute m + absolute n := by
    intro n hn
    have hspace := absolute_sub_ge hn
    have hmono := absolute_strictMono hn
    linarith
  refine nearest_iff.mpr ⟨hle, fun n hn => ?_, fun n _ hn => ?_, fun n _ hne hmid => ?_⟩
  · exact le_of_lt (hbelow n hn)
  · exact le_of_lt (habove n hn)
  · rcases Nat.lt_or_gt_of_ne hne with hlt | hgt
    · exact absurd hmid (ne_of_lt (hbelow n hlt))
    · have hne' := ne_of_gt (habove n hgt)
      rw [add_comm] at hmid
      exact absurd hmid hne'

/-- A double is rounded to itself. -/
theorem nearest_absolute {m : Nat} (hle : m ≤ infinityMagnitude) : Nearest (absolute m) m := by
  refine ⟨hle, fun n _ => ?_, fun n _ hne htie => ?_⟩
  · simp
  · simp [sub_eq_zero, absolute_strictMono.injective.eq_iff, hne.symm] at htie

/-- What is rounded beyond infinity is rounded to it. -/
theorem nearest_infinity {q : ℚ} {m : Nat} (hgt : infinityMagnitude < m)
    (hbeyond : absolute infinityMagnitude + absolute m ≤ 2 * q) : Nearest q infinityMagnitude := by
  have hbelow : ∀ n < infinityMagnitude, absolute n + absolute infinityMagnitude < 2 * q := by
    intro n hn
    have hlt := absolute_strictMono hn
    have hgt' := absolute_strictMono hgt
    linarith
  refine nearest_iff.mpr ⟨le_refl _, fun n hn => ?_, fun n hn hlt => ?_, fun n hn hne hmid => ?_⟩
  · exact le_of_lt (hbelow n hn)
  · omega
  · exact absurd hmid (ne_of_lt (hbelow n (by omega)))

/-- Rounding to a whole number errs by a half at most, and by a half only to an even one. -/
theorem roundHalfEven_bounds (num : Nat) {den : Nat} (hden : 0 < den) :
    2 * (roundHalfEven num den * den) ≤ 2 * num + den ∧
      2 * num ≤ 2 * (roundHalfEven num den * den) + den ∧
      (2 * (roundHalfEven num den * den) = 2 * num + den ∨
        2 * num = 2 * (roundHalfEven num den * den) + den → roundHalfEven num den % 2 = 0) := by
  have hsplit := Nat.div_add_mod' num den
  have hrest := Nat.mod_lt num hden
  simp only [roundHalfEven]
  split
  · omega
  split
  · rw [Nat.add_mul]
    omega
  · rcases Nat.mod_two_eq_zero_or_one (num / den) with heven | hodd
    · rw [heven, Nat.add_zero]
      omega
    · rw [hodd, Nat.add_mul]
      omega

/-- A quotient is rounded to `r` places after a shift: by half a step at most, where a step is
`2 ^ shift` units and `units` is the numerator in units.  There are as many places as a double has
unless nothing is shifted. -/
structure Places (units den shift r : Nat) : Prop where
  le : r ≤ 2 ^ 53
  full : shift = 0 ∨ 2 ^ 52 ≤ r ∧ 2 ^ 52 * (den * 2 ^ shift) ≤ units
  lower : 2 * (r * (den * 2 ^ shift)) ≤ 2 * units + den * 2 ^ shift
  upper : 2 * units ≤ 2 * (r * (den * 2 ^ shift)) + den * 2 ^ shift
  even_of_half : 2 * (r * (den * 2 ^ shift)) = 2 * units + den * 2 ^ shift ∨
    2 * units = 2 * (r * (den * 2 ^ shift)) + den * 2 ^ shift → r % 2 = 0

/-- The shift of a quotient leaves as many places as a double has. -/
theorem places_roundHalfEven (units : Nat) {den shift : Nat} (hden : 0 < den)
    (hshift : Nat.log2 (units / den) - 52 = shift) :
    Places units den shift (roundHalfEven units (den * 2 ^ shift)) := by
  have hstep : 0 < den * 2 ^ shift := by positivity
  obtain ⟨hlower, hupper, heven⟩ := roundHalfEven_bounds units hstep
  refine ⟨?_, ?_, hlower, hupper, heven⟩
  · have hfloor : units / den < 2 ^ (53 + shift) := by
      rcases Nat.eq_zero_or_pos (units / den) with hzero | hpos
      · rw [hzero]
        positivity
      · exact (Nat.log2_lt (Nat.ne_of_gt hpos)).mp (by omega)
    have hlt : units < 2 ^ 53 * (den * 2 ^ shift) :=
      calc units < 2 ^ (53 + shift) * den := (Nat.div_lt_iff_lt_mul hden).mp hfloor
        _ = 2 ^ 53 * (den * 2 ^ shift) := by ring
    by_contra hgt
    have hmul : (2 ^ 53 + 1) * (den * 2 ^ shift) ≤
        roundHalfEven units (den * 2 ^ shift) * (den * 2 ^ shift) :=
      Nat.mul_le_mul_right _ (by omega)
    rw [Nat.add_mul] at hmul
    omega
  · rcases Nat.eq_zero_or_pos shift with hzero | hpos
    · exact Or.inl hzero
    have hfloor : 2 ^ (52 + shift) ≤ units / den := by
      have hne : units / den ≠ 0 := by
        intro hzero
        simp only [hzero, Nat.log2_zero] at hshift
        omega
      exact (Nat.le_log2 hne).mp (by omega)
    have hge : 2 ^ 52 * (den * 2 ^ shift) ≤ units :=
      calc 2 ^ 52 * (den * 2 ^ shift) = 2 ^ (52 + shift) * den := by ring
        _ ≤ units := (Nat.le_div_iff_mul_le hden).mp hfloor
    refine Or.inr ⟨?_, hge⟩
    by_contra hlt
    have hmul : (roundHalfEven units (den * 2 ^ shift) + 1) * (den * 2 ^ shift) ≤
        2 ^ 52 * (den * 2 ^ shift) :=
      Nat.mul_le_mul_right _ (by omega)
    rw [Nat.add_mul] at hmul
    omega

namespace Places

variable {units den shift r n : Nat}

theorem unitsOf_eq (hplaces : Places units den shift r) :
    unitsOf (shift * 2 ^ 52 + r) * den = r * (den * 2 ^ shift) := by
  rw [unitsOf_add hplaces.le (hplaces.full.imp_right And.left)]
  ring

/-- The quotient lies above the midpoints with all smaller magnitudes, or on one after a tie. -/
theorem below (hplaces : Places units den shift r) (hden : 0 < den)
    (hn : n < shift * 2 ^ 52 + r) :
    (unitsOf n + unitsOf (shift * 2 ^ 52 + r)) * den ≤ 2 * units ∧
      ((unitsOf n + unitsOf (shift * 2 ^ 52 + r)) * den = 2 * units → r % 2 = 0) := by
  have hstep : 0 < den * 2 ^ shift := by positivity
  have hlower := hplaces.lower
  rw [Nat.add_mul, hplaces.unitsOf_eq]
  by_cases hboundary : shift ≠ 0 ∧ r = 2 ^ 52
  · -- the smaller magnitudes lie closer to each other, but the quotient is no smaller than `r` steps
    obtain ⟨hshift, rfl⟩ := hboundary
    have hge := (hplaces.full.resolve_left hshift).2
    have hlt : unitsOf n * den < 2 ^ 52 * (den * 2 ^ shift) := by
      rw [← hplaces.unitsOf_eq]
      exact Nat.mul_lt_mul_of_pos_right (unitsOf_strictMono hn) hden
    omega
  · obtain ⟨p, rfl⟩ : ∃ p, r = p + 1 := by
      refine ⟨r - 1, ?_⟩
      have hfull := hplaces.full
      omega
    have hle : unitsOf n * den + den * 2 ^ shift ≤ (p + 1) * (den * 2 ^ shift) := by
      have hprevious : unitsOf (shift * 2 ^ 52 + p) = p * 2 ^ shift := by
        have hfull := hplaces.full
        have hplaces_le := hplaces.le
        exact unitsOf_add (by omega) (by omega)
      have hmono := unitsOf_strictMono.monotone (show n ≤ shift * 2 ^ 52 + p by omega)
      rw [hprevious] at hmono
      calc unitsOf n * den + den * 2 ^ shift
          ≤ p * 2 ^ shift * den + den * 2 ^ shift :=
            Nat.add_le_add_right (Nat.mul_le_mul_right _ hmono) _
        _ = (p + 1) * (den * 2 ^ shift) := by ring
    refine ⟨by omega, fun heq => hplaces.even_of_half (Or.inl ?_)⟩
    omega

/-- The quotient lies below the midpoints with all larger magnitudes, or on one after a tie. -/
theorem above (hplaces : Places units den shift r) (hn : shift * 2 ^ 52 + r < n) :
    2 * units ≤ (unitsOf (shift * 2 ^ 52 + r) + unitsOf n) * den ∧
      ((unitsOf n + unitsOf (shift * 2 ^ 52 + r)) * den = 2 * units → r % 2 = 0) := by
  have hupper := hplaces.upper
  have hge : r * (den * 2 ^ shift) + den * 2 ^ shift ≤ unitsOf n * den := by
    have hgap : 2 ^ shift ≤ gap (shift * 2 ^ 52 + r) := by
      have hfull := hplaces.full
      exact Nat.pow_le_pow_right Nat.two_pos (by omega)
    have hmono := unitsOf_strictMono.monotone (show shift * 2 ^ 52 + r + 1 ≤ n from hn)
    rw [unitsOf_succ] at hmono
    calc r * (den * 2 ^ shift) + den * 2 ^ shift
        = (unitsOf (shift * 2 ^ 52 + r) + 2 ^ shift) * den := by
          rw [← hplaces.unitsOf_eq]
          ring
      _ ≤ unitsOf n * den := Nat.mul_le_mul_right _ (by omega)
  rw [Nat.add_mul, Nat.add_mul, hplaces.unitsOf_eq]
  refine ⟨by omega, fun heq => hplaces.even_of_half (Or.inr ?_)⟩
  omega

end Places

/-- Midpoints of magnitudes and a quotient, compared in units. -/
theorem midpoint_le_iff {m n num den : Nat} (hden : 0 < den) :
    absolute n + absolute m ≤ 2 * (num / den : ℚ) ↔
      (unitsOf n + unitsOf m) * den ≤ 2 * (num * unitsPerOne) := by
  have hone := unitsPerOne_pos
  have hden' : (0 : ℚ) < den := by exact_mod_cast hden
  rw [absolute, absolute, ← add_div, mul_div_assoc', div_le_div_iff₀ hone hden']
  have hcast : ((unitsOf n + unitsOf m) * den : ℚ) ≤ 2 * num * unitsPerOne ↔
      (unitsOf n + unitsOf m) * den ≤ 2 * num * unitsPerOne := by exact_mod_cast Iff.rfl
  rw [hcast, Nat.mul_assoc 2]

theorem le_midpoint_iff {m n num den : Nat} (hden : 0 < den) :
    2 * (num / den : ℚ) ≤ absolute m + absolute n ↔
      2 * (num * unitsPerOne) ≤ (unitsOf m + unitsOf n) * den := by
  have hone := unitsPerOne_pos
  have hden' : (0 : ℚ) < den := by exact_mod_cast hden
  rw [absolute, absolute, ← add_div, mul_div_assoc', div_le_div_iff₀ hden' hone]
  have hcast : (2 * num * unitsPerOne : ℚ) ≤ (unitsOf m + unitsOf n) * den ↔
      2 * num * unitsPerOne ≤ (unitsOf m + unitsOf n) * den := by exact_mod_cast Iff.rfl
  rw [hcast, Nat.mul_assoc 2]

theorem midpoint_eq_iff {m n num den : Nat} (hden : 0 < den) :
    absolute n + absolute m = 2 * (num / den : ℚ) ↔
      (unitsOf n + unitsOf m) * den = 2 * (num * unitsPerOne) := by
  rw [le_antisymm_iff, midpoint_le_iff hden, le_midpoint_iff hden]
  exact le_antisymm_iff.symm

/-- The computed magnitude is the nearest one. -/
theorem nearest_nearestMagnitude (num : Nat) {den : Nat} (hden : 0 < den) :
    Nearest (num / den) (nearestMagnitude num den) := by
  generalize hshift : Nat.log2 (num * unitsPerOne / den) - 52 = shift
  have hplaces := places_roundHalfEven (num * unitsPerOne) hden hshift
  generalize hr : roundHalfEven (num * unitsPerOne) (den * 2 ^ shift) = r at hplaces
  have hmagnitude : nearestMagnitude num den = min (shift * 2 ^ 52 + r) infinityMagnitude := by
    simp only [nearestMagnitude, hshift, Nat.pow_eq, hr]
  rw [hmagnitude]
  rcases Nat.lt_or_ge infinityMagnitude (shift * 2 ^ 52 + r) with hgt | hle
  · rw [min_eq_right (le_of_lt hgt)]
    exact nearest_infinity hgt ((midpoint_le_iff hden).mpr (hplaces.below hden hgt).1)
  · rw [min_eq_left hle]
    refine nearest_iff.mpr ⟨hle, fun n hn => ?_, fun n _ hn => ?_, fun n _ hne hmid => ?_⟩
    · exact (midpoint_le_iff hden).mpr (hplaces.below hden hn).1
    · exact (le_midpoint_iff hden).mpr (hplaces.above hn).1
    · rw [midpoint_eq_iff hden] at hmid
      have heven : r % 2 = 0 := by
        rcases Nat.lt_or_gt_of_ne hne with hlt | hgt
        · exact (hplaces.below hden hlt).2 hmid
        · exact (hplaces.above hgt).2 hmid
      omega

theorem nearestMagnitude_eq_iff {num den m : Nat} (hden : 0 < den) :
    nearestMagnitude num den = m ↔ Nearest (num / den) m := by
  have hnearest := nearest_nearestMagnitude num hden
  constructor
  · rintro rfl
    exact hnearest
  · exact fun hm => hnearest.unique hm

end ObjectLiteral.Binary64
