import ObjectLiteral.Proofs.Number.FloatText
/-!
The numbers that doubles stand for.  The order of doubles is the order of these numbers, and an
integer of at most fifty-three binary places in front of its zeros is among them.
-/

namespace ObjectLiteral.Binary64

/-- The number that a double stands for, if it is finite: a fraction of fifty-two binary places with
a one in front of them, at a power of two.  There is no one in front if the exponent field is
zero. -/
def value? (x : Binary64) : Option ℚ :=
  let exponent : ℕ := x.magnitude / 2 ^ 52
  let fraction : ℕ := x.magnitude % 2 ^ 52
  if exponent = 2047 then none
  else if exponent = 0 then some (x.signed (fraction * 2 ^ (-1074 : ℤ)))
  else some (x.signed ((2 ^ 52 + fraction : ℕ) * 2 ^ (exponent - 1075 : ℤ)))

/-- There are `2 ^ 1074` units in one, with the exponent under a name. -/
theorem exists_unitsPerOne_eq : ∃ e : ℕ, e = 1074 ∧ unitsPerOne = Nat.pow 2 e :=
  ⟨1074, rfl, by decide +kernel⟩

/-- Units counted in powers of two. -/
theorem absolute_eq (m : Nat) : absolute m =
    if m / 2 ^ 52 = 0 then ((m % 2 ^ 52 : ℕ) : ℚ) * 2 ^ (-1074 : ℤ)
    else ((2 ^ 52 + m % 2 ^ 52 : ℕ) : ℚ) * 2 ^ (((m / 2 ^ 52 : ℕ) : ℤ) - 1075) := by
  obtain ⟨e, he, hone⟩ := exists_unitsPerOne_eq
  have hcast : (unitsPerOne : ℚ) = 2 ^ (e : ℤ) := by
    rw [hone, Nat.pow_eq, Nat.cast_pow, zpow_natCast]
    rfl
  rw [absolute, hcast, unitsOf]
  simp only [Nat.pow_eq]
  split
  · rw [show (-1074 : ℤ) = -e by omega, zpow_neg, div_eq_mul_inv]
  · rename_i hexponent
    have hsplit : ((m / 2 ^ 52 : ℕ) : ℤ) - 1075 = (m / 2 ^ 52 - 1 : ℕ) - e := by omega
    rw [hsplit, zpow_sub₀ (by norm_num), zpow_natCast, mul_div_assoc', Nat.cast_mul, Nat.cast_pow]
    rfl

/-- A double stands for its number of units with its sign. -/
theorem value?_eq_some_iff {x : Binary64} {q : ℚ} :
    x.value? = some q ↔ x.IsFinite ∧ x.signed (absolute x.magnitude) = q := by
  have hlt : x.magnitude < 2 ^ 63 := Nat.mod_lt _ (by decide)
  have hinfinity : infinityMagnitude = 2047 * 2 ^ 52 := rfl
  rw [IsFinite, hinfinity, absolute_eq, value?]
  by_cases hspecial : x.magnitude / 2 ^ 52 = 2047
  · have hnot : ¬ x.magnitude < 2047 * 2 ^ 52 := by omega
    rw [if_pos hspecial]
    exact iff_of_false (Option.some_ne_none q).symm fun h => hnot h.1
  · have hfinite : x.magnitude < 2047 * 2 ^ 52 := by omega
    rw [if_neg hspecial, and_iff_right hfinite]
    by_cases hzero : x.magnitude / 2 ^ 52 = 0
    · rw [if_pos hzero, if_pos hzero, Option.some.injEq]
    · rw [if_neg hzero, if_neg hzero, Option.some.injEq]

theorem value?_of_isFinite {x : Binary64} (hx : x.IsFinite) :
    x.value? = some (x.signed (absolute x.magnitude)) :=
  value?_eq_some_iff.mpr ⟨hx, rfl⟩

theorem absolute_nonneg (m : Nat) : 0 ≤ absolute m := by
  rw [← absolute_zero]
  exact absolute_strictMono.monotone (Nat.zero_le m)

section Order

variable {x y : Binary64} {p q : ℚ}

theorem absolute_le_zero_iff {m : Nat} : absolute m ≤ 0 ↔ m = 0 := by
  rw [← absolute_zero, absolute_strictMono.le_iff_le, Nat.le_zero]

/-- The order of places is the order of numbers. -/
theorem rank_le_iff (x y : Binary64) :
    x.rank ≤ y.rank ↔
      x.signed (absolute x.magnitude) ≤ y.signed (absolute y.magnitude) := by
  have hx := absolute_nonneg x.magnitude
  have hy := absolute_nonneg y.magnitude
  have hx_zero := absolute_le_zero_iff (m := x.magnitude)
  have hy_zero := absolute_le_zero_iff (m := y.magnitude)
  unfold rank signed
  cases x.isNegative with
  | false =>
      cases y.isNegative with
      | false => simp [absolute_strictMono.le_iff_le]
      | true =>
          -- only zeros are in this order
          simp only [Bool.false_eq_true, if_false, if_true]
          constructor
          · intro hle
            have hx_le := hx_zero.mpr (by omega)
            have hy_le := hy_zero.mpr (by omega)
            linarith
          · intro hle
            have hx_eq := hx_zero.mp (by linarith)
            have hy_eq := hy_zero.mp (by linarith)
            omega
  | true =>
      cases y.isNegative with
      | false =>
          simp only [Bool.false_eq_true, if_false, if_true]
          exact iff_of_true (by omega) (by linarith)
      | true => simp [absolute_strictMono.le_iff_le]

theorem IsFinite.isNaN_eq_false (hx : x.IsFinite) : x.isNaN = false := by
  simpa [isNaN] using Nat.le_of_lt hx

theorem le_iff (hx : x.value? = some p) (hy : y.value? = some q) : x.le y = true ↔ p ≤ q := by
  obtain ⟨hx_finite, rfl⟩ := value?_eq_some_iff.mp hx
  obtain ⟨hy_finite, rfl⟩ := value?_eq_some_iff.mp hy
  rw [← rank_le_iff, le, hx_finite.isNaN_eq_false, hy_finite.isNaN_eq_false]
  simp

theorem lt_iff (hx : x.value? = some p) (hy : y.value? = some q) : x.lt y = true ↔ p < q := by
  obtain ⟨hx_finite, rfl⟩ := value?_eq_some_iff.mp hx
  obtain ⟨hy_finite, rfl⟩ := value?_eq_some_iff.mp hy
  rw [← not_le, ← rank_le_iff, lt, hx_finite.isNaN_eq_false, hy_finite.isNaN_eq_false]
  simp

end Order

section Integers

/-- A whole number of at most fifty-three binary places, with some zeros behind them, is the
absolute value of a double. -/
theorem exists_absolute_eq {n k : Nat} (hn : n ≤ 2 ^ 53) (hk : k ≤ 10) :
    ∃ m < infinityMagnitude, absolute m = n * 2 ^ k := by
  rcases Nat.eq_zero_or_pos n with rfl | hpos
  · exact ⟨0, by decide, by simp⟩
  have hinfinity : infinityMagnitude = 2047 * 2 ^ 52 := rfl
  have hlog : n.log2 < 54 := (Nat.log2_lt (Nat.ne_of_gt hpos)).mpr (by omega)
  have hlower : 2 ^ n.log2 ≤ n := Nat.log2_self_le (Nat.ne_of_gt hpos)
  have hupper : n < 2 ^ (n.log2 + 1) := Nat.lt_log2_self
  -- as many zeros are put behind the number as it lacks places
  obtain ⟨zeros, hzeros⟩ : ∃ zeros, zeros = 52 - n.log2 := ⟨_, rfl⟩
  have hfew : n * 2 ^ zeros ≤ 2 ^ 53 := by
    rcases Nat.lt_or_ge n.log2 53 with hlt | hge
    · calc n * 2 ^ zeros ≤ 2 ^ (n.log2 + 1) * 2 ^ zeros :=
            Nat.mul_le_mul_right _ (Nat.le_of_lt hupper)
        _ = 2 ^ 53 := by rw [← Nat.pow_add]; congr 1; omega
    · obtain rfl : zeros = 0 := by omega
      simpa using hn
  have hfull : 2 ^ 52 ≤ n * 2 ^ zeros := by
    calc 2 ^ 52 ≤ 2 ^ (n.log2 + zeros) := Nat.pow_le_pow_right Nat.two_pos (by omega)
      _ = 2 ^ n.log2 * 2 ^ zeros := Nat.pow_add ..
      _ ≤ n * 2 ^ zeros := Nat.mul_le_mul_right _ hlower
  obtain ⟨e, he, hone⟩ := exists_unitsPerOne_eq
  refine ⟨(e + k - zeros) * 2 ^ 52 + n * 2 ^ zeros, by omega, ?_⟩
  have hunits : unitsOf ((e + k - zeros) * 2 ^ 52 + n * 2 ^ zeros) = n * 2 ^ k * unitsPerOne := by
    have hzeros_add : zeros + (e + k - zeros) = k + e := by omega
    rw [unitsOf_add hfew (Or.inr hfull), hone, Nat.pow_eq, Nat.mul_assoc, Nat.mul_assoc,
      ← Nat.pow_add, ← Nat.pow_add, hzeros_add]
  rw [absolute, hunits, Nat.cast_mul, mul_div_cancel_right₀ _ (ne_of_gt unitsPerOne_pos)]
  push_cast
  rfl

/-- From `2 ^ 52` on doubles have no fraction. -/
theorem exists_nat_of_le {m : Nat} (hle : 2 ^ 52 ≤ absolute m) :
    ∃ n : ℕ, unitsOf m = n * unitsPerOne := by
  obtain ⟨e, he, hone⟩ := exists_unitsPerOne_eq
  obtain ⟨r, hr, hunits, -⟩ := exists_steps m
  have hlarge : 2 ^ 52 * unitsPerOne ≤ unitsOf m := by
    rw [absolute, le_div_iff₀ unitsPerOne_pos] at hle
    exact_mod_cast hle
  have hexponent : e ≤ m / 2 ^ 52 - 1 := by
    by_contra hlt
    obtain ⟨d, rfl⟩ : ∃ d, e = d + 1 := ⟨e - 1, by omega⟩
    have hgap : gap m ≤ 2 ^ d := Nat.pow_le_pow_right Nat.two_pos (by omega)
    have hsmall : unitsOf m < 2 ^ 52 * unitsPerOne :=
      calc unitsOf m = r * gap m := hunits
        _ < 2 ^ 53 * gap m := Nat.mul_lt_mul_of_pos_right hr (gap_pos m)
        _ ≤ 2 ^ 53 * 2 ^ d := Nat.mul_le_mul_left _ hgap
        _ = 2 ^ 52 * 2 ^ (d + 1) := by ring
        _ = 2 ^ 52 * unitsPerOne := by rw [hone, Nat.pow_eq]
    exact absurd hlarge (Nat.not_le_of_lt hsmall)
  refine ⟨r * 2 ^ (m / 2 ^ 52 - 1 - e), ?_⟩
  rw [hunits, gap, hone, Nat.pow_eq, Nat.mul_assoc, ← Nat.pow_add, Nat.sub_add_cancel hexponent]

section Rounding

theorem magnitude_ofMagnitude {m : Nat} (negative : Bool) (hm : m ≤ infinityMagnitude) :
    (ofMagnitude negative m).magnitude = m ∧ (ofMagnitude negative m).isNegative = negative := by
  have hinfinity : infinityMagnitude = 2047 * 2 ^ 52 := rfl
  have hbits : (m + if negative then Nat.pow 2 63 else 0) < UInt64.size := by
    rw [Nat.pow_eq, UInt64.size]
    split <;> omega
  rw [magnitude, isNegative, ofMagnitude, UInt64.toNat_ofNat_of_lt' hbits]
  cases negative with
  | false => simp; omega
  | true => simp; omega

/-- An integer is rounded to the nearest double, ties to even. -/
theorem rounded_ofInt (z : ℤ) : Rounded z (ofInt z) := by
  have hnearest := nearest_nearestMagnitude z.natAbs Nat.one_pos
  obtain ⟨hmagnitude, hsign⟩ := magnitude_ofMagnitude (z < 0) hnearest.le_infinity
  refine ⟨?_, ?_⟩
  · rw [ofInt, hsign]
    simp
  · rw [ofInt, hmagnitude]
    simpa using hnearest

variable {q : ℚ} {x : Binary64} {m : Nat}

/-- A double that a number is rounded to stands for the absolute value of the nearest magnitude, with
the sign of the number. -/
theorem Rounded.value?_eq (hx : Rounded q x) (hm : m < infinityMagnitude) (hnearest : Nearest |q| m) :
    x.value? = some (if q < 0 then -absolute m else absolute m) := by
  obtain rfl : x.magnitude = m := hx.nearest.unique hnearest
  rw [value?_of_isFinite hm, signed, hx.sign]
  simp only [decide_eq_true_eq]

/-- The absolute value of a number with its sign is the number. -/
theorem ite_neg_abs (q : ℚ) : (if q < 0 then -|q| else |q|) = q := by
  split
  · rename_i hneg
    rw [abs_of_neg hneg, neg_neg]
  · rename_i hpos
    exact abs_of_nonneg (not_lt.mp hpos)

theorem Rounded.value?_eq_some_of_abs (hx : Rounded q x) (hm : m < infinityMagnitude)
    (habs : absolute m = |q|) : x.value? = some q := by
  have hnearest := nearest_absolute (Nat.le_of_lt hm)
  rw [habs] at hnearest
  rw [hx.value?_eq hm hnearest, habs, ite_neg_abs]

theorem abs_signed_absolute (x : Binary64) :
    |x.signed (absolute x.magnitude)| = absolute x.magnitude := by
  unfold signed
  split
  · rw [abs_neg, abs_of_nonneg (absolute_nonneg _)]
  · exact abs_of_nonneg (absolute_nonneg _)

/-- A number that some double stands for is rounded to one that stands for it. -/
theorem Rounded.value?_eq_some (hx : Rounded q x) {y : Binary64} (hy : y.value? = some q) :
    x.value? = some q := by
  obtain ⟨hy_finite, rfl⟩ := value?_eq_some_iff.mp hy
  exact hx.value?_eq_some_of_abs hy_finite y.abs_signed_absolute.symm

/-- An integer of few places becomes a double that stands for it. -/
theorem value?_ofInt {z : ℤ} {n k : Nat} (hz : z.natAbs = n * 2 ^ k) (hn : n ≤ 2 ^ 53)
    (hk : k ≤ 10) : (ofInt z).value? = some (z : ℚ) := by
  obtain ⟨m, hm, hvalue⟩ := exists_absolute_eq hn hk
  refine (rounded_ofInt z).value?_eq_some_of_abs hm ?_
  rw [hvalue, ← Int.cast_abs, ← Nat.cast_natAbs, hz]
  push_cast
  rfl

end Rounding

end Integers

end ObjectLiteral.Binary64
