import ObjectLiteral.Proofs.Number.Shortest
/-!
Closest decimals.  Several decimals of the fewest digits may be rounded to one double; the one that
stands for it is the closest of them.
-/

namespace ObjectLiteral

open Binary64

namespace Decimal

/-- Of the decimals of no more digits that are rounded to a double, none is closer to it. -/
def Closest (d : Decimal) (m : Nat) : Prop :=
  ∀ c : Decimal, Nearest c.value m → c.length ≤ d.length →
    |d.value - absolute m| ≤ |c.value - absolute m|

/-- A decimal of no more digits that denotes the value of the double itself leaves no other one. -/
theorem Closest.value_eq {d c : Decimal} {m : Nat} (hd : d.Closest m) (hm : m ≤ infinityMagnitude)
    (hc : c.value = absolute m) (hlength : c.length ≤ d.length) : d.value = absolute m := by
  have hclose := hd c (hc ▸ nearest_absolute hm) hlength
  rw [hc, sub_self, abs_zero] at hclose
  exact sub_eq_zero.mp (abs_nonpos_iff.mp hclose)

section Grid

variable {m n : Nat}

/-- The lower one of the two decimals next to a double is tried first if the double lies below the
middle between them. -/
theorem lower_first_iff (m n : Nat) :
    2 * (unitsOf m * Nat.pow 10 (-gridExponent m n).toNat
        % (unitsPerOne * Nat.pow 10 (gridExponent m n).toNat))
      < unitsPerOne * Nat.pow 10 (gridExponent m n).toNat ↔
    2 * absolute m < (2 * below m n + 1) * 10 ^ gridExponent m n := by
  have hone := unitsPerOne_pos
  rw [ten_zpow_eq_div]
  simp only [below, Nat.pow_eq, absolute]
  generalize (gridExponent m n).toNat = up
  generalize (-gridExponent m n).toNat = down
  generalize unitsPerOne = one at hone ⊢
  generalize unitsOf m = units
  have hdown : (0 : ℚ) < 10 ^ down := by positivity
  have hsplit := Nat.div_add_mod (units * 10 ^ down) (one * 10 ^ up)
  generalize units * 10 ^ down / (one * 10 ^ up) = steps at hsplit ⊢
  generalize units * 10 ^ down % (one * 10 ^ up) = rest at hsplit ⊢
  have hcast : (one * 10 ^ up * steps + rest : ℚ) = units * 10 ^ down := by exact_mod_cast hsplit
  have hrest : 2 * rest < one * 10 ^ up ↔ (2 * rest : ℚ) < one * 10 ^ up := by
    exact_mod_cast Iff.rfl
  rw [hrest, mul_div_assoc', mul_div_assoc', div_lt_div_iff₀ hone hdown, mul_assoc 2, ← hcast]
  constructor <;> intro hlt <;> linarith

/-- Of two decimals that are tried, the second one is found only if the first one is not rounded to
the double. -/
theorem of_find?_pair {a b d : Decimal} (hd : [a, b].find? (fun c => c.magnitude = m) = some d) :
    d = a ∨ d = b ∧ ¬ Nearest a.value m := by
  rw [← magnitude_eq_iff]
  by_cases ha : a.magnitude = m
  · rw [List.find?_cons_of_pos (by simpa using ha)] at hd
    exact Or.inl (Option.some.inj hd).symm
  · rw [List.find?_cons_of_neg (by simpa using ha)] at hd
    exact Or.inr ⟨by simpa using List.mem_of_find?_eq_some hd, ha⟩

/-- What is found is the nearer one of the two decimals next to the double, or else the nearer one
is not rounded to the double. -/
theorem ofDigits?_cases {d : Decimal} (hd : ofDigits? m n = some d) :
    d.value = below m n * 10 ^ gridExponent m n ∧
        (2 * absolute m < (2 * below m n + 1) * 10 ^ gridExponent m n ∨
          ¬ Nearest ((below m n + 1) * 10 ^ gridExponent m n) m) ∨
      d.value = (below m n + 1) * 10 ^ gridExponent m n ∧
        ((2 * below m n + 1) * 10 ^ gridExponent m n ≤ 2 * absolute m ∨
          ¬ Nearest (below m n * 10 ^ gridExponent m n) m) := by
  have hupper : (⟨below m n + 1, gridExponent m n⟩ : Decimal).value =
      (below m n + 1) * 10 ^ gridExponent m n := by simp [value]
  rw [ofDigits?] at hd
  split at hd
  · rename_i hfirst
    rcases of_find?_pair hd with rfl | ⟨rfl, hnot⟩
    · exact Or.inl ⟨rfl, Or.inl ((lower_first_iff m n).mp hfirst)⟩
    · exact Or.inr ⟨hupper, Or.inr hnot⟩
  · rename_i hsecond
    rcases of_find?_pair hd with rfl | ⟨rfl, hnot⟩
    · exact Or.inr ⟨hupper, Or.inl (not_lt.mp fun hlt => hsecond ((lower_first_iff m n).mpr hlt))⟩
    · exact Or.inl ⟨rfl, Or.inr (hupper ▸ hnot)⟩

/-- A decimal that is found is as close to the double as any multiple of the step that is rounded to
it. -/
theorem closest_of_ofDigits? {d : Decimal} (hd : ofDigits? m n = some d) {j : ℕ}
    (hj : Nearest (j * 10 ^ gridExponent m n) m) :
    |d.value - absolute m| ≤ |j * 10 ^ gridExponent m n - absolute m| := by
  obtain ⟨hlower, hupper⟩ := below_bounds m n
  have hself := nearest_absolute hj.le_infinity
  have hmul : ∀ {a b : ℚ}, a ≤ b → a * 10 ^ gridExponent m n ≤ b * 10 ^ gridExponent m n :=
    fun hle => mul_le_mul_of_nonneg_right hle (le_of_lt (ten_zpow_pos _))
  rcases Nat.lt_or_ge (below m n) j with hlt | hge
  · have hj_upper : (below m n + 1 : ℚ) * 10 ^ gridExponent m n ≤ j * 10 ^ gridExponent m n :=
      hmul (by exact_mod_cast hlt)
    have hnear := hself.between hj (le_of_lt hupper) hj_upper
    rw [abs_of_nonneg (by linarith : 0 ≤ j * 10 ^ gridExponent m n - absolute m)]
    rcases ofDigits?_cases hd with ⟨hvalue, hfirst | hnot⟩ | ⟨hvalue, -⟩
    · rw [hvalue, abs_of_nonpos (by linarith)]
      linarith
    · exact absurd hnear hnot
    · rw [hvalue, abs_of_nonneg (by linarith)]
      linarith
  · have hj_lower : (j : ℚ) * 10 ^ gridExponent m n ≤ below m n * 10 ^ gridExponent m n :=
      hmul (by exact_mod_cast hge)
    have hnear := hj.between hself hj_lower hlower
    rw [abs_of_nonpos (by linarith : j * 10 ^ gridExponent m n - absolute m ≤ 0)]
    rcases ofDigits?_cases hd with ⟨hvalue, -⟩ | ⟨hvalue, hfirst | hnot⟩
    · rw [hvalue, abs_of_nonpos (by linarith)]
      linarith
    · rw [hvalue, abs_of_nonneg (by linarith)]
      linarith
    · exact absurd hnear hnot

end Grid

/-- The shortest decimal of a positive finite double is the closest one of so few digits. -/
theorem closest_shortest {m : Nat} (hpos : 0 < m) (hm : m ≤ infinityMagnitude) :
    (shortest m).Closest m := by
  obtain ⟨i, -, d, hd, hnone, hshortest⟩ := exists_first hpos hm
  obtain ⟨-, hlength⟩ := length_strip_le hpos (Nat.succ_pos i) hd
  rw [hshortest]
  intro c hc hc_length
  -- a decimal with fewer digits was tried in vain
  obtain hc_eq : c.length = i + 1 := by
    have hfirst := lt_length_of_none hpos hnone hc
    omega
  obtain ⟨j, hj, hj_close⟩ := exists_on_grid hpos hc
  rw [hc_eq] at hj hj_close
  rw [value_strip]
  exact le_trans (closest_of_ofDigits? hd hj) hj_close

end Decimal

end ObjectLiteral
