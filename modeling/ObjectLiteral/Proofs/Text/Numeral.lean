import Mathlib.Algebra.GroupWithZero.Nat
import Mathlib.Data.List.Induction
import ObjectLiteral.Text.Numeral
/-!
Reading numerals.  The digits of a number are the one canonical numeral that denotes it.
-/

namespace ObjectLiteral.Numeral

/-- The integer of a canonical numeral, with a minus sign or none. -/
def readInt? (cs : List Char) : Option Int :=
  if cs.head? = some '-' then (read? cs.tail).map fun n : Nat => -(n : Int)
  else (read? cs).map fun n : Nat => (n : Int)

theorem digits_ne_nil (n : Nat) : digits n ≠ [] :=
  Nat.toDigits_ne_nil

theorem isDigit_of_mem_digits {n : Nat} {c : Char} (hc : c ∈ digits n) : c.isDigit = true :=
  Nat.isDigit_of_mem_toDigits (by decide) (by decide) hc

theorem digits_of_lt {n : Nat} (hn : n < 10) : digits n = [n.digitChar] :=
  Nat.toDigits_of_lt_base hn

theorem digits_of_le {n : Nat} (hn : 10 ≤ n) :
    digits n = digits (n / 10) ++ [(n % 10).digitChar] :=
  Nat.toDigits_of_base_le (by decide) hn

theorem length_digits_pos (n : Nat) : 0 < (digits n).length :=
  List.length_pos_iff.mpr (digits_ne_nil n)

theorem length_digits_le_iff {n k : Nat} (hk : 0 < k) : (digits n).length ≤ k ↔ n < 10 ^ k :=
  Nat.length_toDigits_le_iff (by decide) hk

theorem lt_ten_pow_length (n : Nat) : n < 10 ^ (digits n).length :=
  (length_digits_le_iff (length_digits_pos n)).mp (Nat.le_refl _)

theorem ten_pow_le {n : Nat} (hpos : 0 < n) : 10 ^ ((digits n).length - 1) ≤ n := by
  rcases Nat.eq_zero_or_pos ((digits n).length - 1) with hone | hmore
  · rw [hone]
    exact hpos
  · have hlong : ¬ (digits n).length ≤ (digits n).length - 1 := by omega
    rw [length_digits_le_iff hmore] at hlong
    omega

theorem digitChar_ne_zero {n : Nat} (hpos : 0 < n) (hn : n < 10) : n.digitChar ≠ '0' := by
  have hall : ∀ i < 10, 0 < i → i.digitChar ≠ '0' := by decide
  exact hall n hn hpos

/-- Only the numeral of zero starts with a zero. -/
theorem head?_digits_ne_zero {n : Nat} (hpos : 0 < n) : (digits n).head? ≠ some '0' := by
  induction n using Nat.strongRecOn with
  | ind n ih =>
      by_cases hn : n < 10
      · rw [digits_of_lt hn, List.head?_cons]
        intro hzero
        exact digitChar_ne_zero hpos hn (Option.some.inj hzero)
      · have hquotient : 0 < n / 10 := by omega
        have hhead := ih (n / 10) (by omega) hquotient
        obtain ⟨c, cs, hcs⟩ := List.exists_cons_of_ne_nil (digits_ne_nil (n / 10))
        rw [hcs] at hhead
        rw [digits_of_le (Nat.le_of_not_lt hn), hcs]
        exact hhead

theorem isCanonical_of_head? {cs : List Char} (hdigits : ∀ c ∈ cs, c.isDigit = true)
    (hne : cs ≠ []) (hhead : cs.head? ≠ some '0') : isCanonical cs = true := by
  rcases cs with _ | ⟨c, _ | ⟨d, ds⟩⟩
  · exact absurd rfl hne
  · exact hdigits c List.mem_cons_self
  · have hc : c ≠ '0' := fun hzero => hhead (congrArg some hzero)
    rw [isCanonical, Bool.and_eq_true, bne_iff_ne, List.all_eq_true]
    · exact ⟨hc, hdigits⟩
    · exact fun hnil => List.cons_ne_nil d ds hnil

theorem isCanonical_digits (n : Nat) : isCanonical (digits n) = true := by
  rcases Nat.eq_zero_or_pos n with rfl | hpos
  · decide
  · exact isCanonical_of_head? (fun c hc => isDigit_of_mem_digits hc) (digits_ne_nil n)
      (head?_digits_ne_zero hpos)

theorem read?_digits (n : Nat) : read? (digits n) = some n := by
  rw [read?, if_pos (isCanonical_digits n), digits, Nat.ofDigitChars_ten_toDigits]

theorem digits_toNat_sub {c : Char} (hc : c.isDigit = true) :
    c.toNat - '0'.toNat < 10 ∧ digits (c.toNat - '0'.toNat) = [c] := by
  have hbounds : 48 ≤ c.toNat ∧ c.toNat ≤ 57 := by
    simpa [Char.isDigit, UInt32.le_iff_toNat_le] using hc
  have hlt : c.toNat - '0'.toNat < 10 := by
    change c.toNat - 48 < 10
    omega
  refine ⟨hlt, ?_⟩
  rw [digits_of_lt hlt]
  congr 1
  apply Char.toNat_inj.mp
  rw [Nat.toNat_digitChar_of_lt_ten hlt]
  change 48 + (c.toNat - 48) = c.toNat
  omega

/-- Digits without a zero in front are the digits of the number that they denote. -/
theorem digits_ofDigitChars {cs : List Char} (hdigits : ∀ c ∈ cs, c.isDigit = true)
    (hne : cs ≠ []) (hhead : cs.head? ≠ some '0') : digits (Nat.ofDigitChars 10 cs 0) = cs := by
  induction cs using List.reverseRecOn with
  | nil => exact absurd rfl hne
  | append_singleton cs c ih =>
      obtain ⟨hlt, hc⟩ := digits_toNat_sub (hdigits c (by simp))
      rw [Nat.ofDigitChars_append, Nat.ofDigitChars_cons, Nat.ofDigitChars_nil]
      rcases cs with _ | ⟨d, ds⟩
      · rw [Nat.ofDigitChars_nil, Nat.mul_zero, Nat.zero_add, hc, List.nil_append]
      · have hfront := ih (fun b hb => hdigits b (List.mem_append_left _ hb))
          (List.cons_ne_nil d ds) hhead
        have hpos : 0 < Nat.ofDigitChars 10 (d :: ds) 0 := by
          refine Nat.pos_of_ne_zero fun hzero => hhead ?_
          rw [hzero] at hfront
          rw [← hfront]
          rfl
        have happend := Nat.toDigits_append_toDigits (by decide : 1 < 10) hpos hlt
        change digits _ ++ digits _ = digits _ at happend
        rw [← happend, hfront, hc]

/-- A numeral that is read is the numeral of its number. -/
theorem eq_digits_of_read? {cs : List Char} {n : Nat} (hread : read? cs = some n) :
    cs = digits n := by
  rw [read?] at hread
  split at hread
  · rename_i hcanonical
    obtain rfl := Option.some.inj hread
    rcases cs with _ | ⟨c, _ | ⟨d, ds⟩⟩
    · cases hcanonical
    · obtain ⟨-, hc⟩ := digits_toNat_sub (c := c) hcanonical
      rw [Nat.ofDigitChars_cons, Nat.ofDigitChars_nil, Nat.mul_zero, Nat.zero_add, hc]
    · rw [isCanonical, Bool.and_eq_true, bne_iff_ne, List.all_eq_true] at hcanonical
      · refine (digits_ofDigitChars hcanonical.2 (List.cons_ne_nil _ _) fun hhead => ?_).symm
        exact hcanonical.1 (Option.some.inj hhead)
      · exact fun hnil => List.cons_ne_nil d ds hnil
  · cases hread

theorem isDigit_of_isCanonical {cs : List Char} (hcs : isCanonical cs = true) :
    ∀ c ∈ cs, c.isDigit = true := by
  have hread : read? cs = some (Nat.ofDigitChars 10 cs 0) := if_pos hcs
  rw [eq_digits_of_read? hread]
  exact fun _ => isDigit_of_mem_digits

theorem head?_digits_ne_minus (n : Nat) : (digits n).head? ≠ some '-' := by
  intro hhead
  have hdigit : '-'.isDigit = true := isDigit_of_mem_digits (List.mem_of_mem_head? hhead)
  contradiction

theorem toList_ofInt (z : Int) :
    (ofInt z).toList = if z < 0 then '-' :: digits z.natAbs else digits z.natAbs := by
  unfold ofInt ofNat
  split
  · rw [String.toList_append, String.toList_ofList]
    simp
  · rw [String.toList_ofList]

theorem mem_ofInt {z : Int} {c : Char} (hc : c ∈ (ofInt z).toList) :
    c = '-' ∨ c.isDigit = true := by
  rw [toList_ofInt] at hc
  split at hc
  · rcases List.mem_cons.mp hc with hminus | hdigits
    · exact Or.inl hminus
    · exact Or.inr (isDigit_of_mem_digits hdigits)
  · exact Or.inr (isDigit_of_mem_digits hc)

/-- No numeral ends with the mark of big integers. -/
theorem getLast?_ofInt_ne (z : Int) : (ofInt z).toList.getLast? ≠ some 'n' := by
  intro hlast
  rcases mem_ofInt (List.mem_of_getLast? hlast) with heq | hdigit <;> contradiction

theorem readInt?_ofInt (z : Int) : readInt? (ofInt z).toList = some z := by
  rw [toList_ofInt]
  by_cases hz : z < 0
  · rw [if_pos hz, readInt?, if_pos List.head?_cons, List.tail_cons, read?_digits,
      Option.map_some]
    congr 1
    omega
  · rw [if_neg hz, readInt?, if_neg (head?_digits_ne_minus _), read?_digits, Option.map_some]
    congr 1
    omega

end ObjectLiteral.Numeral
