import ObjectLiteral.Proofs.Text.Numeral
/-!
Reading digits into 32 bits.  The reader tests before each digit whether there is room for it, so
its arithmetic never wraps around, and it gives up exactly where the number of the digits is too
large, however many digits there are.
-/

namespace ObjectLiteral.Numeral

/-- A number of 32 bits with a digit behind it, unless 32 bits do not hold that. -/
def appendDigit? (n : UInt32) (c : Char) : Option UInt32 :=
  let d := UInt32.ofNat (c.toNat - '0'.toNat)
  if n ≤ (4294967295 - d) / 10 then some (10 * n + d) else none

/-- The number of a list of digits, if 32 bits hold it. -/
def readWord? (cs : List Char) : Option UInt32 :=
  cs.foldlM appendDigit? 0

theorem hasRoom_iff (n : UInt32) {d : Nat} (hd : d < 10) :
    n ≤ (4294967295 - UInt32.ofNat d) / 10 ↔ 10 * n.toNat + d < UInt32.size := by
  have hdigit : (UInt32.ofNat d).toNat = d :=
    UInt32.toNat_ofNat_of_lt' (Nat.lt_trans hd (by decide))
  have hle : UInt32.ofNat d ≤ 4294967295 := by
    rw [UInt32.le_iff_toNat_le, hdigit]
    exact Nat.le_trans (Nat.le_of_lt hd) (by decide)
  rw [UInt32.le_iff_toNat_le, UInt32.toNat_div, UInt32.toNat_sub_of_le _ _ hle, hdigit]
  change n.toNat ≤ (4294967295 - d) / 10 ↔ 10 * n.toNat + d < 4294967296
  omega

/-- There is room for a digit exactly if the longer number is one of 32 bits. -/
theorem appendDigit?_eq (n : UInt32) {c : Char} (hc : c.isDigit = true) :
    appendDigit? n c =
      if 10 * n.toNat + (c.toNat - '0'.toNat) < UInt32.size then
        some (UInt32.ofNat (10 * n.toNat + (c.toNat - '0'.toNat)))
      else none := by
  have hroom := hasRoom_iff n (digits_toNat_sub hc).1
  rw [appendDigit?, UInt32.ofNat_add, UInt32.ofNat_mul, UInt32.ofNat_toNat]
  by_cases hfits : 10 * n.toNat + (c.toNat - '0'.toNat) < UInt32.size
  · rw [if_pos hfits]
    exact if_pos (hroom.mpr hfits)
  · rw [if_neg hfits]
    exact if_neg (mt hroom.mp hfits)

theorem le_ofDigitChars (cs : List Char) (n : Nat) : n ≤ Nat.ofDigitChars 10 cs n := by
  induction cs generalizing n with
  | nil => exact Nat.le_refl n
  | cons c cs ih =>
      rw [Nat.ofDigitChars_cons]
      have hrest := ih (10 * n + (c.toNat - '0'.toNat))
      omega

theorem foldlM_appendDigit? {cs : List Char} (hcs : ∀ c ∈ cs, c.isDigit = true) (n : UInt32) :
    cs.foldlM appendDigit? n =
      if Nat.ofDigitChars 10 cs n.toNat < UInt32.size then
        some (UInt32.ofNat (Nat.ofDigitChars 10 cs n.toNat))
      else none := by
  induction cs generalizing n with
  | nil =>
      rw [Nat.ofDigitChars_nil, if_pos n.toNat_lt, UInt32.ofNat_toNat]
      rfl
  | cons c cs ih =>
      obtain ⟨hc, hrest⟩ := List.forall_mem_cons.mp hcs
      rw [List.foldlM_cons, appendDigit?_eq n hc, Nat.ofDigitChars_cons]
      by_cases hfits : 10 * n.toNat + (c.toNat - '0'.toNat) < UInt32.size
      · rw [if_pos hfits, Option.bind_eq_bind, Option.bind_some, ih hrest,
          UInt32.toNat_ofNat_of_lt' hfits]
      · have hover := Nat.le_trans (Nat.le_of_not_lt hfits) (le_ofDigitChars cs _)
        rw [if_neg hfits, if_neg (Nat.not_lt.mpr hover)]
        rfl

/-- Digits are read as their number as long as that is one of 32 bits. -/
theorem readWord?_eq {cs : List Char} (hcs : ∀ c ∈ cs, c.isDigit = true) :
    readWord? cs =
      if Nat.ofDigitChars 10 cs 0 < UInt32.size then
        some (UInt32.ofNat (Nat.ofDigitChars 10 cs 0))
      else none :=
  foldlM_appendDigit? hcs 0

end ObjectLiteral.Numeral
