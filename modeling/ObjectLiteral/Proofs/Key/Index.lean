import ObjectLiteral.Proofs.PropertyTable.Display
import ObjectLiteral.Proofs.Text.Bounded
/-!
The array indices among the keys.  They are the numerals of the numbers up to `2 ^ 32 - 2`, and 32
bits are enough to find them.
-/

namespace ObjectLiteral

namespace Numeral

theorem ofNat_eq_toString (n : Nat) : ofNat n = toString n :=
  rfl

/-- Digits are canonical unless a zero stands in front of others. -/
theorem isCanonical_iff {cs : List Char} :
    isCanonical cs = true ↔
      cs ≠ [] ∧ ¬ (1 < cs.length ∧ cs.head? = some '0') ∧ ∀ c ∈ cs, c.isDigit = true := by
  constructor
  · intro hcanonical
    refine ⟨?_, ?_, isDigit_of_isCanonical hcanonical⟩
    · rintro rfl
      cases hcanonical
    · rintro ⟨hlength, hhead⟩
      rcases cs with _ | ⟨c, _ | ⟨d, ds⟩⟩
      · cases hhead
      · exact Nat.lt_irrefl 1 hlength
      · obtain rfl := Option.some.inj hhead
        cases hcanonical
  · rintro ⟨hne, hzero, hdigits⟩
    rcases cs with _ | ⟨c, _ | ⟨d, ds⟩⟩
    · exact absurd rfl hne
    · exact hdigits c List.mem_cons_self
    · refine isCanonical_of_head? hdigits hne fun hhead => hzero ⟨?_, hhead⟩
      exact Nat.succ_lt_succ (Nat.succ_pos ds.length)

end Numeral

namespace Key

open Numeral

/-- The array index of a name, found with numbers of 32 bits alone.  The largest of these is none. -/
def indexWord? (cs : List Char) : Option UInt32 :=
  if cs = [] ∨ 1 < cs.length ∧ cs.head? = some '0' then none
  else if cs.all Char.isDigit then (readWord? cs).filter (· ≠ 4294967295)
  else none

theorem indexWord?_of_isCanonical {cs : List Char} (hcs : isCanonical cs = true) :
    indexWord? cs = (readWord? cs).filter (· ≠ 4294967295) := by
  obtain ⟨hne, hzero, hdigits⟩ := isCanonical_iff.mp hcs
  rw [indexWord?, if_neg (not_or.mpr ⟨hne, hzero⟩), if_pos (List.all_eq_true.mpr hdigits)]

theorem indexWord?_of_not_isCanonical {cs : List Char} (hcs : isCanonical cs ≠ true) :
    indexWord? cs = none := by
  rw [indexWord?]
  split
  · rfl
  · rename_i hshape
    obtain ⟨hne, hzero⟩ := not_or.mp hshape
    refine if_neg fun hdigits => hcs (isCanonical_iff.mpr ⟨hne, hzero, ?_⟩)
    exact List.all_eq_true.mp hdigits

/-- Of the numbers of 32 bits all but the largest are array indices. -/
theorem filter_ofNat (n : Nat) :
    (((if n < UInt32.size then some (UInt32.ofNat n) else none).filter
        (· ≠ 4294967295)).map UInt32.toNat) = if n ≤ maxArrayIndex then some n else none := by
  rcases Nat.lt_trichotomy n 4294967295 with hbelow | rfl | habove
  · have hsize : n < UInt32.size := Nat.lt_succ_of_lt hbelow
    have hmax : n ≤ maxArrayIndex := Nat.le_of_lt_succ hbelow
    have hn : (UInt32.ofNat n).toNat = n := UInt32.toNat_ofNat_of_lt' hsize
    have hne : UInt32.ofNat n ≠ 4294967295 := by
      intro heq
      rw [heq] at hn
      exact Nat.ne_of_lt hbelow hn.symm
    rw [if_pos hsize, if_pos hmax, Option.filter_some, if_pos (decide_eq_true hne),
      Option.map_some, hn]
  · decide
  · have hsize : ¬ n < UInt32.size := Nat.not_lt.mpr habove
    have hmax : ¬ n ≤ maxArrayIndex := Nat.not_le.mpr (Nat.lt_trans (by decide) habove)
    rw [if_neg hsize, if_neg hmax]
    rfl

/-- 32 bits are enough to find an array index, however long the name is. -/
theorem indexOfName?_eq (s : String) : indexOfName? s = (indexWord? s.toList).map UInt32.toNat := by
  rw [indexOfName?, read?]
  by_cases hcanonical : isCanonical s.toList = true
  · rw [indexWord?_of_isCanonical hcanonical, if_pos hcanonical,
      readWord?_eq (isDigit_of_isCanonical hcanonical), filter_ofNat]
  · rw [indexWord?_of_not_isCanonical hcanonical, if_neg hcanonical]
    rfl

theorem maxArrayIndex_eq : maxArrayIndex = 2 ^ 32 - 2 := by
  decide

/-- The names with an array index are exactly the numerals of the numbers up to `2 ^ 32 - 2`, in
digits without a sign and without a zero in front of others; so no index belongs to two names, and
none to a symbol.  Numbers of 32 bits are enough to find it, and never wrap around. -/
theorem arrayIndex?_canonical (s : String) :
    (∀ n, (name s).arrayIndex? = some n ↔ n ≤ 2 ^ 32 - 2 ∧ s = toString n) ∧
      (∀ n, (name s).arrayIndex? = some n →
        (∀ c ∈ s.toList, c.isDigit = true) ∧ (s.toList.head? = some '0' → s = "0") ∧
          ∀ t, (name t).arrayIndex? = some n → t = s) ∧
      (name s).arrayIndex? = (indexWord? s.toList).map UInt32.toNat ∧
      ∀ u, (symbol u).arrayIndex? = none := by
  have hindex : ∀ t n, (name t).arrayIndex? = some n ↔ n ≤ 2 ^ 32 - 2 ∧ t = toString n := by
    intro t n
    rw [arrayIndex?_eq_some_iff, maxArrayIndex_eq, name.injEq, ofNat_eq_toString]
  refine ⟨hindex s, fun n hn => ?_, indexOfName?_eq s, fun u => rfl⟩
  obtain ⟨hle, rfl⟩ := (hindex s n).mp hn
  have hdigits : (toString n).toList = digits n := String.toList_ofList
  refine ⟨?_, fun hzero => ?_, fun t ht => ((hindex t n).mp ht).2⟩
  · rw [hdigits]
    exact fun c hc => isDigit_of_mem_digits hc
  · rw [hdigits] at hzero
    obtain rfl := Nat.eq_zero_of_not_pos fun hpos => head?_digits_ne_zero hpos hzero
    rfl

end Key

end ObjectLiteral
