import Mathlib.Algebra.GroupWithZero.Nat
import ObjectLiteral.Text.Width
/-!
The width of a text is the sum of the widths of its characters.
-/

namespace ObjectLiteral.Text

theorem foldl_units (cs : List Char) (n : Nat) :
    cs.foldl (fun n c => n + units c) n = n + (cs.map units).sum := by
  induction cs generalizing n with
  | nil => rfl
  | cons c cs ih => rw [List.foldl_cons, ih, List.map_cons, List.sum_cons, Nat.add_assoc]

theorem width_eq_sum (s : String) : width s = (s.toList.map units).sum := by
  rw [width, String.foldl_eq_foldl_toList, foldl_units, Nat.zero_add]

@[simp] theorem width_append (s t : String) : width (s ++ t) = width s + width t := by
  simp [width_eq_sum]

theorem units_pos (c : Char) : 0 < units c := by
  unfold units
  split <;> decide

end ObjectLiteral.Text
