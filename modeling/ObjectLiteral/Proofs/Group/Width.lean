import ObjectLiteral.Proofs.Group.Measure
import ObjectLiteral.Proofs.Text.Width
/-!
Widths of the two layouts of a group.  The broken layout is wider than the one-line form at every
pad, so no text is both.
-/

namespace ObjectLiteral

namespace Text

theorem isMeasure_width : IsMeasure width where
  append := width_append
  separator := by
    rw [width_eq_sum, width_eq_sum]
    decide

theorem width_le_width_intercalate (sep : String) {s : String} {ss : List String}
    (hs : s ∈ ss) : width s ≤ width (sep.intercalate ss) := by
  induction ss with
  | nil => cases hs
  | cons t ts ih =>
      cases ts with
      | nil =>
          obtain rfl := List.mem_singleton.mp hs
          exact Nat.le_of_eq (congrArg width (String.intercalate_singleton ..).symm)
      | cons u us =>
          rw [String.intercalate_cons_cons, width_append, width_append]
          rcases List.mem_cons.mp hs with rfl | htail
          · omega
          · have hle := ih htail
            omega

end Text

open Text

namespace Group

theorem width_oneLine (g : Group) :
    width g.oneLine = width g.opening.toString + width (", ".intercalate g.entries)
      + width g.closing.toString := by
  rw [oneLine, width_append, width_append]

theorem width_bracket_pos (c : Char) : 0 < width c.toString := by
  simpa [width_eq_sum] using units_pos c

/-- The one-line form is two brackets at least. -/
theorem two_le_width_oneLine (g : Group) : 2 ≤ width g.oneLine := by
  have hopening := width_bracket_pos g.opening
  have hclosing := width_bracket_pos g.closing
  rw [width_oneLine]
  omega

theorem width_lt_width_oneLine {g : Group} {s : String} (hs : s ∈ g.entries) :
    width s < width g.oneLine := by
  have hle := width_le_width_intercalate ", " hs
  have hopening := width_bracket_pos g.opening
  rw [width_oneLine]
  omega

theorem width_oneLine_lt_width_broken (g : Group) (pad unit : String) :
    width g.oneLine < width (g.broken pad unit) := by
  have hbreak : width "\n" = 1 := by
    rw [width_eq_sum]
    decide
  have hle := isMeasure_width.oneLine_add_le_broken g pad unit
  rwa [hbreak] at hle

theorem oneLine_ne_broken (g : Group) (pad unit : String) : g.oneLine ≠ g.broken pad unit := by
  intro heq
  have hlt := g.width_oneLine_lt_width_broken pad unit
  rw [heq] at hlt
  exact Nat.lt_irrefl _ hlt

/-- Under a limit the text of a group is its one-line form exactly if that form fits. -/
theorem text_decision_eq_oneLine_iff (g : Group) (pad unit : String) (limit : Nat) :
    g.text pad unit (some (g.decision limit)) = g.oneLine ↔ width g.oneLine ≤ limit := by
  rw [text, ← decision_fits_iff]
  split
  · rename_i hfits
    exact iff_of_true rfl hfits
  · rename_i hbroken
    exact iff_of_false (g.oneLine_ne_broken pad unit).symm hbroken

theorem text_decision_eq_broken_iff (g : Group) (pad unit : String) (limit : Nat) :
    g.text pad unit (some (g.decision limit)) = g.broken pad unit ↔
      limit < width g.oneLine := by
  rw [text, ← Nat.not_le, ← decision_fits_iff]
  split
  · rename_i hfits
    exact iff_of_false (g.oneLine_ne_broken pad unit) (not_not_intro hfits)
  · rename_i hbroken
    exact iff_of_true rfl hbroken

end Group

end ObjectLiteral
