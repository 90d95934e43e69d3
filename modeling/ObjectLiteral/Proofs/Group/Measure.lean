import Mathlib.Data.List.Forall2
import ObjectLiteral.Group
/-!
Measures of texts.  A measure adds up over the parts of a text, as the width does and the number of
line feeds.  A group of entries that measure no more measures no more itself, in either layout, and
one line measures no more than the broken layout.
-/

namespace ObjectLiteral

namespace Text

/-- A measure adds up over the parts of a text, and the separator of a broken layout counts no less
than that of one line. -/
structure IsMeasure (μ : String → Nat) : Prop where
  append : ∀ s t, μ (s ++ t) = μ s + μ t
  separator : μ ", " ≤ μ ",\n"

/-- The entries of one list measure no more than those of another, one by one. -/
def NoMore (μ : String → Nat) : List String → List String → Prop :=
  List.Forall₂ fun s t => μ s ≤ μ t

theorem noMore_map {α : Type} {μ : String → Nat} {f g : α → String} {as : List α}
    (hall : ∀ a ∈ as, μ (f a) ≤ μ (g a)) : NoMore μ (as.map f) (as.map g) := by
  rw [NoMore, List.forall₂_map_left_iff, List.forall₂_map_right_iff, List.forall₂_same]
  exact hall

namespace IsMeasure

variable {μ : String → Nat} {ss ts : List String}

theorem intercalate_le (hμ : IsMeasure μ) {sep sep' : String} (hsep : μ sep ≤ μ sep')
    (hentries : NoMore μ ss ts) : μ (sep.intercalate ss) ≤ μ (sep'.intercalate ts) := by
  induction hentries with
  | nil => exact Nat.le_refl _
  | cons hhead htail ih =>
      cases htail with
      | nil => simpa using hhead
      | cons hnext hrest =>
          simp only [String.intercalate_cons_cons, hμ.append] at ih ⊢
          omega

theorem oneLine_le (hμ : IsMeasure μ) (opening closing : Char) (hentries : NoMore μ ss ts) :
    μ (Group.mk opening closing ss).oneLine ≤ μ (Group.mk opening closing ts).oneLine := by
  have hle := hμ.intercalate_le (Nat.le_refl (μ ", ")) hentries
  rw [Group.oneLine, Group.oneLine]
  simp only [hμ.append]
  omega

theorem entryLines_le (hμ : IsMeasure μ) (pad : String) (hentries : NoMore μ ss ts) :
    μ (Group.entryLines pad ss) ≤ μ (Group.entryLines pad ts) := by
  induction hentries with
  | nil => exact Nat.le_refl _
  | cons hhead htail ih =>
      cases htail with
      | nil =>
          simp only [Group.entryLines, hμ.append]
          omega
      | cons hnext hrest =>
          simp only [Group.entryLines, hμ.append] at ih ⊢
          omega

theorem intercalate_le_entryLines (hμ : IsMeasure μ) (pad : String) (ss : List String) :
    μ (", ".intercalate ss) ≤ μ (Group.entryLines pad ss) := by
  have hsep := hμ.separator
  induction ss with
  | nil => exact Nat.le_refl _
  | cons s ss ih =>
      cases ss with
      | nil =>
          simp only [Group.entryLines, String.intercalate_singleton, hμ.append]
          omega
      | cons t ss =>
          simp only [Group.entryLines, String.intercalate_cons_cons, hμ.append] at ih ⊢
          omega

theorem broken_le (hμ : IsMeasure μ) (opening closing : Char) (hentries : NoMore μ ss ts)
    (pad unit : String) :
    μ ((Group.mk opening closing ss).broken pad unit) ≤
      μ ((Group.mk opening closing ts).broken pad unit) := by
  have hle := hμ.entryLines_le (pad ++ unit) hentries
  rw [Group.broken, Group.broken]
  simp only [hμ.append] at hle ⊢
  omega

/-- The broken layout measures what one line measures and at least its first line feed besides. -/
theorem oneLine_add_le_broken (hμ : IsMeasure μ) (g : Group) (pad unit : String) :
    μ g.oneLine + μ "\n" ≤ μ (g.broken pad unit) := by
  have hle := hμ.intercalate_le_entryLines (pad ++ unit) g.entries
  rw [Group.oneLine, Group.broken]
  simp only [hμ.append] at hle ⊢
  omega

end IsMeasure

end Text

end ObjectLiteral
