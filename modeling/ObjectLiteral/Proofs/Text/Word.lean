import ObjectLiteral.Text.Word
/-!
Runs of characters of one class, such as the word at the start of a declaration or of a key.
-/

namespace ObjectLiteral.Text

/-- A run of characters ends where one comes that does not belong to it. -/
theorem takeWhile_append {p : Char → Bool} {cs rest : List Char} (hcs : ∀ c ∈ cs, p c = true)
    (hrest : ∀ c ∈ rest.head?, p c = false) : (cs ++ rest).takeWhile p = cs := by
  rw [List.takeWhile_append_of_pos hcs]
  cases rest with
  | nil => simp
  | cons d ds => simp [hrest d rfl]

theorem dropWhile_append {p : Char → Bool} {cs rest : List Char} (hcs : ∀ c ∈ cs, p c = true)
    (hrest : ∀ c ∈ rest.head?, p c = false) : (cs ++ rest).dropWhile p = rest := by
  rw [List.dropWhile_append_of_pos hcs]
  cases rest with
  | nil => rfl
  | cons d ds => simp [hrest d rfl]

structure IsWord (cs : List Char) : Prop where
  ne_nil : cs ≠ []
  chars : ∀ c ∈ cs, isWordChar c = true

instance (cs : List Char) : Decidable (IsWord cs) :=
  decidable_of_iff (cs ≠ [] ∧ cs.all isWordChar = true)
    ⟨fun h => ⟨h.1, List.all_eq_true.mp h.2⟩, fun h => ⟨h.ne_nil, List.all_eq_true.mpr h.chars⟩⟩

/-- Word characters are ASCII characters that leave a mark. -/
theorem toNat_of_isWordChar {c : Char} (hc : isWordChar c = true) :
    36 ≤ c.toNat ∧ c.toNat ≤ 127 := by
  have hclasses : (c.isUpper || c.isLower || c.isDigit || c == '_' || c == '$') = true := hc
  simp only [Bool.or_eq_true, beq_iff_eq] at hclasses
  rcases hclasses with (((hupper | hlower) | hdigit) | rfl) | rfl
  · obtain ⟨hmin, hmax⟩ := of_decide_eq_true hupper
    exact ⟨Nat.le_trans (by decide) hmin, Nat.le_trans hmax (by decide)⟩
  · obtain ⟨hmin, hmax⟩ := Bool.and_eq_true_iff.mp hlower
    exact ⟨Nat.le_trans (by decide) (of_decide_eq_true hmin),
      Nat.le_trans (of_decide_eq_true hmax) (by decide)⟩
  · obtain ⟨hmin, hmax⟩ := Bool.and_eq_true_iff.mp hdigit
    exact ⟨Nat.le_trans (by decide) (of_decide_eq_true hmin),
      Nat.le_trans (of_decide_eq_true hmax) (by decide)⟩
  · decide
  · decide

end ObjectLiteral.Text
