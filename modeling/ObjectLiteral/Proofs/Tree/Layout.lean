import ObjectLiteral.Proofs.Group.Width
import ObjectLiteral.Proofs.Tree.Basic
/-!
Layouts of trees.  A tree is written no narrower than on one line, so a container whose one-line
text is too wide is broken whatever its entries did before, and one whose text fits has no entry
that was broken.
-/

namespace ObjectLiteral

open Text

theorem Group.printed_of_fits {g : Group} {style : Style} {limit : Nat}
    (hlimit : style.limit = some limit) (hfits : width g.oneLine ≤ limit) (pad : String) :
    g.printed style pad = g.oneLine := by
  rw [Group.printed]
  split
  · rfl
  · rw [hlimit]
    exact (g.text_decision_eq_oneLine_iff pad style.unit limit).mpr hfits

theorem Text.IsMeasure.oneLine_le_printed {μ : String → Nat} (hμ : IsMeasure μ) (g : Group)
    (style : Style) (pad : String) : μ g.oneLine ≤ μ (g.printed style pad) := by
  rcases g.printed_eq_or style pad with honeLine | hbroken
  · exact Nat.le_of_eq (congrArg μ honeLine.symm)
  · rw [hbroken]
    exact Nat.le_of_add_right_le (hμ.oneLine_add_le_broken g pad style.unit)

namespace Tree

variable {style : Style}

/-- An entry depends on the text of its tree unless it is the declaration of a method. -/
theorem entry_congr {k : Key} {t : Tree} {text text' : String}
    (heq : t.method? style = none → text = text') :
    t.entry style k text = t.entry style k text' := by
  unfold entry
  split
  · rfl
  · rename_i hmethod
    rw [heq hmethod]

theorem entry_le {μ : String → Nat} (hμ : IsMeasure μ) {k : Key} {t : Tree} {text text' : String}
    (hle : μ text ≤ μ text') : μ (t.entry style k text) ≤ μ (t.entry style k text') := by
  unfold entry
  split
  · exact Nat.le_refl _
  · rw [hμ.append, hμ.append _ text']
    exact Nat.add_le_add_left hle _

theorem width_le_width_entry {k : Key} {t : Tree} (hmethod : t.method? style = none)
    (text : String) : width text ≤ width (t.entry style k text) := by
  rw [entry, hmethod, width_append]
  exact Nat.le_add_left _ _

theorem width_inline_le_of_mem_children {t u : Tree} (hu : u ∈ t.children)
    (hmethod : u.method? style = none) : width (u.inline style) ≤ width (t.inline style) := by
  cases t with
  | leaf a => cases hu
  | cut => cases hu
  | array ts =>
      rw [inline]
      exact Nat.le_of_lt (Group.width_lt_width_oneLine (List.mem_map.mpr ⟨u, hu, rfl⟩))
  | object fs =>
      obtain ⟨f, hf, rfl⟩ := List.mem_map.mp hu
      have hentry := width_le_width_entry (k := f.1) hmethod (f.2.inline style)
      rw [inline]
      exact Nat.le_trans hentry
        (Nat.le_of_lt (Group.width_lt_width_oneLine (List.mem_map.mpr ⟨f, hf, rfl⟩)))

/-- The text of a container is wider than the text of each entry. -/
theorem width_text_lt_of_mem_children {t u : Tree} (hu : u ∈ t.children)
    (hmethod : u.method? style = none) (pad : String) :
    width (u.text style (pad ++ style.unit)) < width (t.text style pad) := by
  cases t with
  | leaf a => cases hu
  | cut => cases hu
  | array ts =>
      rw [text]
      exact Nat.lt_of_lt_of_le
        (Group.width_lt_width_oneLine (List.mem_map.mpr ⟨u, hu, rfl⟩))
        (isMeasure_width.oneLine_le_printed _ style pad)
  | object fs =>
      obtain ⟨f, hf, rfl⟩ := List.mem_map.mp hu
      have hentry := width_le_width_entry (k := f.1) hmethod
        (f.2.text style (pad ++ style.unit))
      rw [text]
      exact Nat.lt_of_le_of_lt hentry (Nat.lt_of_lt_of_le
        (Group.width_lt_width_oneLine (List.mem_map.mpr ⟨f, hf, rfl⟩))
        (isMeasure_width.oneLine_le_printed _ style pad))

/-- A group of entries that are no narrower than on one line is no narrower itself. -/
theorem width_inline_le_width_oneLine {t : Tree} {g : Group} {pad : String}
    (hg : t.group? style pad = some g)
    (hentries : ∀ u ∈ t.children,
      width (u.inline style) ≤ width (u.text style (pad ++ style.unit))) :
    width (t.inline style) ≤ width g.oneLine := by
  cases t with
  | leaf a => cases hg
  | cut => cases hg
  | array ts =>
      cases hg
      rw [inline]
      exact isMeasure_width.oneLine_le '[' ']' (noMore_map hentries)
  | object fs =>
      cases hg
      rw [inline]
      refine isMeasure_width.oneLine_le '{' '}' (noMore_map fun f hf => entry_le isMeasure_width ?_)
      exact hentries f.2 (List.mem_map.mpr ⟨f, hf, rfl⟩)

theorem text_of_method? {t : Tree} {declaration : String}
    (hmethod : t.method? style = some declaration) (pad : String) :
    t.text style pad = t.inline style := by
  cases t with
  | leaf a => rw [text, inline]
  | _ => cases hmethod

/-- A group of entries that are on one line is on one line as a whole. -/
theorem oneLine_eq_inline {t : Tree} {g : Group} {pad : String}
    (hg : t.group? style pad = some g)
    (hentries : ∀ u ∈ t.children, u.method? style = none →
      u.text style (pad ++ style.unit) = u.inline style) :
    g.oneLine = t.inline style := by
  cases t with
  | leaf a => cases hg
  | cut => cases hg
  | array ts =>
      cases hg
      rw [inline]
      congr 2
      refine List.map_congr_left fun t ht => ?_
      cases hmethod : t.method? style with
      | none => exact hentries t ht hmethod
      | some declaration => exact text_of_method? hmethod _
  | object fs =>
      cases hg
      rw [inline]
      congr 2
      refine List.map_congr_left fun f hf => entry_congr fun hmethod => ?_
      exact hentries f.2 (List.mem_map.mpr ⟨f, hf, rfl⟩) hmethod

/-- No text of a tree is narrower than its text on one line. -/
theorem width_inline_le_width_text (t : Tree) (pad : String) :
    width (t.inline style) ≤ width (t.text style pad) := by
  induction t using induction_children generalizing pad with
  | step t ih =>
      cases hg : t.group? style pad with
      | none =>
          exact Nat.le_of_eq (congrArg width (text_of_group?_eq_none hg).symm)
      | some g =>
          rw [text_of_group?_eq_some hg]
          calc width (t.inline style) ≤ width g.oneLine :=
                width_inline_le_width_oneLine hg fun u hu => ih u hu _
            _ ≤ width (g.printed style pad) := isMeasure_width.oneLine_le_printed g style pad

/-- A tree whose text on one line fits is written on one line, at every pad. -/
theorem text_eq_inline {limit : Nat} (hlimit : style.limit = some limit) {t : Tree}
    (hfits : width (t.inline style) ≤ limit) (pad : String) :
    t.text style pad = t.inline style := by
  induction t using induction_children generalizing pad with
  | step t ih =>
      cases hg : t.group? style pad with
      | none => exact text_of_group?_eq_none hg
      | some g =>
          have hline : g.oneLine = t.inline style :=
            oneLine_eq_inline hg fun u hu hmethod =>
              ih u hu (Nat.le_trans (width_inline_le_of_mem_children hu hmethod) hfits) _
          rw [text_of_group?_eq_some hg, ← hline]
          exact Group.printed_of_fits hlimit (hline ▸ hfits) pad

/-- The one-line form of a group fits exactly if the fully inline text of its container does:
entries that are broken only make the form wider than a limit that is exceeded anyway. -/
theorem width_oneLine_le_iff {limit : Nat} (hlimit : style.limit = some limit) {t : Tree}
    {g : Group} {pad : String} (hg : t.group? style pad = some g) :
    width g.oneLine ≤ limit ↔ width (t.inline style) ≤ limit := by
  constructor
  · intro hfits
    have hle := width_inline_le_width_oneLine hg fun u _ => width_inline_le_width_text u _
    exact Nat.le_trans hle hfits
  · intro hfits
    have hline : g.oneLine = t.inline style :=
      oneLine_eq_inline hg fun u hu hmethod => text_eq_inline hlimit
        (Nat.le_trans (width_inline_le_of_mem_children hu hmethod) hfits) _
    rw [hline]
    exact hfits

/-- A container whose text on one line fits is on one line. -/
theorem text_eq_oneLine {limit : Nat} (hlimit : style.limit = some limit) {t : Tree} {g : Group}
    {pad : String} (hg : t.group? style pad = some g) (hfits : width (t.inline style) ≤ limit) :
    t.text style pad = g.oneLine := by
  rw [text_of_group?_eq_some hg]
  exact Group.printed_of_fits hlimit ((width_oneLine_le_iff hlimit hg).mpr hfits) pad

theorem entries_eq_nil_iff {t : Tree} {g : Group} {pad : String}
    (hg : t.group? style pad = some g) : g.entries = [] ↔ t.children = [] := by
  cases t with
  | leaf a => cases hg
  | cut => cases hg
  | array ts =>
      cases hg
      simp [children, Group.ofElements]
  | object fs =>
      cases hg
      simp [children, Group.ofFields]

/-- A container is on one line if it has no entries, or if its text on one line fits. -/
theorem text_eq_oneLine_iff {t : Tree} {g : Group} {pad : String}
    (hg : t.group? style pad = some g) :
    t.text style pad = g.oneLine ↔
      t.children = [] ∨ ∃ limit, style.limit = some limit ∧ width (t.inline style) ≤ limit := by
  rw [text_of_group?_eq_some hg, ← entries_eq_nil_iff hg]
  by_cases hentries : g.entries = []
  · rw [Group.printed, hentries]
    simp
  rw [Group.printed_of_ne_nil hentries]
  cases hlimit : style.limit with
  | none =>
      have hbroken : g.broken pad style.unit ≠ g.oneLine := (g.oneLine_ne_broken pad _).symm
      simp [Group.text, hbroken, hentries]
  | some limit =>
      rw [Option.map_some, Group.text_decision_eq_oneLine_iff, width_oneLine_le_iff hlimit hg]
      simp [hentries]

/-- On one line a container has all it holds on that line. -/
theorem text_eq_inline_of_oneLine {t : Tree} {g : Group} {pad : String}
    (hg : t.group? style pad = some g) (hline : t.text style pad = g.oneLine) :
    t.text style pad = t.inline style := by
  rcases (text_eq_oneLine_iff hg).mp hline with hchildren | ⟨limit, hlimit, hfits⟩
  · rw [hline]
    exact oneLine_eq_inline hg (by simp [hchildren])
  · exact text_eq_inline hlimit hfits pad

theorem width_inline_le_of_at? {t u : Tree} {route : List Nat} (hu : t.at? route = some u)
    (hmethod : u.method? style = none) : width (u.inline style) ≤ width (t.inline style) := by
  induction route generalizing t with
  | nil =>
      cases hu
      exact Nat.le_refl _
  | cons i route ih =>
      obtain ⟨child, hchild, hroute⟩ := exists_child_of_at?_cons hu
      exact Nat.le_trans (ih hroute)
        (width_inline_le_of_mem_children hchild (method?_of_at? hroute hmethod))

/-- The text on one line depends on the quotes and on the recognition of methods alone. -/
theorem inline_congr {style' : Style} (hquote : style'.quote = style.quote)
    (hmethods : style'.methodShorthand = style.methodShorthand) (t : Tree) :
    t.inline style' = t.inline style := by
  have hatom : ∀ a : Atom, a.literal style' = a.literal style := by
    intro a
    cases a <;> simp only [Atom.literal, hquote, hmethods]
  have hmethod : ∀ t : Tree, t.method? style' = t.method? style := by
    intro t
    cases t <;> simp only [method?, Value.method?, hmethods]
  induction t using induction_children with
  | step t ih =>
      cases t with
      | leaf a => rw [inline, inline, hatom]
      | cut => rw [inline, inline]
      | array ts =>
          rw [inline, inline]
          congr 2
          exact List.map_congr_left ih
      | object fs =>
          rw [inline, inline]
          congr 2
          refine List.map_congr_left fun f hf => ?_
          rw [entry, entry, hmethod, hquote, ih f.2 (List.mem_map.mpr ⟨f, hf, rfl⟩)]

end Tree

end ObjectLiteral
