import ObjectLiteral.Proofs.Tree.Basic
/-!
Occurrences in a text.  Whatever layout the containers around it have, the text of a container at
the end of a route stands in the text of the whole tree, at a pad that is as many levels deeper as
the route has steps.
-/

namespace ObjectLiteral

theorem Text.infix_intercalate (sep : String) {s : String} {ss : List String} (hs : s ∈ ss) :
    s.toList <:+: (sep.intercalate ss).toList := by
  induction ss with
  | nil => cases hs
  | cons t ts ih =>
      cases ts with
      | nil =>
          obtain rfl := List.mem_singleton.mp hs
          simp
      | cons u us =>
          rw [String.intercalate_cons_cons, String.toList_append, String.toList_append]
          rcases List.mem_cons.mp hs with rfl | htail
          · exact ((List.prefix_append _ _).trans (List.prefix_append _ _)).isInfix
          · exact (ih htail).trans (List.suffix_append _ _).isInfix

namespace Group

theorem infix_oneLine {g : Group} {s : String} (hs : s ∈ g.entries) :
    s.toList <:+: g.oneLine.toList := by
  have hentries := Text.infix_intercalate ", " hs
  rw [oneLine, String.toList_append, String.toList_append]
  exact (hentries.trans (List.suffix_append _ _).isInfix).trans (List.prefix_append _ _).isInfix

theorem infix_broken {g : Group} {s : String} (hs : s ∈ g.entries) (pad unit : String) :
    s.toList <:+: (g.broken pad unit).toList := by
  have hline : s.toList <:+: (pad ++ unit ++ s).toList := by
    rw [String.toList_append]
    exact (List.suffix_append _ _).isInfix
  have hentries := Text.infix_intercalate ",\n"
    (List.mem_map.mpr ⟨s, hs, rfl⟩ : pad ++ unit ++ s ∈ g.entries.map fun e => pad ++ unit ++ e)
  rw [broken_of_ne_nil (List.ne_nil_of_mem hs)]
  simp only [String.toList_append] at hline hentries ⊢
  exact (((hline.trans hentries).trans (List.suffix_append _ _).isInfix).trans
    (List.prefix_append _ _).isInfix).trans
      ((List.prefix_append _ _).trans (List.prefix_append _ _)).isInfix

/-- An entry stands in the text of its group in both layouts. -/
theorem infix_printed {g : Group} {s : String} (hs : s ∈ g.entries) (style : Style)
    (pad : String) : s.toList <:+: (g.printed style pad).toList := by
  rcases g.printed_eq_or style pad with honeLine | hbroken
  · rw [honeLine]
    exact infix_oneLine hs
  · rw [hbroken]
    exact infix_broken hs pad style.unit

end Group

namespace Tree

variable {style : Style}

theorem text_infix_of_mem_children {t u : Tree} (hu : u ∈ t.children)
    (hmethod : u.method? style = none) (pad : String) :
    (u.text style (pad ++ style.unit)).toList <:+: (t.text style pad).toList := by
  cases t with
  | leaf a => cases hu
  | cut => cases hu
  | array ts =>
      rw [text]
      exact Group.infix_printed (List.mem_map.mpr ⟨u, hu, rfl⟩) style pad
  | object fs =>
      obtain ⟨f, hf, rfl⟩ := List.mem_map.mp hu
      have hentry : (f.2.text style (pad ++ style.unit)).toList <:+:
          (f.2.entry style f.1 (f.2.text style (pad ++ style.unit))).toList := by
        rw [entry, hmethod, String.toList_append]
        exact (List.suffix_append _ _).isInfix
      rw [text]
      exact hentry.trans (Group.infix_printed (List.mem_map.mpr ⟨f, hf, rfl⟩) style pad)

theorem text_infix_of_at? {t u : Tree} {route : List Nat} (hu : t.at? route = some u)
    (hmethod : u.method? style = none) (pad : String) :
    (u.text style (style.padAt pad route.length)).toList <:+: (t.text style pad).toList := by
  induction route generalizing t pad with
  | nil =>
      cases hu
      exact List.infix_rfl
  | cons i route ih =>
      obtain ⟨child, hchild, hroute⟩ := exists_child_of_at?_cons hu
      exact (ih hroute (pad ++ style.unit)).trans
        (text_infix_of_mem_children hchild (method?_of_at? hroute hmethod) pad)

end Tree

end ObjectLiteral
