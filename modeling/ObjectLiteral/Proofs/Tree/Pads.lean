import Mathlib.Algebra.BigOperators.Group.List.Basic
import ObjectLiteral.Proofs.Tree.Layout
import ObjectLiteral.Proofs.Tree.LineFeeds
/-!
Pads.  As long as the own texts in a tree have no line feeds, a pad stands after every line feed of
the text and nowhere else: pads are put together level by level, yet no decision about a layout
depends on them.
-/

namespace ObjectLiteral

namespace Text

/-- The same text with a pad after every line feed. -/
def indented (pad s : String) : String :=
  String.ofList (s.toList.flatMap fun c => if c = '\n' then '\n' :: pad.toList else [c])

theorem indented_append (pad s t : String) :
    indented pad (s ++ t) = indented pad s ++ indented pad t := by
  rw [indented, String.toList_append, List.flatMap_append, String.ofList_append]
  rfl

theorem indented_of_lineFeeds_eq_zero {s : String} (hs : lineFeeds s = 0) (pad : String) :
    indented pad s = s := by
  have hcalm : ∀ c ∈ s.toList, (if c = '\n' then '\n' :: pad.toList else [c]) = [c] := by
    intro c hc
    refine if_neg ?_
    rintro rfl
    exact List.count_eq_zero.mp hs hc
  rw [indented, List.flatMap_congr hcalm, List.flatMap_singleton', String.ofList_toList]

theorem indented_lineFeed (pad : String) : indented pad "\n" = "\n" ++ pad := by
  rw [← String.toList_inj, indented, String.toList_ofList, String.toList_append]
  simp

theorem indented_intercalate (pad sep : String) (ss : List String) :
    indented pad (sep.intercalate ss) = (indented pad sep).intercalate (ss.map (indented pad)) := by
  induction ss with
  | nil => rfl
  | cons s ss ih =>
      cases ss with
      | nil => simp
      | cons t ts =>
          rw [String.intercalate_cons_cons, indented_append, indented_append, ih, List.map_cons,
            List.map_cons, List.map_cons, String.intercalate_cons_cons]

/-- A text in front of every entry is one in front of the whole and after every separator. -/
theorem intercalate_map_append (sep s : String) {ss : List String} (hss : ss ≠ []) :
    sep.intercalate (ss.map (s ++ ·)) = s ++ (sep ++ s).intercalate ss := by
  induction ss with
  | nil => contradiction
  | cons t ss ih =>
      cases ss with
      | nil => simp
      | cons u us =>
          rw [List.map_cons, List.map_cons, String.intercalate_cons_cons, ← List.map_cons,
            ih (List.cons_ne_nil _ _), String.intercalate_cons_cons]
          simp only [String.append_assoc]

end Text

open Text

namespace Group

/-- The group of the same entries with a pad after every line feed. -/
def indented (pad : String) (g : Group) : Group :=
  ⟨g.opening, g.closing, g.entries.map (Text.indented pad)⟩

/-- A broken group at a longer pad is the same text with the additional pad on its lines. -/
theorem broken_indented {g : Group} {pad unit : String} (hentries : g.entries ≠ [])
    (hopening : lineFeeds g.opening.toString = 0) (hclosing : lineFeeds g.closing.toString = 0)
    (hpad : lineFeeds pad = 0) (hunit : lineFeeds unit = 0) (outer : String) :
    (g.indented outer).broken (outer ++ pad) unit =
      Text.indented outer (g.broken pad unit) := by
  have hline : ∀ e, Text.indented outer (pad ++ unit ++ e) =
      pad ++ unit ++ Text.indented outer e := by
    intro e
    rw [indented_append, indented_append, indented_of_lineFeeds_eq_zero hpad,
      indented_of_lineFeeds_eq_zero hunit]
  have hsep : Text.indented outer ",\n" = ",\n" ++ outer := by
    have hsplit : ",\n" = "," ++ "\n" := rfl
    rw [hsplit, indented_append, indented_lineFeed, indented_of_lineFeeds_eq_zero (by decide),
      String.append_assoc]
  have hlines : ",\n".intercalate (g.entries.map fun e =>
        outer ++ pad ++ unit ++ Text.indented outer e) =
      outer ++ Text.indented outer (",\n".intercalate (g.entries.map (pad ++ unit ++ ·))) := by
    have hne : g.entries.map (fun e => pad ++ unit ++ Text.indented outer e) ≠ [] :=
      fun hnil => hentries (List.map_eq_nil_iff.mp hnil)
    calc ",\n".intercalate (g.entries.map fun e => outer ++ pad ++ unit ++ Text.indented outer e)
        = ",\n".intercalate ((g.entries.map fun e =>
            pad ++ unit ++ Text.indented outer e).map (outer ++ ·)) := by
          simp only [List.map_map, Function.comp_def, String.append_assoc]
      _ = outer ++ (",\n" ++ outer).intercalate (g.entries.map fun e =>
            pad ++ unit ++ Text.indented outer e) := intercalate_map_append _ _ hne
      _ = outer ++ Text.indented outer (",\n".intercalate (g.entries.map (pad ++ unit ++ ·))) := by
          rw [indented_intercalate, hsep, List.map_map]
          simp only [Function.comp_def, hline]
  have hne : (g.indented outer).entries ≠ [] := fun hnil => hentries (List.map_eq_nil_iff.mp hnil)
  rw [broken_of_ne_nil hne, broken_of_ne_nil hentries]
  simp only [indented, List.map_map, Function.comp_def, hlines, indented_append,
    indented_lineFeed, indented_of_lineFeeds_eq_zero hopening,
    indented_of_lineFeeds_eq_zero hclosing, indented_of_lineFeeds_eq_zero hpad]
  simp only [String.append_assoc]

/-- Without entries there are only the brackets, at every pad. -/
theorem printed_indented_of_nil {g : Group} (hentries : g.entries = [])
    (hopening : Unbroken g.opening.toString) (hclosing : Unbroken g.closing.toString)
    (style : Style) (outer pad : String) :
    (g.indented outer).printed style (outer ++ pad) =
      Text.indented outer (g.printed style pad) := by
  have hsame : g.indented outer = g := by
    rw [indented, hentries, List.map_nil, ← hentries]
  have hprinted : ∀ pad, g.printed style pad = g.oneLine := by
    intro pad
    rw [printed, hentries]
  have hline : lineFeeds g.oneLine = 0 := by
    rw [lineFeeds_oneLine _ _ _ hopening hclosing, hentries]
    rfl
  rw [hsame, hprinted, hprinted, indented_of_lineFeeds_eq_zero hline]

end Group

/-- The text that an atom has of its own: the source of a callable or what stands for it, and a
regular expression. -/
def Atom.ownText? : Atom → Option String
  | callable c => some (c.source.getD c.placeholder)
  | regExp r => some r.text
  | _ => none

/-- An atom without line feeds in its own text. -/
def Atom.Quiet (a : Atom) : Prop :=
  ∀ text, a.ownText? = some text → lineFeeds text = 0

namespace Callable

theorem lineFeeds_fullDeclaration {source : String} (hsource : lineFeeds source = 0)
    (kind : Kind) : lineFeeds (fullDeclaration kind source) = 0 := by
  have hrest : lineFeeds (String.ofList (afterAsync source.toList)) = 0 := by
    rw [lineFeeds, String.toList_ofList]
    exact Nat.le_zero.mp (hsource ▸ (afterAsync_suffix source.toList).sublist.count_le '\n')
  unfold fullDeclaration
  split
  · rw [lineFeeds_append, hrest, lineFeeds_of_unbroken (by decide)]
  · rw [lineFeeds_append, hsource, lineFeeds_of_unbroken (by decide)]

end Callable

theorem Atom.Quiet.lineFeeds_method {a : Atom} (ha : a.Quiet) {style : Style}
    {declaration : String} (hmethod : (Value.atom a).method? style = some declaration) :
    lineFeeds declaration = 0 := by
  cases a with
  | callable c =>
      refine ha declaration ?_
      rw [ownText?, Callable.source_of_shorthand? hmethod, Option.getD_some]
  | _ => cases hmethod

theorem Atom.Quiet.lineFeeds_literal {a : Atom} (ha : a.Quiet) (style : Style) :
    lineFeeds (a.literal style) = 0 := by
  cases a with
  | callable c =>
      rw [literal, Callable.text]
      split
      · rename_i source hmethod
        exact Callable.lineFeeds_fullDeclaration (ha.lineFeeds_method hmethod) c.kind
      · exact ha _ rfl
  | regExp r => exact ha _ rfl
  | _ => exact lineFeeds_of_unbroken (unbroken_literal rfl style)

namespace Tree

def Quiet (t : Tree) : Prop :=
  ∀ route a, t.at? route = some (leaf a) → a.Quiet

variable {style : Style} {t : Tree} {pad : String}

theorem Quiet.of_mem_children {u : Tree} (ht : t.Quiet) (hu : u ∈ t.children) : u.Quiet := by
  intro route a hroute
  obtain ⟨i, hi⟩ := List.getElem?_of_mem hu
  refine ht (i :: route) a ?_
  rw [at?, hi]
  exact hroute

theorem Quiet.lineFeeds_method {declaration : String} (ht : t.Quiet)
    (hmethod : t.method? style = some declaration) : lineFeeds declaration = 0 := by
  cases t with
  | leaf a => exact (ht [] a rfl).lineFeeds_method hmethod
  | _ => cases hmethod

theorem Quiet.sourceLineFeeds_eq_zero (ht : t.Quiet) : t.sourceLineFeeds style = 0 := by
  induction t using induction_children with
  | step t ih =>
      cases t with
      | leaf a =>
          rw [sourceLineFeeds, (ht [] a rfl).lineFeeds_literal, ite_self]
      | cut => rw [sourceLineFeeds]
      | array ts =>
          rw [sourceLineFeeds]
          refine List.sum_eq_zero fun n hn => ?_
          obtain ⟨u, hu, rfl⟩ := List.mem_map.mp hn
          exact ih u hu (ht.of_mem_children hu)
      | object fs =>
          rw [sourceLineFeeds]
          refine List.sum_eq_zero fun n hn => ?_
          obtain ⟨f, hf, rfl⟩ := List.mem_map.mp hn
          have hchild : f.2 ∈ (object fs).children := List.mem_map.mpr ⟨f, hf, rfl⟩
          split
          · rename_i declaration hmethod
            exact (ht.of_mem_children hchild).lineFeeds_method hmethod
          · exact ih f.2 hchild (ht.of_mem_children hchild)

theorem Quiet.indented_inline (ht : t.Quiet) (outer : String) :
    indented outer (t.inline style) = t.inline style :=
  indented_of_lineFeeds_eq_zero ((lineFeeds_inline style t).trans ht.sourceLineFeeds_eq_zero) outer

theorem Quiet.indented_entry (ht : t.Quiet) (k : Key) (outer text : String) :
    t.entry style k (indented outer text) = indented outer (t.entry style k text) := by
  unfold entry
  split
  · rename_i declaration hmethod
    exact (indented_of_lineFeeds_eq_zero (ht.lineFeeds_method hmethod) outer).symm
  · rw [indented_append, indented_append,
      indented_of_lineFeeds_eq_zero (lineFeeds_of_unbroken (k.unbroken_literal _)),
      indented_of_lineFeeds_eq_zero (lineFeeds_of_unbroken (by decide : Unbroken ": "))]

/-- At a longer pad the entries of a container are the same texts with the additional pad. -/
theorem Quiet.group?_append_pad {g : Group} {outer : String} (ht : t.Quiet)
    (hg : t.group? style pad = some g)
    (hchildren : ∀ u ∈ t.children, u.text style (outer ++ (pad ++ style.unit)) =
      indented outer (u.text style (pad ++ style.unit))) :
    t.group? style (outer ++ pad) = some (g.indented outer) := by
  cases t with
  | leaf a => cases hg
  | cut => cases hg
  | array ts =>
      cases hg
      rw [group?, Group.indented, Group.ofElements, Group.ofElements, List.map_map,
        String.append_assoc]
      exact congrArg (some ∘ Group.mk '[' ']') (List.map_congr_left hchildren)
  | object fs =>
      cases hg
      rw [group?, Group.indented, Group.ofFields, Group.ofFields, List.map_map,
        String.append_assoc]
      refine congrArg (some ∘ Group.mk '{' '}') (List.map_congr_left fun f hf => ?_)
      have hchild : f.2 ∈ (object fs).children := List.mem_map.mpr ⟨f, hf, rfl⟩
      rw [hchildren f.2 hchild, (ht.of_mem_children hchild).indented_entry, Function.comp_apply]

theorem unbroken_brackets {g : Group} (hg : t.group? style pad = some g) :
    Unbroken g.opening.toString ∧ Unbroken g.closing.toString := by
  cases t with
  | leaf a => cases hg
  | cut => cases hg
  | array ts =>
      cases hg
      exact (by decide : Unbroken '['.toString ∧ Unbroken ']'.toString)
  | object fs =>
      cases hg
      exact (by decide : Unbroken '{'.toString ∧ Unbroken '}'.toString)

/-- A container with entries is broken at every pad unless there is a limit that it fits. -/
theorem text_eq_broken {g : Group} (hg : t.group? style pad = some g) (hentries : g.entries ≠ [])
    (hwide : ∀ limit, style.limit = some limit → limit < width (t.inline style)) :
    t.text style pad = g.broken pad style.unit := by
  rw [text_of_group?_eq_some hg, Group.printed_of_ne_nil hentries]
  cases hlimit : style.limit with
  | none => rfl
  | some limit =>
      refine (g.text_decision_eq_broken_iff pad style.unit limit).mpr (Nat.lt_of_not_le ?_)
      exact fun hfits => Nat.not_le.mpr (hwide limit hlimit)
        ((width_oneLine_le_iff hlimit hg).mp hfits)

/-- A longer pad stands after every line feed of the text and nowhere else. -/
theorem text_append_pad (hunit : lineFeeds style.unit = 0) (hpad : lineFeeds pad = 0)
    (ht : t.Quiet) (outer : String) :
    t.text style (outer ++ pad) = indented outer (t.text style pad) := by
  induction t using induction_children generalizing pad with
  | step t ih =>
      by_cases hfits : ∃ limit, style.limit = some limit ∧ width (t.inline style) ≤ limit
      · obtain ⟨limit, hlimit, hfits⟩ := hfits
        rw [text_eq_inline hlimit hfits, text_eq_inline hlimit hfits, ht.indented_inline]
      have hwide : ∀ limit, style.limit = some limit → limit < width (t.inline style) :=
        fun limit hlimit => Nat.lt_of_not_le fun hle => hfits ⟨limit, hlimit, hle⟩
      cases hg : t.group? style pad with
      | none =>
          have hg' : t.group? style (outer ++ pad) = none := by
            cases t with
            | leaf a => rfl
            | cut => rfl
            | array ts => cases hg
            | object fs => cases hg
          rw [text_of_group?_eq_none hg, text_of_group?_eq_none hg', ht.indented_inline]
      | some g =>
          have hdeeper : lineFeeds (pad ++ style.unit) = 0 := by
            rw [lineFeeds_append, hpad, hunit]
          have hg' := ht.group?_append_pad hg fun u hu =>
            ih u hu hdeeper (ht.of_mem_children hu)
          obtain ⟨hopening, hclosing⟩ := unbroken_brackets hg
          by_cases hentries : g.entries = []
          · rw [text_of_group?_eq_some hg, text_of_group?_eq_some hg']
            exact Group.printed_indented_of_nil hentries hopening hclosing style outer pad
          · have hentries' : (g.indented outer).entries ≠ [] :=
              fun hnil => hentries (List.map_eq_nil_iff.mp hnil)
            rw [text_eq_broken hg hentries hwide, text_eq_broken hg' hentries' hwide]
            exact Group.broken_indented hentries (lineFeeds_of_unbroken hopening)
              (lineFeeds_of_unbroken hclosing) hpad hunit outer

end Tree

end ObjectLiteral
