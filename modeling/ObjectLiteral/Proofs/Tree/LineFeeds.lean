import Mathlib.Algebra.GroupWithZero.Nat
import ObjectLiteral.Proofs.Text.Unbroken
import ObjectLiteral.Proofs.Tree.Basic
/-!
Line feeds in the text of a tree on one line.  They are those of the callables and the regular
expressions in it, whose own text is not escaped.
-/

namespace ObjectLiteral

namespace Text

def lineFeeds (s : String) : Nat :=
  s.toList.count '\n'

theorem lineFeeds_append (s t : String) : lineFeeds (s ++ t) = lineFeeds s + lineFeeds t := by
  rw [lineFeeds, String.toList_append, List.count_append]
  rfl

theorem lineFeeds_of_unbroken {s : String} (hs : Unbroken s) : lineFeeds s = 0 :=
  List.count_eq_zero_of_not_mem fun hmem => hs '\n' hmem (Or.inl rfl)

theorem lineFeeds_intercalate {sep : String} (hsep : Unbroken sep) (ss : List String) :
    lineFeeds (sep.intercalate ss) = (ss.map lineFeeds).sum := by
  induction ss with
  | nil => rfl
  | cons s ss ih =>
      cases ss with
      | nil => simp
      | cons t ts =>
          rw [String.intercalate_cons_cons, lineFeeds_append, lineFeeds_append, ih,
            lineFeeds_of_unbroken hsep, List.map_cons, List.sum_cons]
          rfl

end Text

open Text

theorem Group.lineFeeds_oneLine (opening closing : Char) (es : List String)
    (hopening : Unbroken opening.toString) (hclosing : Unbroken closing.toString) :
    lineFeeds (Group.mk opening closing es).oneLine = (es.map lineFeeds).sum := by
  rw [oneLine, lineFeeds_append, lineFeeds_append, lineFeeds_of_unbroken hopening,
    lineFeeds_of_unbroken hclosing, lineFeeds_intercalate (by decide), Nat.zero_add, Nat.add_zero]

namespace Tree

/-- The line feeds in the own texts of the callables and regular expressions of a tree: of a
method in an object its declaration, of any other the literal. -/
def sourceLineFeeds (style : Style) : Tree → Nat
  | leaf a => if a.isSourced then lineFeeds (a.literal style) else 0
  | cut => 0
  | array ts => (ts.map (sourceLineFeeds style)).sum
  | object fs =>
    (fs.map fun f =>
      match f.2.method? style with
      | some declaration => lineFeeds declaration
      | none => sourceLineFeeds style f.2).sum
termination_by t => t
decreasing_by
  · exact sizeOf_lt_array ‹_›
  · exact sizeOf_lt_object ‹_›

theorem lineFeeds_entry (style : Style) (k : Key) (t : Tree) (text : String) :
    lineFeeds (t.entry style k text) =
      match t.method? style with
      | some declaration => lineFeeds declaration
      | none => lineFeeds text := by
  rw [entry]
  cases t.method? style with
  | some declaration => rfl
  | none =>
      dsimp only
      rw [lineFeeds_append, lineFeeds_append, lineFeeds_of_unbroken (k.unbroken_literal _),
        lineFeeds_of_unbroken (by decide : Unbroken ": "), Nat.zero_add]

theorem lineFeeds_inline (style : Style) (t : Tree) :
    lineFeeds (t.inline style) = t.sourceLineFeeds style := by
  induction t using induction_children with
  | step t ih =>
      cases t with
      | leaf a =>
          rw [inline, sourceLineFeeds]
          split
          · rfl
          · rename_i hsourced
            exact lineFeeds_of_unbroken (Atom.unbroken_literal (by simpa using hsourced) style)
      | cut =>
          rw [inline, sourceLineFeeds]
          exact lineFeeds_of_unbroken (by decide)
      | array ts =>
          rw [inline, sourceLineFeeds, Group.ofElements,
            Group.lineFeeds_oneLine '[' ']' _ (by decide) (by decide), List.map_map]
          congr 1
          exact List.map_congr_left ih
      | object fs =>
          rw [inline, sourceLineFeeds, Group.ofFields,
            Group.lineFeeds_oneLine '{' '}' _ (by decide) (by decide), List.map_map]
          congr 1
          refine List.map_congr_left fun f hf => ?_
          rw [Function.comp_apply, lineFeeds_entry, ih f.2 (List.mem_map.mpr ⟨f, hf, rfl⟩)]

end Tree

end ObjectLiteral
