import ObjectLiteral.Literal
import ObjectLiteral.Text.Width
/-!
The layout of a container whose entries are already written: all on one line, or one entry per
line.  Each container decides by its own one-line form alone.
-/

namespace ObjectLiteral

/-- The texts of the entries of a container, and its brackets. -/
structure Group where
  opening : Char
  closing : Char
  entries : List String
deriving DecidableEq

namespace Group

def ofElements (entries : List String) : Group := ⟨'[', ']', entries⟩

def ofFields (entries : List String) : Group := ⟨'{', '}', entries⟩

def oneLine (g : Group) : String :=
  g.opening.toString ++ String.intercalate ", " g.entries ++ g.closing.toString

/-- The lines of the entries, all but the last with a comma, and each with a line feed. -/
def entryLines (pad : String) : List String → String
  | [] => ""
  | [e] => pad ++ e ++ "\n"
  | e :: e' :: es => pad ++ e ++ ",\n" ++ entryLines pad (e' :: es)

/-- One entry per line, one level deeper than the brackets.  The line of the opening bracket is
the caller's, so `pad` stands in front of all lines but the first. -/
def broken (g : Group) (pad unit : String) : String :=
  g.opening.toString ++ "\n" ++ entryLines (pad ++ unit) g.entries
    ++ pad ++ g.closing.toString

/-- A decision about a layout: the width of the one-line form, the limit, and whether the form
was taken. -/
structure Decision where
  width : Nat
  limit : Nat
  fits : Bool
deriving DecidableEq

/-- The decision for a group under a limit: the one-line form fits if it is not wider. -/
def decision (g : Group) (limit : Nat) : Decision :=
  let width := Text.width g.oneLine
  ⟨width, limit, width ≤ limit⟩

/-- The text of a group after a decision; without one it is broken. -/
def text (g : Group) (pad unit : String) : Option Decision → String
  | some d => if d.fits then g.oneLine else g.broken pad unit
  | none => g.broken pad unit

theorem entryLines_of_ne_nil (pad : String) {es : List String} (hes : es ≠ []) :
    entryLines pad es = ",\n".intercalate (es.map fun e => pad ++ e) ++ "\n" := by
  induction es with
  | nil => contradiction
  | cons e es ih =>
      cases es with
      | nil => simp [entryLines]
      | cons e' es =>
          rw [entryLines, ih (List.cons_ne_nil e' es)]
          simp only [List.map_cons, String.intercalate_cons_cons, String.append_assoc]

theorem broken_of_ne_nil {g : Group} (hentries : g.entries ≠ []) (pad unit : String) :
    g.broken pad unit = g.opening.toString ++ "\n"
      ++ ",\n".intercalate (g.entries.map fun e => pad ++ unit ++ e)
      ++ "\n" ++ pad ++ g.closing.toString := by
  rw [broken, entryLines_of_ne_nil _ hentries]
  simp only [String.append_assoc]

theorem decision_fits_iff (g : Group) (limit : Nat) :
    (g.decision limit).fits = true ↔ Text.width g.oneLine ≤ limit := by
  simp [decision]

end Group

end ObjectLiteral
