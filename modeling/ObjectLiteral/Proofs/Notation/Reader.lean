import ObjectLiteral.Proofs.Text.Numeral
import ObjectLiteral.Proofs.Text.Scan
import ObjectLiteral.Proofs.Tree.Basic
import ObjectLiteral.Text.Width
/-!
A reader of the notation.  It descends into containers, passes over any spaces, tabs and line feeds
between the parts of a literal, and knows of the way in which a text was written nothing but the
quotes of its strings.
-/

namespace ObjectLiteral.Notation

open Text (Quote scan isWordChar isIdentifier)

/-- A reader takes something off the front of a text, or fails. -/
abbrev Reader (α : Type) := List Char → Option (α × List Char)

def isSpace (c : Char) : Bool :=
  c == ' ' || c == '\t' || c == '\n'

def skip (cs : List Char) : List Char :=
  cs.dropWhile isSpace

/-- The characters of the words and numerals that stand for atoms. -/
def isBare (c : Char) : Bool :=
  isWordChar c || c == '-'

def constants : List (String × Atom) :=
  [("undefined", .undefined), ("null", .null), ("true", .bool true), ("false", .bool false),
    ("NaN", .number .nan), ("Infinity", .number .infinity),
    ("-Infinity", .number .negativeInfinity)]

/-- The atom of a numeral: an integer of 64 bits, or behind it an `n` and an integer of any
size. -/
def numeral? (cs : List Char) : Option Atom :=
  if cs.getLast? = some 'n' then (Numeral.readInt? cs.dropLast).map .bigInt
  else
    match Numeral.readInt? cs with
    | some z =>
        if Int64.minValue.toInt ≤ z ∧ z ≤ Int64.maxValue.toInt then
          some (.number (.integer (.ofInt z)))
        else none
    | none => none

def atom? (cs : List Char) : Option Atom :=
  match numeral? cs with
  | some a => some a
  | none => constants.lookup (String.ofList cs)

/-- An atom up to the first character that cannot belong to it. -/
def bare : Reader Atom := fun cs =>
  (atom? (cs.takeWhile isBare)).map fun a => (a, cs.dropWhile isBare)

/-- What stands for a container inside itself, from behind its opening quote. -/
def cut : Reader Tree := fun cs =>
  match scan .double cs with
  | some (s, rest) => if String.ofList s = "[Circular]" then some (.cut, rest) else none
  | none => none

def key (q : Quote) : Reader Key := fun cs =>
  match skip cs with
  | [] => none
  | c :: cs =>
      if c = q.mark then (scan q cs).map fun (s, rest) => (.name (.ofList s), rest)
      else
        let word := (c :: cs).takeWhile isWordChar
        if isIdentifier word then some (.name (.ofList word), (c :: cs).dropWhile isWordChar)
        else none

def field (q : Quote) {α : Type} (item : Reader α) : Reader (Key × α) := fun cs =>
  match key q cs with
  | some (k, cs) =>
      match skip cs with
      | ':' :: cs => (item cs).map fun (a, rest) => ((k, a), rest)
      | _ => none
  | none => none

/-- At most so many entries with commas between them, and the closing bracket. -/
def series {α : Type} (item : Reader α) (closing : Char) : Nat → Reader (List α)
  | 0, _ => none
  | count + 1, cs =>
      match item cs with
      | some (a, cs) =>
          match skip cs with
          | [] => none
          | c :: cs =>
              if c = closing then some ([a], cs)
              else if c = ',' then
                (series item closing count cs).map fun (as, rest) => (a :: as, rest)
              else none
      | none => none

/-- The entries of a container from behind its opening bracket. -/
def entries {α : Type} (item : Reader α) (closing : Char) : Reader (List α) := fun cs =>
  match skip cs with
  | [] => none
  | c :: rest => if c = closing then some ([], rest) else series item closing cs.length cs

/-- A value with fewer than `depth` containers inside each other. -/
def value (q : Quote) : Nat → Reader Tree
  | 0, _ => none
  | depth + 1, cs =>
      match skip cs with
      | [] => none
      | c :: cs =>
          if c = '[' then
            (entries (value q depth) ']' cs).map fun (ts, rest) => (.array ts, rest)
          else if c = '{' then
            (entries (field q (value q depth)) '}' cs).map fun (fs, rest) => (.object fs, rest)
          else if c = q.mark then
            (scan q cs).map fun (s, rest) => (.leaf (.string (.ofList s)), rest)
          else if c = '"' then cut cs
          else (bare (c :: cs)).map fun (a, rest) => (.leaf a, rest)

/-- The tree of a whole text, which nests no deeper than it is wide. -/
def read? (q : Quote) (s : String) : Option Tree :=
  match value q (Text.width s + 1) s.toList with
  | some (t, rest) => if skip rest = [] then some t else none
  | none => none

end ObjectLiteral.Notation
