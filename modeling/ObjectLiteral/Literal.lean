import ObjectLiteral.Text.Quoted
import ObjectLiteral.Value
/-!
The style of a literal, and the literals of atoms and keys.
-/

namespace ObjectLiteral

open Text (Quote quoted)

/-- How literals are written: the text of one level of indentation, the quotes of strings, the
width up to which a container stays on one line, and whether declarations in method shorthand are
recognised.  Without a limit every container that is not empty is broken over lines. -/
structure Style where
  indent : String := "\t"
  quote : Quote := .single
  limit : Option Nat := none
  methodShorthand : Bool := true
deriving DecidableEq

namespace Style

/-- The text of one level of indentation; where it would be empty it is a tab. -/
def unit (s : Style) : String :=
  if s.indent = "" then "\t" else s.indent

end Style

/-- The literal of a symbol.  Only a well-known symbol is written by its bare description. -/
def Symbol.literal (q : Quote) : Symbol → String
  | .unique _ none => "Symbol()"
  | .unique _ (some d) => "Symbol(" ++ quoted q d ++ ")"
  | .registered key => "Symbol.for(" ++ quoted q key ++ ")"
  | .wellKnown w => w.description

/-- The literal of a key: an identifier bare, another name in quotes, a symbol in brackets. -/
def Key.literal (q : Quote) : Key → String
  | .name s => if Text.isIdentifier s.toList then s else quoted q s
  | .symbol s => "[" ++ s.literal q ++ "]"

def Atom.literal (style : Style) : Atom → String
  | .undefined => "undefined"
  | .null => "null"
  | .bool true => "true"
  | .bool false => "false"
  | .number n => n.text
  | .bigInt z => Numeral.ofInt z ++ "n"
  | .string s => quoted style.quote s
  | .regExp r => r.text
  | .callable c => c.text style.methodShorthand
  | .symbol s => s.literal style.quote
  | .date t => "new Date('" ++ t.text ++ "')"

/-- What stands for a container inside itself.  It is in double quotes whatever the style. -/
def circularMark : String :=
  "\"[Circular]\""

/-- The declaration text that a value contributes to an object as a whole entry. -/
def Value.method? (style : Style) (v : Value) : Option String :=
  v.callable?.bind (Callable.shorthand? style.methodShorthand)

/-- The entry of a property: its key and the text of its value, or the declaration of a method
alone. -/
def Style.entry (style : Style) (k : Key) (v : Value) (text : String) : String :=
  match v.method? style with
  | some declaration => declaration
  | none => k.literal style.quote ++ ": " ++ text

end ObjectLiteral
