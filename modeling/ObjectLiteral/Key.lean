import ObjectLiteral.Symbol
import ObjectLiteral.Text.Numeral
/-!
Property keys: names and symbols.  A name that is the numeral of an array index is shown before
all other keys.
-/

namespace ObjectLiteral

inductive Key where
  | name (s : String)
  | symbol (s : Symbol)
deriving DecidableEq

namespace Key

def text : Key → String
  | name s => s
  | symbol s => s.text

def name? : Key → Option String
  | name s => some s
  | symbol _ => none

def isSymbol : Key → Bool
  | name _ => false
  | symbol _ => true

/-- Two keys are one. -/
def same : Key → Key → Bool
  | name s, name t => s == t
  | symbol s, symbol t => s.same t
  | _, _ => false

/-- What a key feeds to a hasher. -/
def fed : Key → List Fed
  | name s => [.alternative 0, .text s]
  | symbol s => .alternative 1 :: s.fed

def maxArrayIndex : Nat :=
  UInt32.size - 2

/-- The array index that a text is the canonical numeral of. -/
def indexOfName? (s : String) : Option Nat :=
  match Numeral.read? s.toList with
  | some n => if n ≤ maxArrayIndex then some n else none
  | none => none

/-- The array index of a key.  A symbol has none. -/
def arrayIndex? : Key → Option Nat
  | name s => indexOfName? s
  | symbol _ => none

end Key

end ObjectLiteral
