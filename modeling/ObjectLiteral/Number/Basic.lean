import ObjectLiteral.Number.Decimal
/-!
Numbers: integers of 64 bits, doubles, and the three special numbers as values of their own.
-/

namespace ObjectLiteral

/-- The text of a double.  Both zeros are `0`, and every other finite double is the shortest
decimal that reads back as it. -/
def Binary64.text (x : Binary64) : String :=
  if x.isNaN then "NaN"
  else if x.isInfinite then if x.isNegative then "-Infinity" else "Infinity"
  else if x.isZero then "0"
  else (if x.isNegative then "-" else "") ++ (Decimal.shortest x.magnitude).text

/-- A number.  A double that is no finite number may also be held as one of the three special
numbers. -/
inductive Number where
  | integer (i : Int64)
  | float (x : Binary64)
  | infinity
  | negativeInfinity
  | nan
deriving DecidableEq

namespace Number

/-- The number of a double: infinities and NaNs become the special numbers. -/
def ofBinary64 (x : Binary64) : Number :=
  if x.isNaN then .nan
  else if x.isInfinite then if x.isNegative then .negativeInfinity else .infinity
  else .float x

/-- The number of a single, through its double. -/
def ofBinary32 (x : Binary32) : Number :=
  ofBinary64 x.widen

def isInteger : Number → Bool
  | .integer _ => true
  | _ => false

def isFloat : Number → Bool
  | .float _ => true
  | _ => false

def isSpecial : Number → Bool
  | .infinity | .negativeInfinity | .nan => true
  | _ => false

/-- The integer of 64 bits that a number is, if it is one.  The ends of the range are compared as
doubles, and the largest integer is rounded up to `2 ^ 63` as one, so that end is left out. -/
def toInt64? : Number → Option Int64
  | .integer i => some i
  | .float x =>
    if x.isWhole && (Binary64.ofInt Int64.minValue.toInt).le x
        && x.lt (Binary64.ofInt Int64.maxValue.toInt) then
      some x.toInt64
    else none
  | _ => none

/-- The double nearest to a number. -/
def toBinary64 : Number → Binary64
  | .integer i => .ofInt i.toInt
  | .float x => x
  | .infinity => .ofMagnitude false Binary64.infinityMagnitude
  | .negativeInfinity => .ofMagnitude true Binary64.infinityMagnitude
  | .nan => .ofMagnitude false (Binary64.infinityMagnitude + Nat.pow 2 51)

def text : Number → String
  | .integer i => Numeral.ofInt i.toInt
  | .float x => x.text
  | .infinity => "Infinity"
  | .negativeInfinity => "-Infinity"
  | .nan => "NaN"

/-- Equality of numbers: an integer never equals a double, and doubles are compared as floating
point numbers. -/
def equals : Number → Number → Bool
  | .integer i, .integer j => i == j
  | .float x, .float y => x.equals y
  | .infinity, .infinity | .negativeInfinity, .negativeInfinity | .nan, .nan => true
  | _, _ => false

end Number

end ObjectLiteral
