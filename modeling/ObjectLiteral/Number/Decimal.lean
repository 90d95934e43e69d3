import ObjectLiteral.Number.Binary64
import ObjectLiteral.Text.Numeral
/-!
Decimals, and the shortest one that reads back as a given double.  A decimal of few digits in the
interval that rounds to a double exists only if one of the double's two neighbours on that
decimal grid lies there, so it is enough to try those two for each number of digits.
-/

namespace ObjectLiteral

/-- The decimal `coefficient * 10 ^ exponent`. -/
structure Decimal where
  coefficient : Nat
  exponent : Int
deriving DecidableEq

namespace Decimal

/-- The decimal as a quotient of natural numbers. -/
def num (d : Decimal) : Nat :=
  d.coefficient * Nat.pow 10 d.exponent.toNat

def den (d : Decimal) : Nat :=
  Nat.pow 10 (-d.exponent).toNat

/-- The magnitude of the double nearest to a decimal. -/
def magnitude (d : Decimal) : Nat :=
  Binary64.nearestMagnitude d.num d.den

/-- The same decimal without zeros at the end of its coefficient. -/
def strip (d : Decimal) : Decimal :=
  if d.coefficient ≠ 0 ∧ d.coefficient % 10 = 0 then
    strip ⟨d.coefficient / 10, d.exponent + 1⟩
  else d
termination_by d.coefficient

/-- The place of the decimal point of a positive double: the `k` with value at least
`10 ^ (k - 1)` and below `10 ^ k`.  Every positive double is above `10 ^ (-330)`. -/
def pointOf (units : Nat) : Int :=
  ((Numeral.digits (units * Nat.pow 10 330 / Binary64.unitsPerOne)).length : Int) - 330

/-- The best decimal of `n` digits that reads back as the double of a magnitude: of its two
neighbours on the grid the nearer one, and the upper one where both are equally near. -/
def ofDigits? (magnitude n : Nat) : Option Decimal :=
  let units := Binary64.unitsOf magnitude
  let exponent := pointOf units - n
  let num := units * Nat.pow 10 (-exponent).toNat
  let den := Binary64.unitsPerOne * Nat.pow 10 exponent.toNat
  let lower : Decimal := ⟨num / den, exponent⟩
  let upper : Decimal := ⟨num / den + 1, exponent⟩
  let nearer := if 2 * (num % den) < den then [lower, upper] else [upper, lower]
  nearer.find? fun d => d.magnitude = magnitude

def exact (magnitude : Nat) : Decimal :=
  ⟨Binary64.unitsOf magnitude * Nat.pow 5 1074, -1074⟩

/-- The decimal of fewest digits that reads back as the double of a positive finite magnitude.
Seventeen digits are always enough. -/
def shortest (magnitude : Nat) : Decimal :=
  let found := (List.range 17).findSome? fun i => ofDigits? magnitude (i + 1)
  (found.getD (exact magnitude)).strip

/-- The largest place of the decimal point that is written without an exponent. -/
def lastPlace : Int := 21

/-- The place of the decimal point below which an exponent is written. -/
def firstPlace : Int := -5

/-- The exponent of ten as it is written: its sign always, then its digits. -/
def exponentMark (e : Int) : List Char :=
  'e' :: (if e < 0 then '-' else '+') :: Numeral.digits e.natAbs

/-- The text of a decimal.  A whole number below `10 ^ 21` is written in full, another decimal
from `10 ^ (-6)` up to there with a point, and any other with one digit before the point and an
exponent. -/
def text (d : Decimal) : String :=
  let ds := Numeral.digits d.coefficient
  let place : Int := ds.length + d.exponent
  String.ofList <|
    if place ≤ lastPlace ∧ 0 ≤ d.exponent then
      ds ++ List.replicate d.exponent.toNat '0'
    else if place ≤ lastPlace ∧ 0 < place then
      ds.take place.toNat ++ '.' :: ds.drop place.toNat
    else if firstPlace ≤ place ∧ place ≤ 0 then
      '0' :: '.' :: List.replicate (-place).toNat '0' ++ ds
    else
      ds.take 1 ++ (if ds.length = 1 then [] else '.' :: ds.drop 1) ++ exponentMark (place - 1)

end Decimal

end ObjectLiteral
