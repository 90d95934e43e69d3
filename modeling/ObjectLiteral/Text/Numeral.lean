/-!
Decimal numerals of natural numbers and integers, and the canonical ones among all texts.
-/

namespace ObjectLiteral.Numeral

/-- The decimal digits of a natural number, the most significant first. -/
def digits (n : Nat) : List Char :=
  Nat.toDigits 10 n

def ofNat (n : Nat) : String :=
  String.ofList (digits n)

/-- The decimal numeral of an integer: a minus sign only if it is negative. -/
def ofInt (z : Int) : String :=
  if z < 0 then "-" ++ ofNat z.natAbs else ofNat z.natAbs

/-- The decimal numeral of a natural number, with zeros in front up to a width. -/
def padded (width n : Nat) : String :=
  String.ofList (List.replicate (width - (digits n).length) '0' ++ digits n)

/-- A canonical numeral has digits only, at least one, and no superfluous zero in front. -/
def isCanonical : List Char → Bool
  | [] => false
  | [c] => c.isDigit
  | c :: cs => c != '0' && (c :: cs).all Char.isDigit

/-- The number that a canonical numeral denotes. -/
def read? (cs : List Char) : Option Nat :=
  if isCanonical cs then some (Nat.ofDigitChars 10 cs 0) else none

end ObjectLiteral.Numeral
