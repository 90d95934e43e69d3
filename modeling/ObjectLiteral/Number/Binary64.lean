/-!
Double precision floating point numbers as words of 64 bits.  A finite one is a whole multiple of
`2 ^ (-1074)`, so its value is held by a sign and a natural number of such units, and rounding a
quotient to the nearest double is arithmetic on natural numbers.
-/

namespace ObjectLiteral

/-- A double, given by its sign bit, eleven exponent bits and fifty-two fraction bits. -/
structure Binary64 where
  bits : UInt64
deriving DecidableEq

namespace Binary64

def isNegative (x : Binary64) : Bool :=
  Nat.pow 2 63 ≤ x.bits.toNat

/-- The word without its sign bit.  Magnitudes of doubles that are no NaN are ordered as the
absolute values that they stand for. -/
def magnitude (x : Binary64) : Nat :=
  x.bits.toNat % Nat.pow 2 63

/-- The magnitude of both infinities; the magnitudes above it are those of the NaNs. -/
def infinityMagnitude : Nat :=
  2047 * Nat.pow 2 52

/-- The double of a sign and a magnitude. -/
def ofMagnitude (negative : Bool) (magnitude : Nat) : Binary64 :=
  ⟨UInt64.ofNat (magnitude + if negative then Nat.pow 2 63 else 0)⟩

def isNaN (x : Binary64) : Bool :=
  infinityMagnitude < x.magnitude

def isInfinite (x : Binary64) : Bool :=
  x.magnitude = infinityMagnitude

def isZero (x : Binary64) : Bool :=
  x.magnitude = 0

/-- The number of units `2 ^ (-1074)` in the absolute value of a finite double: the fraction,
with the hidden bit in front unless the exponent field is zero, shifted by the exponent. -/
def unitsOf (magnitude : Nat) : Nat :=
  let exponent := magnitude / Nat.pow 2 52
  let fraction := magnitude % Nat.pow 2 52
  if exponent = 0 then fraction else (Nat.pow 2 52 + fraction) * Nat.pow 2 (exponent - 1)

/-- The absolute value of a finite double, in units of `2 ^ (-1074)`. -/
def units (x : Binary64) : Nat :=
  unitsOf x.magnitude

/-- The number of units in one. -/
def unitsPerOne : Nat :=
  Nat.pow 2 1074

/-- The whole number nearest to a quotient; a half goes to the even neighbour. -/
def roundHalfEven (num den : Nat) : Nat :=
  let q := num / den
  let r := num % den
  if 2 * r < den then q else if den < 2 * r then q + 1 else q + q % 2

/-- The magnitude of the double nearest to a quotient, ties to even.  The quotient is rounded to
fifty-three binary places, or to whole units where that is coarser, and a carry out of the places
moves on to the next exponent by itself. -/
def nearestMagnitude (num den : Nat) : Nat :=
  let shift := Nat.log2 (num * unitsPerOne / den) - 52
  let rounded := roundHalfEven (num * unitsPerOne) (den * Nat.pow 2 shift)
  min (shift * Nat.pow 2 52 + rounded) infinityMagnitude

/-- The double nearest to an integer, ties to even. -/
def ofInt (z : Int) : Binary64 :=
  ofMagnitude (z < 0) (nearestMagnitude z.natAbs 1)

/-- Whether a double has no fraction.  An infinity and a NaN are not whole. -/
def isWhole (x : Binary64) : Bool :=
  x.magnitude < infinityMagnitude ∧ x.units % unitsPerOne = 0

/-- The whole part of a double, rounded towards zero.  An infinity counts as the power of two that
comes next after the finite doubles. -/
def truncate (x : Binary64) : Int :=
  let n : Int := x.units / unitsPerOne
  if x.isNegative then -n else n

/-- The whole part of a double as an integer of 64 bits.  What is beyond them goes to the end of
their range on its side, and a NaN to zero. -/
def toInt64 (x : Binary64) : Int64 :=
  if x.isNaN then 0
  else Int64.ofInt (max Int64.minValue.toInt (min x.truncate Int64.maxValue.toInt))

/-- The place of a double that is no NaN in the order of numbers.  Both zeros have one place. -/
def rank (x : Binary64) : Int :=
  if x.isNegative then -x.magnitude else x.magnitude

/-- Order of floating point numbers.  A NaN is in no order with anything. -/
def le (x y : Binary64) : Bool :=
  !x.isNaN && !y.isNaN && x.rank ≤ y.rank

def lt (x y : Binary64) : Bool :=
  !x.isNaN && !y.isNaN && x.rank < y.rank

/-- Equality of floating point numbers: a NaN equals nothing, and the two zeros are equal. -/
def equals (x y : Binary64) : Bool :=
  !x.isNaN && !y.isNaN && (x.bits == y.bits || x.isZero && y.isZero)

end Binary64

/-- A single precision number, given by its sign bit, eight exponent bits and twenty-three
fraction bits. -/
structure Binary32 where
  bits : UInt32
deriving DecidableEq

namespace Binary32

def magnitude (x : Binary32) : Nat :=
  x.bits.toNat % Nat.pow 2 31

def isNegative (x : Binary32) : Bool :=
  Nat.pow 2 31 ≤ x.bits.toNat

def units (x : Binary32) : Nat :=
  let exponent := x.magnitude / Nat.pow 2 23
  let fraction := x.magnitude % Nat.pow 2 23
  if exponent = 0 then fraction else (Nat.pow 2 23 + fraction) * Nat.pow 2 (exponent - 1)

/-- The same number as a double.  Every single is a double, so nothing is rounded; an infinity
stays one and a NaN keeps its fraction bits. -/
def widen (x : Binary32) : Binary64 :=
  if 255 * Nat.pow 2 23 ≤ x.magnitude then
    .ofMagnitude x.isNegative
      (Binary64.infinityMagnitude + (x.magnitude % Nat.pow 2 23) * Nat.pow 2 29)
  else .ofMagnitude x.isNegative (Binary64.nearestMagnitude x.units (Nat.pow 2 149))

end Binary32

end ObjectLiteral
