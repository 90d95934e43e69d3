import ObjectLiteral.Text.Numeral
/-!
Instants of the proleptic Gregorian calendar and their text.  Years are counted from March, so a
leap day is the last day of its year, and a day number splits into cycles of 400, 100, 4 and 1
years.
-/

namespace ObjectLiteral

structure CivilDate where
  year : Int
  month : Nat
  day : Nat
deriving DecidableEq

namespace CivilDate

/-- Days in 400, in 100 and in 4 years. -/
def daysPer400 : Nat := 146097
def daysPer100 : Nat := 36524
def daysPer4 : Nat := 1461

/-- The days from the first of March of the year 0 to the first of January 1970. -/
def epochOffset : Int := 719468

/-- The day of a number of days after the first of January 1970.  The last century of a cycle of
400 years and the last year of a cycle of four are a day longer, hence the two minima. -/
def ofDayNumber (n : Int) : CivilDate :=
  let shifted := n + epochOffset
  let cycle := shifted / daysPer400
  let d := (shifted % daysPer400).toNat
  let century := min 3 (d / daysPer100)
  let d := d - century * daysPer100
  let olympiad := d / daysPer4
  let d := d - olympiad * daysPer4
  let year := min 3 (d / 365)
  let d := d - year * 365
  let month := (5 * d + 2) / 153
  { year := cycle * 400 + (century * 100 + olympiad * 4 + year + if month < 10 then 0 else 1 : Nat)
    month := if month < 10 then month + 3 else month - 9
    day := d - (153 * month + 2) / 5 + 1 }

/-- A year from 0 to 9999 has four digits; any other has a sign and at least six. -/
def yearText (year : Int) : String :=
  if 0 ≤ year ∧ year ≤ 9999 then Numeral.padded 4 year.natAbs
  else (if year < 0 then "-" else "+") ++ Numeral.padded 6 year.natAbs

def text (d : CivilDate) : String :=
  yearText d.year ++ "-" ++ Numeral.padded 2 d.month ++ "-" ++ Numeral.padded 2 d.day

end CivilDate

/-- An instant: whole seconds since the first of January 1970, and nanoseconds.  A second of
nanoseconds or more stands for a leap second, which only the last second of a minute has.  Whoever
sets the nanoseconds by hand can have as many behind any other second; what then results is no time
of a clock and is none of these instants. -/
structure Instant where
  seconds : Int
  nanos : Nat
  valid : nanos < 1000000000 ∨ nanos < 2000000000 ∧ seconds % 60 = 59
deriving DecidableEq

namespace Instant

def ofMillis (ms : Int) : Instant :=
  ⟨ms / 1000, (ms % 1000).toNat * 1000000, by omega⟩

/-- The instant of seconds and nanoseconds, if there is one. -/
def ofParts? (seconds : Int) (nanos : Nat) : Option Instant :=
  if h : nanos < 1000000000 ∨ nanos < 2000000000 ∧ seconds % 60 = 59 then
    some ⟨seconds, nanos, h⟩
  else none

/-- The second of its day in which an instant lies; a leap second lies in the one before it. -/
def secondOfDay (t : Instant) : Nat :=
  (t.seconds % 86400).toNat

/-- The second of its minute: 60 in a leap second. -/
def second (t : Instant) : Nat :=
  t.secondOfDay % 60 + t.nanos / 1000000000

/-- The millisecond of its second; a part of a millisecond is dropped. -/
def millisecond (t : Instant) : Nat :=
  t.nanos % 1000000000 / 1000000

def date (t : Instant) : CivilDate :=
  .ofDayNumber (t.seconds / 86400)

/-- Date and time to the millisecond. -/
def text (t : Instant) : String :=
  t.date.text ++ "T" ++ Numeral.padded 2 (t.secondOfDay / 3600)
    ++ ":" ++ Numeral.padded 2 (t.secondOfDay / 60 % 60)
    ++ ":" ++ Numeral.padded 2 t.second
    ++ "." ++ Numeral.padded 3 t.millisecond ++ "Z"

end Instant

end ObjectLiteral
