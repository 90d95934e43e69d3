/-!
The width of a text, counted in UTF-16 code units.
-/

namespace ObjectLiteral.Text

/-- A character above U+FFFF takes two UTF-16 code units, every other one. -/
def units (c : Char) : Nat :=
  if c.toNat < 0x10000 then 1 else 2

/-- The number of UTF-16 code units of a text. -/
def width (s : String) : Nat :=
  s.foldl (fun n c => n + units c) 0

end ObjectLiteral.Text
