import ObjectLiteral.Rendering
/-!
Texts that show what a value or a set of options consists of.  Containers show their one-line
literal.
-/

namespace ObjectLiteral

namespace Inspection

def isControl (c : Char) : Bool :=
  c.toNat < 32 || (127 ≤ c.toNat && c.toNat < 160)

/-- One character between the double quotes of an inspection text.  Above the control characters
every one counts as printable and stands for itself. -/
def escape (c : Char) : List Char :=
  if c = '"' then ['\\', '"']
  else if c = '\\' then ['\\', '\\']
  else if c = '\t' then ['\\', 't']
  else if c = '\n' then ['\\', 'n']
  else if c = '\r' then ['\\', 'r']
  else if c = '\x00' then ['\\', '0']
  else if isControl c then ['\\', 'u', '{'] ++ Nat.toDigits 16 c.toNat ++ ['}']
  else [c]

def quoted (s : String) : String :=
  String.ofList ('"' :: s.toList.flatMap escape ++ ['"'])

def tagged (tag content : String) : String :=
  tag ++ "(" ++ content ++ ")"

def optional : Option String → String
  | some s => tagged "Some" s
  | none => "None"

def record (name : String) (fields : List (String × String)) : String :=
  name ++ " \x7b " ++ String.intercalate ", " (fields.map fun (f, s) => f ++ ": " ++ s) ++ " \x7d"

def flag (b : Bool) : String :=
  if b then "true" else "false"

/-- The same text with its first letter in upper case. -/
def capitalized (s : String) : String :=
  match s.toList with
  | [] => ""
  | c :: cs => String.ofList (c.toUpper :: cs)

/-- The text of a decimal: from `10 ^ (-4)` up to `10 ^ 16` with at least one place behind the
point, elsewhere with an exponent, which has no sign unless it is negative. -/
def decimal (d : Decimal) : String :=
  let ds := Numeral.digits d.coefficient
  let place : Int := ds.length + d.exponent
  if place < -3 ∨ 16 < place then
    String.ofList (ds.take 1 ++ (if ds.length = 1 then [] else '.' :: ds.drop 1))
      ++ "e" ++ Numeral.ofInt (place - 1)
  else if 0 ≤ d.exponent then
    String.ofList (ds ++ List.replicate d.exponent.toNat '0' ++ ['.', '0'])
  else if 0 < place then
    String.ofList (ds.take place.toNat ++ '.' :: ds.drop place.toNat)
  else
    String.ofList ('0' :: '.' :: List.replicate (-place).toNat '0' ++ ds)

/-- The places of a second: none if they are all zero, else three, six or nine of them. -/
def fraction (nanos : Nat) : String :=
  if nanos = 0 then ""
  else if nanos % 1000000 = 0 then "." ++ Numeral.padded 3 (nanos / 1000000)
  else if nanos % 1000 = 0 then "." ++ Numeral.padded 6 (nanos / 1000)
  else "." ++ Numeral.padded 9 nanos

/-- The widest limit that a style is given. -/
def widestLimit : Nat := UInt64.size - 1

/-- The style of the literals in inspection texts: on one line. -/
def style : Style := { limit := some widestLimit }

end Inspection

open Inspection

def Binary64.inspect (x : Binary64) : String :=
  if x.isNaN then "NaN"
  else
    (if x.isNegative then "-" else "") ++
      if x.isInfinite then "inf" else if x.isZero then "0.0"
      else Inspection.decimal (Decimal.shortest x.magnitude)

def Number.inspect : Number → String
  | .integer i => tagged "Integer" (Numeral.ofInt i.toInt)
  | .float x => tagged "Float" x.inspect
  | .infinity => "Infinity"
  | .negativeInfinity => "NegativeInfinity"
  | .nan => "NaN"

/-- Date and time to the last place that is not zero.  A year that has not four digits has a
sign. -/
def Instant.inspect (t : Instant) : String :=
  let year := t.date.year
  (if year < 0 then "-" else if 9999 < year then "+" else "") ++ Numeral.padded 4 year.natAbs
    ++ "-" ++ Numeral.padded 2 t.date.month ++ "-" ++ Numeral.padded 2 t.date.day
    ++ "T" ++ Numeral.padded 2 (t.secondOfDay / 3600)
    ++ ":" ++ Numeral.padded 2 (t.secondOfDay / 60 % 60)
    ++ ":" ++ Numeral.padded 2 t.second
    ++ fraction (t.nanos % 1000000000) ++ "Z"

def RegExp.inspect (r : RegExp) : String :=
  record "RegExp" [("source", quoted r.source), ("flags", quoted r.flags)]

def Callable.Kind.inspect : Callable.Kind → String
  | .normal => "Normal"
  | .async => "Async"
  | .generator => "Generator"
  | .asyncGenerator => "AsyncGenerator"

def Callable.inspect (c : Callable) : String :=
  record "Function"
    [("name", quoted c.name), ("kind", c.kind.inspect),
     ("source", optional (c.source.map quoted))]

def Symbol.inspectKind : Symbol → String
  | .unique _ _ => "Unique"
  | .registered _ => "Registered"
  | .wellKnown w => tagged "WellKnown" (capitalized w.name)

def Symbol.inspect (s : Symbol) : String :=
  record "Symbol"
    [("description", optional (s.description?.map quoted)), ("kind", s.inspectKind)]

def Atom.inspect : Atom → String
  | .undefined => "Undefined"
  | .null => "Null"
  | .bool b => tagged "Bool" (flag b)
  | .number n => tagged "Number" n.inspect
  | .bigInt z => tagged "BigInt" (Numeral.ofInt z)
  | .string s => tagged "String" (quoted s)
  | .regExp r => tagged "RegExp" r.inspect
  | .callable c => tagged "Function" c.inspect
  | .symbol s => tagged "Symbol" s.inspect
  | .date t => tagged "Date" t.inspect

def Heap.wideLiteral (h : Heap) (v : Value) : String :=
  h.literal Inspection.style v

/-- The inspection text of a value. -/
def Heap.inspect (h : Heap) : Value → String
  | .atom a => a.inspect
  | .array r => tagged "Array" (tagged "Array" (h.wideLiteral (.array r)))
  | .object r => tagged "Object" (tagged "Object" (h.wideLiteral (.object r)))

/-- The inspection text of options.  Of the hooks it only says whether they are there. -/
def Options.inspect {σ : Type} (o : Options σ) : String :=
  record "StringifyOptions"
    [("indent", quoted o.style.indent),
     ("single_quotes", flag (o.style.quote = .single)),
     ("inline_character_limit", optional (o.style.limit.map Numeral.ofNat)),
     ("method_shorthand", flag o.style.methodShorthand),
     ("filter", flag o.hooks.filter.isSome),
     ("transform", flag o.hooks.transform.isSome)]

end ObjectLiteral
