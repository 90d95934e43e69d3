import ObjectLiteral.Datum
import ObjectLiteral.Rendering
/-!
Conversion of data into values.  Every array and object of the result is made anew, and the first
piece of data that has no value, in the order of the data, decides the failure.
-/

namespace ObjectLiteral

/-- A step of a conversion: it makes containers and may fail. -/
abbrev ConvertM := StateT Heap (Except Failure)

namespace Value

/-- The value of an integer: a number if 64 bits hold it, else a big integer. -/
def ofInt (z : Int) : Value :=
  if Int64.minValue.toInt ≤ z ∧ z ≤ Int64.maxValue.toInt then
    .atom (.number (.integer (Int64.ofInt z)))
  else .atom (.bigInt z)

/-- The value of an integer of a type.  Those of a narrow type are numbers without a test. -/
def ofTypedInteger (z : TypedInteger) : Value :=
  if z.type.isNarrow then .atom (.number (.integer (Int64.ofInt z.value))) else ofInt z.value

def ofByte (b : UInt8) : Value :=
  .atom (.number (.integer (Int64.ofInt b.toNat)))

/-- The text of a value as the key of a map: strings, booleans and whole numbers have one. -/
def mapKey? : Value → Option String
  | .atom (.string s) => some s
  | .atom (.bool true) => some "true"
  | .atom (.bool false) => some "false"
  | .atom (.number (.integer i)) => some (Numeral.ofInt i.toInt)
  | .atom (.bigInt z) => some (Numeral.ofInt z)
  | _ => none

end Value

namespace Conversion

/-- A value that is no text cannot be the key of a map. -/
def badKey : Failure :=
  .unsupported "map keys must be strings or integers"

/-- A value of a map needs a key that is still unused. -/
def noKey : Failure :=
  .custom "serialize_value called without serialize_key"

def newArray (vs : List Value) : ConvertM Value := fun h =>
  let (r, h) := h.newArray vs.toArray
  .ok (.array r, h)

def newObject (t : PropertyTable) : ConvertM Value := fun h =>
  let (r, h) := h.newObject t
  .ok (.object r, h)

/-- Makes an object of one property. -/
def newTagged (tag : String) (v : Value) : ConvertM Value :=
  newObject (PropertyTable.empty.insert (.name tag) v)

end Conversion

namespace Datum

open Conversion

mutual

/-- The value of a piece of data. -/
def toValue : Datum → ConvertM Value
  | .bool b => pure (.atom (.bool b))
  | .integer z => pure (.ofTypedInteger z)
  | .single x => pure (.atom (.number (.ofBinary32 x)))
  | .double x => pure (.atom (.number (.ofBinary64 x)))
  | .char c => pure (.atom (.string c.toString))
  | .string s => pure (.atom (.string s))
  | .bytes bs => newArray (bs.map Value.ofByte)
  | .absent => pure (.atom .null)
  | .present d => d.toValue
  | .unit => pure (.atom .null)
  | .namedUnit _ => pure (.atom .null)
  | .tag name => pure (.atom (.string name))
  | .wrapped _ d => d.toValue
  | .tagged name d => do newTagged name (← d.toValue)
  | .sequence _ ds => do newArray (← toValues ds)
  | .tuple ds _ => do newArray (← toValues ds)
  | .namedTuple _ ds _ => do newArray (← toValues ds)
  | .taggedTuple name ds _ => do newTagged name (← newArray (← toValues ds))
  | .map _ calls => do newObject (← runCalls calls none .empty)
  | .record _ fields _ => do newObject (← insertFields fields .empty)
  | .taggedRecord name fields _ => do newTagged name (← newObject (← insertFields fields .empty))
  | .failing reason => throw (.custom reason)

/-- The values of a list of data, from left to right. -/
def toValues : List Datum → ConvertM (List Value)
  | [] => pure []
  | d :: ds => do
    let v ← d.toValue
    let vs ← toValues ds
    pure (v :: vs)

/-- The properties of a map after a list of calls.  A key waits for the next value and replaces a
key that is still waiting; a key that waits at the end is dropped. -/
def runCalls : List MapCall → Option String → PropertyTable → ConvertM PropertyTable
  | [], _, t => pure t
  | .key d :: calls, _, t => do
    match (← d.toValue).mapKey? with
    | some k => runCalls calls (some k) t
    | none => throw badKey
  | .value _ :: _, none, _ => throw noKey
  | .value d :: calls, some k, t => do
    let v ← d.toValue
    runCalls calls none (t.insert (.name k) v)

/-- The properties of named fields, inserted one after the other. -/
def insertFields : List Field → PropertyTable → ConvertM PropertyTable
  | [], t => pure t
  | .mk name d :: rest, t => do
    let v ← d.toValue
    insertFields rest (t.insert (.name name) v)

end

end Datum

/-- Renders data: its value is made in the heap and then written.  If there is none, nothing is
written and no hook is called. -/
def Datum.render {σ : Type} (options : Options σ) (d : Datum) (w : World σ) : Outcome σ :=
  match d.toValue w.heap with
  | .ok (v, heap) => ObjectLiteral.render options "" v { w with heap }
  | .error f => ⟨.error (.failed f), w, []⟩

end ObjectLiteral
