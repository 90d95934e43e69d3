import ObjectLiteral.Number.Basic
/-!
Data of a serializer: the values of a static type system as a tree of the forms in which they are
handed over.
-/

namespace ObjectLiteral

inductive Width where
  | w8
  | w16
  | w32
  | w64
  | w128
deriving DecidableEq

def Width.bits : Width → Nat
  | .w8 => 8
  | .w16 => 16
  | .w32 => 32
  | .w64 => 64
  | .w128 => 128

/-- An integer type: a width, with or without negative numbers. -/
structure IntegerType where
  signed : Bool
  width : Width
deriving DecidableEq

namespace IntegerType

def least (t : IntegerType) : Int :=
  if t.signed then -(Nat.pow 2 (t.width.bits - 1) : Int) else 0

/-- The first integer above all of a type. -/
def bound (t : IntegerType) : Int :=
  if t.signed then Nat.pow 2 (t.width.bits - 1) else Nat.pow 2 t.width.bits

def Holds (t : IntegerType) (z : Int) : Prop :=
  t.least ≤ z ∧ z < t.bound

instance (t : IntegerType) (z : Int) : Decidable (t.Holds z) :=
  inferInstanceAs (Decidable (_ ∧ _))

/-- Every integer of the type is an integer of 64 bits with sign. -/
def isNarrow (t : IntegerType) : Bool :=
  match t.width with
  | .w8 | .w16 | .w32 => true
  | .w64 => t.signed
  | .w128 => false

end IntegerType

/-- An integer of an integer type. -/
structure TypedInteger where
  type : IntegerType
  value : Int
  holds : type.Holds value
deriving DecidableEq

mutual

/-- A piece of data.  What consists of pieces carries the length that was announced for it, which
may be wrong; it has no effect, and the names of types have none.  A tag tells the alternatives of a
sum type apart. -/
inductive Datum where
  | bool (b : Bool)
  | integer (z : TypedInteger)
  | single (x : Binary32)
  | double (x : Binary64)
  | char (c : Char)
  | string (s : String)
  | bytes (bs : List UInt8)
  | absent
  | present (d : Datum)
  | unit
  | namedUnit (name : String)
  | tag (tag : String)
  | wrapped (name : String) (d : Datum)
  | tagged (tag : String) (d : Datum)
  | sequence (announced : Option Nat) (ds : List Datum)
  | tuple (ds : List Datum) (announced : Nat := 0)
  | namedTuple (name : String) (ds : List Datum) (announced : Nat := 0)
  | taggedTuple (tag : String) (ds : List Datum) (announced : Nat := 0)
  | map (announced : Option Nat) (calls : List MapCall)
  | record (name : String) (fields : List Field) (announced : Nat := 0)
  | taggedRecord (tag : String) (fields : List Field) (announced : Nat := 0)
  /-- Data that fails to be handed over. -/
  | failing (reason : String)

/-- A call on a map under construction.  Keys and values need not come in pairs. -/
inductive MapCall where
  | key (d : Datum)
  | value (d : Datum)

inductive Field where
  | mk (name : String) (d : Datum)

end

end ObjectLiteral
