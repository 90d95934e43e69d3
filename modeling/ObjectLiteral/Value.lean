import ObjectLiteral.Calendar
import ObjectLiteral.Callable
import ObjectLiteral.Key
import ObjectLiteral.Number.Basic
/-!
Values.  An atom is complete in itself; an array or an object is a reference to a container of a
heap, so that containers may be shared and may reach themselves.
-/

namespace ObjectLiteral

structure RegExp where
  source : String
  flags : String
deriving DecidableEq

/-- The text of a regular expression.  An empty source would start a comment, so it is written as
an empty group. -/
def RegExp.text (r : RegExp) : String :=
  "/" ++ (if r.source = "" then "(?:)" else r.source) ++ "/" ++ r.flags

/-- A value that holds no other value. -/
inductive Atom where
  | undefined
  | null
  | bool (b : Bool)
  | number (n : Number)
  | bigInt (z : Int)
  | string (s : String)
  | regExp (r : RegExp)
  | callable (c : Callable)
  | symbol (s : Symbol)
  | date (t : Instant)
deriving DecidableEq

structure ArrayRef where
  index : Nat
deriving DecidableEq

structure ObjectRef where
  index : Nat
deriving DecidableEq

inductive Value where
  | atom (a : Atom)
  | array (r : ArrayRef)
  | object (r : ObjectRef)
deriving DecidableEq

inductive Container where
  | array (r : ArrayRef)
  | object (r : ObjectRef)
deriving DecidableEq

/-- The place of an entry in its container. -/
inductive Position where
  | index (i : Nat)
  | key (k : Key)
deriving DecidableEq

def Position.text : Position → String
  | index i => Numeral.ofNat i
  | key k => k.text

namespace Atom

def kindName : Atom → String
  | undefined => "undefined"
  | null => "null"
  | bool _ => "bool"
  | number _ => "number"
  | bigInt _ => "bigint"
  | string _ => "string"
  | regExp _ => "regexp"
  | callable _ => "function"
  | symbol _ => "symbol"
  | date _ => "date"

/-- Equality of atoms.  Numbers are compared as numbers, all else by what it consists of. -/
def equals : Atom → Atom → Bool
  | number m, number n => m.equals n
  | a, b => a == b

end Atom

namespace Value

instance : Inhabited Value := ⟨.atom .undefined⟩

def kindName : Value → String
  | atom a => a.kindName
  | array _ => "array"
  | object _ => "object"

/-- The container that a value refers to. -/
def container? : Value → Option Container
  | atom _ => none
  | array r => some (.array r)
  | object r => some (.object r)

def callable? : Value → Option Callable
  | atom (.callable c) => some c
  | _ => none

def bool? : Value → Option Bool
  | atom (.bool b) => some b
  | _ => none

def string? : Value → Option String
  | atom (.string s) => some s
  | _ => none

def number? : Value → Option Number
  | atom (.number n) => some n
  | _ => none

def int64? (v : Value) : Option Int64 :=
  v.number?.bind Number.toInt64?

/-- The key that a value may serve as. -/
def key? : Value → Option Key
  | atom (.string s) => some (.name s)
  | atom (.symbol s) => some (.symbol s)
  | _ => none

/-- Equality of values.  Containers are equal only if they are one container. -/
def equals : Value → Value → Bool
  | atom a, atom b => a.equals b
  | array r, array s => r == s
  | object r, object s => r == s
  | _, _ => false

end Value

end ObjectLiteral
