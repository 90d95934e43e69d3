/-!
Symbols: unique ones, those of the registry, and the well-known ones of the language.
-/

namespace ObjectLiteral

inductive WellKnown where
  | asyncIterator
  | hasInstance
  | isConcatSpreadable
  | iterator
  | match
  | matchAll
  | replace
  | search
  | species
  | split
  | toPrimitive
  | toStringTag
  | unscopables
deriving DecidableEq

namespace WellKnown

/-- The name of a well-known symbol as a property of `Symbol`. -/
def name : WellKnown → String
  | asyncIterator => "asyncIterator"
  | hasInstance => "hasInstance"
  | isConcatSpreadable => "isConcatSpreadable"
  | iterator => "iterator"
  | .match => "match"
  | matchAll => "matchAll"
  | replace => "replace"
  | search => "search"
  | species => "species"
  | split => "split"
  | toPrimitive => "toPrimitive"
  | toStringTag => "toStringTag"
  | unscopables => "unscopables"

/-- All well-known symbols, in the order of their names. -/
def all : List WellKnown :=
  [asyncIterator, hasInstance, isConcatSpreadable, iterator, .match, matchAll, replace, search,
   species, split, toPrimitive, toStringTag, unscopables]

def ofName? (s : String) : Option WellKnown :=
  all.find? fun w => w.name == s

def description (w : WellKnown) : String :=
  "Symbol." ++ w.name

/-- The well-known symbol that a description spells. -/
def ofDescription? (d : String) : Option WellKnown :=
  ("Symbol.".toList.isPrefixOf? d.toList).bind fun name => ofName? (String.ofList name)

theorem mem_all (w : WellKnown) : w ∈ all := by
  cases w <;> decide

end WellKnown

/-- A symbol.  A unique symbol carries the serial number of its making, so two of them are equal
only if they are one symbol; a registered symbol is given by its key. -/
inductive Symbol where
  | unique (serial : Nat) (description : Option String)
  | registered (key : String)
  | wellKnown (w : WellKnown)
deriving DecidableEq

/-- What a hasher is fed with, piece by piece. -/
inductive Fed where
  | mark (b : UInt8)
  /-- The number of an alternative of a sum type. -/
  | alternative (i : Nat)
  /-- Where something is stored, which stands for its making. -/
  | address (serial : Nat)
  | text (s : String)
deriving DecidableEq

namespace Symbol

/-- The description of a symbol; a registered one is described by its key. -/
def description? : Symbol → Option String
  | unique _ d => d
  | registered key => some key
  | wellKnown w => some w.description

/-- The key under which a symbol is registered. -/
def registryKey? : Symbol → Option String
  | registered key => some key
  | _ => none

def wellKnown? : Symbol → Option WellKnown
  | wellKnown w => some w
  | _ => none

/-- A symbol is well-known if it is the one that its description spells; the description alone does
not make it one. -/
def isWellKnown (s : Symbol) : Bool :=
  match s.description?.bind WellKnown.ofDescription? with
  | some w => s.wellKnown? == some w
  | none => false

def text (s : Symbol) : String :=
  "Symbol(" ++ s.description?.getD "" ++ ")"

/-- Two symbols are one: by their making, by their key, or as the well-known symbol that they are. -/
def same : Symbol → Symbol → Bool
  | unique m _, unique n _ => m == n
  | registered j, registered k => j == k
  | wellKnown v, wellKnown w => v == w
  | _, _ => false

def fed : Symbol → List Fed
  | unique serial _ => [.mark 0, .address serial]
  | registered key => [.mark 1, .alternative 1, .text key]
  | wellKnown w => [.mark 2, .alternative (WellKnown.all.idxOf w)]

end Symbol

end ObjectLiteral
