import ObjectLiteral.Conversion
/-!
The walk through data: every point at which a conversion may fail, from left to right and from the
outside inwards, whether the conversion gets there or not.  A watched conversion keeps a record of
the points that it does get to, also when it fails.
-/

namespace ObjectLiteral

/-- A value that can be the key of a map. -/
inductive Value.IsKey : Value → Prop
  | string (s : String) : IsKey (.atom (.string s))
  | bool (b : Bool) : IsKey (.atom (.bool b))
  | integer (i : Int64) : IsKey (.atom (.number (.integer i)))
  | bigInt (z : Int) : IsKey (.atom (.bigInt z))

namespace Conversion

/-- A point at which a conversion may fail. -/
inductive Station where
  /-- Data are handed over. -/
  | handed (d : Datum)
  /-- Data that were converted are taken for the key of a map. -/
  | judged (d : Datum)
  /-- Data come as a value of a map in which no key waits. -/
  | unkeyed (d : Datum)

/-- A station at which a conversion fails, and how: data fail by themselves, a key has a value that
can be none, or there is no key. -/
inductive Station.Fails : Station → Failure → Prop
  | failing (reason : String) : Fails (.handed (.failing reason)) (.custom reason)
  | judged {d : Datum} {h h' : Heap} {v : Value} (hvalue : d.toValue h = .ok (v, h'))
      (hkey : ¬ v.IsKey) : Fails (.judged d) (.unsupported "map keys must be strings or integers")
  | unkeyed (d : Datum) :
      Fails (.unkeyed d) (.custom "serialize_value called without serialize_key")

def Station.Passes (s : Station) : Prop :=
  ∀ f, ¬ s.Fails f

structure Progress where
  heap : Heap
  reached : List Station

/-- A step of a conversion whose stations are kept, also when it fails. -/
abbrev WatchM := EStateM Failure Progress

def reach (s : Station) : WatchM Unit := fun ⟨heap, reached⟩ =>
  .ok () ⟨heap, reached ++ [s]⟩

/-- A step of a conversion that comes to no station. -/
def between {α : Type} (m : ConvertM α) : WatchM α := fun ⟨heap, reached⟩ =>
  match m heap with
  | .ok (a, heap) => .ok a ⟨heap, reached⟩
  | .error f => .error f ⟨heap, reached⟩

def unwatched {α : Type} : EStateM.Result Failure Progress α → Except Failure (α × Heap)
  | .ok a progress => .ok (a, progress.heap)
  | .error f _ => .error f

end Conversion

namespace Datum

open Conversion

mutual

/-- The stations of data, as if none failed. -/
def walk : Datum → List Station
  | d@(.present e) | d@(.wrapped _ e) | d@(.tagged _ e) => .handed d :: e.walk
  | d@(.sequence _ ds) | d@(.tuple ds _) | d@(.namedTuple _ ds _) | d@(.taggedTuple _ ds _) =>
    .handed d :: walkAll ds
  | d@(.map _ calls) => .handed d :: walkCalls calls false
  | d@(.record _ fields _) | d@(.taggedRecord _ fields _) => .handed d :: walkFields fields
  | d => [.handed d]

def walkAll : List Datum → List Station
  | [] => []
  | d :: ds => d.walk ++ walkAll ds

/-- A key is judged after all of it, and a value without a key is met before any of it. -/
def walkCalls : List MapCall → Bool → List Station
  | [], _ => []
  | .key d :: calls, _ => d.walk ++ .judged d :: walkCalls calls true
  | .value d :: calls, true => d.walk ++ walkCalls calls false
  | .value d :: calls, false => .unkeyed d :: (d.walk ++ walkCalls calls false)

def walkFields : List Field → List Station
  | [] => []
  | .mk _ d :: fields => d.walk ++ walkFields fields

end

mutual

def watched : Datum → WatchM Value
  | d@(.present e) | d@(.wrapped _ e) => do
    reach (.handed d)
    e.watched
  | d@(.tagged name e) => do
    reach (.handed d)
    let v ← e.watched
    between (newTagged name v)
  | d@(.sequence _ ds) | d@(.tuple ds _) | d@(.namedTuple _ ds _) => do
    reach (.handed d)
    let vs ← watchedAll ds
    between (newArray vs)
  | d@(.taggedTuple name ds _) => do
    reach (.handed d)
    let vs ← watchedAll ds
    between (newArray vs >>= newTagged name)
  | d@(.map _ calls) => do
    reach (.handed d)
    let t ← watchedCalls calls none .empty
    between (newObject t)
  | d@(.record _ fields _) => do
    reach (.handed d)
    let t ← watchedFields fields .empty
    between (newObject t)
  | d@(.taggedRecord name fields _) => do
    reach (.handed d)
    let t ← watchedFields fields .empty
    between (newObject t >>= newTagged name)
  | d => do
    reach (.handed d)
    between d.toValue

def watchedAll : List Datum → WatchM (List Value)
  | [] => pure []
  | d :: ds => do
    let v ← d.watched
    let vs ← watchedAll ds
    pure (v :: vs)

def watchedCalls : List MapCall → Option String → PropertyTable → WatchM PropertyTable
  | [], _, t => pure t
  | .key d :: calls, _, t => do
    let v ← d.watched
    reach (.judged d)
    match v.mapKey? with
    | some k => watchedCalls calls (some k) t
    | none => throw badKey
  | .value d :: _, none, _ => do
    reach (.unkeyed d)
    throw noKey
  | .value d :: calls, some k, t => do
    let v ← d.watched
    watchedCalls calls none (t.insert (.name k) v)

def watchedFields : List Field → PropertyTable → WatchM PropertyTable
  | [], t => pure t
  | .mk name d :: rest, t => do
    let v ← d.watched
    watchedFields rest (t.insert (.name name) v)

end

end Datum

end ObjectLiteral
