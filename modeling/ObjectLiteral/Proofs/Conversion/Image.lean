import ObjectLiteral.Conversion
import ObjectLiteral.Proofs.PropertyTable.Gathered
import ObjectLiteral.Proofs.Tree.Basic
/-!
The image of data.  What data stand for is a tree that is read off them without a heap: elements
in their order, wrappers left away, and an object where names or keys come with values.  Lengths
that were announced have no part in it.
-/

namespace ObjectLiteral

/-- The atom of an integer: a number if 64 bits hold it, else a big integer. -/
def Atom.ofInt (z : Int) : Atom :=
  if Int64.minValue.toInt ≤ z ∧ z ≤ Int64.maxValue.toInt then .number (.integer (Int64.ofInt z))
  else .bigInt z

namespace Tree

/-- The text of a tree as the key of a map. -/
def mapKey? : Tree → Option String
  | leaf a => (Value.atom a).mapKey?
  | _ => none

def tagged (tag : String) (t : Tree) : Tree :=
  object [(.name tag, t)]

/-- An object of pairs: each key once, where it comes first, with what comes last under it. -/
def keyed (pairs : List (Key × Tree)) : Tree :=
  object (gathered pairs)

end Tree

namespace Datum

mutual

/-- The tree of a piece of data.  Data that fail, or keys that are no texts, have none. -/
def image? : Datum → Option Tree
  | .bool b => some (.leaf (.bool b))
  | .integer z => some (.leaf (.ofInt z.value))
  | .single x => some (.leaf (.number (.ofBinary32 x)))
  | .double x => some (.leaf (.number (.ofBinary64 x)))
  | .char c => some (.leaf (.string c.toString))
  | .string s => some (.leaf (.string s))
  | .bytes bs => some (.array (bs.map fun b => .leaf (.ofInt b.toNat)))
  | .absent => some (.leaf .null)
  | .present d => d.image?
  | .unit => some (.leaf .null)
  | .namedUnit _ => some (.leaf .null)
  | .tag name => some (.leaf (.string name))
  | .wrapped _ d => d.image?
  | .tagged name d => d.image?.map (.tagged name)
  | .sequence _ ds => (images? ds).map .array
  | .tuple ds _ => (images? ds).map .array
  | .namedTuple _ ds _ => (images? ds).map .array
  | .taggedTuple name ds _ => (images? ds).map fun ts => .tagged name (.array ts)
  | .map _ calls => (callImages? calls none).map .keyed
  | .record _ fields _ => (fieldImages? fields).map .keyed
  | .taggedRecord name fields _ =>
    (fieldImages? fields).map fun pairs => .tagged name (.keyed pairs)
  | .failing _ => none

def images? : List Datum → Option (List Tree)
  | [] => some []
  | d :: ds => do
    let t ← d.image?
    let ts ← images? ds
    some (t :: ts)

/-- The pairs of a map: a value goes with the key that came last, and needs one. -/
def callImages? : List MapCall → Option String → Option (List (Key × Tree))
  | [], _ => some []
  | .key d :: calls, _ => do
    let t ← d.image?
    let k ← t.mapKey?
    callImages? calls (some k)
  | .value _ :: _, none => none
  | .value d :: calls, some k => do
    let t ← d.image?
    let pairs ← callImages? calls none
    some ((.name k, t) :: pairs)

def fieldImages? : List Field → Option (List (Key × Tree))
  | [] => some []
  | .mk name d :: fields => do
    let t ← d.image?
    let pairs ← fieldImages? fields
    some ((.name name, t) :: pairs)

end

mutual

/-- Data without the lengths that were announced: none is, or the length zero. -/
def unannounced : Datum → Datum
  | .present d => .present d.unannounced
  | .wrapped name d => .wrapped name d.unannounced
  | .tagged name d => .tagged name d.unannounced
  | .sequence _ ds => .sequence none (unannouncedAll ds)
  | .tuple ds _ => .tuple (unannouncedAll ds)
  | .namedTuple name ds _ => .namedTuple name (unannouncedAll ds)
  | .taggedTuple name ds _ => .taggedTuple name (unannouncedAll ds)
  | .map _ calls => .map none (unannouncedCalls calls)
  | .record name fields _ => .record name (unannouncedFields fields)
  | .taggedRecord name fields _ => .taggedRecord name (unannouncedFields fields)
  | d => d

def unannouncedAll : List Datum → List Datum
  | [] => []
  | d :: ds => d.unannounced :: unannouncedAll ds

def unannouncedCalls : List MapCall → List MapCall
  | [] => []
  | .key d :: calls => .key d.unannounced :: unannouncedCalls calls
  | .value d :: calls => .value d.unannounced :: unannouncedCalls calls

def unannouncedFields : List Field → List Field
  | [] => []
  | .mk name d :: fields => .mk name d.unannounced :: unannouncedFields fields

end

mutual

/-- Announced lengths are no matter for the conversion. -/
theorem toValue_unannounced : ∀ d : Datum, d.unannounced.toValue = d.toValue
  | .present d => by simp [unannounced, toValue, toValue_unannounced d]
  | .wrapped _ d => by simp [unannounced, toValue, toValue_unannounced d]
  | .tagged _ d => by simp [unannounced, toValue, toValue_unannounced d]
  | .sequence _ ds => by simp [unannounced, toValue, toValues_unannounced ds]
  | .tuple ds _ => by simp [unannounced, toValue, toValues_unannounced ds]
  | .namedTuple _ ds _ => by simp [unannounced, toValue, toValues_unannounced ds]
  | .taggedTuple _ ds _ => by simp [unannounced, toValue, toValues_unannounced ds]
  | .map _ calls => by simp [unannounced, toValue, runCalls_unannounced calls]
  | .record _ fields _ => by simp [unannounced, toValue, insertFields_unannounced fields]
  | .taggedRecord _ fields _ => by simp [unannounced, toValue, insertFields_unannounced fields]
  | .bool _ | .integer _ | .single _ | .double _ | .char _ | .string _ | .bytes _ | .absent
  | .unit | .namedUnit _ | .tag _ | .failing _ => by simp [unannounced]

theorem toValues_unannounced : ∀ ds : List Datum, toValues (unannouncedAll ds) = toValues ds
  | [] => by simp [unannouncedAll]
  | d :: ds => by
    simp [unannouncedAll, toValues, toValue_unannounced d, toValues_unannounced ds]

theorem runCalls_unannounced : ∀ (calls : List MapCall) (pending : Option String)
    (t : PropertyTable), runCalls (unannouncedCalls calls) pending t = runCalls calls pending t
  | [], _, _ => by simp [unannouncedCalls]
  | .key d :: calls, _, _ => by
    simp [unannouncedCalls, runCalls, toValue_unannounced d, runCalls_unannounced calls]
  | .value _ :: _, none, _ => by simp [unannouncedCalls, runCalls]
  | .value d :: calls, some _, _ => by
    simp [unannouncedCalls, runCalls, toValue_unannounced d, runCalls_unannounced calls]

theorem insertFields_unannounced : ∀ (fields : List Field) (t : PropertyTable),
    insertFields (unannouncedFields fields) t = insertFields fields t
  | [], _ => by simp [unannouncedFields]
  | .mk _ d :: fields, _ => by
    simp [unannouncedFields, insertFields, toValue_unannounced d, insertFields_unannounced fields]

end

end Datum

/-- 64 bits hold every integer of a narrow type. -/
theorem IntegerType.bounds_of_isNarrow {t : IntegerType} (ht : t.isNarrow = true) :
    Int64.minValue.toInt ≤ t.least ∧ t.bound ≤ Int64.maxValue.toInt + 1 := by
  obtain ⟨signed, width⟩ := t
  cases signed <;> cases width <;> first | exact absurd ht (by decide) | decide

namespace Value

theorem ofInt_eq (z : Int) : ofInt z = .atom (.ofInt z) := by
  rw [ofInt, Atom.ofInt]
  split <;> rfl

theorem ofTypedInteger_eq (z : TypedInteger) : ofTypedInteger z = .atom (.ofInt z.value) := by
  rw [ofTypedInteger]
  split
  · rename_i hnarrow
    obtain ⟨hleast, hbound⟩ := IntegerType.bounds_of_isNarrow hnarrow
    have hlower := Int.le_trans hleast z.holds.1
    have hupper := Int.le_of_lt_add_one (Int.lt_of_lt_of_le z.holds.2 hbound)
    rw [Atom.ofInt, if_pos ⟨hlower, hupper⟩]
  · exact ofInt_eq z.value

theorem ofByte_eq (b : UInt8) : ofByte b = .atom (.ofInt b.toNat) := by
  have hmin : Int64.minValue.toInt ≤ 0 := by decide
  have hmax : (256 : Int) ≤ Int64.maxValue.toInt := by decide
  have hb : b.toNat < 256 := b.toNat_lt
  rw [ofByte, Atom.ofInt, if_pos (by omega)]

end Value

end ObjectLiteral
