import ObjectLiteral.Proofs.Conversion.FirstFailure
import ObjectLiteral.Proofs.Conversion.Integers
/-!
Keys of maps.  Which text data have as a key is read off the data without a heap, and data with such
a text leave nothing behind in the heap when they are converted.
-/

namespace ObjectLiteral

variable {d : Datum} {h h' : Heap} {v : Value} {k : String}

namespace Datum

/-- The text of data as the key of a map: a string, a boolean or an integer has one, and what wraps
such data has the same. -/
def keyText? : Datum → Option String
  | .bool b => some (toString b)
  | .integer z => some (toString z.value)
  | .char c => some c.toString
  | .string s => some s
  | .tag name => some name
  | .present d => d.keyText?
  | .wrapped _ d => d.keyText?
  | _ => none

theorem mapKey?_ofBinary64 (x : Binary64) :
    (Tree.leaf (.number (.ofBinary64 x))).mapKey? = none := by
  rw [Number.ofBinary64]
  split
  · rfl
  · split
    · split <;> rfl
    · rfl

/-- A container is no key. -/
theorem bind_mapKey?_eq_none {α : Type} {f : α → Tree} (hf : ∀ a, (f a).mapKey? = none)
    (o : Option α) : (o.map f).bind Tree.mapKey? = none := by
  cases o with
  | none => rfl
  | some a => exact hf a

/-- The key text of data is that of the tree that they stand for. -/
theorem keyText?_eq : ∀ d : Datum, d.keyText? = d.image?.bind Tree.mapKey?
  | .bool b => by cases b <;> rfl
  | .integer z => (Value.mapKey?_ofInt z.value).symm
  | .single x => (mapKey?_ofBinary64 x.widen).symm
  | .double x => (mapKey?_ofBinary64 x).symm
  | .char _ | .string _ | .bytes _ | .absent | .unit | .namedUnit _ | .tag _ | .failing _ => rfl
  | .present d | .wrapped _ d => keyText?_eq d
  | .tagged _ d => (bind_mapKey?_eq_none (fun _ => rfl) d.image?).symm
  | .sequence _ ds | .tuple ds _ | .namedTuple _ ds _ | .taggedTuple _ ds _ =>
    (bind_mapKey?_eq_none (fun _ => rfl) (images? ds)).symm
  | .map _ calls => (bind_mapKey?_eq_none (fun _ => rfl) (callImages? calls none)).symm
  | .record _ fields _ | .taggedRecord _ fields _ =>
    (bind_mapKey?_eq_none (fun _ => rfl) (fieldImages? fields)).symm

theorem keyText?_of_toValue (hd : d.toValue h = .ok (v, h')) : d.keyText? = v.mapKey? := by
  obtain ⟨t, ht, hbuilt⟩ := d.built_toValue hd
  rw [keyText?_eq, ht, Option.bind_some, hbuilt.mapKey?]

/-- Data that are a key are converted without a trace in the heap. -/
theorem toValue_of_keyText? : ∀ {d : Datum}, d.keyText? = some k → ∀ h : Heap,
    ∃ v, d.toValue h = .ok (v, h)
  | .bool _, _, _ | .integer _, _, _ | .char _, _, _ | .string _, _, _ | .tag _, _, _ => ⟨_, rfl⟩
  | .present d, hk, h | .wrapped _ d, hk, h => toValue_of_keyText? (d := d) hk h

end Datum

end ObjectLiteral
