import ObjectLiteral.PropertyTable
/-!
The heap of containers.  A container is made empty or filled, is then changed in place, and is
never taken away; a reference that was not issued reads as an empty container.
-/

namespace ObjectLiteral

/-- The arrays and objects made so far, and the serial number of the next callable or unique
symbol. -/
structure Heap where
  arrays : Array (Array Value)
  objects : Array PropertyTable
  serial : Nat

namespace Heap

def empty : Heap := ⟨#[], #[], 0⟩

instance : Inhabited Heap := ⟨empty⟩

/-- The number of containers. -/
def size (h : Heap) : Nat :=
  h.arrays.size + h.objects.size

def elements (h : Heap) (r : ArrayRef) : Array Value :=
  h.arrays[r.index]?.getD #[]

def properties (h : Heap) (r : ObjectRef) : PropertyTable :=
  h.objects[r.index]?.getD .empty

/-- The number of entries of a container, whether enumerable or not. -/
def count (h : Heap) : Container → Nat
  | .array r => (h.elements r).size
  | .object r => (h.properties r).size

def newArray (h : Heap) (elements : Array Value) : ArrayRef × Heap :=
  (⟨h.arrays.size⟩, { h with arrays := h.arrays.push elements })

def newObject (h : Heap) (properties : PropertyTable) : ObjectRef × Heap :=
  (⟨h.objects.size⟩, { h with objects := h.objects.push properties })

def newSymbol (h : Heap) (description : Option String) : Symbol × Heap :=
  (.unique h.serial description, { h with serial := h.serial + 1 })

def newCallable (h : Heap) (name : String) (kind : Callable.Kind) (source : Option String) :
    Callable × Heap :=
  (⟨h.serial, name, kind, source⟩, { h with serial := h.serial + 1 })

def modifyArray (h : Heap) (r : ArrayRef) (f : Array Value → Array Value) : Heap :=
  { h with arrays := h.arrays.modify r.index f }

def modifyObject (h : Heap) (r : ObjectRef) (f : PropertyTable → PropertyTable) : Heap :=
  { h with objects := h.objects.modify r.index f }

def push (h : Heap) (r : ArrayRef) (v : Value) : Heap :=
  h.modifyArray r (·.push v)

/-- Replaces the element at an index, and says whether there is one. -/
def setAt (h : Heap) (r : ArrayRef) (i : Nat) (v : Value) : Bool × Heap :=
  (i < (h.elements r).size, h.modifyArray r (·.setIfInBounds i v))

/-- Takes the last element off an array. -/
def pop (h : Heap) (r : ArrayRef) : Option Value × Heap :=
  ((h.elements r).back?, h.modifyArray r (·.pop))

def reverse (h : Heap) (r : ArrayRef) : Heap :=
  h.modifyArray r (·.reverse)

/-- Keeps at most the first `n` elements of an array. -/
def truncate (h : Heap) (r : ArrayRef) (n : Nat) : Heap :=
  h.modifyArray r (·.take n)

/-- The value under a key of an object, whether enumerable or not. -/
def get? (h : Heap) (r : ObjectRef) (k : Key) : Option Value :=
  (h.properties r).get? k

/-- Stores a property of an object under a key, and gives the value that was there before. -/
def define (h : Heap) (r : ObjectRef) (k : Key) (v : Value) (enumerable : Bool) :
    Option Value × Heap :=
  (h.get? r k, h.modifyObject r (·.define k v enumerable))

def insert (h : Heap) (r : ObjectRef) (k : Key) (v : Value) : Option Value × Heap :=
  h.define r k v true

/-- Removes the property of an object under a key, and gives its value. -/
def erase (h : Heap) (r : ObjectRef) (k : Key) : Option Value × Heap :=
  (h.get? r k, h.modifyObject r (·.erase k))

/-- Makes a container with the entries of another one; an atom stays as it is. -/
def copy (h : Heap) : Value → Value × Heap
  | .atom a => (.atom a, h)
  | .array r =>
    let (r, h) := h.newArray (h.elements r)
    (.array r, h)
  | .object r =>
    let (r, h) := h.newObject (h.properties r)
    (.object r, h)

theorem properties_modifyObject (h : Heap) (r s : ObjectRef) (f : PropertyTable → PropertyTable)
    (hr : r.index < h.objects.size) :
    (h.modifyObject r f).properties s =
      if s = r then f (h.properties r) else h.properties s := by
  obtain ⟨i⟩ := r
  obtain ⟨j⟩ := s
  simp only [properties, modifyObject, ObjectRef.mk.injEq, Array.getElem?_modify]
  by_cases hij : i = j
  · subst hij
    simp [Array.getElem?_eq_getElem (show i < h.objects.size from hr)]
  · simp [hij, Ne.symm hij]

end Heap

end ObjectLiteral
