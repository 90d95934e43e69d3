import ObjectLiteral.Value
/-!
The properties of an object, in the order of their definition.  A key is defined at most once: a
further definition replaces value and flag in place, and a removal closes the gap.
-/

namespace ObjectLiteral

/-- What is stored under a key. -/
structure Property where
  value : Value
  enumerable : Bool
deriving DecidableEq

/-- Properties by key, in stored order. -/
structure PropertyTable where
  entries : List (Key × Property)
deriving DecidableEq

namespace PropertyTable

def empty : PropertyTable := ⟨[]⟩

instance : Inhabited PropertyTable := ⟨empty⟩

/-- The number of properties, whether enumerable or not. -/
def size (t : PropertyTable) : Nat :=
  t.entries.length

def keys (t : PropertyTable) : List Key :=
  t.entries.map (·.1)

def find? (t : PropertyTable) (k : Key) : Option Property :=
  t.entries.lookup k

/-- The value stored under a key, whether enumerable or not. -/
def get? (t : PropertyTable) (k : Key) : Option Value :=
  (t.find? k).map (·.value)

/-- The entries with a property under a key: in place of the old one, else at the end. -/
def defineIn (k : Key) (p : Property) : List (Key × Property) → List (Key × Property)
  | [] => [(k, p)]
  | (j, q) :: rest => if j = k then (k, p) :: rest else (j, q) :: defineIn k p rest

def define (t : PropertyTable) (k : Key) (v : Value) (enumerable : Bool) : PropertyTable :=
  ⟨defineIn k ⟨v, enumerable⟩ t.entries⟩

def insert (t : PropertyTable) (k : Key) (v : Value) : PropertyTable :=
  t.define k v true

/-- Removes the property under a key.  The others keep their order. -/
def erase (t : PropertyTable) (k : Key) : PropertyTable :=
  ⟨t.entries.eraseP fun e => e.1 == k⟩

/-- The table of a list of enumerable properties, inserted one after the other. -/
def ofList (l : List (Key × Value)) : PropertyTable :=
  l.foldl (fun t (k, v) => t.insert k v) empty

def enumerableKeys (t : PropertyTable) : List Key :=
  (t.entries.filter (·.2.enumerable)).map (·.1)

/-- A key comes before another by its array index. -/
def indexLE (j k : Key) : Bool :=
  j.arrayIndex?.getD 0 ≤ k.arrayIndex?.getD 0

/-- The keys of enumerable properties in the order in which they are shown: array indices
ascending, then the other names, then symbols, the last two in stored order. -/
def displayKeys (t : PropertyTable) : List Key :=
  let ks := t.enumerableKeys
  (ks.filter (·.arrayIndex?.isSome)).mergeSort indexLE
    ++ ks.filter (fun k => !k.isSymbol && k.arrayIndex?.isNone)
    ++ ks.filter (·.isSymbol)

@[simp] theorem lookup_defineIn_self (k : Key) (p : Property) (l : List (Key × Property)) :
    (defineIn k p l).lookup k = some p := by
  induction l with
  | nil => simp [defineIn]
  | cons e l ih =>
    obtain ⟨j, q⟩ := e
    by_cases h : j = k
    · simp [defineIn, h]
    · have : (k == j) = false := by simpa using Ne.symm h
      simp [defineIn, h, List.lookup_cons, this, ih]

theorem lookup_defineIn_of_ne {j k : Key} (h : j ≠ k) (p : Property)
    (l : List (Key × Property)) : (defineIn k p l).lookup j = l.lookup j := by
  induction l with
  | nil =>
    have : (j == k) = false := by simpa using h
    simp [defineIn, List.lookup_cons, this]
  | cons e l ih =>
    obtain ⟨i, q⟩ := e
    by_cases hi : i = k
    · have : (j == k) = false := by simpa using h
      simp [defineIn, hi, List.lookup_cons, this]
    · simp [defineIn, hi, List.lookup_cons, ih]

end PropertyTable

end ObjectLiteral
