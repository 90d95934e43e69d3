import ObjectLiteral.Proofs.Value.Equality
/-!
What a heap makes.  Containers, callables and unique symbols are made one after the other, and each
is equal to itself alone: to none that is made earlier or later and to nothing else that was there
before, whatever happens to the contents of containers in between.
-/

namespace ObjectLiteral

def Value.serial? : Value → Option Nat
  | .atom (.callable c) => some c.serial
  | .atom (.symbol (.unique serial _)) => some serial
  | _ => none

/-- Something that a heap makes, with what it is made of. -/
inductive Making where
  | array (elements : Array Value)
  | object (properties : PropertyTable)
  | symbol (description : Option String)
  | callable (name : String) (kind : Callable.Kind) (source : Option String)

namespace Heap

def make (h : Heap) : Making → Value × Heap
  | .array elements => (.array (h.newArray elements).1, (h.newArray elements).2)
  | .object properties => (.object (h.newObject properties).1, (h.newObject properties).2)
  | .symbol description =>
    (.atom (.symbol (h.newSymbol description).1), (h.newSymbol description).2)
  | .callable name kind source =>
    (.atom (.callable (h.newCallable name kind source).1), (h.newCallable name kind source).2)

/-- A value may have been made already: its container is in the heap, and its serial number has been
given out. -/
structure Issued (h : Heap) (v : Value) : Prop where
  has : h.Has v
  serial : ∀ n, v.serial? = some n → n < h.serial

/-- `h.Makes vs h'`: between `h` and `h'` the values `vs` are made, the latest one first, while
containers may change what they hold. -/
inductive Makes (h : Heap) : List Value → Heap → Prop
  | start : Makes h [] h
  | make {vs : List Value} {h' : Heap} (hmakes : Makes h vs h') (m : Making) :
      Makes h ((h'.make m).1 :: vs) (h'.make m).2
  | changeArray {vs : List Value} {h' : Heap} (hmakes : Makes h vs h') (r : ArrayRef)
      (f : Array Value → Array Value) : Makes h vs (h'.modifyArray r f)
  | changeObject {vs : List Value} {h' : Heap} (hmakes : Makes h vs h') (o : ObjectRef)
      (f : PropertyTable → PropertyTable) : Makes h vs (h'.modifyObject o f)

variable {h h' : Heap} {v : Value} {vs : List Value}

theorem Issued.mono (hissued : h.Issued v) (harrays : h.arrays.size ≤ h'.arrays.size)
    (hobjects : h.objects.size ≤ h'.objects.size) (hserial : h.serial ≤ h'.serial) :
    h'.Issued v where
  has c hc := by
    have hmem := hissued.has c hc
    cases c with
    | array r =>
        exact array_mem_containers_iff.mpr
          (Nat.lt_of_lt_of_le (array_mem_containers_iff.mp hmem) harrays)
    | object o =>
        exact object_mem_containers_iff.mpr
          (Nat.lt_of_lt_of_le (object_mem_containers_iff.mp hmem) hobjects)
  serial n hn := Nat.lt_of_lt_of_le (hissued.serial n hn) hserial

theorem Issued.make (hissued : h.Issued v) (m : Making) : (h.make m).2.Issued v := by
  refine hissued.mono ?_ ?_ ?_ <;>
    cases m <;> simp [Heap.make, newArray, newObject, newSymbol, newCallable]

theorem Issued.modifyArray (hissued : h.Issued v) (r : ArrayRef)
    (f : Array Value → Array Value) : (h.modifyArray r f).Issued v :=
  hissued.mono (by simp [Heap.modifyArray]) (Nat.le_refl _) (Nat.le_refl _)

theorem Issued.modifyObject (hissued : h.Issued v) (o : ObjectRef)
    (f : PropertyTable → PropertyTable) : (h.modifyObject o f).Issued v :=
  hissued.mono (Nat.le_refl _) (by simp [Heap.modifyObject]) (Nat.le_refl _)

/-- What is made has been made. -/
theorem issued_make (h : Heap) (m : Making) : (h.make m).2.Issued (h.make m).1 := by
  constructor
  · cases m with
    | array vs =>
        rintro _ ⟨⟩
        exact array_mem_containers_iff.mpr (by simp [make, newArray])
    | object t =>
        rintro _ ⟨⟩
        exact object_mem_containers_iff.mpr (by simp [make, newObject])
    | symbol d => exact fun _ => nofun
    | callable name kind source => exact fun _ => nofun
  · cases m <;> simp [make, newSymbol, newCallable, Value.serial?]

/-- Nothing that is made may have been made already. -/
theorem not_issued_make (h : Heap) (m : Making) : ¬ h.Issued (h.make m).1 := by
  rintro ⟨hhas, hserial⟩
  cases m with
  | array vs => exact Nat.lt_irrefl _ (array_mem_containers_iff.mp (hhas _ rfl))
  | object t => exact Nat.lt_irrefl _ (object_mem_containers_iff.mp (hhas _ rfl))
  | symbol d => exact Nat.lt_irrefl _ (hserial _ rfl)
  | callable name kind source => exact Nat.lt_irrefl _ (hserial _ rfl)

/-- Values that are made are in the heap from then on. -/
theorem Makes.issued (hmakes : h.Makes vs h') :
    (∀ v ∈ vs, h'.Issued v) ∧ ∀ v, h.Issued v → h'.Issued v := by
  induction hmakes with
  | start => exact ⟨nofun, fun _ hv => hv⟩
  | @make vs h' _ m ih =>
      refine ⟨fun v hv => ?_, fun v hv => (ih.2 v hv).make m⟩
      rcases List.mem_cons.mp hv with rfl | hv
      · exact h'.issued_make m
      · exact (ih.1 v hv).make m
  | changeArray _ r f ih =>
      exact ⟨fun v hv => (ih.1 v hv).modifyArray r f, fun v hv => (ih.2 v hv).modifyArray r f⟩
  | changeObject _ o f ih =>
      exact ⟨fun v hv => (ih.1 v hv).modifyObject o f, fun v hv => (ih.2 v hv).modifyObject o f⟩

/-- Values that are made are different from each other and from all that was there before. -/
theorem Makes.distinct (hmakes : h.Makes vs h') : vs.Nodup ∧ ∀ v ∈ vs, ¬ h.Issued v := by
  -- whatever is new in `h'` is none of the values that `h'` has, old or made since `h`
  induction hmakes with
  | start => exact ⟨List.nodup_nil, nofun⟩
  | @make vs h' hmakes m ih =>
      have hnew := h'.not_issued_make m
      refine ⟨List.nodup_cons.mpr ⟨fun hmem => hnew (hmakes.issued.1 _ hmem), ih.1⟩, ?_⟩
      intro v hv
      rcases List.mem_cons.mp hv with rfl | hv
      · exact fun hissued => hnew (hmakes.issued.2 _ hissued)
      · exact ih.2 v hv
  | changeArray _ r f ih => exact ih
  | changeObject _ o f ih => exact ih

theorem Makes.float?_eq_none (hmakes : h.Makes vs h') : ∀ v ∈ vs, v.float? = none := by
  induction hmakes with
  | start => exact nofun
  | make _ m ih => exact List.forall_mem_cons.mpr ⟨by cases m <;> rfl, ih⟩
  | changeArray _ _ _ ih => exact ih
  | changeObject _ _ _ ih => exact ih

/-- Values that are made are equal only if they are made at once, and nothing that was there before
equals one of them. -/
theorem Makes.equals_iff (hmakes : h.Makes vs h') :
    (∀ (i j : Nat) (a b : Value), vs[i]? = some a → vs[j]? = some b → (a.equals b = true ↔ i = j)) ∧
      ∀ a ∈ vs, ∀ u, h.Issued u → a.equals u = false := by
  obtain ⟨hnodup, hnew⟩ := hmakes.distinct
  constructor
  · intro i j a b ha hb
    obtain ⟨hi, rfl⟩ := List.getElem?_eq_some_iff.mp ha
    obtain ⟨hj, rfl⟩ := List.getElem?_eq_some_iff.mp hb
    rw [Value.equals_iff_of_float?_eq_none (hmakes.float?_eq_none _ (List.getElem_mem hi))]
    exact hnodup.getElem_inj_iff
  · intro a ha u hu
    rw [Bool.eq_false_iff, Ne, Value.equals_iff_of_float?_eq_none (hmakes.float?_eq_none a ha)]
    rintro rfl
    exact hnew a ha hu

theorem serial?_make {h : Heap} {m : Making} {n : Nat} (hn : (h.make m).1.serial? = some n) :
    n = h.serial := by
  cases m <;> simp_all [make, newArray, newObject, newSymbol, newCallable, Value.serial?]

/-- Unique symbols that a heap makes have one description for each making. -/
theorem Makes.description_unique {h h' : Heap} {vs : List Value} (hmakes : h.Makes vs h')
    {serial : Nat} {d d' : Option String} (hd : .atom (.symbol (.unique serial d)) ∈ vs)
    (hd' : .atom (.symbol (.unique serial d')) ∈ vs) : d = d' := by
  induction hmakes with
  | start => cases hd
  | @make vs h' hmakes m ih =>
      -- what is made last has a serial number that nothing has that was made before
      have hnew : ∀ d d', Value.atom (.symbol (.unique serial d)) = (h'.make m).1 →
          .atom (.symbol (.unique serial d')) ∉ vs := by
        intro d d' hhead hmem
        have hserial : serial = h'.serial := serial?_make (congrArg Value.serial? hhead).symm
        have hlt := (hmakes.issued.1 _ hmem).serial serial rfl
        omega
      rcases List.mem_cons.mp hd with hhead | htail
      · rcases List.mem_cons.mp hd' with hhead' | htail'
        · cases hhead.trans hhead'.symm
          rfl
        · exact absurd htail' (hnew d d' hhead)
      · rcases List.mem_cons.mp hd' with hhead' | htail'
        · exact absurd htail (hnew d' d hhead')
        · exact ih htail htail'
  | changeArray _ r f ih => exact ih hd hd'
  | changeObject _ o f ih => exact ih hd hd'

end Heap

end ObjectLiteral
