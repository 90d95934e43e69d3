import Mathlib.Tactic.ByContra
import ObjectLiteral.Heap
/-!
The containers of a heap and what they hold.  A path through a heap that meets no container twice
is bounded by the number of containers off it, its room.
-/

namespace ObjectLiteral

namespace Heap

def containers (h : Heap) : List Container :=
  (List.range h.arrays.size).map (fun i => .array ⟨i⟩)
    ++ (List.range h.objects.size).map (fun i => .object ⟨i⟩)

theorem length_containers (h : Heap) : h.containers.length = h.size := by
  simp [containers, size]

theorem array_mem_containers_iff {h : Heap} {r : ArrayRef} :
    Container.array r ∈ h.containers ↔ r.index < h.arrays.size := by
  simp only [containers, List.mem_append, List.mem_map, List.mem_range]
  constructor
  · rintro (⟨i, hi, heq⟩ | ⟨i, -, heq⟩)
    · cases heq
      exact hi
    · cases heq
  · exact fun hissued => Or.inl ⟨r.index, hissued, rfl⟩

theorem object_mem_containers_iff {h : Heap} {o : ObjectRef} :
    Container.object o ∈ h.containers ↔ o.index < h.objects.size := by
  simp only [containers, List.mem_append, List.mem_map, List.mem_range]
  constructor
  · rintro (⟨i, -, heq⟩ | ⟨i, hi, heq⟩)
    · cases heq
    · cases heq
      exact hi
  · exact fun hissued => Or.inr ⟨o.index, hissued, rfl⟩

theorem array_mem_containers {h : Heap} {r : ArrayRef} {v : Value}
    (hv : v ∈ (h.elements r).toList) : Container.array r ∈ h.containers := by
  rw [array_mem_containers_iff]
  by_contra hout
  simp [elements, Array.getElem?_eq_none (Nat.le_of_not_lt hout)] at hv

theorem object_mem_containers {h : Heap} {o : ObjectRef} {k : Key}
    (hk : k ∈ (h.properties o).displayKeys) : Container.object o ∈ h.containers := by
  rw [object_mem_containers_iff]
  by_contra hout
  simp [properties, Array.getElem?_eq_none (Nat.le_of_not_lt hout), PropertyTable.empty,
    PropertyTable.displayKeys, PropertyTable.enumerableKeys] at hk

/-- The number of containers that are not on a path. -/
def room (h : Heap) (path : List Container) : Nat :=
  (h.containers.filter fun c => decide (c ∉ path)).length

theorem room_nil (h : Heap) : h.room [] = h.size := by
  have hall : (h.containers.filter fun c => decide (c ∉ ([] : List Container))) = h.containers := by
    simp
  rw [room, hall, length_containers]

/-- A container that joins a path takes up room. -/
theorem room_cons_lt {h : Heap} {c : Container} {path : List Container}
    (hc : c ∈ h.containers) (hpath : c ∉ path) : h.room (c :: path) < h.room path := by
  have hfilter : h.containers.filter (fun d => decide (d ∉ c :: path)) =
      (h.containers.filter fun d => decide (d ∉ path)).filter fun d => decide (d ≠ c) := by
    rw [List.filter_filter]
    congr 1
    funext d
    simp [not_or]
  rw [room, room, hfilter]
  apply List.length_filter_lt_length_iff_exists.mpr
  exact ⟨c, List.mem_filter.mpr ⟨hc, by simpa using hpath⟩, by simp⟩

/-- `h'` has the containers of `h`, with the contents they have in `h`.  It may have more. -/
structure Keeps (h h' : Heap) : Prop where
  arrays : ∀ i < h.arrays.size, h'.arrays[i]? = h.arrays[i]?
  objects : ∀ i < h.objects.size, h'.objects[i]? = h.objects[i]?

theorem Keeps.refl (h : Heap) : h.Keeps h :=
  ⟨fun _ _ => rfl, fun _ _ => rfl⟩

theorem Keeps.trans {h h' h'' : Heap} (hfirst : h.Keeps h') (hsecond : h'.Keeps h'') :
    h.Keeps h'' := by
  constructor
  · intro i hi
    have hsame := hfirst.arrays i hi
    have hi' : i < h'.arrays.size :=
      (Array.getElem?_eq_some_iff.mp (hsame.trans (Array.getElem?_eq_getElem hi))).1
    rw [hsecond.arrays i hi', hsame]
  · intro i hi
    have hsame := hfirst.objects i hi
    have hi' : i < h'.objects.size :=
      (Array.getElem?_eq_some_iff.mp (hsame.trans (Array.getElem?_eq_getElem hi))).1
    rw [hsecond.objects i hi', hsame]

/-- Containers that are kept are there. -/
theorem Keeps.mem_containers {h h' : Heap} (hkeeps : h.Keeps h') {c : Container}
    (hc : c ∈ h.containers) : c ∈ h'.containers := by
  cases c with
  | array r =>
      have hr := array_mem_containers_iff.mp hc
      have hsame := (hkeeps.arrays r.index hr).trans (Array.getElem?_eq_getElem hr)
      exact array_mem_containers_iff.mpr (Array.getElem?_eq_some_iff.mp hsame).1
  | object o =>
      have ho := object_mem_containers_iff.mp hc
      have hsame := (hkeeps.objects o.index ho).trans (Array.getElem?_eq_getElem ho)
      exact object_mem_containers_iff.mpr (Array.getElem?_eq_some_iff.mp hsame).1

theorem Keeps.elements {h h' : Heap} (hkeeps : h.Keeps h') {r : ArrayRef}
    (hr : Container.array r ∈ h.containers) : h'.elements r = h.elements r := by
  rw [Heap.elements, Heap.elements, hkeeps.arrays _ (array_mem_containers_iff.mp hr)]

theorem Keeps.properties {h h' : Heap} (hkeeps : h.Keeps h') {o : ObjectRef}
    (ho : Container.object o ∈ h.containers) : h'.properties o = h.properties o := by
  rw [Heap.properties, Heap.properties, hkeeps.objects _ (object_mem_containers_iff.mp ho)]

theorem keeps_newArray (h : Heap) (vs : Array Value) : h.Keeps (h.newArray vs).2 := by
  constructor
  · intro i hi
    exact (Array.getElem?_push_lt hi).trans (Array.getElem?_eq_getElem hi).symm
  · exact fun _ _ => rfl

theorem keeps_newObject (h : Heap) (t : PropertyTable) : h.Keeps (h.newObject t).2 := by
  constructor
  · exact fun _ _ => rfl
  · intro i hi
    exact (Array.getElem?_push_lt hi).trans (Array.getElem?_eq_getElem hi).symm

/-- A value is an atom or refers to a container of the heap. -/
def Has (h : Heap) (v : Value) : Prop :=
  ∀ c ∈ v.container?, c ∈ h.containers

instance (h : Heap) (v : Value) : Decidable (h.Has v) :=
  inferInstanceAs (Decidable (∀ c ∈ v.container?, c ∈ h.containers))

/-- No container of a heap refers to one that was not made. -/
def Closed (h : Heap) : Prop :=
  (∀ vs ∈ h.arrays.toList, ∀ v ∈ vs.toList, h.Has v) ∧
    ∀ t ∈ h.objects.toList, ∀ e ∈ t.entries, h.Has e.2.value

instance (h : Heap) : Decidable h.Closed :=
  inferInstanceAs (Decidable (_ ∧ _))

theorem Closed.has_of_elements {h : Heap} (hclosed : h.Closed) {r : ArrayRef} {v : Value}
    (hv : v ∈ (h.elements r).toList) : h.Has v := by
  have hissued := array_mem_containers_iff.mp (array_mem_containers hv)
  rw [elements, Array.getElem?_eq_getElem hissued, Option.getD_some] at hv
  exact hclosed.1 _ (Array.getElem_mem_toList hissued) v hv

theorem Closed.has_of_properties {h : Heap} (hclosed : h.Closed) {o : ObjectRef} {k : Key}
    {v : Value} (hv : (h.properties o).get? k = some v) : h.Has v := by
  obtain ⟨p, hp, rfl⟩ := Option.map_eq_some_iff.mp hv
  obtain ⟨before, after, hentries, -⟩ := List.lookup_eq_some_iff.mp hp
  have hmem : (k, p) ∈ (h.properties o).entries := by
    rw [hentries]
    exact List.mem_append_right before List.mem_cons_self
  by_cases hissued : o.index < h.objects.size
  · rw [properties, Array.getElem?_eq_getElem hissued, Option.getD_some] at hmem
    exact hclosed.2 _ (Array.getElem_mem_toList hissued) _ hmem
  · rw [properties, Array.getElem?_eq_none (Nat.le_of_not_lt hissued)] at hmem
    cases hmem

/-- Some keys of an object with the values under them.  A key without a property has the value
`undefined`. -/
def fieldsAt (h : Heap) (o : ObjectRef) (ks : List Key) : List (Key × Value) :=
  ks.map fun k => (k, ((h.properties o).get? k).getD default)

/-- The fields of an object that are shown: the enumerable ones that `keep` lets through, in
display order. -/
def shownFields (h : Heap) (keep : ObjectRef → Key → Bool) (o : ObjectRef) : List (Key × Value) :=
  h.fieldsAt o ((h.properties o).displayKeys.filter (keep o))

theorem object_mem_containers_of_shownFields {h : Heap} {keep : ObjectRef → Key → Bool}
    {o : ObjectRef} {f : Key × Value} (hf : f ∈ h.shownFields keep o) :
    Container.object o ∈ h.containers := by
  simp only [shownFields, fieldsAt, List.mem_map] at hf
  obtain ⟨k, hk, -⟩ := hf
  exact object_mem_containers (List.mem_filter.mp hk).1

/-- The values of the entries of a value, as they are shown. -/
def shownEntries (h : Heap) (keep : ObjectRef → Key → Bool) : Value → List Value
  | .atom _ => []
  | .array r => (h.elements r).toList
  | .object o => (h.shownFields keep o).map (·.2)

end Heap

end ObjectLiteral
