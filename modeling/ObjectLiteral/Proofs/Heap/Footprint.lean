import Mathlib.Data.List.Flatten
import Mathlib.Data.List.Nodup
import Mathlib.Data.List.Perm.Subperm
import ObjectLiteral.Proofs.Heap.Containers
import ObjectLiteral.Proofs.Tree.Basic
/-!
Footprints.  A value that was built as a tree takes up containers of its own; its footprint lists
them, once for every way on which they are reached.  Where no container stands twice in it, a
container is reached on one way alone.  What is built one after the other in a growing heap has
footprints that do not meet.
-/

namespace ObjectLiteral

/-- A value with the tree that it stands for and the containers that it takes up. -/
structure Slot where
  value : Value
  tree : Tree
  footprint : List Container

namespace Heap

/-- `h.Holds v t footprint`: in stored order, the entries of `v` are those of the tree `t`, all of
them enumerable, and `footprint` lists the containers in `v` once for every way to them. -/
inductive Holds (h : Heap) : Value → Tree → List Container → Prop
  | atom (a : Atom) : Holds h (.atom a) (.leaf a) []
  | array {r : ArrayRef} {slots : List Slot} (hr : .array r ∈ h.containers)
      (helements : (h.elements r).toList = slots.map (·.value))
      (hslots : ∀ s ∈ slots, Holds h s.value s.tree s.footprint) :
      Holds h (.array r) (.array (slots.map (·.tree))) (.array r :: slots.flatMap (·.footprint))
  | object {o : ObjectRef} {fields : List (Key × Slot)} (ho : .object o ∈ h.containers)
      (hentries : (h.properties o).entries = fields.map fun f => (f.1, ⟨f.2.value, true⟩))
      (hfields : ∀ f ∈ fields, Holds h f.2.value f.2.tree f.2.footprint) :
      Holds h (.object o) (.object (fields.map fun f => (f.1, f.2.tree)))
        (.object o :: fields.flatMap (·.2.footprint))

/-- The values of the entries of a value, in stored order and whether enumerable or not. -/
def storedEntries (h : Heap) : Value → List Value
  | .atom _ => []
  | .array r => (h.elements r).toList
  | .object o => (h.properties o).entries.map (·.2.value)

/-- The value at the end of a route, which names an entry by its stored index at every step. -/
def at? (h : Heap) : Value → List Nat → Option Value
  | v, [] => some v
  | v, i :: route =>
    match (h.storedEntries v)[i]? with
    | some u => h.at? u route
    | none => none

namespace Holds

variable {h h' : Heap} {v u u' : Value} {t : Tree} {c : Container} {footprint : List Container}
  {route route' : List Nat}

/-- A tree stays in memory as long as its containers do. -/
theorem of_keeps (hholds : h.Holds v t footprint) (hkeeps : h.Keeps h') :
    h'.Holds v t footprint := by
  induction hholds with
  | atom a => exact .atom a
  | array hr helements _ ih =>
      apply Holds.array (hkeeps.mem_containers hr) _ ih
      simpa [hkeeps.elements hr] using helements
  | object ho hentries _ ih =>
      apply Holds.object (hkeeps.mem_containers ho) _ ih
      simpa [hkeeps.properties ho] using hentries

theorem mem_containers (hholds : h.Holds v t footprint) : ∀ c ∈ footprint, c ∈ h.containers := by
  induction hholds with
  | atom a => simp
  | array hr _ _ ih =>
      simp only [List.forall_mem_cons, List.forall_mem_flatMap]
      exact ⟨hr, ih⟩
  | object ho _ _ ih =>
      simp only [List.forall_mem_cons, List.forall_mem_flatMap]
      exact ⟨ho, ih⟩

/-- A container and its slots: the footprint is the container with the footprints of the slots. -/
theorem exists_slots (hholds : h.Holds v t footprint) (hv : v.container? = some c) :
    ∃ slots : List Slot, h.storedEntries v = slots.map (·.value) ∧
      t.children = slots.map (·.tree) ∧ footprint = c :: slots.flatMap (·.footprint) ∧
      ∀ s ∈ slots, h.Holds s.value s.tree s.footprint := by
  cases hholds with
  | atom a => cases hv
  | @array r slots hr helements hslots =>
      cases hv
      exact ⟨slots, helements, rfl, rfl, hslots⟩
  | @object o fields ho hentries hfields =>
      cases hv
      refine ⟨fields.map (·.2), ?_, ?_, ?_, ?_⟩
      · simp [storedEntries, hentries]
      · simp [Tree.children]
      · simp [List.flatMap_map]
      · simpa using fun s k hmem => hfields (k, s) hmem

theorem mem_footprint (hholds : h.Holds v t footprint) (hv : v.container? = some c) :
    c ∈ footprint := by
  obtain ⟨slots, -, -, rfl, -⟩ := hholds.exists_slots hv
  exact List.mem_cons_self

/-- A route with a first step starts at a container and goes on from one of its slots. -/
theorem exists_step (hholds : h.Holds v t footprint) {i : Nat}
    (hu : h.at? v (i :: route) = some u) :
    ∃ c, v.container? = some c ∧ ∀ slots : List Slot,
      h.storedEntries v = slots.map (·.value) → ∃ s, slots[i]? = some s ∧
        h.at? s.value route = some u := by
  have hentry : ∃ w, (h.storedEntries v)[i]? = some w ∧ h.at? w route = some u := by
    rw [at?] at hu
    split at hu
    · exact ⟨_, ‹_›, hu⟩
    · cases hu
  obtain ⟨w, hw, hrest⟩ := hentry
  cases hholds with
  | atom a => simp [storedEntries] at hw
  | array | object =>
      refine ⟨_, rfl, fun slots hstored => ?_⟩
      rw [hstored, List.getElem?_map] at hw
      obtain ⟨s, hs, rfl⟩ := Option.map_eq_some_iff.mp hw
      exact ⟨s, hs, hrest⟩

/-- What is at the end of a route is held as the tree at the end of the same route, and takes up
a part of the footprint. -/
theorem of_at? (hholds : h.Holds v t footprint) (hu : h.at? v route = some u) :
    ∃ t' part, t.at? route = some t' ∧ h.Holds u t' part ∧ part.Sublist footprint := by
  induction route generalizing v t footprint with
  | nil =>
      cases hu
      exact ⟨t, footprint, rfl, hholds, List.Sublist.refl _⟩
  | cons i route ih =>
      obtain ⟨c, hv, hstep⟩ := hholds.exists_step hu
      obtain ⟨slots, hstored, hchildren, rfl, hslots⟩ := hholds.exists_slots hv
      obtain ⟨s, hs, hrest⟩ := hstep slots hstored
      have hmem := List.mem_of_getElem? hs
      obtain ⟨t', part, ht', hpart, hsublist⟩ := ih (hslots s hmem) hrest
      refine ⟨t', part, ?_, hpart, ?_⟩
      · simpa [Tree.at?, hchildren, hs] using ht'
      · apply List.Sublist.cons
        exact hsublist.trans (List.sublist_flatten_of_mem (List.mem_map_of_mem hmem))

theorem mem_footprint_of_at? (hholds : h.Holds v t footprint) (hu : h.at? v route = some u)
    (hc : u.container? = some c) : c ∈ footprint := by
  obtain ⟨t', part, -, hpart, hsublist⟩ := hholds.of_at? hu
  exact hsublist.subset (hpart.mem_footprint hc)

/-- Where no container stands twice in the footprint, no value contains itself. -/
theorem container?_ne_of_at?_cons (hholds : h.Holds v t footprint) (hnodup : footprint.Nodup)
    {i : Nat} (hu : h.at? v (i :: route) = some u) (hv : v.container? = some c) :
    u.container? ≠ some c := by
  intro hc
  obtain ⟨d, -, hstep⟩ := hholds.exists_step hu
  obtain ⟨slots, hstored, -, rfl, hslots⟩ := hholds.exists_slots hv
  obtain ⟨s, hs, hrest⟩ := hstep slots hstored
  have hmem := List.mem_of_getElem? hs
  apply (List.nodup_cons.mp hnodup).1
  exact List.mem_flatMap.mpr ⟨s, hmem, (hslots s hmem).mem_footprint_of_at? hrest hc⟩

/-- Two slots with a container in common are one, if no container stands twice in their
footprints. -/
theorem slot_unique {slots : List Slot} (hnodup : (slots.flatMap (·.footprint)).Nodup)
    {s s' : Slot} {i j : Nat} (hs : slots[i]? = some s) (hs' : slots[j]? = some s')
    (hc : c ∈ s.footprint) (hc' : c ∈ s'.footprint) : i = j := by
  obtain ⟨hi, rfl⟩ := List.getElem?_eq_some_iff.mp hs
  obtain ⟨hj, rfl⟩ := List.getElem?_eq_some_iff.mp hs'
  have hdisjoint := List.pairwise_iff_getElem.mp (List.nodup_flatMap.mp hnodup).2
  rcases Nat.lt_trichotomy i j with hlt | heq | hgt
  · exact absurd hc' (hdisjoint i j hi hj hlt hc)
  · exact heq
  · exact absurd hc (hdisjoint j i hj hi hgt hc')

/-- Where no container stands twice in the footprint, each is at the end of one route alone. -/
theorem route_unique (hholds : h.Holds v t footprint) (hnodup : footprint.Nodup)
    (hu : h.at? v route = some u) (hu' : h.at? v route' = some u') (hc : u.container? = some c)
    (hc' : u'.container? = some c) : route = route' := by
  induction route generalizing v t footprint route' with
  | nil =>
      cases hu
      cases route' with
      | nil => rfl
      | cons j route' => exact absurd hc' (hholds.container?_ne_of_at?_cons hnodup hu' hc)
  | cons i route ih =>
      cases route' with
      | nil =>
          cases hu'
          exact absurd hc (hholds.container?_ne_of_at?_cons hnodup hu hc')
      | cons j route' =>
          obtain ⟨d, hv, hstep⟩ := hholds.exists_step hu
          obtain ⟨-, -, hstep'⟩ := hholds.exists_step hu'
          obtain ⟨slots, hstored, -, rfl, hslots⟩ := hholds.exists_slots hv
          obtain ⟨s, hs, hrest⟩ := hstep slots hstored
          obtain ⟨s', hs', hrest'⟩ := hstep' slots hstored
          have hslot := hslots s (List.mem_of_getElem? hs)
          have hslot' := hslots s' (List.mem_of_getElem? hs')
          have hbelow := (List.nodup_cons.mp hnodup).2
          obtain rfl : i = j := slot_unique hbelow hs hs' (hslot.mem_footprint_of_at? hrest hc)
            (hslot'.mem_footprint_of_at? hrest' hc')
          obtain rfl : s = s' := Option.some.inj (hs.symm.trans hs')
          have hpart := (List.nodup_flatMap.mp hbelow).1 s (List.mem_of_getElem? hs)
          exact congrArg (i :: ·) (ih hslot hpart hrest hrest')

end Holds

/-- `h'` has grown out of `h` and holds in `slots` what was built meanwhile, in containers that
`h` did not have and that no two slots share. -/
structure Grown (h h' : Heap) (slots : List Slot) : Prop where
  keeps : h.Keeps h'
  holds : ∀ s ∈ slots, h'.Holds s.value s.tree s.footprint
  nodup : (slots.flatMap (·.footprint)).Nodup
  fresh : ∀ s ∈ slots, ∀ c ∈ s.footprint, c ∉ h.containers

namespace Grown

variable {h h' h'' : Heap} {slots slots' : List Slot}

theorem nil (h : Heap) : h.Grown h [] where
  keeps := .refl h
  holds := by simp
  nodup := List.nodup_nil
  fresh := by simp

/-- Atoms take up nothing. -/
theorem atoms (h : Heap) (as : List Atom) :
    h.Grown h (as.map fun a => ⟨.atom a, .leaf a, []⟩) where
  keeps := .refl h
  holds := by simpa using fun a _ => Holds.atom a
  nodup := by
    rw [List.flatMap_eq_nil_iff.mpr (by simp)]
    exact List.nodup_nil
  fresh := by simp

/-- What is built later takes containers that are not taken yet. -/
theorem append (hfirst : h.Grown h' slots) (hsecond : h'.Grown h'' slots') :
    h.Grown h'' (slots ++ slots') where
  keeps := hfirst.keeps.trans hsecond.keeps
  holds := by
    simp only [List.forall_mem_append]
    exact ⟨fun s hs => (hfirst.holds s hs).of_keeps hsecond.keeps, hsecond.holds⟩
  nodup := by
    rw [List.flatMap_append]
    apply hfirst.nodup.append hsecond.nodup
    intro c hc hc'
    obtain ⟨s, hs, hc⟩ := List.mem_flatMap.mp hc
    obtain ⟨s', hs', hc'⟩ := List.mem_flatMap.mp hc'
    exact hsecond.fresh s' hs' c hc' ((hfirst.holds s hs).mem_containers c hc)
  fresh := by
    simp only [List.forall_mem_append]
    refine ⟨hfirst.fresh, fun s hs c hc hold => ?_⟩
    exact hsecond.fresh s hs c hc (hfirst.keeps.mem_containers hold)

/-- Slots may be dropped and put into another order. -/
theorem subperm (hgrown : h.Grown h' slots) (hsub : slots'.Subperm slots) :
    h.Grown h' slots' where
  keeps := hgrown.keeps
  holds s hs := hgrown.holds s (hsub.subset hs)
  nodup := by
    obtain ⟨middle, hperm, hsublist⟩ := hsub
    apply (hperm.flatMap_right (·.footprint)).nodup_iff.mp
    exact hgrown.nodup.sublist (hsublist.flatMap (·.footprint))
  fresh s hs := hgrown.fresh s (hsub.subset hs)

theorem not_mem_footprint (hgrown : h.Grown h' slots) {c : Container} (hc : c ∉ h'.containers) :
    ∀ s ∈ slots, c ∉ s.footprint :=
  fun s hs hmem => hc ((hgrown.holds s hs).mem_containers c hmem)

/-- An array made of the slots takes up one container more. -/
theorem newArray (hgrown : h.Grown h' slots) :
    let made := h'.newArray (slots.map (·.value)).toArray
    h.Grown made.2 [⟨.array made.1, .array (slots.map (·.tree)),
      .array made.1 :: slots.flatMap (·.footprint)⟩] := by
  intro made
  have hkeeps := h'.keeps_newArray (slots.map (·.value)).toArray
  have hnew : Container.array made.1 ∉ h'.containers := by
    simp [made, Heap.newArray, array_mem_containers_iff]
  constructor
  · exact hgrown.keeps.trans hkeeps
  · simp only [List.forall_mem_singleton]
    apply Holds.array
    · simp [made, Heap.newArray, array_mem_containers_iff]
    · simp [made, Heap.newArray, elements]
    · exact fun s hs => (hgrown.holds s hs).of_keeps hkeeps
  · simpa using ⟨hgrown.not_mem_footprint hnew, hgrown.nodup⟩
  · simp only [List.forall_mem_singleton, List.forall_mem_cons, List.forall_mem_flatMap]
    exact ⟨fun hold => hnew (hgrown.keeps.mem_containers hold), hgrown.fresh⟩

/-- An object made of the slots takes up one container more. -/
theorem newObject {fields : List (Key × Slot)} {table : PropertyTable}
    (hgrown : h.Grown h' (fields.map (·.2)))
    (hentries : table.entries = fields.map fun f => (f.1, ⟨f.2.value, true⟩)) :
    let made := h'.newObject table
    h.Grown made.2 [⟨.object made.1, .object (fields.map fun f => (f.1, f.2.tree)),
      .object made.1 :: fields.flatMap (·.2.footprint)⟩] := by
  intro made
  have hkeeps := h'.keeps_newObject table
  have hnew : Container.object made.1 ∉ h'.containers := by
    simp [made, Heap.newObject, object_mem_containers_iff]
  have hflat : (fields.map (·.2)).flatMap (·.footprint) = fields.flatMap (·.2.footprint) :=
    List.flatMap_map ..
  constructor
  · exact hgrown.keeps.trans hkeeps
  · simp only [List.forall_mem_singleton]
    apply Holds.object
    · simp [made, Heap.newObject, object_mem_containers_iff]
    · simpa [made, Heap.newObject, properties] using hentries
    · exact fun f hf => (hgrown.holds f.2 (List.mem_map_of_mem hf)).of_keeps hkeeps
  · simp only [← hflat, List.flatMap_cons, List.flatMap_nil, List.append_nil, List.nodup_cons,
      List.mem_flatMap, not_exists, not_and]
    exact ⟨hgrown.not_mem_footprint hnew, hgrown.nodup⟩
  · simp only [List.forall_mem_singleton, List.forall_mem_cons, ← hflat, List.forall_mem_flatMap]
    exact ⟨fun hold => hnew (hgrown.keeps.mem_containers hold), hgrown.fresh⟩

end Grown

end Heap

end ObjectLiteral
