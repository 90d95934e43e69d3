import ObjectLiteral.Proofs.Heap.Unfolding
import ObjectLiteral.Proofs.PropertyTable.Pruning
/-!
Heaps without their hidden properties.  A value unfolds over its shown entries alone, so what is
hidden can be deleted, or be anything else, and the unfolding stays the same.
-/

namespace ObjectLiteral

namespace Heap

/-- The heap in which every object has lost the properties that are not enumerable or not in
`keep`. -/
def pruned (h : Heap) (keep : ObjectRef → Key → Bool) : Heap :=
  { h with objects := h.objects.mapIdx fun i t => t.pruned (keep ⟨i⟩) }

def Keyed (h : Heap) : Prop :=
  ∀ t ∈ h.objects.toList, t.Keyed

instance (h : Heap) : Decidable h.Keyed :=
  inferInstanceAs (Decidable (∀ t ∈ h.objects.toList, t.Keyed))

/-- Two heaps show the same from a value on: every array on the way along shown entries has the
same elements, and every object the same properties as soon as the hidden ones are deleted. -/
def ShowsAs (h : Heap) (keep : ObjectRef → Key → Bool) (v : Value) (h' : Heap) : Prop :=
  ∀ route ancestors u, h.follow keep [] v route = some (ancestors, u) →
    (∀ r, u = .array r → h'.elements r = h.elements r) ∧
      ∀ o, u = .object o →
        (h'.properties o).pruned (keep o) = (h.properties o).pruned (keep o)

variable {h h' : Heap} {keep keep' : ObjectRef → Key → Bool}

theorem containers_pruned (h : Heap) (keep : ObjectRef → Key → Bool) :
    (h.pruned keep).containers = h.containers := by
  rw [containers, containers, pruned, Array.size_mapIdx]

theorem elements_pruned (h : Heap) (keep : ObjectRef → Key → Bool) (r : ArrayRef) :
    (h.pruned keep).elements r = h.elements r :=
  rfl

theorem properties_pruned (h : Heap) (keep : ObjectRef → Key → Bool) (o : ObjectRef) :
    (h.pruned keep).properties o = (h.properties o).pruned (keep o) := by
  rw [properties, properties, pruned, Array.getElem?_mapIdx]
  cases h.objects[o.index]? <;> rfl

theorem has_pruned {v : Value} (hv : h.Has v) : (h.pruned keep).Has v := by
  intro c hc
  rw [containers_pruned]
  exact hv c hc

theorem closed_pruned (hclosed : h.Closed) : (h.pruned keep).Closed := by
  refine ⟨fun vs hvs v hv => has_pruned (hclosed.1 vs hvs v hv), fun t ht e he => ?_⟩
  obtain ⟨i, hi, rfl⟩ := Array.mem_mapIdx.mp (Array.mem_toList_iff.mp ht)
  exact has_pruned (hclosed.2 _ (Array.getElem_mem_toList hi) e (List.mem_of_mem_filter he))

theorem Keyed.properties (hkeyed : h.Keyed) (o : ObjectRef) : (h.properties o).Keyed := by
  rw [Heap.properties]
  cases hget : h.objects[o.index]? with
  | none => exact PropertyTable.keyed_empty
  | some t => exact hkeyed t (Array.mem_toList_iff.mpr (Array.mem_of_getElem? hget))

/-- The fields that are shown are those of the pruned properties. -/
theorem shownFields_eq_of_pruned {o : ObjectRef} (hkeyed : (h.properties o).Keyed) :
    h.shownFields keep o =
      ((h.properties o).pruned (keep o)).displayKeys.map fun k =>
        (k, (((h.properties o).pruned (keep o)).get? k).getD default) := by
  rw [shownFields, fieldsAt, PropertyTable.displayKeys_pruned]
  refine List.map_congr_left fun k hk => ?_
  obtain ⟨hdisplayed, hkeep⟩ := List.mem_filter.mp hk
  rw [PropertyTable.get?_pruned hkeyed hdisplayed hkeep]

theorem shownFields_pruned (hkeyed : h.Keyed) (o : ObjectRef) :
    (h.pruned keep).shownFields (fun _ _ => true) o = h.shownFields keep o := by
  rw [shownFields_eq_of_pruned (hkeyed.properties o), shownFields, fieldsAt, properties_pruned,
    List.filter_eq_self.mpr fun _ _ => rfl]

/-- The unfolding depends on the shown entries of what is reached along shown entries. -/
theorem unfold_congr {path : List Container} {v : Value}
    (harrays : ∀ route ancestors r,
      h.follow keep path v route = some (ancestors, .array r) → h'.elements r = h.elements r)
    (hobjects : ∀ route ancestors o,
      h.follow keep path v route = some (ancestors, .object o) →
        h'.shownFields keep' o = h.shownFields keep o) :
    h'.unfold keep' path v = h.unfold keep path v := by
  induction path, v using Heap.unfold.induct h keep with
  | case1 path a => rw [unfold, unfold]
  | case2 path r hr => rw [unfold_of_mem rfl hr, unfold_of_mem rfl hr]
  | case3 path r hr ih =>
      rw [unfold_array hr, unfold_array hr, harrays [] path r rfl]
      congr 1
      refine List.map_congr_left fun v hv => ?_
      have hentry : v ∈ h.shownEntries keep (.array r) := hv
      obtain ⟨i, hi⟩ := exists_follow_cons path rfl hentry
      refine ih ⟨v, hv⟩ (fun route ancestors s hroute => ?_) fun route ancestors o hroute => ?_
      · exact harrays (i :: route) ancestors s ((hi route).trans hroute)
      · exact hobjects (i :: route) ancestors o ((hi route).trans hroute)
  | case4 path o ho => rw [unfold_of_mem rfl ho, unfold_of_mem rfl ho]
  | case5 path o ho ih =>
      rw [unfold_object ho, unfold_object ho, hobjects [] path o rfl]
      congr 1
      refine List.map_congr_left fun f hf => ?_
      have hentry : f.2 ∈ h.shownEntries keep (.object o) := List.mem_map_of_mem hf
      obtain ⟨i, hi⟩ := exists_follow_cons path rfl hentry
      rw [ih ⟨f, hf⟩ (fun route ancestors r hroute => ?_) fun route ancestors o hroute => ?_]
      · exact harrays (i :: route) ancestors r ((hi route).trans hroute)
      · exact hobjects (i :: route) ancestors o ((hi route).trans hroute)

/-- Without its hidden properties a heap unfolds a value as before. -/
theorem unfold_pruned (hkeyed : h.Keyed) (path : List Container) (v : Value) :
    (h.pruned keep).unfold (fun _ _ => true) path v = h.unfold keep path v :=
  unfold_congr (fun _ _ r _ => h.elements_pruned keep r) fun _ _ o _ => shownFields_pruned hkeyed o

theorem ShowsAs.unfold {v : Value} (hshows : h.ShowsAs keep v h') (hkeyed : h.Keyed)
    (hkeyed' : h'.Keyed) : h'.unfold keep [] v = h.unfold keep [] v := by
  refine unfold_congr (fun route ancestors r hroute => ?_) fun route ancestors o hroute => ?_
  · exact (hshows route ancestors _ hroute).1 r rfl
  · rw [shownFields_eq_of_pruned (hkeyed'.properties o), shownFields_eq_of_pruned
      (hkeyed.properties o), (hshows route ancestors _ hroute).2 o rfl]

end Heap

end ObjectLiteral
