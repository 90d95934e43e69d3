import Mathlib.Data.List.Nodup
import ObjectLiteral.PropertyTable
/-!
Deleting hidden properties.  A table without the properties that are not enumerable or that a
predicate rejects shows the other ones in the order in which they stood before, with the same
values: the display order of a part is a part of the display order.
-/

namespace ObjectLiteral

namespace PropertyTable

def Keyed (t : PropertyTable) : Prop :=
  t.keys.Nodup

instance (t : PropertyTable) : Decidable t.Keyed :=
  inferInstanceAs (Decidable t.keys.Nodup)

/-- The table without its hidden properties: those that are not enumerable or not in `keep`. -/
def pruned (keep : Key → Bool) (t : PropertyTable) : PropertyTable :=
  ⟨t.entries.filter fun e => e.2.enumerable && keep e.1⟩

theorem keyed_empty : empty.Keyed :=
  List.nodup_nil

theorem mem_keys_defineIn {j k : Key} {p : Property} {l : List (Key × Property)}
    (hj : j ∈ (defineIn k p l).map (·.1)) : j = k ∨ j ∈ l.map (·.1) := by
  induction l with
  | nil => exact Or.inl (List.mem_singleton.mp hj)
  | cons e l ih =>
      rw [defineIn] at hj
      split at hj
      · rcases List.mem_cons.mp hj with rfl | htail
        · exact Or.inl rfl
        · exact Or.inr (List.mem_cons_of_mem _ htail)
      · rcases List.mem_cons.mp hj with rfl | htail
        · exact Or.inr List.mem_cons_self
        · exact (ih htail).imp id (List.mem_cons_of_mem _)

theorem Keyed.define {t : PropertyTable} (ht : t.Keyed) (k : Key) (v : Value)
    (enumerable : Bool) : (t.define k v enumerable).Keyed := by
  obtain ⟨l⟩ := t
  change (l.map (·.1)).Nodup at ht
  change ((defineIn k ⟨v, enumerable⟩ l).map (·.1)).Nodup
  induction l with
  | nil => exact List.nodup_singleton k
  | cons e l ih =>
      obtain ⟨hnew, hrest⟩ := List.nodup_cons.mp ht
      rw [defineIn]
      split
      · rename_i heq
        exact List.nodup_cons.mpr ⟨heq ▸ hnew, hrest⟩
      · rename_i hne
        refine List.nodup_cons.mpr ⟨fun hmem => ?_, ih hrest⟩
        exact (mem_keys_defineIn hmem).elim hne hnew

theorem Keyed.erase {t : PropertyTable} (ht : t.Keyed) (k : Key) : (t.erase k).Keyed :=
  ht.sublist (List.eraseP_sublist.map _)

theorem Keyed.find?_eq_some {t : PropertyTable} (ht : t.Keyed) {k : Key} {p : Property}
    (hp : (k, p) ∈ t.entries) : t.find? k = some p := by
  obtain ⟨before, after, hentries⟩ := List.append_of_mem hp
  refine List.lookup_eq_some_iff.mpr ⟨before, after, hentries, fun e he => ?_⟩
  rw [Keyed, keys, hentries, List.map_append, List.map_cons] at ht
  have hne := (List.nodup_append.mp ht).2.2 e.1 (List.mem_map_of_mem he) k List.mem_cons_self
  simpa using Ne.symm hne

end PropertyTable

section Sorting

variable {α : Type} {le : α → α → Bool}
  (htrans : ∀ a b c, le a b = true → le b c = true → le a c = true)
  (htotal : ∀ a b, (le a b || le b a) = true)

include htrans htotal

/-- Sorting puts the first element right before those that it is no greater than. -/
theorem mergeSort_cons_eq_filter (a : α) (l : List α) :
    (a :: l).mergeSort le =
      (l.mergeSort le).filter (fun b => !le a b) ++ a :: (l.mergeSort le).filter (le a) := by
  obtain ⟨smaller, others, hcons, hrest, hsmaller⟩ := List.mergeSort_cons htrans htotal a l
  have hsorted := List.pairwise_mergeSort htrans htotal (a :: l)
  rw [hcons] at hsorted
  have hothers := (List.pairwise_cons.mp (List.pairwise_append.mp hsorted).2.1).1
  have hno_other : others.filter (fun b => !le a b) = [] :=
    List.filter_eq_nil_iff.mpr fun b hb => by simp [hothers b hb]
  have hno_smaller : smaller.filter (le a) = [] :=
    List.filter_eq_nil_iff.mpr fun b hb => by simpa using hsmaller b hb
  rw [hcons, hrest, List.filter_append, List.filter_append, List.filter_eq_self.mpr hsmaller,
    List.filter_eq_self.mpr hothers, hno_other, hno_smaller, List.append_nil, List.nil_append]

/-- Sorting a part of a list gives a part of the sorted list. -/
theorem mergeSort_filter (p : α → Bool) (l : List α) :
    (l.filter p).mergeSort le = (l.mergeSort le).filter p := by
  induction l with
  | nil => rw [List.filter_nil, List.mergeSort_nil, List.filter_nil]
  | cons a l ih =>
      by_cases ha : p a = true
      · rw [List.filter_cons_of_pos ha, mergeSort_cons_eq_filter htrans htotal,
          mergeSort_cons_eq_filter htrans htotal, ih, List.filter_append,
          List.filter_cons_of_pos ha, List.filter_comm p, List.filter_comm p]
      · obtain ⟨smaller, others, hcons, hrest, -⟩ := List.mergeSort_cons htrans htotal a l
        rw [List.filter_cons_of_neg ha, ih, hcons, hrest, List.filter_append, List.filter_append,
          List.filter_cons_of_neg ha]

end Sorting

namespace PropertyTable

theorem indexLE_trans (i j k : Key) (hij : indexLE i j = true) (hjk : indexLE j k = true) :
    indexLE i k = true := by
  simp only [indexLE, decide_eq_true_eq] at hij hjk ⊢
  exact Nat.le_trans hij hjk

theorem indexLE_total (j k : Key) : (indexLE j k || indexLE k j) = true := by
  simp only [indexLE, Bool.or_eq_true, decide_eq_true_eq]
  exact Nat.le_total _ _

theorem enumerableKeys_pruned (keep : Key → Bool) (t : PropertyTable) :
    (t.pruned keep).enumerableKeys = t.enumerableKeys.filter keep := by
  rw [enumerableKeys, enumerableKeys, pruned, List.filter_filter, List.filter_map,
    List.filter_filter]
  congr 1
  refine List.filter_congr fun e _ => ?_
  cases e.2.enumerable <;> simp

/-- The keys that are left are shown in the order that they had before. -/
theorem displayKeys_pruned (keep : Key → Bool) (t : PropertyTable) :
    (t.pruned keep).displayKeys = t.displayKeys.filter keep := by
  rw [displayKeys, displayKeys, enumerableKeys_pruned, List.filter_append, List.filter_append]
  simp only [List.filter_comm keep, ← mergeSort_filter indexLE_trans indexLE_total]

theorem mem_enumerableKeys_of_mem_displayKeys {t : PropertyTable} {k : Key}
    (hk : k ∈ t.displayKeys) : k ∈ t.enumerableKeys := by
  rw [displayKeys, List.mem_append, List.mem_append, List.mem_mergeSort] at hk
  rcases hk with (hindex | hname) | hsymbol
  · exact List.mem_of_mem_filter hindex
  · exact List.mem_of_mem_filter hname
  · exact List.mem_of_mem_filter hsymbol

theorem Keyed.pruned {t : PropertyTable} (ht : t.Keyed) (keep : Key → Bool) :
    (t.pruned keep).Keyed :=
  ht.sublist (List.filter_sublist.map _)

/-- A shown key keeps its value. -/
theorem get?_pruned {t : PropertyTable} (ht : t.Keyed) {keep : Key → Bool} {k : Key}
    (hk : k ∈ t.displayKeys) (hkeep : keep k = true) : (t.pruned keep).get? k = t.get? k := by
  obtain ⟨e, he, rfl⟩ := List.mem_map.mp (mem_enumerableKeys_of_mem_displayKeys hk)
  obtain ⟨hmem, henumerable⟩ := List.mem_filter.mp he
  have hleft : e ∈ (t.pruned keep).entries :=
    List.mem_filter.mpr ⟨hmem, by rw [henumerable, hkeep, Bool.and_self]⟩
  rw [get?, get?, ht.find?_eq_some hmem, (ht.pruned keep).find?_eq_some hleft]

end PropertyTable

end ObjectLiteral
