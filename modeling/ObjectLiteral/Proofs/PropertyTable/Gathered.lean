import Mathlib.Data.List.Perm.Subperm
import ObjectLiteral.Proofs.PropertyTable.History
/-!
Insertion of a whole list.  What is left of a list of pairs is one pair for each key, where the key
stood first and with the value that came last.
-/

namespace ObjectLiteral

variable {κ α β : Type} [DecidableEq κ]

/-- The pairs of a list by key: each key once, in the order in which the keys come first, with the
last value under it. -/
def gathered (pairs : List (κ × α)) : List (κ × α) :=
  (pairs.map (·.1)).eraseDups.filterMap fun k => (pairs.reverse.lookup k).map (k, ·)

theorem lookup_map_snd (f : α → β) (pairs : List (κ × α)) (k : κ) :
    (pairs.map fun e => (e.1, f e.2)).lookup k = (pairs.lookup k).map f := by
  induction pairs with
  | nil => rfl
  | cons e pairs ih =>
      obtain ⟨j, a⟩ := e
      cases hk : k == j <;> simp [List.lookup_cons, hk, ih]

theorem gathered_singleton (e : κ × α) : gathered [e] = [e] := by
  obtain ⟨k, a⟩ := e
  simp [gathered, List.eraseDups_cons, List.lookup_cons]

/-- A change of the values leaves the keys in place. -/
theorem gathered_map (f : α → β) (pairs : List (κ × α)) :
    gathered (pairs.map fun e => (e.1, f e.2)) = (gathered pairs).map fun e => (e.1, f e.2) := by
  simp [gathered, List.map_filterMap, ← List.map_reverse, lookup_map_snd, Function.comp_def]

theorem eraseDups_concat (l : List κ) (k : κ) :
    (l ++ [k]).eraseDups = if k ∈ l then l.eraseDups else l.eraseDups ++ [k] := by
  have hsingle : [k].eraseDups = [k] := by simp [List.eraseDups_cons]
  by_cases hk : k ∈ l <;> simp [List.eraseDups_append, List.removeAll, hk, hsingle]

theorem nodup_eraseDups (l : List κ) : l.eraseDups.Nodup := by
  induction l using List.reverseRecOn with
  | nil => simp
  | append_singleton l k ih =>
      rw [eraseDups_concat]
      split
      · exact ih
      · rename_i hk
        apply ih.append (List.nodup_singleton k)
        simpa using hk

/-- Every key has one of its pairs, so no pair is gathered twice. -/
theorem gathered_subperm (pairs : List (κ × α)) : (gathered pairs).Subperm pairs := by
  have hkey : ∀ j (e : κ × α), e ∈ (pairs.reverse.lookup j).map (j, ·) → e.1 = j := by
    intro j e he
    obtain ⟨a, -, rfl⟩ := Option.map_eq_some_iff.mp he
    rfl
  have hnodup : (gathered pairs).Nodup := by
    apply (nodup_eraseDups _).filterMap
    intro j k e hj hk
    exact (hkey j e hj).symm.trans (hkey k e hk)
  apply hnodup.subperm
  intro e he
  obtain ⟨k, -, hk⟩ := List.mem_filterMap.mp he
  obtain ⟨a, ha, rfl⟩ := Option.map_eq_some_iff.mp hk
  obtain ⟨before, after, hpairs, -⟩ := List.lookup_eq_some_iff.mp ha
  apply List.mem_reverse.mp
  simp [hpairs]

namespace PropertyTable

/-- A table with each key once is given by its keys and what is found under them. -/
theorem Keyed.entries_eq {t : PropertyTable} (ht : t.Keyed) :
    t.entries = t.keys.filterMap fun k => (t.find? k).map (k, ·) := by
  have hfound : ∀ e ∈ t.entries, (t.find? e.1).map (e.1, ·) = some e := by
    intro e he
    simp [ht.find?_eq_some he]
  rw [keys, List.filterMap_map]
  exact (List.filterMap_some.symm.trans (List.filterMap_congr hfound).symm)

theorem ofList_concat (l : List (Key × Value)) (k : Key) (v : Value) :
    ofList (l ++ [(k, v)]) = (ofList l).define k v true := by
  simp [ofList, insert]

theorem keyed_ofList (l : List (Key × Value)) : (ofList l).Keyed := by
  simpa [ofList_eq_after] using keyed_after _

theorem keys_ofList (l : List (Key × Value)) : (ofList l).keys = (l.map (·.1)).eraseDups := by
  induction l using List.reverseRecOn with
  | nil => simp [ofList, keys, empty]
  | append_singleton l e ih =>
      have hmem := List.mem_eraseDups (a := e.1) (l := l.map (·.1))
      rw [ofList_concat, keys_define, ih]
      simp only [List.map_append, List.map_cons, List.map_nil, eraseDups_concat, hmem]

theorem find?_ofList (l : List (Key × Value)) (k : Key) :
    (ofList l).find? k = (l.reverse.lookup k).map (⟨·, true⟩) := by
  induction l using List.reverseRecOn with
  | nil => rfl
  | append_singleton l e ih =>
      obtain ⟨j, v⟩ := e
      by_cases hj : j = k
      · simp [ofList_concat, find?_define, hj]
      · have hkey : (k == j) = false := by simpa using Ne.symm hj
        simp [ofList_concat, find?_define, hj, ih, List.lookup_cons, hkey]

/-- The insertion of a list, pair after pair, stores what is gathered from it. -/
theorem entries_ofList (l : List (Key × Value)) :
    (ofList l).entries = (gathered l).map fun e => (e.1, ⟨e.2, true⟩) := by
  rw [(keyed_ofList l).entries_eq, keys_ofList, gathered, List.map_filterMap]
  simp [find?_ofList, Function.comp_def]

end PropertyTable

end ObjectLiteral
