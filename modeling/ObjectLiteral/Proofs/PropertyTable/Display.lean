import ObjectLiteral.Proofs.PropertyTable.Pruning
import ObjectLiteral.Proofs.Text.Numeral
/-!
The display order.  The keys that are shown are the enumerable ones, each once: first the array
indices, strictly ascending because no two names have the same index, then the other names and the
symbols in stored order.
-/

namespace ObjectLiteral

namespace Key

/-- The keys with an array index are the numerals up to the largest one. -/
theorem arrayIndex?_eq_some_iff {k : Key} {n : Nat} :
    k.arrayIndex? = some n ↔ n ≤ maxArrayIndex ∧ k = .name (Numeral.ofNat n) := by
  cases k with
  | symbol s => simp [arrayIndex?]
  | name s =>
      rw [arrayIndex?, indexOfName?]
      constructor
      · intro hindex
        split at hindex
        · rename_i m hread
          split at hindex
          · rename_i hle
            obtain rfl := Option.some.inj hindex
            refine ⟨hle, congrArg Key.name ?_⟩
            rw [Numeral.ofNat, ← Numeral.eq_digits_of_read? hread, String.ofList_toList]
          · cases hindex
        · cases hindex
      · rintro ⟨hle, hname⟩
        obtain rfl := Key.name.inj hname
        rw [Numeral.ofNat, String.toList_ofList, Numeral.read?_digits]
        exact if_pos hle

/-- An array index is not a symbol. -/
theorem isSymbol_of_arrayIndex? {k : Key} (hk : k.arrayIndex?.isSome = true) :
    k.isSymbol = false := by
  cases k with
  | name s => rfl
  | symbol s => cases hk

end Key

namespace PropertyTable

/-- A name that is shown among the other names: it is no array index. -/
def isPlainName (k : Key) : Bool :=
  !k.isSymbol && k.arrayIndex?.isNone

theorem isPlainName_iff {k : Key} :
    isPlainName k = true ↔
      (∃ s, k = .name s) ∧ ∀ n ≤ Key.maxArrayIndex, k ≠ .name (Numeral.ofNat n) := by
  rw [isPlainName, Bool.and_eq_true, Option.isNone_iff_eq_none, Option.eq_none_iff_forall_ne_some]
  refine and_congr ?_ ⟨fun hnone n hle hk => ?_, fun hnone n hk => ?_⟩
  · cases k <;> simp [Key.isSymbol]
  · exact hnone n (Key.arrayIndex?_eq_some_iff.mpr ⟨hle, hk⟩)
  · obtain ⟨hle, hname⟩ := Key.arrayIndex?_eq_some_iff.mp hk
    exact hnone n hle hname

variable {t : PropertyTable}

theorem enumerableKeys_sublist (t : PropertyTable) : t.enumerableKeys.Sublist t.keys :=
  List.filter_sublist.map _

theorem mem_enumerableKeys_iff (ht : t.Keyed) {k : Key} :
    k ∈ t.enumerableKeys ↔ ∃ v, t.find? k = some ⟨v, true⟩ := by
  constructor
  · intro hk
    obtain ⟨⟨_, v, _⟩, he, rfl⟩ := List.mem_map.mp hk
    obtain ⟨hmem, henumerable⟩ := List.mem_filter.mp he
    cases henumerable
    exact ⟨v, ht.find?_eq_some hmem⟩
  · rintro ⟨v, hfind⟩
    obtain ⟨before, after, hentries, -⟩ := List.lookup_eq_some_iff.mp hfind
    refine List.mem_map.mpr ⟨(k, ⟨v, true⟩), List.mem_filter.mpr ⟨?_, rfl⟩, rfl⟩
    rw [hentries]
    exact List.mem_append_right before List.mem_cons_self

theorem mem_displayKeys_iff {k : Key} : k ∈ t.displayKeys ↔ k ∈ t.enumerableKeys := by
  refine ⟨mem_enumerableKeys_of_mem_displayKeys, fun hk => ?_⟩
  rw [displayKeys, List.mem_append, List.mem_append, List.mem_mergeSort]
  cases hindex : k.arrayIndex?.isSome with
  | true => exact Or.inl (Or.inl (List.mem_filter.mpr ⟨hk, hindex⟩))
  | false =>
      have hnone : k.arrayIndex?.isNone = true := by
        rw [← Option.not_isSome, hindex]
        rfl
      cases hsymbol : k.isSymbol with
      | true => exact Or.inr (List.mem_filter.mpr ⟨hk, hsymbol⟩)
      | false =>
          refine Or.inl (Or.inr (List.mem_filter.mpr ⟨hk, ?_⟩))
          rw [hsymbol, hnone]
          rfl

/-- The array indices that a table shows, strictly ascending. -/
theorem exists_indices (ht : t.Keyed) :
    ∃ indices : List Nat, indices.Pairwise (· < ·) ∧ (∀ n ∈ indices, n ≤ Key.maxArrayIndex) ∧
      (t.enumerableKeys.filter (·.arrayIndex?.isSome)).mergeSort indexLE =
        indices.map fun n => .name (Numeral.ofNat n) := by
  have hindex : ∀ k ∈ (t.enumerableKeys.filter (·.arrayIndex?.isSome)).mergeSort indexLE,
      k.arrayIndex? = some (k.arrayIndex?.getD 0) := by
    intro k hk
    obtain ⟨-, hsome⟩ := List.mem_filter.mp (List.mem_mergeSort.mp hk)
    obtain ⟨n, hn⟩ := Option.isSome_iff_exists.mp hsome
    rw [hn, Option.getD_some]
  have hsorted := List.pairwise_mergeSort indexLE_trans indexLE_total
    (t.enumerableKeys.filter (·.arrayIndex?.isSome))
  have hnodup : ((t.enumerableKeys.filter (·.arrayIndex?.isSome)).mergeSort indexLE).Nodup :=
    (List.mergeSort_perm _ _).nodup_iff.mpr
      (ht.sublist (List.filter_sublist.trans t.enumerableKeys_sublist))
  generalize (t.enumerableKeys.filter (·.arrayIndex?.isSome)).mergeSort indexLE = sorted
    at hindex hsorted hnodup ⊢
  refine ⟨sorted.map fun k => k.arrayIndex?.getD 0, List.pairwise_map.mpr ?_, fun n hn => ?_, ?_⟩
  · refine (hsorted.and hnodup).imp_of_mem fun {j k} hj hk hjk => ?_
    obtain ⟨hle, hne⟩ := hjk
    have hle' : j.arrayIndex?.getD 0 ≤ k.arrayIndex?.getD 0 := of_decide_eq_true hle
    refine Nat.lt_of_le_of_ne hle' fun heq => hne ?_
    have hj' := (Key.arrayIndex?_eq_some_iff.mp (hindex j hj)).2
    have hk' := (Key.arrayIndex?_eq_some_iff.mp (hindex k hk)).2
    rw [hj', hk', heq]
  · obtain ⟨k, hk, rfl⟩ := List.mem_map.mp hn
    exact (Key.arrayIndex?_eq_some_iff.mp (hindex k hk)).1
  · have hsame : sorted.map (fun k : Key => Key.name (Numeral.ofNat (k.arrayIndex?.getD 0))) =
        sorted.map id :=
      List.map_congr_left fun k hk => (Key.arrayIndex?_eq_some_iff.mp (hindex k hk)).2.symm
    rw [List.map_map]
    exact (hsame.trans (List.map_id sorted)).symm

/-- The shown keys fall into three groups: the array indices, strictly ascending, the other names,
and the symbols, the last two as they are stored. -/
theorem exists_displayKeys_eq (ht : t.Keyed) :
    ∃ indices : List Nat, indices.Pairwise (· < ·) ∧ (∀ n ∈ indices, n ≤ Key.maxArrayIndex) ∧
      t.displayKeys = indices.map (fun n => .name (Numeral.ofNat n)) ++
        t.enumerableKeys.filter isPlainName ++ t.enumerableKeys.filter (·.isSymbol) := by
  obtain ⟨indices, hascending, hle, hsorted⟩ := exists_indices ht
  refine ⟨indices, hascending, hle, ?_⟩
  rw [displayKeys, hsorted]
  rfl

/-- No key is shown twice. -/
theorem nodup_displayKeys (ht : t.Keyed) : t.displayKeys.Nodup := by
  have hkeys : t.enumerableKeys.Nodup := ht.sublist t.enumerableKeys_sublist
  rw [displayKeys, List.nodup_append, List.nodup_append]
  refine ⟨⟨?_, hkeys.filter _, fun j hj k hk => ?_⟩, hkeys.filter _, fun j hj k hk => ?_⟩
  · exact (List.mergeSort_perm _ _).nodup_iff.mpr (hkeys.filter _)
  · rintro rfl
    have hindex := (List.mem_filter.mp (List.mem_mergeSort.mp hj)).2
    have hplain := (List.mem_filter.mp hk).2
    rw [Bool.and_eq_true, ← Option.not_isSome, hindex] at hplain
    exact Bool.false_ne_true hplain.2
  · rintro rfl
    have hsymbol := (List.mem_filter.mp hk).2
    rcases List.mem_append.mp hj with hj | hj
    · have hindex := (List.mem_filter.mp (List.mem_mergeSort.mp hj)).2
      rw [Key.isSymbol_of_arrayIndex? hindex] at hsymbol
      exact Bool.false_ne_true hsymbol
    · have hplain := (List.mem_filter.mp hj).2
      rw [hsymbol] at hplain
      exact Bool.false_ne_true hplain

end PropertyTable

end ObjectLiteral
