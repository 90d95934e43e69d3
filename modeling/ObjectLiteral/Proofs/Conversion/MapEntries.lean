import ObjectLiteral.Proofs.Conversion.Calls
/-!
What is left of the calls on a map.  Of all keys only the last one before a value matters, and of all
pairs with one text the first one gives the place and the last one the value.
-/

namespace ObjectLiteral

open Conversion

variable {h h' : Heap} {calls : List MapCall}

/-- In front of the first value, and between any two, there is a key. -/
structure Spaced (calls : List MapCall) : Prop where
  before_first : ∀ front d rest, calls = front ++ .value d :: rest → ∃ k, .key k ∈ front
  between : ∀ front d mid d' rest, calls = front ++ .value d :: (mid ++ .value d' :: rest) →
    ∃ k, .key k ∈ mid

/-- Then a key waits for every value. -/
theorem spaced_iff :
    Spaced calls ↔ ∀ front d rest, calls = front ++ .value d :: rest → waiting? front ≠ none := by
  constructor
  · intro hspaced front d rest hcalls
    rcases List.eq_nil_or_concat front with rfl | ⟨front, last, rfl⟩
    · obtain ⟨k, hk⟩ := hspaced.before_first [] d rest hcalls
      cases hk
    · rw [List.concat_eq_append] at hcalls ⊢
      rw [waiting?_concat]
      cases last with
      | key k => exact Option.some_ne_none k
      | value d' =>
          rw [List.append_assoc] at hcalls
          obtain ⟨k, hk⟩ := hspaced.between front d' [] d rest hcalls
          cases hk
  · intro hwaiting
    have hlast : ∀ {front d rest}, calls = front ++ .value d :: rest →
        ∃ before k, front = before ++ [.key k] := by
      intro front d rest hcalls
      obtain ⟨k, hk⟩ := Option.ne_none_iff_exists'.mp (hwaiting front d rest hcalls)
      obtain ⟨before, hfront⟩ := waiting?_eq_some_iff.mp hk
      exact ⟨before, k, hfront⟩
    refine ⟨fun front d rest hcalls => ?_, fun front d mid d' rest hcalls => ?_⟩
    · obtain ⟨before, k, rfl⟩ := hlast hcalls
      exact ⟨k, List.mem_append_right before (List.mem_singleton.mpr rfl)⟩
    · rw [← List.cons_append, ← List.append_assoc] at hcalls
      obtain ⟨before, k, hfront⟩ := hlast hcalls
      -- The key stands behind the first of the two values, since that one is no key.
      rcases List.eq_nil_or_concat mid with rfl | ⟨mid, last, rfl⟩
      · cases (List.append_inj' hfront rfl).2
      · rw [List.concat_eq_append, ← List.cons_append, ← List.append_assoc] at hfront
        obtain rfl := List.singleton_inj.mp (List.append_inj' hfront rfl).2
        exact ⟨k, by simp⟩

section Offences

variable {before : List MapCall} {d : Datum}

theorem not_offends_key_iff :
    (∀ f, ¬ (MapCall.key d).Offends h before f) ↔
      ∃ v h', d.toValue h = .ok (v, h') ∧ v.IsKey := by
  constructor
  · intro hpass
    cases hd : d.toValue h with
    | error f => exact absurd (.key hd) (hpass f)
    | ok r =>
        refine ⟨r.1, r.2, rfl, ?_⟩
        by_contra hkey
        exact hpass _ (.badKey hd hkey)
  · rintro ⟨v, h', hd, hkey⟩ f hoffends
    cases hoffends with
    | key herror => cases hd.symm.trans herror
    | badKey hvalue hno =>
        cases hd.symm.trans hvalue
        exact hno hkey

theorem not_offends_value_iff :
    (∀ f, ¬ (MapCall.value d).Offends h before f) ↔
      waiting? before ≠ none ∧ ∃ r, d.toValue h = .ok r := by
  constructor
  · intro hpass
    have hwaiting : waiting? before ≠ none := fun hnone => hpass _ (.noKey d hnone)
    obtain ⟨k, hk⟩ := Option.ne_none_iff_exists'.mp hwaiting
    refine ⟨hwaiting, ?_⟩
    cases hd : d.toValue h with
    | error f => exact absurd (.value hk hd) (hpass f)
    | ok r => exact ⟨r, rfl⟩
  · rintro ⟨hwaiting, r, hd⟩ f hoffends
    cases hoffends with
    | noKey _ hnone => exact hwaiting hnone
    | value hk herror => cases hd.symm.trans herror

/-- No call offends exactly if all keys and values are fine by themselves and the values are apart. -/
theorem unoffending_iff :
    Unoffending h calls ↔
      (∀ d, .key d ∈ calls → ∃ v h', d.toValue h = .ok (v, h') ∧ v.IsKey) ∧
      (∀ d, .value d ∈ calls → ∃ r, d.toValue h = .ok r) ∧ Spaced calls := by
  constructor
  · intro hpass
    refine ⟨fun d hd => ?_, fun d hd => ?_, spaced_iff.mpr fun front d rest hcalls => ?_⟩
    · obtain ⟨front, rest, hcalls⟩ := List.append_of_mem hd
      exact not_offends_key_iff.mp (hpass front _ rest hcalls)
    · obtain ⟨front, rest, hcalls⟩ := List.append_of_mem hd
      exact (not_offends_value_iff.mp (hpass front _ rest hcalls)).2
    · exact (not_offends_value_iff.mp (hpass front _ rest hcalls)).1
  · rintro ⟨hkeys, hvalues, hspaced⟩ front c rest hcalls
    have hmem : c ∈ calls := hcalls ▸ List.mem_append_right front List.mem_cons_self
    cases c with
    | key d => exact not_offends_key_iff.mpr (hkeys d hmem)
    | value d =>
        have hwaiting := spaced_iff.mp hspaced front d rest hcalls
        exact not_offends_value_iff.mpr ⟨hwaiting, hvalues d hmem⟩

end Offences

namespace MapCall

/-- Each value with the last key before it, if `last` is the last key before all of them. -/
def entriesAfter : Option Datum → List MapCall → List (Datum × Datum)
  | _, [] => []
  | _, .key k :: calls => entriesAfter (some k) calls
  | last, .value d :: calls => (last.map (·, d)).toList ++ entriesAfter last calls

/-- Each value with the last key before it. -/
def entries (calls : List MapCall) : List (Datum × Datum) :=
  entriesAfter none calls

/-- The calls that bring keys and values in turn. -/
def paired (pairs : List (Datum × Datum)) : List MapCall :=
  pairs.flatMap fun e => [.key e.1, .value e.2]

theorem entriesAfter_concat_key (last : Option Datum) (calls : List MapCall) (k : Datum) :
    entriesAfter last (calls ++ [.key k]) = entriesAfter last calls := by
  induction calls generalizing last with
  | nil => rfl
  | cons c calls ih =>
      cases c with
      | key j => exact ih (some j)
      | value d => rw [List.cons_append, entriesAfter, ih, entriesAfter]

theorem entriesAfter_concat_pair (last : Option Datum) (calls : List MapCall) (k d : Datum) :
    entriesAfter last (calls ++ [.key k, .value d]) = entriesAfter last calls ++ [(k, d)] := by
  induction calls generalizing last with
  | nil => rfl
  | cons c calls ih =>
      cases c with
      | key j => exact ih (some j)
      | value e =>
          rw [List.cons_append, entriesAfter, ih, entriesAfter, List.append_assoc]

theorem entries_concat_key (calls : List MapCall) (k : Datum) :
    entries (calls ++ [.key k]) = entries calls :=
  entriesAfter_concat_key none calls k

/-- A value goes with the key that waits for it. -/
theorem entries_concat_value {k : Datum} (hk : waiting? calls = some k) (d : Datum) :
    entries (calls ++ [.value d]) = entries calls ++ [(k, d)] := by
  obtain ⟨front, rfl⟩ := waiting?_eq_some_iff.mp hk
  rw [entries_concat_key, List.append_assoc]
  exact entriesAfter_concat_pair none front k d

theorem paired_concat (pairs : List (Datum × Datum)) (k d : Datum) :
    paired (pairs ++ [(k, d)]) = paired pairs ++ [.key k, .value d] := by
  simp [paired]

end MapCall

open MapCall (entries paired)

theorem Datum.toValues_concat {ds : List Datum} {d : Datum} {vs : List Value} {v : Value}
    {h₁ h₂ : Heap} (hds : toValues ds h = .ok (vs, h₁)) (hd : d.toValue h₁ = .ok (v, h₂)) :
    toValues (ds ++ [d]) h = .ok (vs ++ [v], h₂) := by
  induction ds generalizing h vs with
  | nil =>
      cases hds
      rw [List.nil_append, toValues, bind_of_ok hd]
      rfl
  | cons e ds ih =>
      obtain ⟨u, h₃, he, hrest⟩ := exists_of_bind hds
      obtain ⟨us, h₄, hus, hend⟩ := exists_of_bind hrest
      cases hend
      rw [List.cons_append, toValues, bind_of_ok he, bind_of_ok (ih hus)]
      rfl

/-- The pairs come from the entries of some calls: the texts of their keys with their values, which
are converted one after the other. -/
structure Yields (entries : List (Datum × Datum)) (h : Heap) (pairs : List (Key × Value))
    (h' : Heap) : Prop where
  keys : entries.map (fun e => e.1.keyText?.map Key.name) = pairs.map fun p => some p.1
  values : Datum.toValues (entries.map (·.2)) h = .ok (pairs.map (·.2), h')

namespace MapState

variable {s : MapState}

/-- After any calls that the machine takes, it holds what their entries yield, and the entries alone
would have led it there. -/
theorem yields_of_run (hrun : start.run calls h = .ok (s, h')) :
    (∃ pairs, Yields (entries calls) h pairs h' ∧ s.table = .ofList pairs) ∧
      start.run (paired (entries calls)) h = .ok (⟨none, s.table⟩, h') := by
  induction calls using List.reverseRecOn generalizing s h' with
  | nil =>
      cases hrun
      exact ⟨⟨[], ⟨rfl, rfl⟩, rfl⟩, rfl⟩
  | append_singleton calls c ih =>
      rw [run_append] at hrun
      obtain ⟨s₁, h₁, hfront, hlast⟩ := exists_of_bind hrun
      rw [run_singleton] at hlast
      obtain ⟨⟨pairs, hyields, htable⟩, hpaired⟩ := ih hfront
      cases c with
      | key d =>
          obtain ⟨k, -, rfl, rfl⟩ := take_key_iff.mp hlast
          rw [MapCall.entries_concat_key]
          exact ⟨⟨pairs, hyields, htable⟩, hpaired⟩
      | value d =>
          obtain ⟨text, v, hpending, hd, rfl⟩ := take_value_iff.mp hlast
          have hwaiting := pending_of_run hfront
          rw [hpending, Option.map_some] at hwaiting
          obtain ⟨k, hk, htext⟩ := Option.map_eq_some_iff.mp hwaiting.symm
          rw [MapCall.entries_concat_value hk]
          refine ⟨⟨pairs ++ [(.name text, v)], ⟨?_, ?_⟩, ?_⟩, ?_⟩
          · rw [List.map_append, List.map_append, hyields.keys]
            simp [htext]
          · rw [List.map_append, List.map_append]
            exact Datum.toValues_concat hyields.values hd
          · rw [PropertyTable.ofList_concat, ← htable]
            rfl
          · have hkey : take ⟨none, s₁.table⟩ (.key k) h₁ = .ok (⟨some text, s₁.table⟩, h₁) :=
              take_key_iff.mpr ⟨text, htext, rfl, rfl⟩
            have hvalue : take ⟨some text, s₁.table⟩ (.value d) h₁ =
                .ok (⟨none, s₁.table.insert (.name text) v⟩, h') :=
              take_value_iff.mpr ⟨text, v, rfl, hd, rfl⟩
            rw [MapCall.paired_concat, run_append, bind_of_ok hpaired, run_cons, bind_of_ok hkey,
              run_singleton, hvalue]

end MapState

/-- The value of a map is the object of what the machine holds in the end. -/
theorem Datum.toValue_map (announced : Option Nat) (calls : List MapCall) :
    (map announced calls).toValue = MapState.start.run calls >>= fun s => newObject s.table := by
  have hcalls : runCalls calls none .empty = _ := MapState.runCalls_eq calls .start
  rw [toValue, hcalls, bind_assoc]
  simp only [pure_bind]

/-- What becomes of a map that is handed over by any calls, in any order. -/
structure MapRuns (announced : Option Nat) (calls : List MapCall) (h : Heap) : Prop where
  ok_iff : (∃ r, (Datum.map announced calls).toValue h = .ok r) ↔
    (∀ d, .key d ∈ calls → ∃ v h', d.toValue h = .ok (v, h') ∧ v.IsKey) ∧
    (∀ d, .value d ∈ calls → ∃ r, d.toValue h = .ok r) ∧ Spaced calls
  error_iff : ∀ f, (Datum.map announced calls).toValue h = .error f ↔ ∃ front c rest,
    calls = front ++ c :: rest ∧ Unoffending h front ∧ c.Offends h front f
  object : ∀ v h', (Datum.map announced calls).toValue h = .ok (v, h') → ∃ pairs h₁ table,
    Yields (entries calls) h pairs h₁ ∧
    table.entries = (gathered pairs).map (fun p => (p.1, ⟨p.2, true⟩)) ∧
    v = .object (h₁.newObject table).1 ∧ h' = (h₁.newObject table).2
  /-- Keys without a value of their own leave no trace. -/
  no_trace : ∀ r, (Datum.map announced calls).toValue h = .ok r → ∀ announced' : Option Nat,
    (Datum.map announced' (paired (entries calls))).toValue h = .ok r

/-- A map can be handed over by calls in any order.  It has a value exactly if every key is one,
every value has one, and there is a key in front of the first value and between any two; else the
first call that offends decides the failure.  The object has every value under the text of the last
key before it.  Of pairs with one text the first one gives the place and the last one the value; a
key that another one replaces, or that still waits in the end, might as well not have come. -/
theorem toValue_mapRuns (announced : Option Nat) (calls : List MapCall) (h : Heap) :
    MapRuns announced calls h where
  ok_iff := by
    rw [← unoffending_iff, ← MapState.run_ok_iff, Datum.toValue_map]
    constructor
    · rintro ⟨r, hr⟩
      obtain ⟨s, h', hrun, -⟩ := exists_of_bind hr
      exact ⟨(s, h'), hrun⟩
    · rintro ⟨r, hrun⟩
      exact ⟨_, bind_of_ok hrun⟩
  error_iff f := by
    rw [← MapState.run_error_iff, Datum.toValue_map]
    constructor
    · intro herror
      cases hrun : MapState.start.run calls h with
      | error g =>
          rw [bind_of_error hrun] at herror
          cases herror
          rfl
      | ok r =>
          rw [bind_of_ok hrun] at herror
          cases herror
    · exact bind_of_error
  object v h' hok := by
    rw [Datum.toValue_map] at hok
    obtain ⟨s, h₁, hrun, hnew⟩ := exists_of_bind hok
    obtain ⟨⟨pairs, hyields, htable⟩, -⟩ := MapState.yields_of_run hrun
    cases hnew
    refine ⟨pairs, h₁, s.table, hyields, ?_, rfl, rfl⟩
    rw [htable, PropertyTable.entries_ofList]
  no_trace r hok announced' := by
    rw [Datum.toValue_map] at hok ⊢
    obtain ⟨s, h₁, hrun, hnew⟩ := exists_of_bind hok
    rw [bind_of_ok (MapState.yields_of_run hrun).2]
    exact hnew

/-- Keys of several types have one text, and a key may come too often or in vain. -/
example :
    (Datum.map none [.key (.integer ⟨⟨true, .w8⟩, 1, by decide⟩), .value .unit,
        .key (.string "replaced"), .key (.bool true), .value (.string "a"),
        .key (.char '1'), .value (.string "b"), .key (.string "true"), .value (.tuple []),
        .key (.string "in vain")]).toValue .empty =
      .ok (.object ⟨0⟩, ⟨#[#[]], #[⟨[(.name "1", ⟨.atom (.string "b"), true⟩),
        (.name "true", ⟨.array ⟨0⟩, true⟩)]⟩], 0⟩) := by
  rfl

end ObjectLiteral
