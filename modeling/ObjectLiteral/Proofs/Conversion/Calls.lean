import ObjectLiteral.Proofs.Conversion.Keys
/-!
Maps under construction.  The calls on a map are taken by a machine that remembers at most one key.
A call offends by what is before it alone, in whatever heap it comes, and the machine stops at the
first call that does.
-/

namespace ObjectLiteral

open Conversion

variable {α β : Type} {h h' : Heap}

namespace Conversion

theorem bind_of_ok {m : ConvertM α} {g : α → ConvertM β} {a : α} (hm : m h = .ok (a, h')) :
    (m >>= g) h = g a h' := by
  simp only [Bind.bind, StateT.bind, hm, Except.bind]

theorem bind_of_error {m : ConvertM α} {g : α → ConvertM β} {f : Failure}
    (hm : m h = .error f) : (m >>= g) h = .error f := by
  simp only [Bind.bind, StateT.bind, hm, Except.bind]

end Conversion

/-- Data that fail in one heap fail in all, with the same failure. -/
theorem Datum.toValue_error_congr {d : Datum} {f : Failure} (herror : d.toValue h = .error f)
    (h' : Heap) : d.toValue h' = .error f := by
  obtain ⟨front, s, rest, hwalk, hpass, hfails⟩ := (d.follows_walk h []).exists_first herror
  exact ((d.follows_walk h' []).eq_of_first hwalk hpass hfails).1

theorem Datum.toValue_ok_congr {d : Datum} (hok : ∃ r, d.toValue h = .ok r) (h' : Heap) :
    ∃ r, d.toValue h' = .ok r := by
  obtain ⟨r, hr⟩ := hok
  cases hd : d.toValue h' with
  | ok r' => exact ⟨r', rfl⟩
  | error f =>
      rw [toValue_error_congr hd h] at hr
      cases hr

theorem Datum.isKey_congr {d : Datum} {v v' : Value} {h₁ h₁' : Heap}
    (hd : d.toValue h = .ok (v, h₁)) (hd' : d.toValue h' = .ok (v', h₁')) :
    v.IsKey ↔ v'.IsKey := by
  rw [Value.isKey_iff, Value.isKey_iff, ← keyText?_of_toValue hd, keyText?_of_toValue hd']

namespace MapCall

def key? : MapCall → Option Datum
  | key d => some d
  | value _ => none

end MapCall

/-- The key that waits behind some calls: the last of them, if it brings one. -/
def waiting? (calls : List MapCall) : Option Datum :=
  calls.getLast?.bind MapCall.key?

theorem waiting?_concat (calls : List MapCall) (c : MapCall) :
    waiting? (calls ++ [c]) = c.key? := by
  rw [waiting?, List.getLast?_concat, Option.bind_some]

theorem waiting?_eq_some_iff {calls : List MapCall} {k : Datum} :
    waiting? calls = some k ↔ ∃ front, calls = front ++ [.key k] := by
  induction calls using List.reverseRecOn with
  | nil => simp [waiting?]
  | append_singleton calls c _ => cases c <;> simp [waiting?_concat, MapCall.key?]

/-- How a call offends behind other ones.  Data may have no value, or one that is no key; and a
value needs a key that still waits, which comes before all questions about the value itself. -/
inductive MapCall.Offends (h : Heap) (before : List MapCall) : MapCall → Failure → Prop
  | key {d : Datum} {f : Failure} (herror : d.toValue h = .error f) :
      Offends h before (.key d) f
  | badKey {d : Datum} {v : Value} {h' : Heap} (hvalue : d.toValue h = .ok (v, h'))
      (hkey : ¬ v.IsKey) :
      Offends h before (.key d) (.unsupported "map keys must be strings or integers")
  | noKey (d : Datum) (hbefore : waiting? before = none) :
      Offends h before (.value d) (.custom "serialize_value called without serialize_key")
  | value {d k : Datum} {f : Failure} (hbefore : waiting? before = some k)
      (herror : d.toValue h = .error f) : Offends h before (.value d) f

/-- None of the calls offends behind those before it. -/
def Unoffending (h : Heap) (calls : List MapCall) : Prop :=
  ∀ front c rest, calls = front ++ c :: rest → ∀ f, ¬ c.Offends h front f

/-- Calls offend alike in all heaps. -/
theorem MapCall.Offends.congr {before : List MapCall} {c : MapCall} {f : Failure}
    (hoffends : c.Offends h before f) (h' : Heap) : c.Offends h' before f := by
  cases hoffends with
  | key herror => exact .key (Datum.toValue_error_congr herror h')
  | badKey hvalue hkey =>
      obtain ⟨⟨v, h₁⟩, hvalue'⟩ := Datum.toValue_ok_congr ⟨_, hvalue⟩ h'
      exact .badKey hvalue' (mt (Datum.isKey_congr hvalue' hvalue).mp hkey)
  | noKey d hbefore => exact .noKey d hbefore
  | value hbefore herror => exact .value hbefore (Datum.toValue_error_congr herror h')

theorem unoffending_nil (h : Heap) : Unoffending h [] := by
  intro front c rest hcalls
  exact absurd hcalls.symm (List.append_ne_nil_of_right_ne_nil front (List.cons_ne_nil c rest))

theorem Unoffending.concat {calls : List MapCall} {c : MapCall} (hpass : Unoffending h calls)
    (hc : ∀ f, ¬ c.Offends h calls f) : Unoffending h (calls ++ [c]) := by
  intro front c' rest hcalls
  rcases List.eq_nil_or_concat rest with rfl | ⟨rest, last, rfl⟩
  · obtain ⟨rfl, hlast⟩ := List.append_inj' hcalls rfl
    obtain rfl := List.singleton_inj.mp hlast
    exact hc
  · rw [List.concat_eq_append, ← List.cons_append, ← List.append_assoc] at hcalls
    exact hpass front c' rest (List.append_inj_left' hcalls rfl)

/-- A map under construction: the text of the key that waits, and the properties so far. -/
structure MapState where
  pending : Option String
  table : PropertyTable

namespace MapState

def start : MapState :=
  ⟨none, .empty⟩

/-- A map after one more call. -/
def take (s : MapState) : MapCall → ConvertM MapState
  | .key d => do
    match (← d.toValue).mapKey? with
    | some k => pure ⟨some k, s.table⟩
    | none => throw badKey
  | .value d =>
    match s.pending with
    | some k => do
      let v ← d.toValue
      pure ⟨none, s.table.insert (.name k) v⟩
    | none => throw noKey

def run (s : MapState) (calls : List MapCall) : ConvertM MapState :=
  calls.foldlM take s

variable {s s' : MapState} {d : Datum} {calls before : List MapCall} {c : MapCall} {f : Failure}

theorem run_append (s : MapState) (front rest : List MapCall) :
    s.run (front ++ rest) = s.run front >>= fun s => s.run rest :=
  List.foldlM_append

theorem run_cons (s : MapState) (c : MapCall) (calls : List MapCall) :
    s.run (c :: calls) = s.take c >>= fun s => s.run calls :=
  List.foldlM_cons

theorem run_singleton (s : MapState) (c : MapCall) : s.run [c] = s.take c := by
  rw [run_cons]
  exact bind_pure (s.take c)

theorem take_value {k : String} (hpending : s.pending = some k) (d : Datum) :
    s.take (.value d) = d.toValue >>= fun v => pure ⟨none, s.table.insert (.name k) v⟩ := by
  rw [take, hpending]

/-- The properties of a map are those that the machine has in the end. -/
theorem runCalls_eq (calls : List MapCall) (s : MapState) :
    Datum.runCalls calls s.pending s.table = s.run calls >>= fun s => pure s.table := by
  induction calls generalizing s with
  | nil =>
      rw [Datum.runCalls]
      rfl
  | cons c calls ih =>
      rw [run_cons, bind_assoc]
      simp only [← ih]
      cases c with
      | key d =>
          rw [Datum.runCalls, take, bind_assoc]
          congr 1
          funext v
          cases v.mapKey? with
          | some k => exact (pure_bind _ _).symm
          | none => rfl
      | value d =>
          cases hpending : s.pending with
          | some k =>
              rw [Datum.runCalls, take_value hpending, bind_assoc]
              simp only [pure_bind]
          | none =>
              rw [Datum.runCalls, take, hpending]
              rfl

/-- A key is taken if it has a text, replaces the one that waits, and leaves the heap alone. -/
theorem take_key_iff :
    s.take (.key d) h = .ok (s', h') ↔
      ∃ k, d.keyText? = some k ∧ s' = ⟨some k, s.table⟩ ∧ h' = h := by
  constructor
  · intro hok
    obtain ⟨v, h₁, hd, hrest⟩ := exists_of_bind hok
    have htext := Datum.keyText?_of_toValue hd
    cases hv : v.mapKey? with
    | none =>
        rw [hv] at hrest
        cases hrest
    | some k =>
        rw [hv] at hrest htext
        obtain ⟨v', hd'⟩ := Datum.toValue_of_keyText? htext h
        rw [hd] at hd'
        cases hd'
        cases hrest
        exact ⟨k, htext, rfl, rfl⟩
  · rintro ⟨k, hk, rfl, rfl⟩
    obtain ⟨v, hd⟩ := Datum.toValue_of_keyText? hk h'
    have hv : v.mapKey? = some k := (Datum.keyText?_of_toValue hd).symm.trans hk
    rw [take, bind_of_ok hd, hv]
    rfl

/-- A value is taken under the key that waits. -/
theorem take_value_iff :
    s.take (.value d) h = .ok (s', h') ↔
      ∃ k v, s.pending = some k ∧ d.toValue h = .ok (v, h') ∧
        s' = ⟨none, s.table.insert (.name k) v⟩ := by
  cases hpending : s.pending with
  | none =>
      rw [take, hpending]
      constructor
      · intro hok
        cases hok
      · rintro ⟨_, _, ⟨⟩, _⟩
  | some k =>
      rw [take_value hpending]
      constructor
      · intro hok
        obtain ⟨v, h₁, hd, hrest⟩ := exists_of_bind hok
        cases hrest
        exact ⟨k, v, rfl, hd, rfl⟩
      · rintro ⟨_, v, ⟨⟩, hd, rfl⟩
        exact bind_of_ok hd

/-- A call that the machine does not take offends behind the calls so far. -/
theorem offends_of_take (hpending : s.pending = none ↔ waiting? before = none)
    (herror : s.take c h = .error f) : c.Offends h before f := by
  cases c with
  | key d =>
      cases hd : d.toValue h with
      | error g =>
          rw [take, bind_of_error hd] at herror
          cases herror
          exact .key hd
      | ok r =>
          rw [take, bind_of_ok hd] at herror
          cases hv : r.1.mapKey? with
          | some k =>
              rw [hv] at herror
              cases herror
          | none =>
              rw [hv] at herror
              cases herror
              refine .badKey hd ?_
              rw [Value.isKey_iff, hv]
              rintro ⟨k, ⟨⟩⟩
  | value d =>
      cases hp : s.pending with
      | none =>
          rw [take, hp] at herror
          cases herror
          exact .noKey d (hpending.mp hp)
      | some text =>
          obtain ⟨k, hk⟩ := Option.ne_none_iff_exists'.mp (mt hpending.mpr (by simp [hp]))
          cases hd : d.toValue h with
          | error g =>
              rw [take_value hp, bind_of_error hd] at herror
              cases herror
              exact .value hk hd
          | ok r =>
              rw [take_value hp, bind_of_ok hd] at herror
              cases herror

/-- A call that offends is not taken. -/
theorem take_of_offends (hpending : s.pending = none ↔ waiting? before = none)
    (hoffends : c.Offends h before f) : s.take c h = .error f := by
  cases hoffends with
  | key herror => exact bind_of_error herror
  | @badKey d v h₁ hvalue hkey =>
      have hv : v.mapKey? = none := by
        rw [Value.isKey_iff] at hkey
        exact Option.eq_none_iff_forall_ne_some.mpr (not_exists.mp hkey)
      rw [take, bind_of_ok hvalue, hv]
      rfl
  | noKey d hbefore =>
      rw [take, hpending.mpr hbefore]
      rfl
  | @value d k f hbefore herror =>
      cases hp : s.pending with
      | none =>
          rw [hpending.mp hp] at hbefore
          cases hbefore
      | some text =>
          rw [take_value hp, bind_of_error herror]

/-- What waits is the text of the key that the last call has brought, if it has. -/
theorem pending_of_run (hrun : start.run calls h = .ok (s, h')) :
    s.pending.map some = (waiting? calls).map Datum.keyText? := by
  induction calls using List.reverseRecOn with
  | nil =>
      cases hrun
      rfl
  | append_singleton front c _ =>
      rw [run_append] at hrun
      obtain ⟨s₁, h₁, -, hlast⟩ := exists_of_bind hrun
      rw [run_singleton] at hlast
      rw [waiting?_concat]
      cases c with
      | key d =>
          obtain ⟨k, hk, rfl, -⟩ := take_key_iff.mp hlast
          rw [MapCall.key?, Option.map_some, Option.map_some, hk]
      | value d =>
          obtain ⟨k, v, -, -, rfl⟩ := take_value_iff.mp hlast
          rfl

theorem pending_eq_none_iff (hrun : start.run calls h = .ok (s, h')) :
    s.pending = none ↔ waiting? calls = none := by
  rw [← Option.map_eq_none_iff, pending_of_run hrun, Option.map_eq_none_iff]

/-- Some calls have ended: none of them offends, or the machine has stopped at the first that
does. -/
inductive Ended (h : Heap) (calls : List MapCall) : Except Failure (MapState × Heap) → Prop
  | done {s : MapState} {h' : Heap} (hpass : Unoffending h calls) : Ended h calls (.ok (s, h'))
  | failed {front rest : List MapCall} {c : MapCall} {f : Failure}
      (hcalls : calls = front ++ c :: rest) (hpass : Unoffending h front)
      (hoffends : c.Offends h front f) : Ended h calls (.error f)

theorem ended_run (h : Heap) (calls : List MapCall) : Ended h calls (start.run calls h) := by
  -- From the end, since a call offends by all the calls before it.
  induction calls using List.reverseRecOn with
  | nil => exact .done (unoffending_nil h)
  | append_singleton calls c ih =>
      rw [run_append]
      cases hrun : start.run calls h with
      | error f =>
          rw [hrun] at ih
          rw [bind_of_error hrun]
          cases ih with
          | @failed front rest c' f hcalls hpass hoffends =>
              have hlonger : calls ++ [c] = front ++ c' :: (rest ++ [c]) := by
                rw [hcalls, List.append_assoc, List.cons_append]
              exact .failed hlonger hpass hoffends
      | ok r =>
          rw [hrun] at ih
          rw [bind_of_ok hrun, run_singleton]
          have hpending := pending_eq_none_iff hrun
          cases ih with
          | @done s h₁ hpass =>
              cases hc : s.take c h₁ with
              | error f =>
                  have hoffends := (offends_of_take hpending hc).congr h
                  exact .failed rfl hpass hoffends
              | ok r =>
                  refine .done (hpass.concat fun f hoffends => ?_)
                  rw [take_of_offends hpending (hoffends.congr h₁)] at hc
                  cases hc

/-- The failure is that of the first call that offends. -/
theorem run_error_iff :
    start.run calls h = .error f ↔ ∃ front c rest, calls = front ++ c :: rest ∧
      Unoffending h front ∧ c.Offends h front f := by
  constructor
  · intro herror
    have hended := ended_run h calls
    rw [herror] at hended
    cases hended with
    | failed hcalls hpass hoffends => exact ⟨_, _, _, hcalls, hpass, hoffends⟩
  · rintro ⟨front, c, rest, rfl, hpass, hoffends⟩
    have hended := ended_run h front
    cases hrun : start.run front h with
    | error g =>
        rw [hrun] at hended
        cases hended with
        | failed hcalls _ hearlier => exact absurd hearlier (hpass _ _ _ hcalls g)
    | ok r =>
        have hfails := take_of_offends (pending_eq_none_iff hrun) (hoffends.congr r.2)
        rw [run_append, bind_of_ok hrun, run_cons, bind_of_error hfails]

theorem run_ok_iff : (∃ r, start.run calls h = .ok r) ↔ Unoffending h calls := by
  have hended := ended_run h calls
  cases hrun : start.run calls h with
  | ok r =>
      rw [hrun] at hended
      cases hended with
      | done hpass => exact iff_of_true ⟨_, rfl⟩ hpass
  | error f =>
      rw [hrun] at hended
      cases hended with
      | failed hcalls _ hoffends =>
          refine iff_of_false ?_ fun hpass => hpass _ _ _ hcalls f hoffends
          rintro ⟨r, ⟨⟩⟩

end MapState

end ObjectLiteral
