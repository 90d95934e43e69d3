import ObjectLiteral.Proofs.Conversion.Fresh
import ObjectLiteral.Proofs.Conversion.Walk
/-!
The first failure.  A conversion goes along the walk through its data, stops at the first station
that fails, with that failure, and comes to nothing behind it.
-/

namespace ObjectLiteral

variable {α β : Type}

theorem Value.isKey_iff {v : Value} : v.IsKey ↔ ∃ k, v.mapKey? = some k := by
  constructor
  · intro hkey
    cases hkey with
    | string s => exact ⟨_, rfl⟩
    | bool b => cases b <;> exact ⟨_, rfl⟩
    | integer i => exact ⟨_, rfl⟩
    | bigInt z => exact ⟨_, rfl⟩
  · rintro ⟨k, hk⟩
    unfold mapKey? at hk
    split at hk
    · exact .string _
    · exact .bool true
    · exact .bool false
    · exact .integer _
    · exact .bigInt _
    · cases hk

namespace Conversion

theorem Station.Fails.unique {s : Station} {f g : Failure} (hf : s.Fails f) (hg : s.Fails g) :
    f = g := by
  cases hf with
  | failing reason => cases hg; rfl
  | judged hvalue hkey => cases hg; rfl
  | unkeyed d => cases hg; rfl

/-- Whether data can be a key does not depend on the heap that they are converted in. -/
theorem passes_judged {d : Datum} {h h' : Heap} {v : Value} {k : String}
    (hvalue : d.toValue h = .ok (v, h')) (hk : v.mapKey? = some k) :
    (Station.judged d).Passes := by
  intro f hfails
  cases hfails with
  | judged hvalue' hkey =>
      obtain ⟨t, ht, hbuilt⟩ := d.built_toValue hvalue
      obtain ⟨t', ht', hbuilt'⟩ := d.built_toValue hvalue'
      obtain rfl : t = t' := Option.some.inj (ht.symm.trans ht')
      exact hkey (Value.isKey_iff.mpr ⟨k, by rw [← hbuilt'.mapKey?, hbuilt.mapKey?, hk]⟩)

theorem Station.first_unique {front front' rest rest' : List Station} {s s' : Station}
    {f f' : Failure} (heq : front ++ s :: rest = front' ++ s' :: rest')
    (hpass : ∀ t ∈ front, t.Passes) (hpass' : ∀ t ∈ front', t.Passes) (hs : s.Fails f)
    (hs' : s'.Fails f') : front = front' ∧ s = s' := by
  induction front generalizing front' with
  | nil =>
      cases front' with
      | nil => exact ⟨rfl, (List.cons.inj heq).1⟩
      | cons t front' =>
          obtain ⟨rfl, -⟩ := List.cons.inj heq
          exact absurd hs (hpass' s List.mem_cons_self f)
  | cons t front ih =>
      cases front' with
      | nil =>
          obtain ⟨rfl, -⟩ := List.cons.inj heq
          exact absurd hs' (hpass t List.mem_cons_self f')
      | cons t' front' =>
          obtain ⟨rfl, htail⟩ := List.cons.inj heq
          obtain ⟨rfl, rfl⟩ := ih htail (List.forall_mem_cons.mp hpass).2
            (List.forall_mem_cons.mp hpass').2
          exact ⟨rfl, rfl⟩

/-- A conversion and the same one under watch have ended alike after some stations: with all of
`walk` behind them, none of which fails, or at the first one that does. -/
inductive Ending (walk reached : List Station) :
    Except Failure (α × Heap) → EStateM.Result Failure Progress α → Prop
  | done {a : α} {h : Heap} (hpass : ∀ s ∈ walk, s.Passes) :
      Ending walk reached (.ok (a, h)) (.ok a ⟨h, reached ++ walk⟩)
  | failed {front rest : List Station} {s : Station} {f : Failure} {h : Heap}
      (hwalk : walk = front ++ s :: rest) (hpass : ∀ t ∈ front, t.Passes) (hfails : s.Fails f) :
      Ending walk reached (.error f) (.error f ⟨h, reached ++ (front ++ [s])⟩)

variable {walk reached : List Station} {result : Except Failure (α × Heap)}
  {ended : EStateM.Result Failure Progress α}

theorem Ending.unwatched_eq (hend : Ending walk reached result ended) :
    unwatched ended = result := by
  cases hend with
  | done hpass => rfl
  | failed hwalk hpass hfails => rfl

theorem Ending.eq_of_ok (hend : Ending walk reached result ended) {r : α × Heap}
    (hr : result = .ok r) :
    (∀ s ∈ walk, s.Passes) ∧ ended = .ok r.1 ⟨r.2, reached ++ walk⟩ := by
  cases hend with
  | done hpass =>
      cases hr
      exact ⟨hpass, rfl⟩
  | failed hwalk hpass hfails => cases hr

theorem Ending.exists_first (hend : Ending walk reached result ended) {f : Failure}
    (hf : result = .error f) :
    ∃ front s rest, walk = front ++ s :: rest ∧ (∀ t ∈ front, t.Passes) ∧ s.Fails f := by
  cases hend with
  | done hpass => cases hf
  | @failed front rest s g h' hwalk hpass hfails =>
      cases hf
      exact ⟨front, s, rest, hwalk, hpass, hfails⟩

/-- A failing station is the end of it. -/
theorem Ending.eq_of_first (hend : Ending walk reached result ended) {front rest : List Station}
    {s : Station} {f : Failure} (hwalk : walk = front ++ s :: rest)
    (hpass : ∀ t ∈ front, t.Passes) (hfails : s.Fails f) :
    result = .error f ∧ ∃ h, ended = .error f ⟨h, reached ++ (front ++ [s])⟩ := by
  cases hend with
  | done hpass' =>
      have hmem : s ∈ walk := hwalk ▸ List.mem_append_right front List.mem_cons_self
      exact absurd hfails (hpass' s hmem f)
  | @failed front' rest' s' f' h' hwalk' hpass' hfails' =>
      obtain ⟨rfl, rfl⟩ :=
        Station.first_unique (hwalk.symm.trans hwalk') hpass hpass' hfails hfails'
      obtain rfl := hfails.unique hfails'
      exact ⟨rfl, h', rfl⟩

theorem Ending.ok_iff (hend : Ending walk reached result ended) :
    (∃ r, result = .ok r) ↔ ∀ s ∈ walk, s.Passes := by
  constructor
  · rintro ⟨r, hr⟩
    exact (hend.eq_of_ok hr).1
  · intro hall
    cases hend with
    | done hpass => exact ⟨_, rfl⟩
    | @failed front rest s f h' hwalk hpass hfails =>
        have hmem : s ∈ walk := hwalk ▸ List.mem_append_right front List.mem_cons_self
        exact absurd hfails (hall s hmem f)

/-- Under watch a step goes along a walk, wherever it starts. -/
def Follows (walk : List Station) (m : ConvertM α) (watched : WatchM α) : Prop :=
  ∀ h reached, Ending walk reached (m h) (watched ⟨h, reached⟩)

variable {walk' : List Station} {m : ConvertM α} {watched : WatchM α} {s : Station}

/-- A step that cannot fail comes to no station. -/
theorem follows_between (hm : ∀ h, ∃ r, m h = .ok r) : Follows [] m (between m) := by
  intro h reached
  obtain ⟨⟨a, h'⟩, hr⟩ := hm h
  have hend : Ending [] reached (.ok (a, h')) (.ok a ⟨h', reached ++ []⟩) :=
    .done (List.forall_mem_nil _)
  rw [List.append_nil] at hend
  simpa only [between, hr] using hend

theorem follows_pure (a : α) : Follows [] (pure a) (pure a) :=
  follows_between (m := pure a) fun h => ⟨(a, h), rfl⟩

/-- The second step goes on behind the first one, with a result that the first one has had. -/
theorem Follows.bind {f : α → ConvertM β} {g : α → WatchM β} (hm : Follows walk m watched)
    (hf : ∀ a h h', m h = .ok (a, h') → Follows walk' (f a) (g a)) :
    Follows (walk ++ walk') (m >>= f) (watched >>= g) := by
  intro h reached
  have hend := hm h reached
  simp only [Bind.bind, StateT.bind, EStateM.bind]
  generalize hresult : m h = result at hend
  generalize watched ⟨h, reached⟩ = ended at hend ⊢
  cases hend with
  | @done a h' hpass =>
      have hend' := hf a h h' hresult h' (reached ++ walk)
      simp only [Except.bind]
      generalize f a h' = result' at hend' ⊢
      generalize g a ⟨h', reached ++ walk⟩ = ended' at hend' ⊢
      cases hend' with
      | done hpass' =>
          rw [List.append_assoc]
          exact .done (List.forall_mem_append.mpr ⟨hpass, hpass'⟩)
      | @failed front rest s f _ hwalk hpass' hfails =>
          have hwalk' : walk ++ walk' = (walk ++ front) ++ s :: rest := by
            rw [hwalk, List.append_assoc]
          rw [List.append_assoc, ← List.append_assoc walk]
          exact .failed hwalk' (List.forall_mem_append.mpr ⟨hpass, hpass'⟩) hfails
  | @failed front rest s f _ hwalk hpass hfails =>
      have hwalk' : walk ++ walk' = front ++ s :: (rest ++ walk') := by
        rw [hwalk, List.append_assoc, List.cons_append]
      exact .failed hwalk' hpass hfails

/-- Behind the last station of a step another one comes to none. -/
theorem Follows.map {f : α → ConvertM β} {g : α → WatchM β} (hm : Follows walk m watched)
    (hf : ∀ a, Follows [] (f a) (g a)) : Follows walk (m >>= f) (watched >>= g) := by
  have hbind := hm.bind fun a _ _ _ => hf a
  rwa [List.append_nil] at hbind

theorem Follows.reach (hs : s.Passes) (hm : Follows walk m watched) :
    Follows (s :: walk) m (do reach s; watched) := by
  have hreach : Follows [s] (pure ()) (Conversion.reach s) :=
    fun h reached => .done (List.forall_mem_singleton.mpr hs)
  exact hreach.bind fun _ _ _ _ => hm

theorem follows_throw {f : Failure} (hs : s.Fails f) (walk : List Station) :
    Follows (s :: walk) (throw f : ConvertM α) (do reach s; throw f) := by
  intro h reached
  have hwalk : s :: walk = [] ++ s :: walk := rfl
  exact .failed hwalk (List.forall_mem_nil _) hs

theorem passes_handed {d : Datum} (hd : ∀ reason, d ≠ .failing reason) :
    (Station.handed d).Passes := by
  intro f hfails
  cases hfails with
  | failing reason => exact hd reason rfl

end Conversion

namespace Datum

open Conversion

/-- Data that hold no other data are their only station. -/
theorem follows_leaf {d : Datum} (hwalk : d.walk = [.handed d])
    (hwatched : d.watched = do reach (.handed d); between d.toValue)
    (hd : ∀ reason, d ≠ .failing reason) (hok : ∀ h, ∃ r, d.toValue h = .ok r) :
    Follows d.walk d.toValue d.watched := by
  rw [hwalk, hwatched]
  exact (follows_between hok).reach (passes_handed hd)

mutual

/-- A conversion goes along the walk through its data. -/
theorem follows_walk : ∀ d : Datum, Follows d.walk d.toValue d.watched
  | .bool _ | .integer _ | .single _ | .double _ | .char _ | .string _ | .bytes _ | .absent
  | .unit | .namedUnit _ | .tag _ => follows_leaf rfl rfl (by simp) fun _ => ⟨_, rfl⟩
  | .present d | .wrapped _ d => by
    rw [walk, watched, toValue]
    exact (follows_walk d).reach (passes_handed (by simp))
  | .tagged name d => by
    rw [walk, watched, toValue]
    exact ((follows_walk d).map fun v => follows_between fun h => ⟨_, rfl⟩).reach
      (passes_handed (by simp))
  | .sequence _ ds | .tuple ds _ | .namedTuple _ ds _ | .taggedTuple _ ds _ => by
    rw [walk, watched, toValue]
    exact ((follows_walkAll ds).map fun vs => follows_between fun h => ⟨_, rfl⟩).reach
      (passes_handed (by simp))
  | .map _ calls => by
    rw [walk, watched, toValue]
    exact ((follows_walkCalls calls none .empty).map fun t =>
      follows_between fun h => ⟨_, rfl⟩).reach (passes_handed (by simp))
  | .record _ fields _ | .taggedRecord _ fields _ => by
    rw [walk, watched, toValue]
    exact ((follows_walkFields fields .empty).map fun t =>
      follows_between fun h => ⟨_, rfl⟩).reach (passes_handed (by simp))
  | .failing reason => follows_throw (.failing reason) []

theorem follows_walkAll : ∀ ds : List Datum, Follows (walkAll ds) (toValues ds) (watchedAll ds)
  | [] => by
    rw [walkAll, toValues, watchedAll]
    exact follows_pure []
  | d :: ds => by
    rw [walkAll, toValues, watchedAll]
    exact (follows_walk d).bind fun v _ _ _ =>
      (follows_walkAll ds).map fun vs => follows_pure (v :: vs)

/-- A key waits exactly if the walk takes one to be there. -/
theorem follows_walkCalls : ∀ (calls : List MapCall) (pending : Option String)
    (t : PropertyTable),
    Follows (walkCalls calls pending.isSome) (runCalls calls pending t)
      (watchedCalls calls pending t)
  | [], _, t => by
    rw [walkCalls, runCalls, watchedCalls]
    exact follows_pure t
  | .key d :: calls, _, t => by
    rw [walkCalls, runCalls, watchedCalls]
    refine (follows_walk d).bind fun v h h' hvalue => ?_
    cases hk : v.mapKey? with
    | some k => exact (follows_walkCalls calls (some k) t).reach (passes_judged hvalue hk)
    | none =>
        have hkey : ¬ v.IsKey := by
          rw [Value.isKey_iff, hk]
          simp
        exact follows_throw (.judged hvalue hkey) _
  | .value d :: calls, none, t => by
    rw [Option.isSome_none, walkCalls, runCalls, watchedCalls]
    exact follows_throw (.unkeyed d) _
  | .value d :: calls, some k, t => by
    rw [Option.isSome_some, walkCalls, runCalls, watchedCalls]
    exact (follows_walk d).bind fun v _ _ _ =>
      follows_walkCalls calls none (t.insert (.name k) v)

theorem follows_walkFields : ∀ (fields : List Field) (t : PropertyTable),
    Follows (walkFields fields) (insertFields fields t) (watchedFields fields t)
  | [], t => by
    rw [walkFields, insertFields, watchedFields]
    exact follows_pure t
  | .mk name d :: fields, t => by
    rw [walkFields, insertFields, watchedFields]
    exact (follows_walk d).bind fun v _ _ _ =>
      follows_walkFields fields (t.insert (.name name) v)

end

/-- The conversion of data in a heap, and what is written of it, stop at the first station of the
walk that fails. -/
structure StopsFirst (d : Datum) (h : Heap) : Prop where
  error_iff : ∀ f, d.toValue h = .error f ↔ ∃ front s rest,
    d.walk = front ++ s :: rest ∧ (∀ t ∈ front, t.Passes) ∧ s.Fails f
  ok_iff : (∃ r, d.toValue h = .ok r) ↔ ∀ s ∈ d.walk, s.Passes
  /-- The watcher does not interfere. -/
  unwatched_eq : unwatched (d.watched ⟨h, []⟩) = d.toValue h
  reached_all : ∀ r, d.toValue h = .ok r → d.watched ⟨h, []⟩ = .ok r.1 ⟨r.2, d.walk⟩
  reached_front : ∀ front s rest f, d.walk = front ++ s :: rest → (∀ t ∈ front, t.Passes) →
    s.Fails f → ∃ h', d.watched ⟨h, []⟩ = .error f ⟨h', front ++ [s]⟩
  render_eq : ∀ f, d.toValue h = .error f → ∀ (σ : Type) (options : Options σ) (state : σ),
    d.render options ⟨h, state⟩ = ⟨.error (.failed f), ⟨h, state⟩, []⟩

end Datum

/-- A conversion fails exactly if a station of the walk through its data fails, and with the failure
of the first one that does, whatever the data around it are.  It comes to all stations up to that
one and to none behind it.  Then no hook is called, and the world stays as it was. -/
theorem toValue_stopsFirst (d : Datum) (h : Heap) : d.StopsFirst h where
  error_iff f := by
    constructor
    · exact (d.follows_walk h []).exists_first
    · rintro ⟨front, s, rest, hwalk, hpass, hfails⟩
      exact ((d.follows_walk h []).eq_of_first hwalk hpass hfails).1
  ok_iff := (d.follows_walk h []).ok_iff
  unwatched_eq := (d.follows_walk h []).unwatched_eq
  reached_all r hr := ((d.follows_walk h []).eq_of_ok hr).2
  reached_front front s rest f hwalk hpass hfails :=
    ((d.follows_walk h []).eq_of_first hwalk hpass hfails).2
  render_eq f herror σ options state := by
    rw [Datum.render]
    dsimp only
    rw [herror]

/-- A failure inside a key comes before the verdict on the key, and before its value. -/
example (h : Heap) :
    (Datum.map none [.key (.tuple [.failing "inner"]), .value (.failing "later")]).toValue h =
      .error (.custom "inner") :=
  rfl

end ObjectLiteral
