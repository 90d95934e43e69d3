import ObjectLiteral.Proofs.Rendering.Recording
/-!
Failing hooks.  A rendering stops at the first call that fails and with its failure; up to there
it has made the calls, and done to the world, what it would have done if the call had passed.
-/

namespace ObjectLiteral

variable {σ α β : Type}

namespace Rendering

def last (m : RenderM σ α) (run : Run σ) : Run σ :=
  match m run with
  | .ok _ run' => run'
  | .error _ run' => run'

theorem last_bind_of_ok {m : RenderM σ α} {g : α → RenderM σ β} {run run' : Run σ} {a : α}
    (hrun : m run = .ok a run') : last (m >>= g) run = last (g a) run' := by
  simp only [last, Bind.bind, EStateM.bind, hrun]

theorem last_bind_of_error {m : RenderM σ α} {g : α → RenderM σ β} {run run' : Run σ}
    {stop : Stop} (hrun : m run = .error stop run') : last (m >>= g) run = run' := by
  simp only [last, Bind.bind, EStateM.bind, hrun]

theorem last_within (c : Container) (m : RenderM σ α) (world : World σ) (active : List Container)
    (journal : List Event) :
    last (within c m) ⟨world, active, journal⟩ =
      ⟨(last m ⟨world, c :: active, journal⟩).world,
        (last m ⟨world, c :: active, journal⟩).active.tail,
        (last m ⟨world, c :: active, journal⟩).journal⟩ := by
  simp only [last, within]
  cases m ⟨world, c :: active, journal⟩ <;> rfl

/-- A step and the same step with the `k`-th call overruled.  The first one only adds to the record
of calls and to the journal.  The second one does the same as long as the call is not reached; when
it is, it stops with the call, and with the record up to it. -/
structure Forks (k : Nat) (f : Failure) (m m' : RenderM (Watched σ) α) : Prop where
  calls_grow : ∀ run, run.calls <+: (last m run).calls
  journal_grows : ∀ run, run.journal <:+ (last m run).journal
  forks : ∀ run, run.calls.length ≤ k →
    (m' run = m run ∧ (last m run).calls.length ≤ k) ∨
      ∃ call run', (last m run).calls[k]? = some call ∧ m' run = .error (.failed f) run' ∧
        run'.world = call.after.watched
          ((last m run).calls.take k ++ [{ call with failure? := some f }]) ∧
        run'.journal <:+ (last m run).journal

namespace Forks

variable {k : Nat} {f : Failure} {m m' : RenderM (Watched σ) α}

/-- Steps that call no hook do not fork. -/
theorem silent (hsame : ∀ run, m' run = m run) (hcalls : ∀ run, (last m run).calls = run.calls)
    (hjournal : ∀ run, run.journal <:+ (last m run).journal) : Forks k f m m' where
  calls_grow run := ⟨[], by rw [List.append_nil, hcalls]⟩
  journal_grows := hjournal
  forks run hlength := Or.inl ⟨hsame run, by rw [hcalls]; exact hlength⟩

theorem bind {g g' : α → RenderM (Watched σ) β} (hm : Forks k f m m')
    (hg : ∀ a, Forks k f (g a) (g' a)) : Forks k f (m >>= g) (m' >>= g') := by
  have hlater : ∀ run, (last m run).calls <+: (last (m >>= g) run).calls ∧
      (last m run).journal <:+ (last (m >>= g) run).journal := by
    intro run
    cases hrun : m run with
    | ok a run' =>
        have hlast : last m run = run' := by rw [last, hrun]
        rw [last_bind_of_ok hrun, hlast]
        exact ⟨(hg a).calls_grow run', (hg a).journal_grows run'⟩
    | error stop run' =>
        have hlast : last m run = run' := by rw [last, hrun]
        rw [last_bind_of_error hrun, hlast]
        exact ⟨List.prefix_rfl, List.suffix_rfl⟩
  constructor
  · exact fun run => (hm.calls_grow run).trans (hlater run).1
  · exact fun run => (hm.journal_grows run).trans (hlater run).2
  · intro run hlength
    rcases hm.forks run hlength with ⟨hsame, hshort⟩ | ⟨call, run', hcall, hstop, hworld, htold⟩
    · cases hrun : m run with
      | ok a run' =>
          have hlast : last m run = run' := by rw [last, hrun]
          rw [hlast] at hshort
          rw [last_bind_of_ok hrun]
          simp only [Bind.bind, EStateM.bind, hsame, hrun]
          exact (hg a).forks run' hshort
      | error stop run' =>
          have hlast : last m run = run' := by rw [last, hrun]
          rw [hlast] at hshort
          rw [last_bind_of_error hrun]
          refine Or.inl ⟨?_, hshort⟩
          simp only [Bind.bind, EStateM.bind, hsame, hrun]
    · obtain ⟨later, hlater'⟩ := (hlater run).1
      have hlt : k < (last m run).calls.length := (List.getElem?_eq_some_iff.mp hcall).1
      refine Or.inr ⟨call, run', ?_, ?_, ?_, htold.trans (hlater run).2⟩
      · rw [← hlater', List.getElem?_append_left hlt, hcall]
      · simp only [Bind.bind, EStateM.bind, hstop]
      · rw [hworld, ← hlater', List.take_append_of_le_length (Nat.le_of_lt hlt)]

theorem within (hm : Forks k f m m') (c : Container) :
    Forks k f (within c m) (within c m') := by
  constructor
  · rintro ⟨world, active, journal⟩
    rw [last_within]
    exact hm.calls_grow ⟨world, c :: active, journal⟩
  · rintro ⟨world, active, journal⟩
    rw [last_within]
    exact hm.journal_grows ⟨world, c :: active, journal⟩
  · rintro ⟨world, active, journal⟩ hlength
    rw [last_within]
    rcases hm.forks ⟨world, c :: active, journal⟩ hlength with
      ⟨hsame, hshort⟩ | ⟨call, run', hcall, hstop, hworld, htold⟩
    · refine Or.inl ⟨?_, hshort⟩
      simp only [Rendering.within, hsame]
    · refine Or.inr ⟨call, ⟨run'.world, run'.active.tail, run'.journal⟩, hcall, ?_, hworld, htold⟩
      simp only [Rendering.within, hstop]

theorem unlessActive {text text' : RenderM (Watched σ) String} (htext : Forks k f text text')
    (c : Container) : Forks k f (unlessActive c text) (unlessActive c text') := by
  have hcut : ∀ run : Run (Watched σ), c ∈ run.active → ∀ t : RenderM (Watched σ) String,
      last (Rendering.unlessActive c t) run =
        ⟨run.world, run.active, .cut run.active.length :: run.journal⟩ := by
    intro run hc t
    rw [last, unlessActive_of_mem run hc]
  have hwrite : ∀ run : Run (Watched σ), c ∉ run.active →
      last (Rendering.unlessActive c text) run = last text run := by
    intro run hc
    rw [last, unlessActive_of_not_mem run hc, last]
  constructor
  · intro run
    by_cases hc : c ∈ run.active
    · rw [hcut run hc]
      exact List.prefix_rfl
    · rw [hwrite run hc]
      exact htext.calls_grow run
  · intro run
    by_cases hc : c ∈ run.active
    · rw [hcut run hc]
      exact List.suffix_cons _ _
    · rw [hwrite run hc]
      exact htext.journal_grows run
  · intro run hlength
    by_cases hc : c ∈ run.active
    · rw [unlessActive_of_mem run hc, unlessActive_of_mem run hc, hcut run hc]
      exact Or.inl ⟨rfl, hlength⟩
    · rw [unlessActive_of_not_mem run hc, unlessActive_of_not_mem run hc, hwrite run hc]
      exact htext.forks run hlength

end Forks

/-- A watched call goes on record, and the one that is overruled stops after its effects. -/
theorem call_watched (event : World σ → Event) (hook : HookM σ α) (run : Run (Watched σ)) :
    ∃ c : Call σ,
      last (call (hook.watched allPass event)) run =
        ⟨c.after.watched (run.calls ++ [c]), run.active, run.journal⟩ ∧
      ∀ k f, call (hook.watched (failsAt k f) event) run =
        if run.calls.length = k then
          .error (.failed f) ⟨c.after.watched (run.calls ++ [{ c with failure? := some f }]),
            run.active, run.journal⟩
        else call (hook.watched allPass event) run := by
  obtain ⟨world, active, journal⟩ := run
  have hwatched : ∀ verdict, hook.watched verdict event world =
      HookM.noted world.state.calls (event world.unwatched) world.unwatched
        (verdict world.state.calls.length) (hook world.unwatched) := fun _ => rfl
  have hcalls : (Run.mk world active journal).calls = world.state.calls := rfl
  cases hhook : hook world.unwatched with
  | ok a after =>
      refine ⟨⟨event world.unwatched, world.unwatched, after, none⟩, ?_, fun k f => ?_⟩
      · simp only [last, call, hwatched, hhook, HookM.noted, allPass, hcalls]
      · by_cases hk : world.state.calls.length = k
        · simp only [call, hwatched, hhook, HookM.noted, failsAt, hk, hcalls, if_true]
        · simp only [call, hwatched, hhook, HookM.noted, failsAt, hk, hcalls, if_false, allPass]
  | error g after =>
      refine ⟨⟨event world.unwatched, world.unwatched, after, some g⟩, ?_, fun k f => ?_⟩
      · simp only [last, call, hwatched, hhook, HookM.noted, allPass, hcalls, Option.getD_none]
      · by_cases hk : world.state.calls.length = k
        · simp only [call, hwatched, hhook, HookM.noted, failsAt, hk, hcalls, if_true,
            Option.getD_some]
        · simp only [call, hwatched, hhook, HookM.noted, failsAt, hk, hcalls, if_false, allPass]

theorem forks_call (k : Nat) (f : Failure) (event : World σ → Event) (hook : HookM σ α) :
    Forks k f (call (hook.watched allPass event)) (call (hook.watched (failsAt k f) event)) := by
  constructor
  · intro run
    obtain ⟨c, hlast, -⟩ := call_watched event hook run
    rw [hlast]
    exact List.prefix_append _ _
  · intro run
    obtain ⟨c, hlast, -⟩ := call_watched event hook run
    exact ⟨[], (congrArg Run.journal hlast).symm⟩
  · intro run hlength
    obtain ⟨c, hlast, hverdict⟩ := call_watched event hook run
    have hcalls : (last (call (hook.watched allPass event)) run).calls = run.calls ++ [c] := by
      rw [hlast]
      rfl
    rw [hverdict k f, hcalls, hlast]
    by_cases hk : run.calls.length = k
    · rw [if_pos hk]
      refine Or.inr ⟨c, _, ?_, rfl, ?_, List.suffix_rfl⟩
      · rw [← hk, List.getElem?_concat_length]
      · rw [← hk, List.take_left]
    · rw [if_neg hk, List.length_append, List.length_singleton]
      exact Or.inl ⟨rfl, Nat.lt_of_le_of_ne hlength hk⟩

theorem lifts_forks (hooks : Hooks σ) (k : Nat) (f : Failure) :
    Lifts (hooks.watched allPass) (hooks.watched (failsAt k f))
      (fun {_} m m' => Forks k f m m') where
  pure _ := .silent (fun _ => rfl) (fun _ => rfl) fun _ => List.suffix_rfl
  bind := Forks.bind
  heap := .silent (fun _ => rfl) (fun _ => rfl) fun _ => List.suffix_rfl
  tell _ := .silent (fun _ => rfl) (fun _ => rfl) fun _ => List.suffix_cons _ _
  within c := fun hm => hm.within c
  unlessActive c := fun hm => hm.unlessActive c
  filter := by
    unfold Hooks.watched
    cases hooks.filter with
    | none => exact .none
    | some hook => exact .some fun o key => forks_call k f _ _
  transform := by
    unfold Hooks.watched
    cases hooks.transform with
    | none => exact .none
    | some hook => exact .some fun c p text => forks_call k f _ _

/-- A rendering with one call overruled goes its own way at that call and not before. -/
theorem forks_value (options : Options σ) (k : Nat) (f : Failure) (depth : Nat) (pad : String)
    (v : Value) :
    Forks k f (value (options.watched allPass) depth pad v)
      (value (options.watched (failsAt k f)) depth pad v) := by
  have hvalue := (lifts_forks options.hooks k f).value options.style 0
    (fun _ _ => .silent (fun _ => rfl) (fun _ => rfl) fun _ => List.suffix_rfl) depth pad v
  rwa [Nat.zero_add] at hvalue

end Rendering

theorem Outcome.world_ofEnd (m : RenderM σ String) (run : Run σ) :
    (ofEnd (m run)).world = (Rendering.last m run).world := by
  rw [Rendering.last]
  cases m run <;> rfl

theorem Outcome.events_ofEnd (m : RenderM σ String) (run : Run σ) :
    (ofEnd (m run)).events = (Rendering.last m run).journal.reverse := by
  rw [Rendering.last]
  cases m run <;> rfl

/-- To overrule a call stops the rendering there, with the record up to the call and the world that
the call has left. -/
theorem watchedRender_failsAt (options : Options σ) (pad : String) (v : Value) (w : World σ)
    {k : Nat} (f : Failure) {call : Call σ} (hcall : (calls options pad v w)[k]? = some call) :
    ∃ told, told <+: (render options pad v w).events ∧
      watchedRender (failsAt k f) options pad v w =
        ⟨.error (.failed f), call.after.watched
          ((calls options pad v w).take k ++ [{ call with failure? := some f }]), told⟩ := by
  have hpassed : watchedRender allPass options pad v w = .ofEnd (Rendering.value
      (options.watched allPass) (options.depth w.heap) pad v ⟨w.watched [], [], []⟩) :=
    render_eq_ofEnd ..
  have hevents : (render options pad v w).events = (Rendering.last (Rendering.value
      (options.watched allPass) (options.depth w.heap) pad v)
        ⟨w.watched [], [], []⟩).journal.reverse := by
    rw [← Outcome.events_ofEnd, ← hpassed, (watchedRender_allPass options pad v w).1]
  rw [calls, hpassed, Outcome.world_ofEnd] at hcall ⊢
  have hforks := Rendering.forks_value options k f (options.depth w.heap) pad v
  rcases hforks.forks ⟨w.watched [], [], []⟩ (Nat.zero_le k) with
    ⟨-, hshort⟩ | ⟨call', ⟨world, active, journal⟩, hcall', hstop, rfl, hjournal⟩
  · exact absurd (List.getElem?_eq_some_iff.mp hcall).1 (Nat.not_lt.mpr hshort)
  · obtain rfl := Option.some.inj (hcall.symm.trans hcall')
    refine ⟨journal.reverse, ?_, ?_⟩
    · rw [hevents]
      exact List.reverse_prefix.mpr hjournal
    · exact (render_eq_ofEnd ..).trans (congrArg Outcome.ofEnd hstop)

/-- A rendering stops at the first call that fails.  Overruling the `k`-th call stops it there with
the failure, after the effects of the call and with the calls up to it; and a rendering ends in a
failure exactly if one of its calls has failed with it, which is then the last one.  A rendering
that lacks depth has no failed call and is no failure; hooks that have announced what they add are
not stopped so. -/
theorem render_stops_at_failure (options : Options σ) (pad : String) (v : Value) (w : World σ) :
    watchedRender allPass options pad v w =
        ⟨(render options pad v w).result,
          (render options pad v w).world.watched (calls options pad v w),
          (render options pad v w).events⟩ ∧
      (∀ k f call, (calls options pad v w)[k]? = some call →
        ∃ told, told <+: (render options pad v w).events ∧
          watchedRender (failsAt k f) options pad v w =
            ⟨.error (.failed f), call.after.watched
              ((calls options pad v w).take k ++ [{ call with failure? := some f }]), told⟩) ∧
      (∀ f, (render options pad v w).result = .error (.failed f) ↔
        ∃ call ∈ calls options pad v w, call.failure? = some f) ∧
      ∀ earlier call later, calls options pad v w = earlier ++ call :: later →
        call.failure? ≠ none → later = [] := by
  obtain ⟨hwatched, haccount⟩ := watchedRender_allPass options pad v w
  refine ⟨hwatched, ?_, ?_, ?_⟩
  · exact fun k f call hcall => watchedRender_failsAt options pad v w f hcall
  · intro f
    rw [← haccount.failed_iff f, render_eq_ofEnd]
    cases Rendering.value options (options.depth w.heap) pad v ⟨w, [], []⟩ <;>
      simp [Outcome.ofEnd]
  · exact fun earlier call later => haccount.eq_nil_of_failed

namespace FailuresWitness

/-- A method, whose entry is its declaration whatever the transform makes of its text. -/
def method : Callable :=
  ⟨0, "k", .normal, some "[k]() \x7b\x7d"⟩

def object : Value :=
  .object ⟨0⟩

def heap : Heap :=
  ⟨#[], #[⟨[(.name "k", ⟨.atom (.callable method), true⟩)]⟩], 1⟩

def refusal : Failure :=
  .hook "no"

/-- A filter that makes an array, and a transform that takes the property out of the object and
then fails if the state says so. -/
def hooks : Hooks Bool where
  filter := some fun _ _ w => .ok true ⟨(w.heap.newArray #[]).2, w.state⟩
  transform := some fun _ _ text w =>
    let after := ⟨(w.heap.erase ⟨0⟩ (.name "k")).2, w.state⟩
    if w.state then .error refusal after else .ok text after

def options : Options Bool :=
  ⟨{ indent := " " }, hooks⟩

theorem render_stops_at_failure_method :
    (render options "" object ⟨heap, false⟩).result = .ok "\x7b\n [k]() \x7b\x7d\n\x7d" ∧
      (∃ call, (calls options "" object ⟨heap, false⟩)[1]? = some call ∧
        call.event = .transforming (.object ⟨0⟩) (.key (.name "k")) 1 "function [k]() \x7b\x7d" ∧
        (watchedRender (failsAt 1 refusal) options "" object ⟨heap, false⟩).result =
          .error (.failed refusal) ∧
        (watchedRender (failsAt 1 refusal) options "" object ⟨heap, false⟩).world =
          call.after.watched ((calls options "" object ⟨heap, false⟩).take 1 ++
            [{ call with failure? := some refusal }])) ∧
      (render options "" object ⟨heap, true⟩).result = .error (.failed refusal) ∧
      ∃ earlier call, calls options "" object ⟨heap, true⟩ = earlier ++ [call] ∧
        call.failure? = some refusal := by
  have hok : (render options "" object ⟨heap, false⟩).result =
      .ok "\x7b\n [k]() \x7b\x7d\n\x7d" :=
    Outcome.result_eq_ok (by decide +kernel)
  have hevent : (calls options "" object ⟨heap, false⟩)[1]?.map (·.event) =
      some (.transforming (.object ⟨0⟩) (.key (.name "k")) 1 "function [k]() \x7b\x7d") := by
    decide +kernel
  have hfailure : (calls options "" object ⟨heap, true⟩)[1]?.map (·.failure?) =
      some (some refusal) := by
    decide +kernel
  refine ⟨hok, ?_, ?_⟩
  · obtain ⟨call, hcall, hevent⟩ := Option.map_eq_some_iff.mp hevent
    obtain ⟨-, hforks, -⟩ := render_stops_at_failure options "" object ⟨heap, false⟩
    obtain ⟨told, -, hstop⟩ := hforks 1 refusal call hcall
    refine ⟨call, hcall, hevent, ?_, ?_⟩
    · rw [hstop]
    · rw [hstop]
  · obtain ⟨call, hcall, hrefused⟩ := Option.map_eq_some_iff.mp hfailure
    obtain ⟨-, -, hresult, hlast⟩ := render_stops_at_failure options "" object ⟨heap, true⟩
    refine ⟨(hresult refusal).mpr ⟨call, List.mem_of_getElem? hcall, hrefused⟩, ?_⟩
    obtain ⟨earlier, later, hcalls⟩ := List.append_of_mem (List.mem_of_getElem? hcall)
    obtain rfl := hlast earlier call later hcalls (by rw [hrefused]; exact Option.some_ne_none _)
    exact ⟨earlier, call, hcalls, hrefused⟩

end FailuresWitness

end ObjectLiteral
