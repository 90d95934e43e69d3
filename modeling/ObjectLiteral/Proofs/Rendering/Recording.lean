import ObjectLiteral.Proofs.Hooks.Watching
import ObjectLiteral.Proofs.Rendering.Lifting
/-!
Records of calls.  A rendering under watch ends as it does without, and the calls that are on record
then account for its end: the last one failed with the failure that the rendering ended in, or none
failed.
-/

namespace ObjectLiteral

variable {σ α β : Type}

def Run.watched (run : Run σ) (calls : List (Call σ)) : Run (Watched σ) :=
  ⟨run.world.watched calls, run.active, run.journal⟩

def Run.calls (run : Run (Watched σ)) : List (Call σ) :=
  run.world.state.calls

namespace Rendering

def watchedEnd (calls : List (Call σ)) :
    EStateM.Result Stop (Run σ) α → EStateM.Result Stop (Run (Watched σ)) α
  | .ok a run => .ok a (run.watched calls)
  | .error stop run => .error stop (run.watched calls)

/-- The calls of a step account for its end: the last one failed with the failure that the step
ended in, or none failed. -/
def AccountFor (calls : List (Call σ)) : EStateM.Result Stop (Run σ) α → Prop
  | .error (.failed f) _ =>
    ∃ earlier call, calls = earlier ++ [call] ∧ call.failure? = some f ∧
      ∀ c ∈ earlier, c.failure? = none
  | _ => ∀ c ∈ calls, c.failure? = none

/-- A step and the same step under watch: they end alike, and the calls that the second one adds to
the record account for it. -/
def Records (m : RenderM σ α) (m' : RenderM (Watched σ) α) : Prop :=
  ∀ run calls, ∃ new, m' (run.watched calls) = watchedEnd (calls ++ new) (m run) ∧
    AccountFor new (m run)

theorem AccountFor.append {passed calls : List (Call σ)}
    {result : EStateM.Result Stop (Run σ) α} (hpassed : ∀ c ∈ passed, c.failure? = none)
    (hcalls : AccountFor calls result) : AccountFor (passed ++ calls) result := by
  unfold AccountFor at hcalls ⊢
  split
  · obtain ⟨earlier, call, rfl, hfailure, hearlier⟩ := hcalls
    exact ⟨passed ++ earlier, call, (List.append_assoc ..).symm, hfailure,
      List.forall_mem_append.mpr ⟨hpassed, hearlier⟩⟩
  · rename_i hother
    split at hcalls
    · exact absurd rfl (hother _ _)
    · exact List.forall_mem_append.mpr ⟨hpassed, hcalls⟩

theorem Records.silent {m : RenderM σ α} {m' : RenderM (Watched σ) α}
    (hsame : ∀ run calls, m' (run.watched calls) = watchedEnd calls (m run))
    (hcalm : ∀ run, AccountFor [] (m run)) : Records m m' := by
  intro run calls
  refine ⟨[], ?_, hcalm run⟩
  rw [List.append_nil]
  exact hsame run calls

theorem Records.bind {m : RenderM σ α} {m' : RenderM (Watched σ) α} {f : α → RenderM σ β}
    {f' : α → RenderM (Watched σ) β} (hm : Records m m') (hf : ∀ a, Records (f a) (f' a)) :
    Records (m >>= f) (m' >>= f') := by
  intro run calls
  obtain ⟨new, hstep, haccount⟩ := hm run calls
  simp only [Bind.bind, EStateM.bind, hstep]
  cases hrun : m run with
  | ok a run' =>
      rw [hrun] at haccount
      obtain ⟨new', hrest, haccount'⟩ := hf a run' (calls ++ new)
      refine ⟨new ++ new', ?_, haccount'.append haccount⟩
      rw [← List.append_assoc]
      exact hrest
  | error stop run' =>
      rw [hrun] at haccount
      exact ⟨new, rfl, by cases stop <;> exact haccount⟩

theorem Records.within {m : RenderM σ α} {m' : RenderM (Watched σ) α} (hm : Records m m')
    (c : Container) : Records (within c m) (within c m') := by
  rintro ⟨world, active, journal⟩ calls
  obtain ⟨new, hstep, haccount⟩ := hm ⟨world, c :: active, journal⟩ calls
  have hstep' : m' ⟨world.watched calls, c :: active, journal⟩ = _ := hstep
  refine ⟨new, ?_⟩
  simp only [Rendering.within, Run.watched, hstep']
  cases hrun : m ⟨world, c :: active, journal⟩ with
  | ok a run =>
      rw [hrun] at haccount
      exact ⟨rfl, haccount⟩
  | error stop run =>
      rw [hrun] at haccount
      exact ⟨rfl, by cases stop <;> exact haccount⟩

theorem Records.unlessActive {m : RenderM σ String} {m' : RenderM (Watched σ) String}
    (hm : Records m m') (c : Container) : Records (unlessActive c m) (unlessActive c m') := by
  intro run calls
  by_cases hc : c ∈ run.active
  · rw [unlessActive_of_mem run hc, unlessActive_of_mem (run.watched calls) hc]
    exact ⟨[], by rw [List.append_nil]; rfl, List.forall_mem_nil _⟩
  · rw [unlessActive_of_not_mem run hc, unlessActive_of_not_mem (run.watched calls) hc]
    exact hm run calls

theorem records_call (event : World σ → Event) (hook : HookM σ α) :
    Records (call hook) (call (hook.watched allPass event)) := by
  rintro ⟨world, active, journal⟩ calls
  have hwatched : hook.watched allPass event (world.watched calls) =
      HookM.noted calls (event world) world none (hook world) := rfl
  simp only [call, Run.watched, hwatched]
  cases hcall : hook world with
  | ok a world' =>
      exact ⟨[⟨event world, world, world', none⟩], rfl, List.forall_mem_singleton.mpr rfl⟩
  | error f world' =>
      exact ⟨[⟨event world, world, world', some f⟩], rfl, [], _, rfl, rfl, List.forall_mem_nil _⟩

theorem lifts_records (hooks : Hooks σ) :
    Lifts hooks (hooks.watched allPass) (fun {_} m m' => Records m m') where
  pure _ := .silent (fun _ _ => rfl) fun _ => List.forall_mem_nil _
  bind := Records.bind
  heap := .silent (fun _ _ => rfl) fun _ => List.forall_mem_nil _
  tell _ := .silent (fun _ _ => rfl) fun _ => List.forall_mem_nil _
  within c := fun hm => hm.within c
  unlessActive c := fun hm => hm.unlessActive c
  filter := by
    unfold Hooks.watched
    cases hooks.filter with
    | none => exact .none
    | some f => exact .some fun o k => records_call _ _
  transform := by
    unfold Hooks.watched
    cases hooks.transform with
    | none => exact .none
    | some f => exact .some fun c p text => records_call _ _

/-- A rendering under watch ends as it does without. -/
theorem records_value (options : Options σ) (depth : Nat) (pad : String) (v : Value) :
    Records (value options depth pad v) (value (options.watched allPass) depth pad v) := by
  have hvalue := (lifts_records options.hooks).value options.style 0
    (fun _ _ => .silent (fun _ _ => rfl) fun _ => List.forall_mem_nil _) depth pad v
  rwa [Nat.zero_add] at hvalue

theorem AccountFor.eq_nil_of_failed {calls earlier later : List (Call σ)} {call : Call σ}
    {result : EStateM.Result Stop (Run σ) α} (haccount : AccountFor calls result)
    (hcalls : calls = earlier ++ call :: later) (hfailed : call.failure? ≠ none) :
    later = [] := by
  unfold AccountFor at haccount
  split at haccount
  · obtain ⟨passed, last, rfl, -, hpassed⟩ := haccount
    rcases List.eq_nil_or_concat later with hlater | ⟨middle, d, rfl⟩
    · exact hlater
    · rw [List.concat_eq_append, ← List.cons_append, ← List.append_assoc] at hcalls
      obtain ⟨rfl, -⟩ := List.append_inj' hcalls rfl
      exact absurd (hpassed call (by simp)) hfailed
  · rw [hcalls] at haccount
    exact absurd (haccount call (by simp)) hfailed

theorem AccountFor.failed_iff {calls : List (Call σ)} {result : EStateM.Result Stop (Run σ) α}
    (haccount : AccountFor calls result) (f : Failure) :
    (∃ run, result = .error (.failed f) run) ↔ ∃ call ∈ calls, call.failure? = some f := by
  constructor
  · rintro ⟨run, rfl⟩
    obtain ⟨earlier, call, rfl, hfailure, -⟩ := haccount
    exact ⟨call, by simp, hfailure⟩
  · rintro ⟨call, hcall, hfailure⟩
    unfold AccountFor at haccount
    split at haccount
    · rename_i g run
      obtain ⟨earlier, last, rfl, hlast, hearlier⟩ := haccount
      rcases List.mem_append.mp hcall with hmem | hmem
      · rw [hearlier call hmem] at hfailure
        cases hfailure
      · rw [List.mem_singleton.mp hmem, hlast] at hfailure
        cases hfailure
        exact ⟨run, rfl⟩
    · rw [haccount call hcall] at hfailure
      cases hfailure

end Rendering

def Outcome.ofEnd : EStateM.Result Stop (Run σ) String → Outcome σ
  | .ok text run => ⟨.ok text, run.world, run.journal.reverse⟩
  | .error stop run => ⟨.error stop, run.world, run.journal.reverse⟩

theorem render_eq_ofEnd (options : Options σ) (pad : String) (v : Value) (w : World σ) :
    render options pad v w =
      .ofEnd (Rendering.value options (options.depth w.heap) pad v ⟨w, [], []⟩) := by
  rw [render]
  generalize Rendering.value options (options.depth w.heap) pad v ⟨w, [], []⟩ = result
  cases result <;> rfl

theorem Outcome.ofEnd_watchedEnd (calls : List (Call σ))
    (result : EStateM.Result Stop (Run σ) String) :
    ofEnd (Rendering.watchedEnd calls result) =
      ⟨(ofEnd result).result, (ofEnd result).world.watched calls, (ofEnd result).events⟩ := by
  cases result <;> rfl

/-- To be watched changes nothing, and the calls on record account for the end. -/
theorem watchedRender_allPass (options : Options σ) (pad : String) (v : Value) (w : World σ) :
    watchedRender allPass options pad v w =
        ⟨(render options pad v w).result,
          (render options pad v w).world.watched (calls options pad v w),
          (render options pad v w).events⟩ ∧
      Rendering.AccountFor (calls options pad v w)
        (Rendering.value options (options.depth w.heap) pad v ⟨w, [], []⟩) := by
  obtain ⟨new, hend, haccount⟩ :=
    Rendering.records_value options (options.depth w.heap) pad v ⟨w, [], []⟩ []
  have hrender : watchedRender allPass options pad v w =
      ⟨(render options pad v w).result, (render options pad v w).world.watched new,
        (render options pad v w).events⟩ := by
    rw [watchedRender, render_eq_ofEnd, render_eq_ofEnd, ← Outcome.ofEnd_watchedEnd]
    exact congrArg Outcome.ofEnd hend
  have hcalls : calls options pad v w = new := by
    rw [calls, hrender]
    rfl
  rw [hcalls]
  exact ⟨hrender, haccount⟩

/-- A rendering that fails does so at its last call. -/
theorem exists_last_call {options : Options σ} {pad : String} {v : Value} {w : World σ} {f : Failure}
    (hfailed : (render options pad v w).result = .error (.failed f)) :
    ∃ earlier call, calls options pad v w = earlier ++ [call] ∧ call.failure? = some f ∧
      ∀ c ∈ earlier, c.failure? = none := by
  obtain ⟨-, haccount⟩ := watchedRender_allPass options pad v w
  rw [render_eq_ofEnd] at hfailed
  cases hend : Rendering.value options (options.depth w.heap) pad v ⟨w, [], []⟩ with
  | ok text run =>
      rw [hend] at hfailed
      cases hfailed
  | error stop run =>
      rw [hend] at hfailed haccount
      cases hfailed
      exact haccount

end ObjectLiteral
