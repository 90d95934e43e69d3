import ObjectLiteral.Proofs.Rendering.Failures
import ObjectLiteral.Proofs.Rendering.Parallel
import ObjectLiteral.Proofs.Rendering.Tracing
/-!
The path of active containers.  At every call of a rendering the containers that are recorded as
active are those of the calls under way, each once, and every call leaves the record as it found it,
whether it ends with a text or with a stop and whatever hooks do to the heap meanwhile.
-/

namespace ObjectLiteral

variable {σ τ α : Type}

namespace Rendering

/-- A step leaves the record of active containers as it found it, however it ends. -/
def Restores (m : RenderM σ α) : Prop :=
  ∀ run, (last m run).active = run.active

theorem Restores.bind {β : Type} {m : RenderM σ α} {f : α → RenderM σ β} (hm : Restores m)
    (hf : ∀ a, Restores (f a)) : Restores (m >>= f) := by
  intro run
  have hfirst := hm run
  cases hrun : m run with
  | ok a run' =>
      rw [last, hrun] at hfirst
      rw [last_bind_of_ok hrun, hf a run', hfirst]
  | error stop run' =>
      rw [last, hrun] at hfirst
      rw [last_bind_of_error hrun, hfirst]

theorem Restores.within {m : RenderM σ α} (hm : Restores m) (c : Container) :
    Restores (within c m) := by
  rintro ⟨world, active, journal⟩
  rw [last_within]
  exact congrArg List.tail (hm ⟨world, c :: active, journal⟩)

theorem Restores.unlessActive {text : RenderM σ String} (htext : Restores text) (c : Container) :
    Restores (unlessActive c text) := by
  intro run
  by_cases hc : c ∈ run.active
  · rw [last, unlessActive_of_mem run hc]
  · rw [last, unlessActive_of_not_mem run hc]
    exact htext run

theorem restores_call (hook : HookM σ α) : Restores (call hook) := by
  rintro ⟨world, active, journal⟩
  rw [last, call]
  cases hook world <;> rfl

theorem lifts_restores (hooks : Hooks σ) : Lifts hooks hooks (fun {_} m _ => Restores m) where
  pure _ _ := rfl
  bind := Restores.bind
  heap _ := rfl
  tell _ _ := rfl
  within c := fun hm => hm.within c
  unlessActive c := fun hm => hm.unlessActive c
  filter := rel_self (fun f o k => restores_call (f o k)) hooks.filter
  transform := rel_self (fun f c p text => restores_call (f c p text)) hooks.transform

/-- Every call leaves the record as it found it. -/
theorem restores_value (options : Options σ) (depth : Nat) (pad : String) (v : Value) :
    Restores (value options depth pad v) :=
  (lifts_restores options.hooks).value options.style 0 (fun _ _ _ => rfl) depth pad v

end Rendering

/-- The turns of calls that were made one after the other while the containers of `path` were
active.  A call for a container that is not on the path may make calls of its own, and those are
made while the container is active too. -/
inductive Complete : List Container → List Turn → Prop
  | nil {path : List Container} : Complete path []
  | plain {path : List Container} {rest : List Turn} (v : Value) (result : Except Stop String)
      (hrest : Complete path rest) : Complete path (.begins v path :: .ends result path :: rest)
  | nested {path : List Container} {v : Value} {c : Container} {inner rest : List Turn}
      (hv : v.container? = some c) (hc : c ∉ path) (hinner : Complete (c :: path) inner)
      (result : Except Stop String) (hrest : Complete path rest) :
      Complete path (.begins v path :: (inner ++ .ends result path :: rest))

/-- What a turn says of the record, when it comes while `calls` are under way and is followed by
`later`.  Where a call begins, the record is that of their containers, without repetition, and a
call for one of these ends at once.  Where a call ends, the record is the one it began with. -/
def Turn.Fits (calls : List (Value × List Container)) (later : List Turn) : Turn → Prop
  | begins v active => active = containersOf calls ∧ active.Nodup ∧
    ∀ c, v.container? = some c → c ∈ active → ∃ result rest, later = ends result active :: rest
  | ends _ active => ∃ v rest, calls = (v, active) :: rest

/-- Every turn fits, from where `calls` are under way. -/
def AllFit (calls : List (Value × List Container)) : List Turn → Prop
  | [] => True
  | t :: later => t.Fits calls later ∧ AllFit (t.apply calls) later

theorem AllFit.fits {calls : List (Value × List Container)} {before : List Turn} {t : Turn}
    {later : List Turn} (hfit : AllFit calls (before ++ t :: later)) :
    t.Fits (before.foldl Turn.apply calls) later := by
  induction before generalizing calls with
  | nil => exact hfit.1
  | cons first before ih => exact ih hfit.2

theorem Turn.Fits.append {calls : List (Value × List Container)} {later : List Turn} {t : Turn}
    (hfits : t.Fits calls later) (more : List Turn) : t.Fits calls (later ++ more) := by
  cases t with
  | begins v active =>
      obtain ⟨hactive, hnodup, hcut⟩ := hfits
      refine ⟨hactive, hnodup, fun c hv hc => ?_⟩
      obtain ⟨result, rest, rfl⟩ := hcut c hv hc
      exact ⟨result, rest ++ more, rfl⟩
  | ends result active => exact hfits

theorem AllFit.append {calls : List (Value × List Container)} {turns more : List Turn}
    (hturns : AllFit calls turns) (hmore : AllFit (turns.foldl Turn.apply calls) more) :
    AllFit calls (turns ++ more) := by
  induction turns generalizing calls with
  | nil => exact hmore
  | cons t later ih => exact ⟨hturns.1.append more, ih hturns.2 hmore⟩

namespace Complete

variable {path : List Container} {turns : List Turn}

theorem append {more : List Turn} (hturns : Complete path turns) (hmore : Complete path more) :
    Complete path (turns ++ more) := by
  induction hturns with
  | nil => exact hmore
  | plain v result _ ih => exact .plain v result (ih hmore)
  | nested hv hc hinner result _ _ ih =>
      rw [List.cons_append, List.append_assoc]
      exact .nested hv hc hinner result (ih hmore)

/-- Calls that are complete have come and gone. -/
theorem foldl_apply (hturns : Complete path turns) (calls : List (Value × List Container)) :
    turns.foldl Turn.apply calls = calls := by
  induction hturns generalizing calls with
  | nil => rfl
  | plain v result _ ih => exact ih calls
  | @nested path v c inner rest hv hc hinner result _ hinner_ih ih =>
      rw [List.foldl_cons, List.foldl_append, hinner_ih, List.foldl_cons]
      exact ih calls

/-- Where the calls under way are for the containers of the path, all turns fit. -/
theorem allFit (hturns : Complete path turns) {calls : List (Value × List Container)}
    (hcalls : containersOf calls = path) (hpath : path.Nodup) : AllFit calls turns := by
  induction hturns generalizing calls with
  | nil => trivial
  | @plain path rest v result _ ih =>
      refine ⟨⟨hcalls.symm, hpath, fun c _ _ => ⟨result, rest, rfl⟩⟩, ⟨v, calls, rfl⟩, ?_⟩
      exact ih hcalls hpath
  | @nested path v c inner rest hv hc hinner result _ hinner_ih ih =>
      have hbelow : containersOf ((v, path) :: calls) = c :: path := by
        rw [containersOf, List.filterMap_cons, hv, ← hcalls]
        rfl
      refine ⟨⟨hcalls.symm, hpath, fun d hd hmem => ?_⟩, ?_⟩
      · cases hv.symm.trans hd
        exact absurd hmem hc
      · refine (hinner_ih hbelow (List.nodup_cons.mpr ⟨hc, hpath⟩)).append ?_
        rw [hinner.foldl_apply]
        exact ⟨⟨v, calls, rfl⟩, ih hcalls hpath⟩

end Complete

/-- The worlds of a rendering and of the same rendering on a trace, which has `earlier` turns and
after them turns of the shape `shape`. -/
def Likeness.tracing (earlier : List Turn) (shape : List Turn → Prop) : Likeness σ (Traced σ) where
  going w w' := ∃ new, shape new ∧ w' = w.traced (earlier ++ new)
  stopped w w' := ∃ new, shape new ∧ w' = w.traced (earlier ++ new)
  heard _ := true
  heap_eq := by
    rintro w _ ⟨new, -, rfl⟩
    rfl
  stop halike := halike

namespace Rendering

variable {options : Options σ} {earlier : List Turn} {shape : List Turn → Prop}
  {path : List Container}

/-- A hook does the same whether it is on a trace or not. -/
theorem callsEnd_traced (hook : HookM σ α) {w : World σ} {w' : World (Traced σ)}
    (hw : (Likeness.tracing earlier shape).going w w') :
    CallsEnd (Likeness.tracing earlier shape).going (Likeness.tracing earlier shape).stopped Eq
      (hook w) (hook.traced w') := by
  obtain ⟨new, hnew, rfl⟩ := hw
  change CallsEnd _ _ Eq (hook w) (HookM.beside (earlier ++ new) (hook w))
  cases hook w with
  | ok a u => exact .ok rfl ⟨new, hnew, rfl⟩
  | error f u => exact .error ⟨new, hnew, rfl⟩

theorem parallel_shown_traced (hooks : Hooks σ) (o : ObjectRef) (k : Key) :
    Parallel (.tracing earlier shape) path (shown hooks o k) (shown hooks.traced o k) Eq := by
  unfold shown Hooks.traced
  cases hooks.filter with
  | none => exact .pure rfl
  | some f =>
      exact parallel_asked (fun h => .filtering o k (h.count (.object o))) fun w w' hw =>
        callsEnd_traced (f o k) hw

theorem parallel_transformed_traced (hooks : Hooks σ) (c : Container) (p : Position)
    (text : String) :
    Parallel (.tracing earlier shape) path (transformed hooks c p text)
      (transformed hooks.traced c p text) Eq := by
  unfold transformed Hooks.traced
  cases hooks.transform with
  | none => exact .pure rfl
  | some f =>
      exact parallel_asked (fun h => .transforming c p (h.count c) text) fun w w' hw =>
        callsEnd_traced (f c p text) hw

/-- Below a container that is not on the path a level is written on the trace as it is without. -/
theorem parallel_level {child : String → Value → RenderM σ String}
    {child' : String → Value → RenderM (Traced σ) String} {v : Value} {c : Container}
    (hv : v.container? = some c)
    (hchild : ∀ pad u,
      Parallel (.tracing earlier shape) (c :: path) (child pad u) (child' pad u) Eq)
    (pad : String) :
    Parallel (.tracing earlier shape) path (level options child pad v)
      (level options.traced child' pad v) Eq := by
  cases v with
  | atom a => cases hv
  | array r =>
      cases hv
      refine parallel_unlessActive (fun _ => rfl) fun _ => parallel_heap_bind fun w _ _ => ?_
      split
      · exact .pure rfl
      · have helements := parallel_elements (r := r)
          (fun i text => parallel_transformed_traced options.hooks _ (.index i) text)
          (hchild (pad ++ options.style.unit)) 0
        refine (helements _).within.bind fun entries _ hentries => ?_
        rw [← hentries]
        exact parallel_laid options.style pad _
  | object o =>
      cases hv
      refine parallel_unlessActive (fun _ => rfl) fun _ => parallel_heap_bind fun w _ _ => ?_
      refine (parallel_shownKeys (parallel_shown_traced options.hooks o) _).bind
        fun kept _ hkept => ?_
      subst hkept
      split
      · exact .pure rfl
      · refine parallel_heap_bind fun w' _ _ => ?_
        refine (parallel_fields _ (fun f _ text => ?_)
          (hchild (pad ++ options.style.unit))).within.bind fun entries _ hentries => ?_
        · refine (parallel_transformed_traced options.hooks _ (.key f.1) text).imp ?_
          rintro given _ rfl
          rfl
        · rw [← hentries]
          exact parallel_laid options.style pad _

/-- The turns of one call: what is inside it between its begin and its end. -/
def IsCall (v : Value) (path : List Container) (shape : List Turn → Prop)
    (result : Except Stop String) (turns : List Turn) : Prop :=
  ∃ inner, shape inner ∧ turns = .begins v path :: (inner ++ [.ends result path])

/-- A call on the trace ends as it does off the trace, and adds its own turns to those inside it. -/
theorem endsBeside_onTrace (v : Value) {text : RenderM σ String}
    {text' : RenderM (Traced σ) String} (hrestores : Restores text) (hnil : shape [])
    (htext : ∀ earlier, Parallel (.tracing earlier shape) path text text' Eq)
    {run : Run σ} {run' : Run (Traced σ)} (hpath : run.active = path)
    (hrun : run.Beside (fun _ => true) (fun w w' => w' = w.traced earlier) run') :
    EndsBeside (.tracing earlier (IsCall v path shape (Outcome.ofEnd (text run)).result)) path Eq
      (text run) (onTrace v text' run') := by
  obtain ⟨world', active', journal'⟩ := run'
  obtain ⟨hworld, hactive, hjournal⟩ := hrun
  obtain rfl : world' = run.world.traced earlier := hworld
  obtain rfl : active' = path := hactive.trans hpath
  have hbegin : Run.turn ⟨run.world.traced earlier, active', journal'⟩ (.begins v active') =
      ⟨run.world.traced (earlier ++ [.begins v active']), active', journal'⟩ := rfl
  have hends := htext (earlier ++ [.begins v active']) run
    ⟨run.world.traced (earlier ++ [.begins v active']), active', journal'⟩ hpath
    ⟨⟨[], hnil, by rw [List.append_nil]⟩, hactive, hjournal⟩
  have hrestored := hrestores run
  rw [last] at hrestored
  rw [onTrace, hbegin]
  generalize text run = ended at hends hrestored ⊢
  generalize text' ⟨run.world.traced (earlier ++ [.begins v active']), active', journal'⟩ =
    ended' at hends ⊢
  -- whatever the end is, its turn goes behind the begin of the call and the turns inside
  have hturns : ∀ (w : World σ) (after : Run (Traced σ)) (result : Except Stop String),
      (Likeness.tracing (earlier ++ [.begins v active']) shape).going w after.world →
      after.active = active' → ∃ turns, IsCall v active' shape result turns ∧
        (after.turn (.ends result after.active)).world = w.traced (earlier ++ turns) := by
    rintro w ⟨world, active, journal⟩ result ⟨inner, hinner, hworld⟩ hactive
    obtain rfl : world = _ := hworld
    obtain rfl : active = active' := hactive
    refine ⟨_, ⟨inner, hinner, rfl⟩, ?_⟩
    simp [Run.turn, World.traced]
  cases hends with
  | @ok a a' after after' hpost hafter hrun =>
      obtain rfl := hpost
      have hactive' := hrun.active.trans hafter
      exact .ok rfl hafter ⟨hturns _ after' _ hrun.world hactive', hrun.active, hrun.journal⟩
  | @error stop after after' hrun =>
      have hactive' := hrun.active.trans (hrestored.trans hpath)
      exact .error ⟨hturns _ after' _ hrun.world hactive', hrun.active, hrun.journal⟩

/-- Calls go on the trace one after the other. -/
theorem parallel_onTrace {v : Value} {text : RenderM σ String} {text' : RenderM (Traced σ) String}
    (hrestores : Restores text) (hnil : shape [])
    (hcall : ∀ result turns, IsCall v path shape result turns → Complete path turns)
    (htext : ∀ earlier, Parallel (.tracing earlier shape) path text text' Eq) :
    Parallel (.tracing earlier (Complete path)) path text (onTrace v text') Eq := by
  rintro run run' hpath ⟨⟨new, hnew, hworld⟩, hactive, hjournal⟩
  have hends := endsBeside_onTrace v hrestores hnil htext hpath ⟨hworld, hactive, hjournal⟩
  have hjoined : ∀ {w : World σ} {w' : World (Traced σ)},
      (Likeness.tracing (earlier ++ new)
        (IsCall v path shape (Outcome.ofEnd (text run)).result)).going w w' →
      (Likeness.tracing earlier (Complete path)).going w w' := by
    rintro w _ ⟨turns, hturns, rfl⟩
    exact ⟨new ++ turns, hnew.append (hcall _ turns hturns), by rw [List.append_assoc]⟩
  generalize (Outcome.ofEnd (text run)).result = result at hends hjoined
  generalize text run = ended at hends ⊢
  generalize onTrace v text' run' = ended' at hends ⊢
  cases hends with
  | ok hpost hafter hrun => exact .ok hpost hafter (hrun.imp hjoined)
  | error hrun => exact .error (hrun.imp hjoined)

/-- A level that is written without calls of its own. -/
theorem parallel_level_still {child : String → Value → RenderM σ String}
    {child' : String → Value → RenderM (Traced σ) String} {v : Value}
    (hv : ∀ c, v.container? = some c → c ∈ path) (pad : String) :
    Parallel (.tracing earlier (· = [])) path (level options child pad v)
      (level options.traced child' pad v) Eq := by
  cases v with
  | atom a => exact .pure rfl
  | array r => exact parallel_unlessActive (fun _ => rfl) fun hr => absurd (hv _ rfl) hr
  | object o => exact parallel_unlessActive (fun _ => rfl) fun ho => absurd (hv _ rfl) ho

/-- A call without calls inside is complete. -/
theorem IsCall.complete_of_nil {v : Value} {result : Except Stop String} {turns : List Turn}
    (hturns : IsCall v path (· = []) result turns) : Complete path turns := by
  obtain ⟨inner, rfl, rfl⟩ := hturns
  exact .plain v result .nil

theorem IsCall.complete {v : Value} {c : Container} {result : Except Stop String}
    {turns : List Turn} (hv : v.container? = some c) (hc : c ∉ path)
    (hturns : IsCall v path (Complete (c :: path)) result turns) : Complete path turns := by
  obtain ⟨inner, hinner, rfl⟩ := hturns
  exact .nested hv hc hinner result .nil

/-- A rendering of a value is a call whose inside, on the trace, goes as it does off the trace, and
is such that the call is complete. -/
theorem exists_shape (options : Options σ) (depth : Nat) (path : List Container) (pad : String)
    (v : Value) : ∃ (shape : List Turn → Prop) (text' : RenderM (Traced σ) String),
      tracedValue options depth pad v = onTrace v text' ∧ shape [] ∧
        (∀ result turns, IsCall v path shape result turns → Complete path turns) ∧
        ∀ earlier, Parallel (.tracing earlier shape) path (value options depth pad v) text' Eq := by
  induction depth generalizing path pad v with
  | zero =>
      exact ⟨(· = []), _, rfl, rfl, fun _ _ => IsCall.complete_of_nil,
        fun _ => parallel_throw .tooDeep⟩
  | succ depth ih =>
      have hchild : ∀ earlier path pad u, Parallel (.tracing earlier (Complete path)) path
          (value options depth pad u) (tracedValue options depth pad u) Eq := by
        intro earlier path pad u
        obtain ⟨shape, text', htraced, hnil, hcall, htext⟩ := ih path pad u
        rw [htraced]
        exact parallel_onTrace (restores_value options depth pad u) hnil hcall htext
      rw [value_succ]
      by_cases hcut : ∀ c, v.container? = some c → c ∈ path
      · exact ⟨(· = []), _, rfl, rfl, fun _ _ => IsCall.complete_of_nil,
          fun _ => parallel_level_still hcut pad⟩
      · obtain ⟨c, hc⟩ := Classical.not_forall.mp hcut
        obtain ⟨hv, hc⟩ := Classical.not_imp.mp hc
        exact ⟨Complete (c :: path), _, rfl, .nil, fun _ _ => IsCall.complete hv hc,
          fun earlier => parallel_level hv (fun _ _ => hchild earlier _ _ _) pad⟩

end Rendering

/-- Runs that stand side by side have one journal if all events are heard. -/
theorem Run.Beside.journal_eq {worlds : World σ → World τ → Prop} {run : Run σ} {run' : Run τ}
    (hrun : run.Beside (fun _ => true) worlds run') : run'.journal = run.journal := by
  have hall : ∀ events : List Event, events.filter (fun _ => true) = events := fun events =>
    List.filter_eq_self.mpr fun _ _ => rfl
  exact (hall _).symm.trans (hrun.journal.trans (hall _))

/-- What is left of an end on the trace is what is left of the end without, and the turns. -/
theorem Outcome.ofEnd_tracing {path : List Container} {shape : List Turn → Prop}
    {ended : EStateM.Result Stop (Run σ) String}
    {ended' : EStateM.Result Stop (Run (Traced σ)) String}
    (hends : Rendering.EndsBeside (.tracing [] shape) path Eq ended ended') :
    ∃ new, shape new ∧ ofEnd ended' =
      ⟨(ofEnd ended).result, (ofEnd ended).world.traced new, (ofEnd ended).events⟩ := by
  cases hends with
  | ok hpost _ hrun =>
      obtain ⟨new, hnew, hworld⟩ := hrun.world
      rw [List.nil_append] at hworld
      exact ⟨new, hnew, by rw [ofEnd, ofEnd, ← hpost, hworld, hrun.journal_eq]⟩
  | error hrun =>
      obtain ⟨new, hnew, hworld⟩ := hrun.world
      rw [List.nil_append] at hworld
      exact ⟨new, hnew, by rw [ofEnd, ofEnd, hworld, hrun.journal_eq]⟩

/-- On the trace a rendering ends as it does without, and the trace is that of one complete call. -/
theorem tracedRender_eq (options : Options σ) (pad : String) (v : Value) (w : World σ) :
    tracedRender options pad v w =
        ⟨(render options pad v w).result,
          (render options pad v w).world.traced (turns options pad v w),
          (render options pad v w).events⟩ ∧
      Complete [] (turns options pad v w) ∧
      ∃ inner, turns options pad v w =
        .begins v [] :: (inner ++ [.ends (render options pad v w).result []]) := by
  obtain ⟨shape, text', htraced, hnil, hcall, htext⟩ :=
    Rendering.exists_shape options (options.depth w.heap) [] pad v
  have hbeside : Run.Beside (fun _ => true) (fun u u' => u' = World.traced u ([] : List Turn))
      (⟨w, [], []⟩ : Run σ) ⟨w.traced [], [], []⟩ := ⟨rfl, rfl, rfl⟩
  have hends := Rendering.endsBeside_onTrace v
    (Rendering.restores_value options (options.depth w.heap) pad v) hnil htext rfl hbeside
  rw [← htraced] at hends
  obtain ⟨new, hnew, htrace⟩ := Outcome.ofEnd_tracing hends
  rw [← render_eq_ofEnd] at hnew htrace
  have hrender : tracedRender options pad v w = _ := htrace
  have hturns : turns options pad v w = new := by
    rw [turns, hrender]
    rfl
  rw [hturns]
  refine ⟨hrender, hcall _ _ hnew, ?_⟩
  obtain ⟨inner, -, hinner⟩ := hnew
  exact ⟨inner, hinner⟩

/-- The record of active containers is the path of the calls under way.  Every call begins with the
containers of the calls that have begun and not ended, innermost first and none of them twice; a
call for one of these ends before anything else happens; every call ends with the record that it began
with; and in the end no call is under way.  The trace that tells so is that of the rendering itself,
whatever its hooks do.  In every state of a run a call puts the record back, however it ends, and a
call for a container in it gives the mark and does nothing else. -/
theorem render_activePath (options : Options σ) (pad : String) (v : Value) (w : World σ) :
    tracedRender options pad v w =
        ⟨(render options pad v w).result,
          (render options pad v w).world.traced (turns options pad v w),
          (render options pad v w).events⟩ ∧
      (∃ inner, turns options pad v w =
        .begins v [] :: (inner ++ [.ends (render options pad v w).result []])) ∧
      (∀ before u active after, turns options pad v w = before ++ .begins u active :: after →
        active = containersOf (underWay before) ∧ active.Nodup ∧
          ∀ c, u.container? = some c → c ∈ active →
            ∃ result rest, after = .ends result active :: rest) ∧
      (∀ before result active after,
        turns options pad v w = before ++ .ends result active :: after →
          ∃ u rest, underWay before = (u, active) :: rest) ∧
      underWay (turns options pad v w) = [] ∧
      ∀ depth pad u (run : Run σ),
        (Rendering.last (Rendering.value options depth pad u) run).active = run.active ∧
          ∀ c, u.container? = some c → c ∈ run.active →
            Rendering.value options (depth + 1) pad u run =
              .ok circularMark ⟨run.world, run.active, .cut run.active.length :: run.journal⟩ := by
  obtain ⟨hrender, hcomplete, hends⟩ := tracedRender_eq options pad v w
  have hfit : AllFit [] (turns options pad v w) := hcomplete.allFit rfl List.nodup_nil
  refine ⟨hrender, hends, ?_, ?_, hcomplete.foldl_apply [], ?_⟩
  · intro before u active after hturns
    rw [hturns] at hfit
    exact hfit.fits
  · intro before result active after hturns
    rw [hturns] at hfit
    exact hfit.fits
  · intro depth pad u run
    refine ⟨Rendering.restores_value options depth pad u run, fun c hu hc => ?_⟩
    cases u with
    | atom a => cases hu
    | array r =>
        cases hu
        exact Rendering.unlessActive_of_mem run hc
    | object o =>
        cases hu
        exact Rendering.unlessActive_of_mem run hc

namespace ActivePathWitness

def heap : Heap :=
  ⟨#[#[.array ⟨1⟩, .array ⟨2⟩], #[], #[]], #[⟨[(.name "k", ⟨.array ⟨0⟩, true⟩)]⟩], 0⟩

def refusal : Failure :=
  .hook "no"

/-- A transform that puts the object into the second of the arrays once the first one is written, so
that the object comes to stand inside itself, and that fails once the second one is written. -/
def hooks : Hooks Nat where
  transform := some fun c p text w =>
    match c, p with
    | .array ⟨0⟩, .index 0 => .ok text ⟨w.heap.push ⟨2⟩ (.object ⟨0⟩), w.state + 1⟩
    | .array ⟨0⟩, _ => .error refusal w
    | _, _ => .ok text w

def options : Options Nat :=
  ⟨{}, hooks⟩

/-- The containers that are active when the object is met again. -/
def path : List Container :=
  [.array ⟨2⟩, .array ⟨0⟩, .object ⟨0⟩]

/-- The turns until then. -/
def before : List Turn :=
  [.begins (.object ⟨0⟩) [], .begins (.array ⟨0⟩) [.object ⟨0⟩],
    .begins (.array ⟨1⟩) [.array ⟨0⟩, .object ⟨0⟩],
    .ends (.ok "[]") [.array ⟨0⟩, .object ⟨0⟩],
    .begins (.array ⟨2⟩) [.array ⟨0⟩, .object ⟨0⟩]]

/-- The turns from then on. -/
def after : List Turn :=
  [.ends (.ok circularMark) path,
    .ends (.ok "[\n\t\t\t\"[Circular]\"\n\t\t]") [.array ⟨0⟩, .object ⟨0⟩],
    .ends (.error (.failed refusal)) [.object ⟨0⟩],
    .ends (.error (.failed refusal)) []]

theorem render_activePath_rewired :
    turns options "" (.object ⟨0⟩) ⟨heap, 0⟩ = before ++ .begins (.object ⟨0⟩) path :: after ∧
      path = containersOf (underWay before) ∧ path.Nodup ∧
      (∃ result rest, after = .ends result path :: rest) ∧
      (∃ u rest, underWay (before ++ [.begins (.object ⟨0⟩) path]) = (u, path) :: rest) ∧
      underWay (before ++ .begins (.object ⟨0⟩) path :: after) = [] ∧
      Rendering.value options 1 "" (.object ⟨0⟩) ⟨⟨heap, 0⟩, path, []⟩ =
        .ok circularMark ⟨⟨heap, 0⟩, path, [.cut 3]⟩ := by
  have hturns : turns options "" (.object ⟨0⟩) ⟨heap, 0⟩ =
      before ++ .begins (.object ⟨0⟩) path :: after := by
    decide +kernel
  obtain ⟨-, -, hbegins, hends, hunderWay, hcall⟩ :=
    render_activePath options "" (.object ⟨0⟩) ⟨heap, 0⟩
  obtain ⟨hpath, hnodup, hcut⟩ := hbegins before _ path after hturns
  have hnext : turns options "" (.object ⟨0⟩) ⟨heap, 0⟩ =
      (before ++ [.begins (.object ⟨0⟩) path]) ++ .ends (.ok circularMark) path ::
        after.tail := hturns
  rw [hturns] at hunderWay
  exact ⟨hturns, hpath, hnodup, hcut _ rfl (by decide), hends _ _ _ _ hnext, hunderWay,
    (hcall 0 "" _ ⟨⟨heap, 0⟩, path, []⟩).2 _ rfl (by decide)⟩

end ActivePathWitness

end ObjectLiteral
