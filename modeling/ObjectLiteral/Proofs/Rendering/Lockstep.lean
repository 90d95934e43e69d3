import ObjectLiteral.Proofs.Rendering.Parallel
import ObjectLiteral.Proofs.Rendering.Steps
/-!
Renderings in lockstep.  Two steps that start in the same world end in the same world as long as
hooks are asked the same on both sides, whatever hooks do and however they answer.  So layouts may
differ, and the results can be compared.
-/

namespace ObjectLiteral

variable {σ α β α' β' : Type}

def Event.isLayout : Event → Bool
  | .layout _ _ _ => true
  | _ => false

/-- What is told of a rendering, layouts apart. -/
def apartFromLayouts (events : List Event) : List Event :=
  events.filter (!·.isLayout)

/-- Two runs are in the same world with the same active containers, and have told of the same
events, layouts apart. -/
structure Run.Alike (run run' : Run σ) : Prop where
  world : run'.world = run.world
  active : run'.active = run.active
  journal : apartFromLayouts run'.journal = apartFromLayouts run.journal

theorem Run.Alike.refl (run : Run σ) : run.Alike run :=
  ⟨rfl, rfl, rfl⟩

/-- Worlds that are the same, where layouts are not heard. -/
def Likeness.sameWorld : Likeness σ σ where
  going w w' := w' = w
  stopped w w' := w' = w
  heard e := !e.isLayout
  heap_eq halike := congrArg World.heap halike
  stop halike := halike

namespace Rendering

/-- Two steps have ended alike: with results that `post` relates, in a steady heap and at `path`, or
with the same stop. -/
inductive EndsAlike (steady : Heap → Prop) (path : List Container) (post : α → α' → Prop) :
    EStateM.Result Stop (Run σ) α → EStateM.Result Stop (Run σ) α' → Prop
  | ok {a : α} {a' : α'} {run run' : Run σ} (hpost : post a a') (hrun : run.At steady path)
      (halike : run.Alike run') : EndsAlike steady path post (.ok a run) (.ok a' run')
  | error {stop : Stop} {run run' : Run σ} (halike : run.Alike run') :
      EndsAlike steady path post (.error stop run) (.error stop run')

/-- From any two runs that are alike, with a steady heap and at `path`, two steps end alike. -/
def Lockstep (steady : Heap → Prop) (path : List Container) (m : RenderM σ α) (m' : RenderM σ α')
    (post : α → α' → Prop) : Prop :=
  ∀ run run' : Run σ, run.At steady path → run.Alike run' →
    EndsAlike steady path post (m run) (m' run')

variable {steady : Heap → Prop} {path : List Container} {hooks : Hooks σ}
  {m : RenderM σ α} {m' : RenderM σ α'}

/-- To be in lockstep is to be parallel in the same world, as long as its heap is steady. -/
theorem lockstep_iff {post : α → α' → Prop} : Lockstep steady path m m' post ↔
    Parallel (Likeness.sameWorld.keeping fun w => steady w.heap) path m m' post := by
  constructor
  · rintro hm run run' hactive ⟨⟨hworld, hheap⟩, hactive', hjournal⟩
    have hends := hm run run' ⟨hheap, hactive⟩ ⟨hworld, hactive', hjournal⟩
    generalize m run = result at hends ⊢
    generalize m' run' = result' at hends ⊢
    cases hends with
    | ok hpost hrun halike =>
        exact .ok hpost hrun.active ⟨⟨halike.world, hrun.heap⟩, halike.active, halike.journal⟩
    | error halike => exact .error ⟨halike.world, halike.active, halike.journal⟩
  · rintro hm run run' ⟨hheap, hactive⟩ ⟨hworld, hactive', hjournal⟩
    have hends := hm run run' hactive ⟨⟨hworld, hheap⟩, hactive', hjournal⟩
    generalize m run = result at hends ⊢
    generalize m' run' = result' at hends ⊢
    cases hends with
    | ok hpost hactive hrun =>
        exact .ok hpost ⟨hrun.world.2, hactive⟩ ⟨hrun.world.1, hrun.active, hrun.journal⟩
    | error hrun => exact .error ⟨hrun.world, hrun.active, hrun.journal⟩

theorem Lockstep.pure {post : α → α' → Prop} {a : α} {a' : α'} (hpost : post a a') :
    Lockstep steady path (pure a : RenderM σ α) (pure a') post :=
  lockstep_iff.mpr (.pure hpost)

theorem lockstep_throw (stop : Stop) {post : α → α' → Prop} :
    Lockstep steady path (throw stop : RenderM σ α) (throw stop) post :=
  lockstep_iff.mpr (parallel_throw stop)

theorem Lockstep.imp {post post' : α → α' → Prop} (hm : Lockstep steady path m m' post)
    (himp : ∀ a a', post a a' → post' a a') : Lockstep steady path m m' post' :=
  lockstep_iff.mpr ((lockstep_iff.mp hm).imp himp)

theorem Lockstep.bind {f : α → RenderM σ β} {f' : α' → RenderM σ β'} {mid : α → α' → Prop}
    {post : β → β' → Prop} (hm : Lockstep steady path m m' mid)
    (hf : ∀ a a', mid a a' → Lockstep steady path (f a) (f' a') post) :
    Lockstep steady path (m >>= f) (m' >>= f') post :=
  lockstep_iff.mpr ((lockstep_iff.mp hm).bind fun a a' hmid => lockstep_iff.mp (hf a a' hmid))

/-- Both sides see the same heap. -/
theorem lockstep_heap_bind {f : Heap → RenderM σ α} {f' : Heap → RenderM σ α'}
    {post : α → α' → Prop} (hf : ∀ h, steady h → Lockstep steady path (f h) (f' h) post) :
    Lockstep steady path (heap >>= f) (heap >>= f') post :=
  lockstep_iff.mpr <| parallel_heap_bind fun w _ hgoing => lockstep_iff.mp (hf w.heap hgoing.2)

theorem lockstep_tell (e : Event) :
    Lockstep steady path (tell e : RenderM σ Unit) (tell e) fun _ _ => True :=
  lockstep_iff.mpr (parallel_tell e)

/-- A hook that is asked the same in the same world ends the same. -/
theorem callsEnd_sameWorld (hook : HookM σ α) {w w' : World σ}
    (hw : Likeness.sameWorld.going w w') :
    CallsEnd Likeness.sameWorld.going Likeness.sameWorld.stopped Eq (hook w) (hook w') := by
  obtain rfl : w' = w := hw
  cases hook w' with
  | ok a u => exact .ok rfl rfl
  | error f u => exact .error rfl

theorem lockstep_call {hook : HookM σ α}
    (hhook : ∀ w a w', steady w.heap → hook w = .ok a w' → steady w'.heap) :
    Lockstep steady path (call hook) (call hook) Eq :=
  lockstep_iff.mpr <| parallel_call fun w _ hgoing =>
    (callsEnd_sameWorld hook hgoing.1).keeping fun a u => hhook w a u hgoing.2

theorem Lockstep.within {post : α → α' → Prop} {c : Container}
    (hm : Lockstep steady (c :: path) m m' post) :
    Lockstep steady path (within c m) (within c m') post :=
  lockstep_iff.mpr (lockstep_iff.mp hm).within

theorem lockstep_unlessActive_of_mem {c : Container} {text text' : RenderM σ String}
    (hc : c ∈ path) :
    Lockstep steady path (unlessActive c text) (unlessActive c text')
      fun mark mark' => mark = circularMark ∧ mark' = circularMark :=
  lockstep_iff.mpr (parallel_unlessActive (fun _ => ⟨rfl, rfl⟩) fun hnot => absurd hc hnot)

theorem lockstep_unlessActive {c : Container} {text text' : RenderM σ String}
    {post : String → String → Prop} (hc : c ∉ path)
    (htext : Lockstep steady path text text' post) :
    Lockstep steady path (unlessActive c text) (unlessActive c text') post :=
  lockstep_iff.mpr <| parallel_unlessActive (fun hmem => absurd hmem hc) fun _ =>
    lockstep_iff.mp htext

/-- The filter leaves a steady heap behind wherever it answers. -/
def KeepsSteady (hooks : Hooks σ) (steady : Heap → Prop) : Prop :=
  ∀ f, hooks.filter = some f → ∀ o k w keep w', steady w.heap → f o k w = .ok keep w' →
    steady w'.heap

theorem keepsSteady_of_harmless (hhooks : hooks.Harmless) (h : Heap) :
    KeepsSteady hooks h.Keeps := by
  intro f hf o k w keep w' hsteady hcall
  obtain ⟨_, _, hanswer, hkeeps⟩ := hhooks.filter f hf o k w
  rw [hcall] at hanswer
  cases hanswer
  exact hsteady.trans hkeeps

theorem lockstep_shown (hfilter : KeepsSteady hooks steady) (o : ObjectRef) (k : Key) :
    Lockstep steady path (shown hooks o k) (shown hooks o k) Eq := by
  unfold shown
  split
  · exact .pure rfl
  · rename_i filter hsome
    refine lockstep_heap_bind fun h _ => (lockstep_tell _).bind fun _ _ _ => ?_
    exact lockstep_call (hfilter filter hsome o k)

theorem lockstep_shownKeys (hfilter : KeepsSteady hooks steady) (o : ObjectRef) (ks : List Key) :
    Lockstep steady path (shownKeys hooks o ks) (shownKeys hooks o ks)
      fun kept kept' => kept = kept' ∧ kept.Sublist ks := by
  induction ks with
  | nil => exact .pure ⟨rfl, .slnil⟩
  | cons k ks ih =>
      refine (lockstep_shown hfilter o k).bind fun keep _ hkeep => ih.bind fun kept _ hkept => ?_
      obtain rfl := hkeep
      obtain ⟨rfl, hsublist⟩ := hkept
      refine .pure ⟨rfl, ?_⟩
      cases keep with
      | true => exact hsublist.cons_cons k
      | false => exact hsublist.cons k

/-- A group is laid out on each side as its style wants it; that is told, and hooks have no part in
it. -/
theorem lockstep_laid (style style' : Style) (pad pad' : String) {g g' : Group}
    (hentries : g.entries ≠ []) (hentries' : g'.entries ≠ []) :
    Lockstep steady path (laid style pad g : RenderM σ String) (laid style' pad' g')
      fun text text' => text = g.printed style pad ∧ text' = g'.printed style' pad' := by
  have hlaid : ∀ (style : Style) (pad : String) (g : Group) (run : Run σ), g.entries ≠ [] →
      ∃ run', laid style pad g run = .ok (g.printed style pad) run' ∧ run.Alike run' := by
    intro style pad g run hentries
    rw [Group.printed_of_ne_nil hentries, laid]
    cases style.limit with
    | none => exact ⟨run, rfl, .refl run⟩
    | some limit => exact ⟨_, rfl, rfl, rfl, rfl⟩
  intro run run' hrun halike
  obtain ⟨run₁, hrun₁, halike₁⟩ := hlaid style pad g run hentries
  obtain ⟨run₂, hrun₂, halike₂⟩ := hlaid style' pad' g' run' hentries'
  rw [hrun₁, hrun₂]
  refine .ok ⟨rfl, rfl⟩ ⟨?_, ?_⟩ ⟨?_, ?_, ?_⟩
  · rw [halike₁.world]
    exact hrun.heap
  · rw [halike₁.active]
    exact hrun.active
  · rw [halike₂.world, halike.world, halike₁.world]
  · rw [halike₂.active, halike.active, halike₁.active]
  · rw [halike₂.journal, halike.journal, halike₁.journal]

end Rendering

end ObjectLiteral
