import ObjectLiteral.Rendering
/-!
Two renderings side by side.  Each has options and hooks of its own, and the worlds of the two are
only alike.  If this is kept by whatever the hooks do, and if what the transforms give makes the
same entries, then the two write the same text or stop for the same cause, and tell the same of
those events that are heard.
-/

namespace ObjectLiteral

variable {σ τ α β α' β' : Type}

/-- What two runs have in common: how their worlds are alike while they go on and once they have
stopped, and which events are heard of both.  Worlds that are alike have one heap. -/
structure Likeness (σ τ : Type) where
  going : World σ → World τ → Prop
  stopped : World σ → World τ → Prop
  heard : Event → Bool
  heap_eq : ∀ {w w'}, going w w' → w'.heap = w.heap
  stop : ∀ {w w'}, going w w' → stopped w w'

/-- The same likeness, of runs whose first one keeps its world as `inv` says while it goes on. -/
def Likeness.keeping (like : Likeness σ τ) (inv : World σ → Prop) : Likeness σ τ where
  going w w' := like.going w w' ∧ inv w
  stopped := like.stopped
  heard := like.heard
  heap_eq halike := like.heap_eq halike.1
  stop halike := like.stop halike.1

/-- Two runs stand side by side: their worlds are related by `worlds`, they have the same active
containers, and what is heard of them is the same. -/
structure Run.Beside (heard : Event → Bool) (worlds : World σ → World τ → Prop) (run : Run σ)
    (run' : Run τ) : Prop where
  world : worlds run.world run'.world
  active : run'.active = run.active
  journal : run'.journal.filter heard = run.journal.filter heard

namespace Run.Beside

variable {heard : Event → Bool} {worlds worlds' : World σ → World τ → Prop} {run : Run σ}
  {run' : Run τ}

theorem imp (hrun : run.Beside heard worlds run') (himp : ∀ {w w'}, worlds w w' → worlds' w w') :
    run.Beside heard worlds' run' :=
  ⟨himp hrun.world, hrun.active, hrun.journal⟩

theorem tell {world : World σ} {world' : World τ} {active active' : List Container}
    {journal journal' : List Event}
    (hrun : Run.Beside heard worlds ⟨world, active, journal⟩ ⟨world', active', journal'⟩)
    (e : Event) :
    Run.Beside heard worlds ⟨world, active, e :: journal⟩ ⟨world', active', e :: journal'⟩ where
  world := hrun.world
  active := hrun.active
  journal := by
    have hjournal : journal'.filter heard = journal.filter heard := hrun.journal
    simp only [List.filter_cons, hjournal]

end Run.Beside

namespace Rendering

/-- Two steps have ended side by side: with results that `post` relates, at `path`, or with the same
stop. -/
inductive EndsBeside (like : Likeness σ τ) (path : List Container) (post : α → α' → Prop) :
    EStateM.Result Stop (Run σ) α → EStateM.Result Stop (Run τ) α' → Prop
  | ok {a : α} {a' : α'} {run : Run σ} {run' : Run τ} (hpost : post a a')
      (hactive : run.active = path) (hrun : run.Beside like.heard like.going run') :
      EndsBeside like path post (.ok a run) (.ok a' run')
  | error {stop : Stop} {run : Run σ} {run' : Run τ}
      (hrun : run.Beside like.heard like.stopped run') :
      EndsBeside like path post (.error stop run) (.error stop run')

/-- Two calls of hooks have ended: with results that `post` relates, in worlds that `going` relates,
or with the same failure, in worlds that `stopped` relates. -/
inductive CallsEnd (going stopped : World σ → World τ → Prop) (post : α → α' → Prop) :
    EStateM.Result Failure (World σ) α → EStateM.Result Failure (World τ) α' → Prop
  | ok {a : α} {a' : α'} {w : World σ} {w' : World τ} (hpost : post a a') (hgoing : going w w') :
      CallsEnd going stopped post (.ok a w) (.ok a' w')
  | error {f : Failure} {w : World σ} {w' : World τ} (hstopped : stopped w w') :
      CallsEnd going stopped post (.error f w) (.error f w')

/-- From any two runs that stand side by side at `path`, two steps end side by side. -/
def Parallel (like : Likeness σ τ) (path : List Container) (m : RenderM σ α) (m' : RenderM τ α')
    (post : α → α' → Prop) : Prop :=
  ∀ (run : Run σ) (run' : Run τ), run.active = path → run.Beside like.heard like.going run' →
    EndsBeside like path post (m run) (m' run')

section Steps

variable {like : Likeness σ τ} {path : List Container} {m : RenderM σ α} {m' : RenderM τ α'}
  {post : α → α' → Prop}

theorem Parallel.pure {a : α} {a' : α'} (hpost : post a a') :
    Parallel like path (pure a : RenderM σ α) (pure a' : RenderM τ α') post :=
  fun _ _ hactive hrun => .ok hpost hactive hrun

theorem parallel_throw (stop : Stop) :
    Parallel like path (throw stop : RenderM σ α) (throw stop : RenderM τ α') post :=
  fun _ _ _ hrun => .error (hrun.imp like.stop)

theorem Parallel.imp {post' : α → α' → Prop} (hm : Parallel like path m m' post)
    (himp : ∀ a a', post a a' → post' a a') : Parallel like path m m' post' := by
  intro run run' hactive hrun
  have hends := hm run run' hactive hrun
  generalize m run = result at hends ⊢
  generalize m' run' = result' at hends ⊢
  cases hends with
  | ok hpost hactive hrun => exact .ok (himp _ _ hpost) hactive hrun
  | error hrun => exact .error hrun

theorem Parallel.bind {f : α → RenderM σ β} {f' : α' → RenderM τ β'} {mid : α → α' → Prop}
    {post : β → β' → Prop} (hm : Parallel like path m m' mid)
    (hf : ∀ a a', mid a a' → Parallel like path (f a) (f' a') post) :
    Parallel like path (m >>= f) (m' >>= f') post := by
  intro run run' hactive hrun
  have hends := hm run run' hactive hrun
  simp only [Bind.bind, EStateM.bind]
  generalize m run = result at hends ⊢
  generalize m' run' = result' at hends ⊢
  cases hends with
  | ok hmid hactive hrun => exact hf _ _ hmid _ _ hactive hrun
  | error hrun => exact .error hrun

/-- What comes behind a step may rely on the run in which the first side has passed it. -/
theorem Parallel.bind_of_ok {f : α → RenderM σ β} {f' : α' → RenderM τ β'} {mid : α → α' → Prop}
    {post : β → β' → Prop} (hm : Parallel like path m m' mid)
    (hf : ∀ before a run a' run', m before = .ok a run → mid a a' → run.active = path →
      run.Beside like.heard like.going run' →
      EndsBeside like path post (f a run) (f' a' run')) :
    Parallel like path (m >>= f) (m' >>= f') post := by
  intro run run' hactive hrun
  have hends := hm run run' hactive hrun
  have hpassed := hf run
  simp only [Bind.bind, EStateM.bind]
  generalize m run = result at hends hpassed ⊢
  generalize m' run' = result' at hends ⊢
  cases hends with
  | ok hmid hactive hrun => exact hpassed _ _ _ _ rfl hmid hactive hrun
  | error hrun => exact .error hrun

/-- Both sides see the same heap. -/
theorem parallel_heap_bind {f : Heap → RenderM σ α} {f' : Heap → RenderM τ α'}
    (hf : ∀ w w', like.going w w' → Parallel like path (f w.heap) (f' w.heap) post) :
    Parallel like path (heap >>= f) (heap >>= f') post := by
  intro run run' hactive hrun
  change EndsBeside like path post (f run.world.heap run) (f' run'.world.heap run')
  rw [like.heap_eq hrun.world]
  exact hf _ _ hrun.world run run' hactive hrun

/-- From where both sides look at the heap, something that is true of the first one's world may be
kept in mind. -/
theorem endsBeside_heap_bind {inv since : World σ → Prop} {f : Heap → RenderM σ α}
    {f' : Heap → RenderM τ α'} {run : Run σ} {run' : Run τ} (hactive : run.active = path)
    (hrun : run.Beside like.heard (like.keeping inv).going run') (hsince : since run.world)
    (hf : Parallel (like.keeping fun u => inv u ∧ since u) path (f run.world.heap)
      (f' run.world.heap) post) :
    EndsBeside (like.keeping inv) path post ((heap >>= f) run) ((heap >>= f') run') := by
  change EndsBeside _ path post (f run.world.heap run) (f' run'.world.heap run')
  rw [like.heap_eq hrun.world.1]
  have hends := hf run run' hactive
    ⟨⟨hrun.world.1, hrun.world.2, hsince⟩, hrun.active, hrun.journal⟩
  generalize f run.world.heap run = result at hends ⊢
  generalize f' run.world.heap run' = result' at hends ⊢
  cases hends with
  | ok hpost hactive hrun =>
      exact .ok hpost hactive (hrun.imp fun halike => ⟨halike.1, halike.2.1⟩)
  | error hrun => exact .error hrun

theorem parallel_tell (e : Event) :
    Parallel like path (tell e : RenderM σ Unit) (tell e : RenderM τ Unit) fun _ _ => True := by
  rintro ⟨world, active, journal⟩ ⟨world', active', journal'⟩ hactive hrun
  exact .ok trivial hactive (hrun.tell e)

theorem Parallel.within {c : Container} (hm : Parallel like (c :: path) m m' post) :
    Parallel like path (within c m) (within c m') post := by
  rintro ⟨world, active, journal⟩ ⟨world', active', journal'⟩ hpath ⟨hworld, hactive, hjournal⟩
  have hends := hm ⟨world, c :: active, journal⟩ ⟨world', c :: active', journal'⟩
    (congrArg (c :: ·) hpath) ⟨hworld, congrArg (c :: ·) hactive, hjournal⟩
  simp only [Rendering.within]
  generalize m ⟨world, c :: active, journal⟩ = result at hends ⊢
  generalize m' ⟨world', c :: active', journal'⟩ = result' at hends ⊢
  cases hends with
  | ok hpost hpath hrun =>
      exact .ok hpost (congrArg List.tail hpath)
        ⟨hrun.world, congrArg List.tail hrun.active, hrun.journal⟩
  | error hrun => exact .error ⟨hrun.world, congrArg List.tail hrun.active, hrun.journal⟩

/-- A container that is being written is cut on both sides, and any other one is written on both. -/
theorem parallel_unlessActive {c : Container} {text : RenderM σ String} {text' : RenderM τ String}
    {post : String → String → Prop} (hmark : c ∈ path → post circularMark circularMark)
    (htext : c ∉ path → Parallel like path text text' post) :
    Parallel like path (unlessActive c text) (unlessActive c text') post := by
  rintro ⟨world, active, journal⟩ ⟨world', active', journal'⟩ hpath hrun
  obtain rfl : active' = active := hrun.active
  obtain rfl : active' = path := hpath
  by_cases hc : c ∈ active'
  · rw [unlessActive_of_mem ⟨world, active', journal⟩ hc,
      unlessActive_of_mem ⟨world', active', journal'⟩ hc]
    exact .ok (hmark hc) rfl (hrun.tell (.cut active'.length))
  · rw [unlessActive_of_not_mem ⟨world, active', journal⟩ hc,
      unlessActive_of_not_mem ⟨world', active', journal'⟩ hc]
    exact htext hc _ _ rfl hrun

theorem CallsEnd.keeping {inv : World σ → Prop} {result : EStateM.Result Failure (World σ) α}
    {result' : EStateM.Result Failure (World τ) α'}
    (hends : CallsEnd like.going like.stopped post result result')
    (hinv : ∀ a w, result = .ok a w → inv w) :
    CallsEnd (like.keeping inv).going like.stopped post result result' := by
  cases hends with
  | ok hpost hgoing => exact .ok hpost ⟨hgoing, hinv _ _ rfl⟩
  | error hstopped => exact .error hstopped

theorem parallel_call {hook : HookM σ α} {hook' : HookM τ α'}
    (hcall : ∀ w w', like.going w w' → CallsEnd like.going like.stopped post (hook w) (hook' w')) :
    Parallel like path (call hook) (call hook') post := by
  rintro ⟨world, active, journal⟩ ⟨world', active', journal'⟩ hpath ⟨hworld, hactive, hjournal⟩
  have hends := hcall world world' hworld
  simp only [call]
  generalize hook world = result at hends ⊢
  generalize hook' world' = result' at hends ⊢
  cases hends with
  | ok hpost hgoing => exact .ok hpost hpath ⟨hgoing, hactive, hjournal⟩
  | error hstopped => exact .error ⟨hstopped, hactive, hjournal⟩

/-- Both sides tell the same event, which may say something of the heap, and call a hook. -/
theorem parallel_asked (event : Heap → Event) {hook : HookM σ α} {hook' : HookM τ α'}
    (hcall : ∀ w w', like.going w w' → CallsEnd like.going like.stopped post (hook w) (hook' w')) :
    Parallel like path (do tell (event (← heap)); call hook) (do tell (event (← heap)); call hook')
      post :=
  parallel_heap_bind fun _ _ _ => (parallel_tell _).bind fun _ _ _ => parallel_call hcall

end Steps

section Hooks

variable {hooks : Hooks σ} {hooks' : Hooks τ}

/-- In a world the filter, if there is one, has just answered a question about an object, as it has
when the entries of the object are taken. -/
def Asked (hooks : Hooks σ) (o : ObjectRef) (w : World σ) : Prop :=
  ∀ f, hooks.filter = some f → ∃ k keep u, f o k u = .ok keep w

/-- Worlds that may come after the one in which the entries of an object are taken: hooks change
them, but the filter is asked about other objects only. -/
inductive Since (hooks : Hooks σ) (o : ObjectRef) (w : World σ) : World σ → Prop
  | taking (hasked : Asked hooks o w) : Since hooks o w w
  | filter {f : ObjectRef → Key → HookM σ Bool} {o' : ObjectRef} {k : Key} {keep : Bool}
      {u u' : World σ} (hu : Since hooks o w u) (hf : hooks.filter = some f) (hne : o' ≠ o)
      (hcall : f o' k u = .ok keep u') : Since hooks o w u'
  | transform {f : Container → Position → String → HookM σ String} {c : Container} {p : Position}
      {text text' : String} {u u' : World σ} (hu : Since hooks o w u)
      (hf : hooks.transform = some f) (hcall : f c p text u = .ok text' u') : Since hooks o w u'

/-- What is true of the world remains true below the containers of `path`, where the filter is not
asked about these. -/
structure Maintains (hooks : Hooks σ) (path : List Container) (inv : World σ → Prop) : Prop where
  filter : ∀ f, hooks.filter = some f → ∀ o k w keep w', .object o ∉ path → inv w →
    f o k w = .ok keep w' → inv w'
  transform : ∀ f, hooks.transform = some f → ∀ c p text w text' w', inv w →
    f c p text w = .ok text' w' → inv w'

theorem Since.asked {o : ObjectRef} {w₀ w : World σ} (hsince : Since hooks o w₀ w) :
    Asked hooks o w₀ := by
  induction hsince with
  | taking hasked => exact hasked
  | filter _ _ _ _ hasked => exact hasked
  | transform _ _ _ hasked => exact hasked

namespace Maintains

variable {path : List Container} {inv : World σ → Prop}

theorem below (hinv : Maintains hooks path inv) (c : Container) :
    Maintains hooks (c :: path) inv where
  filter f hf o k w keep w' ho :=
    hinv.filter f hf o k w keep w' fun hmem => ho (List.mem_cons_of_mem c hmem)
  transform := hinv.transform

/-- Below an object the world remains one after that in which the object was entered. -/
theorem since (hinv : Maintains hooks path inv) (o : ObjectRef) (w₀ : World σ) :
    Maintains hooks (.object o :: path) fun w => inv w ∧ Since hooks o w₀ w where
  filter f hf o' k w keep w' ho := by
    rintro ⟨hw, hsince⟩ hcall
    have hne : o' ≠ o := by
      rintro rfl
      exact ho List.mem_cons_self
    exact ⟨(hinv.below (.object o)).filter f hf o' k w keep w' ho hw hcall,
      .filter hsince hf hne hcall⟩
  transform f hf c p text w text' w' := by
    rintro ⟨hw, hsince⟩ hcall
    exact ⟨hinv.transform f hf c p text w text' w' hw hcall, .transform hsince hf hcall⟩

/-- What remains true while an object is being written is true of all worlds since. -/
theorem of_since {o : ObjectRef} {w₀ w : World σ} (hinv : Maintains hooks [.object o] inv)
    (hw₀ : inv w₀) (hsince : Since hooks o w₀ w) : inv w := by
  induction hsince with
  | taking _ => exact hw₀
  | filter _ hf hne hcall hu =>
      have hother : ∀ {o'}, o' ≠ o → Container.object o' ∉ [Container.object o] := by
        rintro o' hne hmem
        cases List.mem_singleton.mp hmem
        exact hne rfl
      exact hinv.filter _ hf _ _ _ _ _ (hother hne) hu hcall
  | transform _ hf hcall hu => exact hinv.transform _ hf _ _ _ _ _ _ hu hcall

end Maintains

end Hooks

/-- The value that an object has under a key when its entries are taken. -/
def taken (h : Heap) (o : ObjectRef) (k : Key) : Value :=
  ((h.properties o).get? k).getD default

theorem rel_self {α : Type} {R : α → α → Prop} (hR : ∀ a, R a a) (o : Option α) :
    Option.Rel R o o := by
  cases o with
  | none => exact .none
  | some a => exact .some (hR a)

section Entries

variable {like : Likeness σ τ} {path : List Container} {hooks : Hooks σ} {hooks' : Hooks τ}
  {child : Value → RenderM σ String} {child' : Value → RenderM τ String} {inv : World σ → Prop}

/-- Filters that answer the same show the same. -/
theorem parallel_shown (hinv : Maintains hooks path inv) {o : ObjectRef} {k : Key}
    (hfilter : Option.Rel (fun f f' => ∀ w w', like.going w w' → inv w →
      CallsEnd like.going like.stopped Eq (f o k w) (f' o k w')) hooks.filter hooks'.filter)
    (ho : .object o ∉ path) :
    Parallel (like.keeping inv) path (shown hooks o k) (shown hooks' o k) Eq := by
  have hmaintains := hinv.filter
  unfold shown
  generalize hooks.filter = filter at hfilter hmaintains ⊢
  generalize hooks'.filter = filter' at hfilter ⊢
  cases hfilter with
  | none => exact .pure rfl
  | some hcalls =>
      refine parallel_asked (fun h => .filtering o k (h.count (.object o))) ?_
      rintro w w' ⟨hgoing, hw⟩
      exact (hcalls w w' hgoing hw).keeping fun keep u => hmaintains _ rfl o k w keep u ho hw

/-- Texts are related by `post` where the transforms give texts that are, or where there are no
transforms and a text is related to itself. -/
theorem parallel_transformed (hinv : Maintains hooks path inv) {c : Container} {p : Position}
    {text : String} {post : String → String → Prop} (hpost : post text text)
    (htransform : Option.Rel (fun f f' => ∀ w w', like.going w w' → inv w →
      CallsEnd like.going like.stopped post (f c p text w) (f' c p text w'))
      hooks.transform hooks'.transform) :
    Parallel (like.keeping inv) path (transformed hooks c p text) (transformed hooks' c p text)
      post := by
  have hmaintains := hinv.transform
  unfold transformed
  generalize hooks.transform = transform at htransform hmaintains ⊢
  generalize hooks'.transform = transform' at htransform ⊢
  cases htransform with
  | none => exact .pure hpost
  | some hcalls =>
      refine parallel_asked (fun h => .transforming c p (h.count c) text) ?_
      rintro w w' ⟨hgoing, hw⟩
      exact (hcalls w w' hgoing hw).keeping fun text' u => hmaintains _ rfl c p text w text' u hw

theorem parallel_shownKeys {o : ObjectRef}
    (hshown : ∀ k, Parallel like path (shown hooks o k) (shown hooks' o k) Eq) (ks : List Key) :
    Parallel like path (shownKeys hooks o ks) (shownKeys hooks' o ks) Eq := by
  induction ks with
  | nil => exact .pure rfl
  | cons k ks ih =>
      refine (hshown k).bind fun keep _ hkeep => ih.bind fun kept _ hkept => ?_
      rw [hkeep, hkept]
      exact .pure rfl

theorem call_of_shown {o : ObjectRef} {k : Key} {run run' : Run σ} {keep : Bool}
    (hrun : shown hooks o k run = .ok keep run') {f : ObjectRef → Key → HookM σ Bool}
    (hf : hooks.filter = some f) : f o k run.world = .ok keep run'.world := by
  unfold shown at hrun
  rw [hf] at hrun
  change call (f o k) ⟨run.world, run.active, _ :: run.journal⟩ = _ at hrun
  simp only [call] at hrun
  split at hrun
  · rename_i hcall
    cases hrun
    exact hcall
  · cases hrun

/-- Behind questions about the keys of an object the world is the one that the last of them left. -/
theorem asked_of_shownKeys {o : ObjectRef} {ks : List Key} (hks : ks ≠ []) {run run' : Run σ}
    {kept : List Key} (hrun : shownKeys hooks o ks run = .ok kept run') :
    Asked hooks o run'.world := by
  intro f hf
  induction ks generalizing run kept with
  | nil => contradiction
  | cons k ks ih =>
      simp only [shownKeys, Bind.bind, EStateM.bind] at hrun
      split at hrun
      · rename_i keep mid hshown
        cases ks with
        | nil =>
            cases hrun
            exact ⟨k, keep, run.world, call_of_shown hshown hf⟩
        | cons j js =>
            split at hrun
            · rename_i hrest
              cases hrun
              exact ih (List.cons_ne_nil j js) hrest
            · cases hrun
      · cases hrun

theorem parallel_elements {r : ArrayRef}
    (helement : ∀ i text, Parallel like path (transformed hooks (.array r) (.index i) text)
      (transformed hooks' (.array r) (.index i) text) Eq)
    (hchild : ∀ v, Parallel like path (child v) (child' v) Eq) (i : Nat) (vs : List Value) :
    Parallel like path (elements hooks child r i vs) (elements hooks' child' r i vs) Eq := by
  induction vs generalizing i with
  | nil => exact .pure rfl
  | cons v vs ih =>
      refine (hchild v).bind fun text _ htext => ?_
      subst htext
      refine (helement i text).bind fun entry _ hentry => (ih (i + 1)).bind fun es _ hes => ?_
      rw [hentry, hes]
      exact .pure rfl

theorem parallel_fields {style style' : Style} {o : ObjectRef} (fs : List (Key × Value))
    (hfield : ∀ f ∈ fs, ∀ text, Parallel like path (transformed hooks (.object o) (.key f.1) text)
      (transformed hooks' (.object o) (.key f.1) text)
      fun text text' => style.entry f.1 f.2 text = style'.entry f.1 f.2 text')
    (hchild : ∀ v, Parallel like path (child v) (child' v) Eq) :
    Parallel like path (fields hooks style child o fs) (fields hooks' style' child' o fs) Eq := by
  induction fs with
  | nil => exact .pure rfl
  | cons f fs ih =>
      obtain ⟨hfirst, hrest⟩ := List.forall_mem_cons.mp hfield
      refine (hchild f.2).bind fun text _ htext => ?_
      subst htext
      refine (hfirst text).bind fun text text' hentry => (ih hrest).bind fun es _ hes => ?_
      rw [hentry, hes]
      exact .pure rfl

end Entries

/-- In one style both sides lay a group out the same. -/
theorem parallel_laid {like : Likeness σ τ} {path : List Container} (style : Style) (pad : String)
    (g : Group) : Parallel like path (laid style pad g) (laid style pad g) Eq := by
  unfold laid
  cases style.limit with
  | none => exact .pure rfl
  | some limit => exact (parallel_tell _).bind fun _ _ _ => .pure rfl

/-- Two options write alike under a likeness: literals of atoms and layouts are the same, the
filters answer the same, and so do the transforms, except that two texts for a field need only make
the same entry of the value that was taken when its object was entered. -/
structure WritesAlike (like : Likeness σ τ) (options : Options σ) (options' : Options τ) :
    Prop where
  unit : options'.style.unit = options.style.unit
  atom : ∀ a : Atom, a.literal options.style = a.literal options'.style
  laid : ∀ path inv pad g, Parallel (like.keeping inv) path (laid options.style pad g)
    (laid options'.style pad g) Eq
  shown : ∀ path inv, Maintains options.hooks path inv → ∀ o k, .object o ∉ path →
    Parallel (like.keeping inv) path (shown options.hooks o k) (shown options'.hooks o k) Eq
  element : ∀ path inv, Maintains options.hooks path inv → ∀ r i text,
    Parallel (like.keeping inv) path (transformed options.hooks (.array r) (.index i) text)
      (transformed options'.hooks (.array r) (.index i) text) Eq
  field : ∀ path inv, Maintains options.hooks path inv → ∀ o k text w₀ w₀', like.going w₀ w₀' →
    (∀ w, inv w → Since options.hooks o w₀ w) →
    Parallel (like.keeping inv) path (transformed options.hooks (.object o) (.key k) text)
      (transformed options'.hooks (.object o) (.key k) text)
      fun text text' => options.style.entry k (taken w₀.heap o k) text =
        options'.style.entry k (taken w₀.heap o k) text'

section Values

variable {like : Likeness σ τ} {options : Options σ} {options' : Options τ}
  {path : List Container} {inv : World σ → Prop} {depth : Nat} {pad : String}

theorem parallel_array (halike : WritesAlike like options options')
    (hinv : Maintains options.hooks path inv) (r : ArrayRef)
    (hchild : ∀ inv', Maintains options.hooks (.array r :: path) inv' → ∀ v,
      Parallel (like.keeping inv') (.array r :: path)
        (value options depth (pad ++ options.style.unit) v)
        (value options' depth (pad ++ options.style.unit) v) Eq) :
    Parallel (like.keeping inv) path (value options (depth + 1) pad (.array r))
      (value options' (depth + 1) pad (.array r)) Eq := by
  have hbelow := hinv.below (.array r)
  rw [value, value, halike.unit]
  refine parallel_unlessActive (fun _ => rfl) fun _ => parallel_heap_bind fun w _ _ => ?_
  split
  · exact .pure rfl
  · have helements := parallel_elements (halike.element _ _ hbelow r) (hchild inv hbelow) 0
    refine (helements _).within.bind fun entries _ hentries => ?_
    rw [← hentries]
    exact halike.laid path inv pad _

theorem parallel_object (halike : WritesAlike like options options')
    (hinv : Maintains options.hooks path inv) (o : ObjectRef)
    (hchild : ∀ inv', Maintains options.hooks (.object o :: path) inv' → ∀ v,
      Parallel (like.keeping inv') (.object o :: path)
        (value options depth (pad ++ options.style.unit) v)
        (value options' depth (pad ++ options.style.unit) v) Eq) :
    Parallel (like.keeping inv) path (value options (depth + 1) pad (.object o))
      (value options' (depth + 1) pad (.object o)) Eq := by
  rw [value, value, halike.unit]
  refine parallel_unlessActive (fun _ => rfl) fun ho => parallel_heap_bind fun w _ _ => ?_
  have hshown := fun k => halike.shown path inv hinv o k ho
  refine (parallel_shownKeys hshown _).bind_of_ok
    fun before kept run _ run' hbefore hkept hpath hrun => ?_
  subst hkept
  split
  · exact Parallel.pure rfl run run' hpath hrun
  · rename_i k ks
    have hkeys : (w.heap.properties o).displayKeys ≠ [] := by
      intro hnil
      rw [hnil] at hbefore
      cases hbefore
    have hbelow := hinv.since o run.world
    refine endsBeside_heap_bind hpath hrun (Since.taking (asked_of_shownKeys hkeys hbefore)) ?_
    refine (parallel_fields _ (fun f hf text => ?_) (hchild _ hbelow)).within.bind
      fun entries _ hentries => ?_
    · obtain ⟨k, -, rfl⟩ := List.mem_map.mp hf
      exact halike.field _ _ hbelow o k text run.world run'.world hrun.world.1 fun w hw => hw.2
    · rw [← hentries]
      exact halike.laid path _ pad _

/-- Options that write alike write every value in parallel. -/
theorem parallel_value (halike : WritesAlike like options options')
    (hinv : Maintains options.hooks path inv) (depth : Nat) (pad : String) (v : Value) :
    Parallel (like.keeping inv) path (value options depth pad v) (value options' depth pad v)
      Eq := by
  induction depth generalizing path inv pad v with
  | zero => exact parallel_throw .tooDeep
  | succ depth ih =>
      cases v with
      | atom a => exact .pure (halike.atom a)
      | array r => exact parallel_array halike hinv r fun _ hinv' v => ih hinv' _ v
      | object o => exact parallel_object halike hinv o fun _ hinv' v => ih hinv' _ v

end Values

end Rendering

/-- Two renderings have ended side by side. -/
structure Outcome.Beside (like : Likeness σ τ) (outcome : Outcome σ) (outcome' : Outcome τ) :
    Prop where
  result : outcome'.result = outcome.result
  events : outcome'.events.filter like.heard = outcome.events.filter like.heard
  world : like.stopped outcome.world outcome'.world

/-- Options that write alike give the same text of a value, or stop for the same cause. -/
theorem render_beside {like : Likeness σ τ} {options : Options σ} {options' : Options τ}
    (halike : Rendering.WritesAlike like options options')
    (hgrowth : options'.hooks.growth = options.hooks.growth) (pad : String) (v : Value)
    {w : World σ} {w' : World τ} (hw : like.going w w') :
    (render options pad v w).Beside like (render options' pad v w') := by
  have hdepth : options'.depth w'.heap = options.depth w.heap := by
    rw [Options.depth, Options.depth, like.heap_eq hw, hgrowth]
  have hinv : Rendering.Maintains options.hooks [] fun _ => True :=
    ⟨fun _ _ _ _ _ _ _ _ _ _ => trivial, fun _ _ _ _ _ _ _ _ _ _ => trivial⟩
  have hends := Rendering.parallel_value halike hinv (options.depth w.heap) pad v ⟨w, [], []⟩
    ⟨w', [], []⟩ rfl ⟨⟨hw, trivial⟩, rfl, rfl⟩
  unfold render
  rw [hdepth]
  generalize Rendering.value options _ _ _ _ = result at hends ⊢
  generalize Rendering.value options' _ _ _ _ = result' at hends ⊢
  cases hends with
  | ok hpost _ hrun =>
      refine ⟨congrArg _ hpost.symm, ?_, like.stop hrun.world.1⟩
      rw [List.filter_reverse, List.filter_reverse]
      exact congrArg List.reverse hrun.journal
  | error hrun =>
      refine ⟨rfl, ?_, hrun.world⟩
      rw [List.filter_reverse, List.filter_reverse]
      exact congrArg List.reverse hrun.journal

end ObjectLiteral
