import ObjectLiteral.Proofs.Rendering.Depth
import ObjectLiteral.Proofs.Rendering.Failures
import ObjectLiteral.Proofs.Rendering.Parallel
/-!
The growth of the nesting.  Only containers with entries are entered, and none inside itself, so the
nesting is bounded by the number of containers that there ever are.  Hooks that announce how many
they add are never stopped for want of depth: their renderings end with a text, or with the failure
of the last call of a hook.  And who announces more than is needed gets the same.
-/

namespace ObjectLiteral

open Rendering (Maintains)

variable {σ α β : Type}

/-- Hooks under which there are never more than so many arrays and objects.  A property of worlds
that bounds both is kept by every call that passes. -/
structure Hooks.Bounded (hooks : Hooks σ) (inv : World σ → Prop) (arrays objects : Nat) : Prop where
  maintains : Maintains hooks [] inv
  arrays_le : ∀ w, inv w → w.heap.arrays.size ≤ arrays
  objects_le : ∀ w, inv w → w.heap.objects.size ≤ objects

def Heap.ofSizes (arrays objects : Nat) : Heap :=
  ⟨Array.replicate arrays #[], Array.replicate objects .empty, 0⟩

namespace Hooks.Bounded

variable {hooks : Hooks σ} {inv : World σ → Prop} {arrays objects : Nat} {w : World σ}

theorem array_mem (hbounded : hooks.Bounded inv arrays objects) (hw : inv w) {r : ArrayRef}
    (hr : (w.heap.elements r).toList ≠ []) :
    Container.array r ∈ (Heap.ofSizes arrays objects).containers := by
  obtain ⟨v, hv⟩ := List.exists_mem_of_ne_nil _ hr
  have hissued := Heap.array_mem_containers_iff.mp (Heap.array_mem_containers hv)
  have hle := hbounded.arrays_le w hw
  rw [Heap.array_mem_containers_iff, Heap.ofSizes, Array.size_replicate]
  omega

theorem object_mem (hbounded : hooks.Bounded inv arrays objects) (hw : inv w) {o : ObjectRef}
    (ho : (w.heap.properties o).displayKeys ≠ []) :
    Container.object o ∈ (Heap.ofSizes arrays objects).containers := by
  obtain ⟨k, hk⟩ := List.exists_mem_of_ne_nil _ ho
  have hissued := Heap.object_mem_containers_iff.mp (Heap.object_mem_containers hk)
  have hle := hbounded.objects_le w hw
  rw [Heap.object_mem_containers_iff, Heap.ofSizes, Array.size_replicate]
  omega

end Hooks.Bounded

namespace Rendering

/-- How a step ends that has had depth enough: at `path` and in a world that `inv` allows, or with a
failure. -/
inductive EndsSpared (inv : World σ → Prop) (path : List Container) :
    EStateM.Result Stop (Run σ) α → Prop
  | ok {a : α} {run : Run σ} (hinv : inv run.world) (hpath : run.active = path) :
      EndsSpared inv path (.ok a run)
  | failed (f : Failure) (run : Run σ) : EndsSpared inv path (.error (.failed f) run)

/-- From every run at `path` in a world that `inv` allows a step has depth enough. -/
def Spares (inv : World σ → Prop) (path : List Container) (m : RenderM σ α) : Prop :=
  ∀ run, inv run.world → run.active = path → EndsSpared inv path (m run)

variable {inv : World σ → Prop} {path : List Container} {hooks : Hooks σ} {m : RenderM σ α}

theorem Spares.pure (a : α) : Spares inv path (pure a : RenderM σ α) :=
  fun _ hinv hpath => .ok hinv hpath

theorem Spares.bind {f : α → RenderM σ β} (hm : Spares inv path m)
    (hf : ∀ a, Spares inv path (f a)) : Spares inv path (m >>= f) := by
  intro run hinv hpath
  have hends := hm run hinv hpath
  simp only [Bind.bind, EStateM.bind]
  generalize m run = result at hends ⊢
  cases hends with
  | ok hinv' hpath' => exact hf _ _ hinv' hpath'
  | failed g run' => exact .failed g run'

/-- What is read is the heap of a world that `inv` allows. -/
theorem spares_heap_bind {f : Heap → RenderM σ α}
    (hf : ∀ w, inv w → Spares inv path (f w.heap)) : Spares inv path (heap >>= f) :=
  fun run hinv hpath => hf run.world hinv run hinv hpath

theorem spares_tell (e : Event) : Spares inv path (tell e : RenderM σ Unit) :=
  fun _ hinv hpath => .ok hinv hpath

theorem spares_call {hook : HookM σ α}
    (hhook : ∀ w a w', inv w → hook w = .ok a w' → inv w') : Spares inv path (call hook) := by
  rintro ⟨world, active, journal⟩ hinv hpath
  simp only [call]
  cases hcall : hook world with
  | ok a world' => exact .ok (hhook _ _ _ hinv hcall) hpath
  | error f world' => exact .failed f _

theorem Spares.within {c : Container} (hm : Spares inv (c :: path) m) :
    Spares inv path (within c m) := by
  rintro ⟨world, active, journal⟩ hinv hpath
  have hends := hm ⟨world, c :: active, journal⟩ hinv (congrArg (c :: ·) hpath)
  simp only [Rendering.within]
  generalize m ⟨world, c :: active, journal⟩ = result at hends ⊢
  cases hends with
  | ok hinv' hpath' => exact .ok hinv' (congrArg List.tail hpath')
  | failed f run => exact .failed f _

theorem spares_unlessActive {c : Container} {text : RenderM σ String}
    (htext : c ∉ path → Spares inv path text) : Spares inv path (unlessActive c text) := by
  rintro run hinv rfl
  by_cases hc : c ∈ run.active
  · rw [unlessActive_of_mem run hc]
    exact .ok hinv rfl
  · rw [unlessActive_of_not_mem run hc]
    exact htext hc run hinv rfl

theorem spares_asked (event : Heap → Event) {hook : HookM σ α}
    (hhook : ∀ w a w', inv w → hook w = .ok a w' → inv w') :
    Spares inv path (do tell (event (← heap)); call hook) :=
  spares_heap_bind fun _ _ => (spares_tell _).bind fun _ => spares_call hhook

theorem spares_shown (hinv : Maintains hooks [] inv) (o : ObjectRef) (k : Key) :
    Spares inv path (shown hooks o k) := by
  unfold shown
  split
  · exact .pure true
  · rename_i f hf
    exact spares_asked (fun h => .filtering o k (h.count (.object o)))
      fun w keep w' => hinv.filter f hf o k w keep w' List.not_mem_nil

theorem spares_transformed (hinv : Maintains hooks [] inv) (c : Container) (p : Position)
    (text : String) : Spares inv path (transformed hooks c p text) := by
  unfold transformed
  split
  · exact .pure text
  · rename_i f hf
    exact spares_asked (fun h => .transforming c p (h.count c) text) (hinv.transform f hf c p text)

theorem spares_shownKeys (hinv : Maintains hooks [] inv) (o : ObjectRef) (ks : List Key) :
    Spares inv path (shownKeys hooks o ks) := by
  induction ks with
  | nil => exact .pure []
  | cons k ks ih =>
      exact (spares_shown hinv o k).bind fun keep => ih.bind fun kept => .pure _

theorem spares_elements (hinv : Maintains hooks [] inv) {child : Value → RenderM σ String}
    (hchild : ∀ v, Spares inv path (child v)) (r : ArrayRef) (i : Nat) (vs : List Value) :
    Spares inv path (elements hooks child r i vs) := by
  induction vs generalizing i with
  | nil => exact .pure []
  | cons v vs ih =>
      refine (hchild v).bind fun text => ?_
      refine (spares_transformed hinv _ _ text).bind fun entry => ?_
      exact (ih (i + 1)).bind fun entries => .pure _

theorem spares_fields (hinv : Maintains hooks [] inv) {child : Value → RenderM σ String}
    (hchild : ∀ v, Spares inv path (child v)) (style : Style) (o : ObjectRef)
    (fs : List (Key × Value)) : Spares inv path (fields hooks style child o fs) := by
  induction fs with
  | nil => exact .pure []
  | cons f fs ih =>
      refine (hchild f.2).bind fun text => ?_
      refine (spares_transformed hinv _ _ text).bind fun text' => ?_
      exact ih.bind fun entries => .pure _

theorem spares_laid (style : Style) (pad : String) (g : Group) :
    Spares inv path (laid style pad g) := by
  unfold laid
  cases style.limit with
  | none => exact .pure _
  | some limit => exact (spares_tell _).bind fun _ => .pure _

/-- A value is written with as much depth as there may be containers off the path, and one level
more. -/
theorem spares_value {options : Options σ} {arrays objects : Nat}
    (hbounded : options.hooks.Bounded inv arrays objects) {depth : Nat}
    (hroom : (Heap.ofSizes arrays objects).room path < depth) (pad : String) (v : Value) :
    Spares inv path (value options depth pad v) := by
  have hinv := hbounded.maintains
  induction depth generalizing path pad v with
  | zero => cases hroom
  | succ depth ih =>
      -- a container that is entered takes up room, so its values have depth enough
      have hbelow : ∀ c, c ∉ path → c ∈ (Heap.ofSizes arrays objects).containers →
          ∀ pad v, Spares inv (c :: path) (value options depth pad v) := fun c hpath hc =>
        ih (Nat.lt_of_lt_of_le (Heap.room_cons_lt hc hpath) (Nat.lt_succ_iff.mp hroom))
      cases v with
      | atom a => exact .pure _
      | array r =>
          refine spares_unlessActive fun hr => spares_heap_bind fun w hw => ?_
          split
          · exact .pure _
          · rename_i v vs hvs
            have hchild := hbelow _ hr (hbounded.array_mem hw (by rw [hvs]; exact nofun))
            exact (spares_elements hinv (hchild _) r 0 _).within.bind fun entries =>
              spares_laid options.style pad _
      | object o =>
          refine spares_unlessActive fun ho => spares_heap_bind fun w hw => ?_
          by_cases hkeys : (w.heap.properties o).displayKeys = []
          · rw [hkeys]
            exact .pure _
          · have hchild := hbelow _ ho (hbounded.object_mem hw hkeys)
            refine (spares_shownKeys hinv o _).bind fun kept => ?_
            split
            · exact .pure _
            · refine spares_heap_bind fun w' _ => ?_
              exact (spares_fields hinv (hchild _) options.style o _).within.bind fun entries =>
                spares_laid options.style pad _

end Rendering

/-- Hooks that have announced how many containers they add are never stopped for want of depth. -/
theorem render_ne_tooDeep {options : Options σ} {inv : World σ → Prop} {arrays objects : Nat}
    (hbounded : options.hooks.Bounded inv arrays objects) {w : World σ} (hw : inv w)
    (hgrowth : arrays + objects ≤ w.heap.size + options.hooks.growth) (pad : String) (v : Value) :
    (render options pad v w).result ≠ .error .tooDeep := by
  have hroom : (Heap.ofSizes arrays objects).room [] < options.depth w.heap := by
    rw [Heap.room_nil, Heap.size, Heap.ofSizes, Array.size_replicate, Array.size_replicate,
      Options.depth]
    omega
  have hends := Rendering.spares_value hbounded hroom pad v ⟨w, [], []⟩ hw rfl
  rw [render_eq_ofEnd]
  intro hdeep
  generalize Rendering.value options (options.depth w.heap) pad v ⟨w, [], []⟩ = result
    at hends hdeep
  cases hends with
  | ok _ _ => cases hdeep
  | failed f run => cases hdeep

/-- With enough growth announced a rendering gives a text, or it fails as the last call of a hook
did. -/
theorem render_text_or_failure {options : Options σ} {inv : World σ → Prop} {arrays objects : Nat}
    (hbounded : options.hooks.Bounded inv arrays objects) {w : World σ} (hw : inv w)
    (hgrowth : arrays + objects ≤ w.heap.size + options.hooks.growth) (pad : String) (v : Value) :
    (∃ text, (render options pad v w).result = .ok text) ∨
      ∃ f earlier call, (render options pad v w).result = .error (.failed f) ∧
        calls options pad v w = earlier ++ [call] ∧ call.failure? = some f := by
  have hdeep := render_ne_tooDeep hbounded hw hgrowth pad v
  cases hresult : (render options pad v w).result with
  | ok text => exact Or.inl ⟨text, rfl⟩
  | error stop =>
      cases stop with
      | tooDeep => exact absurd hresult hdeep
      | failed f =>
          obtain ⟨earlier, call, hcalls, hfailure, -⟩ := exists_last_call hresult
          exact Or.inr ⟨f, earlier, call, rfl, hcalls, hfailure⟩

def Options.announcing (options : Options σ) (growth : Nat) : Options σ :=
  { options with hooks := { options.hooks with growth } }

/-- What hooks announce has no part in how a value is written at some depth. -/
theorem Rendering.extends_value_announcing (options : Options σ) (growth : Nat) {depth depth' : Nat}
    (hle : depth ≤ depth') (pad : String) (v : Value) :
    Extends (value options depth pad v) (value (options.announcing growth) depth' pad v) := by
  obtain ⟨extra, rfl⟩ := Nat.exists_eq_add_of_le' hle
  have hlifts : Lifts options.hooks (options.announcing growth).hooks
      (fun {_} m m' => Extends m m') :=
    { lifts_extends options.hooks with }
  exact hlifts.value options.style extra (fun _ _ run => Or.inl ⟨run, rfl⟩) depth pad v

/-- A rendering that has had depth enough is the same if more growth is announced. -/
theorem render_announcing {options : Options σ} {pad : String} {v : Value} {w : World σ}
    (hdeep : (render options pad v w).result ≠ .error .tooDeep) {growth : Nat}
    (hle : options.hooks.growth ≤ growth) :
    render (options.announcing growth) pad v w = render options pad v w := by
  have hdepth : options.depth w.heap ≤ (options.announcing growth).depth w.heap := by
    simp only [Options.depth, Options.announcing]
    omega
  rw [render_eq_ofEnd] at hdeep ⊢
  rw [render_eq_ofEnd]
  rcases Rendering.extends_value_announcing options growth hdepth pad v ⟨w, [], []⟩ with
    ⟨run, hrun⟩ | hsame
  · rw [hrun] at hdeep
    exact absurd rfl hdeep
  · rw [hsame]

namespace GrowthExample

/-- A transform that, called for the first element of the first array, puts a new array into the
second one. -/
def hooks (growth : Nat) : Hooks Unit where
  transform := some fun c p text w =>
    if c = .array ⟨0⟩ ∧ p = .index 0 then
      let (r, h) := w.heap.newArray #[.atom .null]
      .ok text ⟨h.push ⟨1⟩ (.array r), ()⟩
    else .ok text w
  growth := growth

def world : World Unit :=
  ⟨⟨#[#[.atom .null, .array ⟨1⟩], #[]], #[], 0⟩, ()⟩

def options (growth : Nat) : Options Unit :=
  ⟨{ indent := " " }, hooks growth⟩

example : (render (options 0) "" (.array ⟨0⟩) world).result.toOption = none := by
  decide +kernel

example : (render (options 1) "" (.array ⟨0⟩) world).result.toOption =
    some "[\n null,\n [\n  [\n   null\n  ]\n ]\n]" := by
  decide +kernel

end GrowthExample

end ObjectLiteral
