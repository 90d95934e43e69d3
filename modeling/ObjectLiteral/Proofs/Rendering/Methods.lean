import ObjectLiteral.Proofs.Rendering.Parallel
/-!
Texts of methods.  An entry that is the declaration of a method is written without the text that the
transform gave for it.  So two transforms that differ in such texts only cannot be told apart by
what is written, nor by any hook, and a transform that gives every text back is as good as none.
-/

namespace ObjectLiteral

open Rendering (Asked Since Maintains CallsEnd taken)

variable {σ : Type}

def Value.IsMethod (v : Value) : Prop :=
  ∃ c, v.callable? = some c ∧ c.methodSource?.isSome

/-- The entry of a method is the same whatever its text is. -/
theorem Style.entry_of_isMethod {style : Style} (hshorthand : style.methodShorthand = true)
    {v : Value} (hv : v.IsMethod) (k : Key) (text text' : String) :
    style.entry k v text = style.entry k v text' := by
  obtain ⟨c, hc, hmethod⟩ := hv
  obtain ⟨source, hsource⟩ := Option.isSome_iff_exists.mp hmethod
  have hdeclaration : v.method? style = some source := by
    rw [Value.method?, hc, Option.bind_some, Callable.shorthand?, if_pos hshorthand, hsource]
  rw [entry, entry, hdeclaration]

def Options.transforming (options : Options σ)
    (transform : Option (Container → Position → String → HookM σ String)) : Options σ :=
  { options with hooks := { options.hooks with transform } }

/-- Worlds that are alike have one heap, and the filter does not tell them from each other: it gives
the same answer or fails the same, and leaves worlds that are alike.  What transforms keep to
themselves may differ in such worlds; where nothing does, every filter is unaware. -/
structure Hooks.FilterUnaware (hooks : Hooks σ) (alike : World σ → World σ → Prop) : Prop where
  heap_eq : ∀ {w w'}, alike w w' → w'.heap = w.heap
  answer : ∀ f, hooks.filter = some f → ∀ o k w w', alike w w' →
    CallsEnd alike alike Eq (f o k w) (f o k w')

/-- In the world `w` the transform is called for a field that held a method when the entries of its
object were taken, in whichever world that may have been. -/
def Hooks.AtMethod (hooks : Hooks σ) (alike : World σ → World σ → Prop) (c : Container)
    (p : Position) (w : World σ) : Prop :=
  ∃ o k, c = .object o ∧ p = .key k ∧
    ∀ w₀ w₀', alike w₀ w₀' → Since hooks o w₀ w → (taken w₀.heap o k).IsMethod

/-- Hooks may recall what a field held when the filter was last asked about its object.  If nothing
else changes what they recall, it is enough that this was a method, whatever has become of the field
since. -/
theorem Hooks.atMethod_of_recalled {hooks : Hooks σ} {o : ObjectRef} {k : Key}
    {recalled : World σ → Value} (htaken : ∀ u, Asked hooks o u → recalled u = taken u.heap o k)
    (hkept : ∀ v, Maintains hooks [.object o] fun w => recalled w = v)
    (alike : World σ → World σ → Prop) {w : World σ} (hmethod : (recalled w).IsMethod) :
    hooks.AtMethod alike (.object o) (.key k) w := by
  refine ⟨o, k, rfl, rfl, fun w₀ _ _ hsince => ?_⟩
  rw [← htaken w₀ hsince.asked]
  rwa [(hkept (recalled w₀)).of_since rfl hsince] at hmethod

/-- Where hooks leave the fields of an object as they are while it is being written, it is enough
that the field holds a method when the transform is called. -/
theorem Hooks.atMethod_of_isMethod {hooks : Hooks σ} {o : ObjectRef} {k : Key}
    (hfields : ∀ v, Maintains hooks [.object o] fun w => taken w.heap o k = v)
    (alike : World σ → World σ → Prop) {w : World σ} (hmethod : (taken w.heap o k).IsMethod) :
    hooks.AtMethod alike (.object o) (.key k) w :=
  atMethod_of_recalled (fun _ _ => rfl) hfields alike hmethod

/-- In worlds that are alike two transforms never fail, leave worlds that are alike, and give the
same text unless they are called for a method. -/
def Options.SameButMethods (options : Options σ) (alike : World σ → World σ → Prop)
    (transform transform' : Container → Position → String → HookM σ String) : Prop :=
  ∀ c p text w w', alike w w' → ∃ given u given' u',
    transform c p text w = .ok given u ∧ transform' c p text w' = .ok given' u' ∧ alike u u' ∧
      (given = given' ∨ (options.transforming (some transform)).hooks.AtMethod alike c p w)

/-- In worlds that are alike a transform gives every text back, and leaves a world that is alike. -/
def GivesBack (alike : World σ → World σ → Prop)
    (transform : Container → Position → String → HookM σ String) : Prop :=
  ∀ c p text w w', alike w w' → ∃ u, transform c p text w = .ok text u ∧ alike u w'

def Event.isTransforming : Event → Bool
  | .transforming _ _ _ _ => true
  | _ => false

/-- What is told of a rendering, calls of the transform apart. -/
def apartFromTransforms (events : List Event) : List Event :=
  events.filter (!·.isTransforming)

namespace Hooks.FilterUnaware

variable {options : Options σ} {alike : World σ → World σ → Prop}

/-- Worlds that the filter does not tell from each other, of runs of which some events are heard. -/
def likeness (hfilter : options.hooks.FilterUnaware alike) (heard : Event → Bool) :
    Likeness σ σ where
  going := alike
  stopped := alike
  heard := heard
  heap_eq := hfilter.heap_eq
  stop halike := halike

theorem rel_answer (hfilter : options.hooks.FilterUnaware alike) (o : ObjectRef) (k : Key)
    (inv : World σ → Prop) :
    Option.Rel (fun f f' => ∀ w w', alike w w' → inv w →
      CallsEnd alike alike Eq (f o k w) (f' o k w')) options.hooks.filter options.hooks.filter := by
  have hanswer := hfilter.answer
  generalize options.hooks.filter = filter at hanswer ⊢
  cases filter with
  | none => exact .none
  | some f => exact .some fun w w' halike _ => hanswer f rfl o k w w' halike

end Hooks.FilterUnaware

namespace Rendering

variable {options : Options σ} {alike : World σ → World σ → Prop}
  {transform transform' : Container → Position → String → HookM σ String}

theorem writesAlike_of_sameButMethods (hshorthand : options.style.methodShorthand = true)
    (hfilter : options.hooks.FilterUnaware alike)
    (hsame : options.SameButMethods alike transform transform') :
    WritesAlike (hfilter.likeness fun _ => true) (options.transforming (some transform))
      (options.transforming (some transform')) where
  unit := rfl
  atom _ := rfl
  laid _ _ := parallel_laid options.style
  shown path inv hinv o k ho := parallel_shown hinv (hfilter.rel_answer o k inv) ho
  element path inv hinv r i text := by
    refine parallel_transformed hinv rfl (.some fun w w' halike _ => ?_)
    obtain ⟨given, u, given', u', hcall, hcall', hu, hgiven⟩ :=
      hsame (.array r) (.index i) text w w' halike
    rw [hcall, hcall']
    rcases hgiven with rfl | ⟨o, k, hc, -⟩
    · exact .ok rfl hu
    · cases hc
  field path inv hinv o k text w₀ w₀' hw₀ hsince := by
    refine parallel_transformed hinv rfl (.some fun w w' halike hw => ?_)
    obtain ⟨given, u, given', u', hcall, hcall', hu, hgiven⟩ :=
      hsame (.object o) (.key k) text w w' halike
    rw [hcall, hcall']
    refine .ok ?_ hu
    rcases hgiven with rfl | ⟨o', k', ho, hk, hmethod⟩
    · rfl
    · cases ho
      cases hk
      exact Style.entry_of_isMethod hshorthand (hmethod w₀ w₀' hw₀ (hsince w hw)) k given given'

/-- A transform that gives a text back is as good as none, where its calls are not heard. -/
theorem parallel_transformed_givesBack (hfilter : options.hooks.FilterUnaware alike)
    (hback : GivesBack alike transform) {path : List Container} {inv : World σ → Prop}
    (hinv : Maintains (options.transforming (some transform)).hooks path inv) (c : Container)
    (p : Position) (text : String) :
    Parallel ((hfilter.likeness (!·.isTransforming)).keeping inv) path
      (transformed (options.transforming (some transform)).hooks c p text)
      (transformed (options.transforming none).hooks c p text) Eq := by
  rintro ⟨world, active, journal⟩ ⟨world', active', journal'⟩ hpath hrun
  obtain ⟨⟨halike, hw⟩, hactive, hjournal⟩ := hrun
  obtain ⟨u, hcall, hu⟩ := hback c p text world world' halike
  have hstep : transformed (options.transforming (some transform)).hooks c p text
      ⟨world, active, journal⟩ =
      .ok text ⟨u, active, .transforming c p (world.heap.count c) text :: journal⟩ := by
    change call (transform c p text)
      ⟨world, active, .transforming c p (world.heap.count c) text :: journal⟩ = _
    rw [call, hcall]
  rw [hstep]
  refine .ok rfl hpath ⟨⟨hu, ?_⟩, hactive, hjournal⟩
  exact hinv.transform transform rfl c p text world text u hw hcall

theorem writesAlike_of_givesBack (hfilter : options.hooks.FilterUnaware alike)
    (hback : GivesBack alike transform) :
    WritesAlike (hfilter.likeness (!·.isTransforming)) (options.transforming (some transform))
      (options.transforming none) where
  unit := rfl
  atom _ := rfl
  laid _ _ := parallel_laid options.style
  shown path inv hinv o k ho := parallel_shown hinv (hfilter.rel_answer o k inv) ho
  element path inv hinv r i text := parallel_transformed_givesBack hfilter hback hinv _ _ text
  field path inv hinv o k text w₀ w₀' _ _ := by
    refine (parallel_transformed_givesBack hfilter hback hinv _ _ text).imp ?_
    rintro text _ rfl
    rfl

end Rendering

/-- The texts that a transform gives for methods are ignored: two transforms that otherwise give the
same texts make the same rendering, with the same result and the same events, layouts and
questions of hooks among them.  And a transform that gives every text back makes the same rendering
as none, calls of it apart. -/
theorem render_ignores_method_texts {options : Options σ}
    (hshorthand : options.style.methodShorthand = true) {alike : World σ → World σ → Prop}
    (hfilter : options.hooks.FilterUnaware alike) (pad : String) (v : Value) {w w' : World σ}
    (hw : alike w w') :
    (∀ transform transform', options.SameButMethods alike transform transform' →
      (render (options.transforming (some transform')) pad v w').result =
          (render (options.transforming (some transform)) pad v w).result ∧
        (render (options.transforming (some transform')) pad v w').events =
          (render (options.transforming (some transform)) pad v w).events ∧
        alike (render (options.transforming (some transform)) pad v w).world
          (render (options.transforming (some transform')) pad v w').world) ∧
      ∀ transform, GivesBack alike transform →
        (render (options.transforming none) pad v w').result =
            (render (options.transforming (some transform)) pad v w).result ∧
          apartFromTransforms (render (options.transforming none) pad v w').events =
            apartFromTransforms (render (options.transforming (some transform)) pad v w).events ∧
          alike (render (options.transforming (some transform)) pad v w).world
            (render (options.transforming none) pad v w').world := by
  refine ⟨fun transform transform' hsame => ?_, fun transform hback => ?_⟩
  · have hbeside := render_beside
      (Rendering.writesAlike_of_sameButMethods hshorthand hfilter hsame) rfl pad v hw
    have hall : ∀ events : List Event, events.filter (fun _ => true) = events :=
      fun events => List.filter_eq_self.mpr fun _ _ => rfl
    exact ⟨hbeside.result, (hall _).symm.trans (hbeside.events.trans (hall _)), hbeside.world⟩
  · have hbeside := render_beside (Rendering.writesAlike_of_givesBack hfilter hback) rfl pad v hw
    exact ⟨hbeside.result, hbeside.events, hbeside.world⟩

namespace MethodsWitness

def method : Callable :=
  ⟨0, "m", .normal, some "m() \x7b\x7d"⟩

/-- How often the transform was called, and what a field held. -/
structure Memory where
  calls : Nat
  field : Value

/-- A filter that keeps a field in mind when it is asked about the object of the field, and takes the
method out of it when it is asked about another object. -/
def mindful (o : ObjectRef) (_ : Key) : HookM Memory Bool := fun w =>
  if o = ⟨0⟩ then .ok true ⟨w.heap, { w.state with field := taken w.heap ⟨0⟩ (.name "m") }⟩
  else .ok true ⟨(w.heap.insert ⟨0⟩ (.name "m") (.atom .null)).2, w.state⟩

def options : Options Memory where
  hooks := { filter := some mindful }

/-- A transform that counts its calls and gives a text of its own for a method. -/
def counting (c : Container) (p : Position) (text : String) : HookM Memory String := fun w =>
  let isMethod := (w.state.field.callable?.bind Callable.methodSource?).isSome
  .ok (if c = .object ⟨0⟩ ∧ p = .key (.name "m") ∧ isMethod then "ignored" else text)
    ⟨w.heap, { w.state with calls := w.state.calls + 1 }⟩

def still (_ : Container) (_ : Position) (text : String) : HookM Memory String := fun w =>
  .ok text w

/-- An object that holds another one in front of a method. -/
def world : World Memory :=
  ⟨⟨#[], #[⟨[(.name "inner", ⟨.object ⟨1⟩, true⟩), (.name "m", ⟨.atom (.callable method), true⟩)]⟩,
    ⟨[(.name "x", ⟨.atom .null, true⟩)]⟩], 1⟩, ⟨0, .atom .null⟩⟩

/-- Worlds of one heap, with the same in mind. -/
def Alike (w w' : World Memory) : Prop :=
  w'.heap = w.heap ∧ w'.state.field = w.state.field

theorem filterUnaware : options.hooks.FilterUnaware Alike where
  heap_eq halike := halike.1
  answer f hf o k w w' := by
    rintro ⟨hheap, hfield⟩
    cases hf
    rw [mindful, mindful, hheap]
    split
    · exact .ok rfl ⟨rfl, rfl⟩
    · exact .ok rfl ⟨rfl, hfield⟩

theorem field_of_asked {u : World Memory}
    (hasked : Asked (options.transforming (some counting)).hooks ⟨0⟩ u) :
    u.state.field = taken u.heap ⟨0⟩ (.name "m") := by
  obtain ⟨k, keep, u₀, hcall⟩ := hasked _ rfl
  cases hcall
  rfl

theorem maintains_field (v : Value) :
    Maintains (options.transforming (some counting)).hooks [.object ⟨0⟩]
      fun w => w.state.field = v where
  filter f hf o k w keep w' ho hw hcall := by
    cases hf
    have hne : o ≠ ⟨0⟩ := by
      rintro rfl
      exact ho List.mem_cons_self
    rw [mindful, if_neg hne] at hcall
    cases hcall
    exact hw
  transform f hf _ _ _ w _ _ hw hcall := by
    cases hf
    cases hcall
    exact hw

theorem sameButMethods : options.SameButMethods Alike counting still := by
  rintro c p text w w' ⟨hheap, hfield⟩
  refine ⟨_, _, _, _, rfl, rfl, ⟨hheap, hfield⟩, ?_⟩
  by_cases hc : c = .object ⟨0⟩ ∧ p = .key (.name "m") ∧
      (w.state.field.callable?.bind Callable.methodSource?).isSome = true
  · obtain ⟨rfl, rfl, hsome⟩ := hc
    obtain ⟨source, hsource⟩ := Option.isSome_iff_exists.mp hsome
    obtain ⟨callable, hcallable, hmethod⟩ := Option.bind_eq_some_iff.mp hsource
    refine Or.inr (Hooks.atMethod_of_recalled (fun _ => field_of_asked) maintains_field Alike ?_)
    exact ⟨callable, hcallable, hmethod ▸ rfl⟩
  · exact Or.inl (if_neg hc)

theorem givesBack : GivesBack Alike still :=
  fun _ _ _ w _ halike => ⟨w, rfl, halike⟩

/-- The method is written, which was in the field when the entries were taken and is not there any
more when the transform is called for it. -/
def text : String :=
  "\x7b\n\tinner: \x7b\n\t\tx: null\n\t\x7d,\n\tm() \x7b\x7d\n\x7d"

theorem render_ignores_method_texts_counting :
    options.style.methodShorthand = true ∧ options.hooks.FilterUnaware Alike ∧
      Alike world world ∧ options.SameButMethods Alike counting still ∧ GivesBack Alike still ∧
      (render (options.transforming (some counting)) "" (.object ⟨0⟩) world).result = .ok text ∧
      (render (options.transforming none) "" (.object ⟨0⟩) world).result = .ok text := by
  have hshorthand : options.style.methodShorthand = true := rfl
  have hworld : Alike world world := ⟨rfl, rfl⟩
  obtain ⟨hsame, hback⟩ :=
    render_ignores_method_texts hshorthand filterUnaware "" (.object ⟨0⟩) hworld
  have htext : (render (options.transforming (some still)) "" (.object ⟨0⟩) world).result =
      .ok text :=
    Outcome.result_eq_ok (by decide +kernel)
  refine ⟨hshorthand, filterUnaware, hworld, sameButMethods, givesBack, ?_, ?_⟩
  · rw [← (hsame counting still sameButMethods).1]
    exact htext
  · rw [(hback still givesBack).1]
    exact htext

end MethodsWitness

end ObjectLiteral
