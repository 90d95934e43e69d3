import ObjectLiteral.Inspection
import ObjectLiteral.Proofs.Rendering.Lifting
import ObjectLiteral.Proofs.Rendering.Texts
/-!
The depth of a rendering.  More depth changes nothing for a rendering that does not lack it, and
where hooks do not interfere one level more than the heap has containers is enough.
-/

namespace ObjectLiteral

variable {σ α β : Type}

namespace Rendering

/-- Wherever a step does not stop for want of depth, the other step does the same. -/
def Extends (m m' : RenderM σ α) : Prop :=
  ∀ run, (∃ run', m run = .error .tooDeep run') ∨ m' run = m run

theorem Extends.refl (m : RenderM σ α) : Extends m m :=
  fun _ => Or.inr rfl

theorem Extends.bind {m m' : RenderM σ α} {f f' : α → RenderM σ β} (hm : Extends m m')
    (hf : ∀ a, Extends (f a) (f' a)) : Extends (m >>= f) (m' >>= f') := by
  intro run
  simp only [Bind.bind, EStateM.bind]
  rcases hm run with ⟨run', hdeep⟩ | hsame
  · rw [hdeep]
    exact Or.inl ⟨run', rfl⟩
  · rw [hsame]
    cases m run with
    | ok a run' => exact hf a run'
    | error stop run' => exact Or.inr rfl

theorem Extends.within {m m' : RenderM σ α} (hm : Extends m m') (c : Container) :
    Extends (within c m) (within c m') := by
  rintro ⟨world, active, journal⟩
  simp only [Rendering.within]
  rcases hm ⟨world, c :: active, journal⟩ with ⟨run', hdeep⟩ | hsame
  · rw [hdeep]
    exact Or.inl ⟨_, rfl⟩
  · rw [hsame]
    exact Or.inr rfl

theorem Extends.unlessActive {text text' : RenderM σ String} (htext : Extends text text')
    (c : Container) : Extends (unlessActive c text) (unlessActive c text') := by
  refine (Extends.refl _).bind fun run => ?_
  by_cases hc : c ∈ run.active
  · rw [if_pos hc, if_pos hc]
    exact .refl _
  · rw [if_neg hc, if_neg hc]
    exact htext

theorem lifts_extends (hooks : Hooks σ) :
    Lifts hooks hooks (fun {_} m m' => Extends m m') where
  pure _ := .refl _
  bind := Extends.bind
  heap := .refl _
  tell _ := .refl _
  within c := fun hm => hm.within c
  unlessActive c := fun hm => hm.unlessActive c
  filter := by
    cases hooks.filter with
    | none => exact .none
    | some f => exact .some fun _ _ => .refl _
  transform := by
    cases hooks.transform with
    | none => exact .none
    | some f => exact .some fun _ _ _ => .refl _

/-- More levels change nothing for a value that is written with the levels there are. -/
theorem extends_value (options : Options σ) {depth depth' : Nat} (hle : depth ≤ depth')
    (pad : String) (v : Value) :
    Extends (value options depth pad v) (value options depth' pad v) := by
  obtain ⟨extra, rfl⟩ := Nat.exists_eq_add_of_le' hle
  exact (lifts_extends options.hooks).value options.style extra
    (fun _ _ run => Or.inl ⟨run, rfl⟩) depth pad v

/-- With harmless hooks a value has a text as soon as the depth exceeds the room. -/
theorem settles_of_harmless {options : Options σ} (hhooks : options.hooks.Harmless) {h : Heap}
    (hclosed : h.Closed) {depth : Nat} {path : List Container} (hroom : h.room path < depth)
    (pad : String) {v : Value} (hv : h.Has v) :
    Settles h.Keeps path (value options depth pad v) fun _ => True := by
  have hany : Describes options h (fun _ _ _ => True) (fun _ _ _ _ => True)
      (fun _ _ _ _ => True) :=
    { atom := fun _ _ _ => trivial
      cut := fun _ _ _ _ _ _ => trivial
      array := fun _ _ _ _ _ _ => trivial
      object := fun _ _ _ _ _ _ _ _ => trivial }
  exact settles_value (frame_keeps hclosed) (hhooks.gentle h) hany hroom pad hv

end Rendering

/-- With harmless hooks a rendering gives a text. -/
theorem exists_text_of_harmless {options : Options σ} (hhooks : options.hooks.Harmless)
    (pad : String) {v : Value} {w : World σ} (hclosed : w.heap.Closed) (hv : w.heap.Has v) :
    ∃ text, (render options pad v w).result = .ok text := by
  obtain ⟨text, run, hrun, -⟩ := Rendering.settles_of_harmless hhooks hclosed
    (options.room_lt_depth w.heap) pad hv ⟨w, [], []⟩ ⟨.refl w.heap, rfl⟩
  exact ⟨text, by rw [render, hrun]⟩

/-- An atom is written by its literal alone, whatever the hooks. -/
theorem render_atom (options : Options σ) (pad : String) (a : Atom) (w : World σ) :
    render options pad (.atom a) w = ⟨.ok (a.literal options.style), w, []⟩ := by
  have hdepth : options.depth w.heap = w.heap.size + options.hooks.growth + 1 := by
    rw [Options.depth]
    omega
  rw [render, hdepth]
  rfl

theorem Heap.literal?_eq_some (h : Heap) (style : Style) (pad : String) (v : Value) :
    h.literal? style pad v = some ((h.unfolding v).text style pad) := by
  rw [literal?, render_without_hooks]
  rfl

theorem Heap.literal?_atom (h : Heap) (style : Style) (pad : String) (a : Atom) :
    h.literal? style pad (.atom a) = some (a.literal style) := by
  rw [literal?_eq_some, unfolding, unfold, Tree.text]

theorem Heap.literal?_eq_some_literal (h : Heap) (style : Style) (v : Value) :
    h.literal? style "" v = some (h.literal style v) := by
  rw [literal, literal?_eq_some, Option.getD_some]

/-- A rendering whose hooks never fail and change no container ends with a text, whatever the
references of the heap: one level more than there are containers is all the depth it takes, no
container has changed, and none is active.  So the texts without hooks are never the empty text
that stands for a missing one. -/
theorem render_total {options : Options σ} (hhooks : options.hooks.Harmless) (pad : String)
    {v : Value} {w : World σ} (hclosed : w.heap.Closed) (hv : w.heap.Has v) :
    (∃ text run,
        Rendering.value options (w.heap.size + 1) pad v ⟨w, [], []⟩ = .ok text run ∧
        render options pad v w = ⟨.ok text, run.world, run.journal.reverse⟩ ∧
        w.heap.Keeps run.world.heap ∧ run.active = []) ∧
      (∀ style, ∃ text, w.heap.literal? style pad v = some text) ∧
      w.heap.literal? {} "" v = some (w.heap.display v) ∧
      w.heap.literal? Inspection.style "" v = some (w.heap.wideLiteral v) := by
  refine ⟨?_, ?_, ?_, ?_⟩
  · have hroom : w.heap.room [] < w.heap.size + 1 := by
      rw [Heap.room_nil]
      exact Nat.lt_succ_self _
    obtain ⟨text, run, hrun, -, hkeeps, hactive⟩ :=
      Rendering.settles_of_harmless hhooks hclosed hroom pad hv ⟨w, [], []⟩
        ⟨.refl w.heap, rfl⟩
    have hdepth : w.heap.size + 1 ≤ options.depth w.heap := Nat.le_add_right _ _
    have hsame : Rendering.value options (options.depth w.heap) pad v ⟨w, [], []⟩ =
        .ok text run := by
      rcases Rendering.extends_value options hdepth pad v ⟨w, [], []⟩ with ⟨run', hdeep⟩ | hsame
      · rw [hrun] at hdeep
        cases hdeep
      · rw [hsame, hrun]
    refine ⟨text, run, hrun, ?_, hkeeps, hactive⟩
    rw [render, hsame]
  · exact fun style => ⟨_, w.heap.literal?_eq_some style pad v⟩
  · exact w.heap.literal?_eq_some_literal {} v
  · exact w.heap.literal?_eq_some_literal Inspection.style v

namespace DepthWitness

/-- A filter that makes an array on every call, and a transform that numbers the entries. -/
def hooks : Hooks Nat where
  filter := some fun _ _ w => .ok true ⟨(w.heap.newArray #[]).2, w.state⟩
  transform := some fun _ _ text w =>
    .ok (Numeral.ofNat w.state ++ text) ⟨w.heap, w.state + 1⟩

theorem harmless_hooks : hooks.Harmless where
  filter f hf o k w := by
    cases hf
    exact ⟨_, _, rfl, w.heap.keeps_newArray #[]⟩
  transform f hf c p text w := by
    cases hf
    exact ⟨_, _, rfl, .refl w.heap⟩

def heap : Heap :=
  ⟨#[#[.object ⟨0⟩]], #[⟨[(.name "list", ⟨.array ⟨0⟩, true⟩)]⟩], 0⟩

theorem render_total_cycle :
    hooks.Harmless ∧ heap.Closed ∧ heap.Has (.array ⟨0⟩) ∧
      ∃ text run, Rendering.value ⟨{}, hooks⟩ 3 "" (.array ⟨0⟩) ⟨⟨heap, 0⟩, [], []⟩ =
          .ok text run ∧
        heap.Keeps run.world.heap ∧ run.active = [] := by
  have hclosed : heap.Closed := by decide
  have hroot : heap.Has (.array ⟨0⟩) := by decide
  obtain ⟨⟨text, run, hrun, -, hkeeps, hactive⟩, -⟩ :=
    render_total (w := ⟨heap, 0⟩) (show (Options.mk {} hooks).hooks.Harmless from harmless_hooks)
      "" hclosed hroot
  exact ⟨harmless_hooks, hclosed, hroot, text, run, hrun, hkeeps, hactive⟩

end DepthWitness

end ObjectLiteral
