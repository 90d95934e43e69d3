import ObjectLiteral.Proofs.Heap.Pruning
import ObjectLiteral.Proofs.Rendering.Depth
import ObjectLiteral.Proofs.Rendering.Writing
/-!
Hidden properties.  To filter properties is to delete them: what is stored under a key that is
rejected or not enumerable leaves no trace in the text, in the layouts or in the cuts, not even
through a cycle that closes behind it.
-/

namespace ObjectLiteral

variable {σ : Type}

def Options.unfiltered (options : Options σ) : Options σ :=
  ⟨options.style, { options.hooks with filter := none }⟩

/-- Two renderings give the same text, or stop for the same cause, after the same cuts and
layouts. -/
structure Outcome.LooksAs (outcome outcome' : Outcome σ) : Prop where
  result : outcome'.result = outcome.result
  shape : shape outcome'.events = shape outcome.events

theorem render_blind {options : Options σ} {keep : ObjectRef → Key → Bool}
    {rewrite : Position → String → Except Failure String}
    (hhooks : options.hooks.Blind keep rewrite) (pad : String) {v : Value} {w : World σ}
    (hclosed : w.heap.Closed) (hv : w.heap.Has v) :
    (render options pad v w).result =
        ((w.heap.unfold keep [] v).written options.style rewrite pad).1.mapError .failed ∧
      shape (render options pad v w).events =
        ((w.heap.unfold keep [] v).written options.style rewrite pad).2 :=
  render_written (Rendering.frame_keeps hclosed) (hhooks.answers w.heap) (.refl w.heap) pad hv

/-- Renderings under blind hooks look alike as soon as the unfoldings do. -/
theorem looksAs_of_unfold {options options' : Options σ} {keep keep' : ObjectRef → Key → Bool}
    {rewrite : Position → String → Except Failure String}
    (hhooks : options.hooks.Blind keep rewrite) (hhooks' : options'.hooks.Blind keep' rewrite)
    (hstyle : options'.style = options.style) (pad : String) {v : Value} {w w' : World σ}
    (hclosed : w.heap.Closed) (hclosed' : w'.heap.Closed) (hv : w.heap.Has v)
    (hv' : w'.heap.Has v) (hsame : w'.heap.unfold keep' [] v = w.heap.unfold keep [] v) :
    (render options pad v w).LooksAs (render options' pad v w') := by
  obtain ⟨hresult, hshape⟩ := render_blind hhooks pad hclosed hv
  obtain ⟨hresult', hshape'⟩ := render_blind hhooks' pad hclosed' hv'
  rw [hsame, hstyle] at hresult' hshape'
  exact ⟨hresult'.trans hresult.symm, hshape'.trans hshape.symm⟩

/-- A rendering with a filter looks as without it in the heap that has lost the hidden properties.
So it looks the same in every heap that shows the same from the value on, and there is a text as
long as the transform never fails. -/
theorem render_pruned {options : Options σ} {keep : ObjectRef → Key → Bool}
    {rewrite : Position → String → Except Failure String}
    (hhooks : options.hooks.Blind keep rewrite) (pad : String) {v : Value} {w : World σ}
    (hkeyed : w.heap.Keyed) (hclosed : w.heap.Closed) (hv : w.heap.Has v) :
    (render options pad v w).LooksAs
        (render options.unfiltered pad v ⟨w.heap.pruned keep, w.state⟩) ∧
      (∀ w' : World σ, w'.heap.Keyed → w'.heap.Closed → w'.heap.Has v →
        w.heap.ShowsAs keep v w'.heap →
          (render options pad v w).LooksAs (render options pad v w')) ∧
      ((∀ p text, ∃ text', rewrite p text = .ok text') →
        ∃ text, (render options pad v w).result = .ok text) := by
  refine ⟨?_, fun w' hkeyed' hclosed' hv' hshows => ?_, fun hrewrite => ?_⟩
  · have hbare : options.unfiltered.hooks.Blind (fun _ _ => true) rewrite := hhooks.without_filter
    refine looksAs_of_unfold hhooks hbare rfl pad hclosed ?_ hv ?_ ?_
    · exact Heap.closed_pruned hclosed
    · exact Heap.has_pruned hv
    · exact Heap.unfold_pruned hkeyed [] v
  · exact looksAs_of_unfold hhooks hhooks rfl pad hclosed hclosed' hv hv'
      (hshows.unfold hkeyed hkeyed')
  · exact exists_text_of_harmless (hhooks.harmless hrewrite) pad hclosed hv

namespace HidingWitness

def keep (_ : ObjectRef) (k : Key) : Bool :=
  k != .name "secret"

/-- A transform that marks the entries of arrays and refuses the key `worse`. -/
def rewrite : Position → String → Except Failure String
  | .index i, text => .ok (Numeral.ofNat i ++ "=" ++ text)
  | .key k, text => if k = .name "worse" then .error (.hook "worse") else .ok text

/-- Hooks that count their calls, the filter making an array each time. -/
def hooks : Hooks Nat where
  filter := some fun o k w => .ok (keep o k) ⟨(w.heap.newArray #[]).2, w.state + 1⟩
  transform := some fun _ p text w => HookM.ended ⟨w.heap, w.state + 1⟩ (rewrite p text)

def options : Options Nat :=
  ⟨{ indent := " " }, hooks⟩

theorem blind_hooks : options.hooks.Blind keep rewrite where
  filter f hf o k w := by
    cases hf
    exact ⟨_, rfl, w.heap.keeps_newArray #[]⟩
  no_filter hnone := by cases hnone
  transform f hf c p text w := by
    cases hf
    exact ⟨_, rfl, .refl w.heap⟩
  no_transform hnone := by cases hnone

/-- A heap with an array of an object that holds something hidden twice. -/
def heap (secret hidden : Value) : Heap :=
  ⟨#[#[.object ⟨0⟩]],
    #[⟨[(.name "secret", ⟨secret, true⟩), (.name "b", ⟨.array ⟨0⟩, true⟩),
      (.name "a", ⟨hidden, false⟩)]⟩, ⟨[(.name "back", ⟨.object ⟨0⟩, true⟩)]⟩], 0⟩

/-- Behind the hidden keys there is a cycle. -/
def cyclic : Heap :=
  heap (.object ⟨1⟩) (.array ⟨0⟩)

/-- Behind the hidden keys there are atoms. -/
def plain : Heap :=
  heap (.atom .null) (.atom (.string "any"))

theorem showsAs_plain (v : Value) : cyclic.ShowsAs keep v plain := by
  intro route ancestors u _
  refine ⟨fun _ _ => rfl, fun o _ => ?_⟩
  obtain ⟨i⟩ := o
  match i with
  | 0 => decide
  | 1 => rfl
  | _ + 2 => rfl

theorem render_pruned_cyclic :
    options.hooks.Blind keep rewrite ∧ cyclic.Keyed ∧ cyclic.Closed ∧ cyclic.Has (.array ⟨0⟩) ∧
      cyclic.ShowsAs keep (.array ⟨0⟩) plain ∧
      (render options.unfiltered "" (.array ⟨0⟩) ⟨cyclic.pruned keep, 0⟩).result =
        .ok "[\n 0=\x7b\n  b: \"[Circular]\"\n \x7d\n]" ∧
      (render options "" (.array ⟨0⟩) ⟨cyclic, 0⟩).result =
        .ok "[\n 0=\x7b\n  b: \"[Circular]\"\n \x7d\n]" ∧
      (render options "" (.array ⟨0⟩) ⟨cyclic, 0⟩).LooksAs
        (render options "" (.array ⟨0⟩) ⟨plain, 7⟩) := by
  have hkeyed : cyclic.Keyed ∧ plain.Keyed := by decide
  have hclosed : cyclic.Closed ∧ plain.Closed := by decide
  have hv : cyclic.Has (.array ⟨0⟩) ∧ plain.Has (.array ⟨0⟩) := by decide
  obtain ⟨hpruned, hshown, -⟩ :=
    render_pruned (w := ⟨cyclic, 0⟩) blind_hooks "" hkeyed.1 hclosed.1 hv.1
  have hbare : (render options.unfiltered "" (.array ⟨0⟩) ⟨cyclic.pruned keep, 0⟩).result =
      .ok "[\n 0=\x7b\n  b: \"[Circular]\"\n \x7d\n]" :=
    Outcome.result_eq_ok (by decide +kernel)
  exact ⟨blind_hooks, hkeyed.1, hclosed.1, hv.1, showsAs_plain _, hbare,
    hpruned.result.symm.trans hbare,
    hshown ⟨plain, 7⟩ hkeyed.2 hclosed.2 hv.2 (showsAs_plain _)⟩

end HidingWitness

end ObjectLiteral
