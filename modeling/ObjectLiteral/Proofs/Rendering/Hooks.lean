import ObjectLiteral.Proofs.Heap.Containers
import ObjectLiteral.Rendering
/-!
Hooks that do not interfere: they end every call without a failure and leave the contents of all
containers as they are, though they may make new ones.  What a rendering may then rely on is that
the heap stays as steady as it needs it, a relation for the answers of the filter and one for the
texts of the transform.
-/

namespace ObjectLiteral

variable {σ α : Type}

/-- Hooks whose calls never fail and change no container. -/
structure Hooks.Harmless (hooks : Hooks σ) : Prop where
  filter : ∀ f, hooks.filter = some f → ∀ o k w, ∃ keep w',
    f o k w = .ok keep w' ∧ w.heap.Keeps w'.heap
  transform : ∀ f, hooks.transform = some f → ∀ c p text w, ∃ text' w',
    f c p text w = .ok text' w' ∧ w.heap.Keeps w'.heap

/-- Hooks that change no container.  Their calls may fail. -/
structure Hooks.Preserving (hooks : Hooks σ) : Prop where
  filter : ∀ f, hooks.filter = some f → ∀ o k w keep w',
    f o k w = .ok keep w' → w.heap.Keeps w'.heap
  transform : ∀ f, hooks.transform = some f → ∀ c p text w text' w',
    f c p text w = .ok text' w' → w.heap.Keeps w'.heap

/-- Hooks that only choose keys: there is no transform, and a filter answers by `keep` and changes
no container.  Without a filter all keys are kept. -/
structure Hooks.Select (hooks : Hooks σ) (keep : ObjectRef → Key → Bool) : Prop where
  no_transform : hooks.transform = none
  filter : ∀ f, hooks.filter = some f → ∀ o k w, ∃ w',
    f o k w = .ok (keep o k) w' ∧ w.heap.Keeps w'.heap
  no_filter : hooks.filter = none → ∀ o k, keep o k = true

/-- Hooks that keep the heap steady, whose filter answers as `answers` allows and whose transform
gives texts as `rewrites` allows.  A missing hook keeps every key, and every text. -/
structure Hooks.Gentle (hooks : Hooks σ) (steady : Heap → Prop)
    (answers : ObjectRef → Key → Bool → Prop)
    (rewrites : Container → Position → String → String → Prop) : Prop where
  filter : ∀ f, hooks.filter = some f → ∀ o k w, steady w.heap → ∃ keep w',
    f o k w = .ok keep w' ∧ answers o k keep ∧ steady w'.heap
  no_filter : hooks.filter = none → ∀ o k, answers o k true
  transform : ∀ f, hooks.transform = some f → ∀ c p text w, steady w.heap → ∃ text' w',
    f c p text w = .ok text' w' ∧ rewrites c p text text' ∧ steady w'.heap
  no_transform : hooks.transform = none → ∀ c p text, rewrites c p text text

/-- The end of a call with a result or with a failure instead of it. -/
def HookM.ended (w : World σ) : Except Failure α → EStateM.Result Failure (World σ) α
  | .ok a => .ok a w
  | .error f => .error f w

/-- Hooks that look at nothing but what they are asked: the filter answers by `keep`, the transform
gives texts or failures by `rewrite`, and no container is changed.  Without a filter all keys are
kept, and without a transform all texts. -/
structure Hooks.Blind (hooks : Hooks σ) (keep : ObjectRef → Key → Bool)
    (rewrite : Position → String → Except Failure String) : Prop where
  filter : ∀ f, hooks.filter = some f → ∀ o k w, ∃ w',
    f o k w = .ok (keep o k) w' ∧ w.heap.Keeps w'.heap
  no_filter : hooks.filter = none → ∀ o k, keep o k = true
  transform : ∀ f, hooks.transform = some f → ∀ c p text w, ∃ w',
    f c p text w = HookM.ended w' (rewrite p text) ∧ w.heap.Keeps w'.heap
  no_transform : hooks.transform = none → ∀ p text, rewrite p text = .ok text

/-- Hooks that answer by `keep` and `rewrite` and keep the heap steady, as long as it is. -/
structure Hooks.Answers (hooks : Hooks σ) (steady : Heap → Prop)
    (keep : ObjectRef → Key → Bool) (rewrite : Position → String → Except Failure String) :
    Prop where
  filter : ∀ f, hooks.filter = some f → ∀ o k w, steady w.heap → ∃ w',
    f o k w = .ok (keep o k) w' ∧ steady w'.heap
  no_filter : hooks.filter = none → ∀ o k, keep o k = true
  transform : ∀ f, hooks.transform = some f → ∀ c p text w, steady w.heap → ∃ w',
    f c p text w = HookM.ended w' (rewrite p text) ∧ steady w'.heap
  no_transform : hooks.transform = none → ∀ p text, rewrite p text = .ok text

theorem Hooks.Harmless.gentle {hooks : Hooks σ} (hhooks : hooks.Harmless) (h : Heap) :
    hooks.Gentle h.Keeps (fun _ _ _ => True) (fun _ _ _ _ => True) where
  filter f hf o k w hw := by
    obtain ⟨keep, w', hcall, hkeeps⟩ := hhooks.filter f hf o k w
    exact ⟨keep, w', hcall, trivial, hw.trans hkeeps⟩
  no_filter _ _ _ := trivial
  transform f hf c p text w hw := by
    obtain ⟨text', w', hcall, hkeeps⟩ := hhooks.transform f hf c p text w
    exact ⟨text', w', hcall, trivial, hw.trans hkeeps⟩
  no_transform _ _ _ _ := trivial

theorem Hooks.Select.gentle {hooks : Hooks σ} {keep : ObjectRef → Key → Bool}
    (hhooks : hooks.Select keep) (h : Heap) :
    hooks.Gentle h.Keeps (fun o k answer => answer = keep o k)
      (fun _ _ text text' => text' = text) where
  filter f hf o k w hw := by
    obtain ⟨w', hcall, hkeeps⟩ := hhooks.filter f hf o k w
    exact ⟨keep o k, w', hcall, rfl, hw.trans hkeeps⟩
  no_filter hnone o k := (hhooks.no_filter hnone o k).symm
  transform f hf := by
    rw [hhooks.no_transform] at hf
    cases hf
  no_transform _ _ _ _ := rfl

/-- Without hooks the heap stays as steady as one likes, and all keys and texts are kept. -/
theorem Hooks.gentle_none (steady : Heap → Prop) :
    Hooks.Gentle ({} : Hooks σ) steady (fun _ _ answer => answer = true)
      (fun _ _ text text' => text' = text) where
  filter f hf := by cases hf
  no_filter _ _ _ := rfl
  transform f hf := by cases hf
  no_transform _ _ _ _ := rfl

theorem Hooks.Blind.answers {hooks : Hooks σ} {keep : ObjectRef → Key → Bool}
    {rewrite : Position → String → Except Failure String} (hhooks : hooks.Blind keep rewrite)
    (h : Heap) : hooks.Answers h.Keeps keep rewrite where
  filter f hf o k w hw := by
    obtain ⟨w', hcall, hkeeps⟩ := hhooks.filter f hf o k w
    exact ⟨w', hcall, hw.trans hkeeps⟩
  no_filter := hhooks.no_filter
  transform f hf c p text w hw := by
    obtain ⟨w', hcall, hkeeps⟩ := hhooks.transform f hf c p text w
    exact ⟨w', hcall, hw.trans hkeeps⟩
  no_transform := hhooks.no_transform

theorem Hooks.Blind.harmless {hooks : Hooks σ} {keep : ObjectRef → Key → Bool}
    {rewrite : Position → String → Except Failure String} (hhooks : hooks.Blind keep rewrite)
    (hrewrite : ∀ p text, ∃ text', rewrite p text = .ok text') : hooks.Harmless where
  filter f hf o k w := by
    obtain ⟨w', hcall, hkeeps⟩ := hhooks.filter f hf o k w
    exact ⟨keep o k, w', hcall, hkeeps⟩
  transform f hf c p text w := by
    obtain ⟨w', hcall, hkeeps⟩ := hhooks.transform f hf c p text w
    obtain ⟨text', htext⟩ := hrewrite p text
    rw [htext] at hcall
    exact ⟨text', w', hcall, hkeeps⟩

/-- Without a filter the same hooks keep every key. -/
theorem Hooks.Blind.without_filter {hooks : Hooks σ} {keep : ObjectRef → Key → Bool}
    {rewrite : Position → String → Except Failure String} (hhooks : hooks.Blind keep rewrite) :
    { hooks with filter := none }.Blind (fun _ _ => true) rewrite where
  filter f hf := by cases hf
  no_filter _ _ _ := rfl
  transform := hhooks.transform
  no_transform := hhooks.no_transform

/-- Without hooks the heap stays as steady as one likes. -/
theorem Hooks.answers_none (steady : Heap → Prop) :
    Hooks.Answers ({} : Hooks σ) steady (fun _ _ => true) (fun _ text => .ok text) where
  filter f hf := by cases hf
  no_filter _ _ _ := rfl
  transform f hf := by cases hf
  no_transform _ _ _ := rfl

end ObjectLiteral
