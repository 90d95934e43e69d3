import ObjectLiteral.Rendering
/-!
Relations between renderings under different hooks.  A relation that holds of the calls of the
hooks and is kept by everything that a rendering is put together with holds of the renderings of
every value.
-/

namespace ObjectLiteral

namespace Rendering

variable {σ τ : Type} {hooks : Hooks σ} {hooks' : Hooks τ}
  {R : {α : Type} → RenderM σ α → RenderM τ α → Prop}

/-- A relation between the steps of two renderings that is kept by everything that a rendering is
put together with. -/
structure Lifts (hooks : Hooks σ) (hooks' : Hooks τ)
    (R : {α : Type} → RenderM σ α → RenderM τ α → Prop) : Prop where
  pure : ∀ {α : Type} (a : α), R (Pure.pure a) (Pure.pure a)
  bind : ∀ {α β : Type} {m : RenderM σ α} {m' : RenderM τ α} {f : α → RenderM σ β}
    {f' : α → RenderM τ β}, R m m' → (∀ a, R (f a) (f' a)) → R (m >>= f) (m' >>= f')
  heap : R heap heap
  tell : ∀ e, R (tell e) (tell e)
  within : ∀ {α : Type} (c : Container) {m : RenderM σ α} {m' : RenderM τ α},
    R m m' → R (within c m) (within c m')
  unlessActive : ∀ (c : Container) {m : RenderM σ String} {m' : RenderM τ String},
    R m m' → R (unlessActive c m) (unlessActive c m')
  filter : Option.Rel (fun f f' => ∀ o k, R (call (f o k)) (call (f' o k)))
    hooks.filter hooks'.filter
  transform : Option.Rel (fun f f' => ∀ c p text, R (call (f c p text)) (call (f' c p text)))
    hooks.transform hooks'.transform

namespace Lifts

variable {child : Value → RenderM σ String} {child' : Value → RenderM τ String}

theorem asked (hlifts : Lifts hooks hooks' R) (event : Heap → Event) {α : Type} {f : HookM σ α}
    {f' : HookM τ α} (hf : R (call f) (call f')) :
    R (do Rendering.tell (event (← Rendering.heap)); call f)
      (do Rendering.tell (event (← Rendering.heap)); call f') :=
  hlifts.bind hlifts.heap fun _ => hlifts.bind (hlifts.tell _) fun _ => hf

theorem shown (hlifts : Lifts hooks hooks' R) (o : ObjectRef) (k : Key) :
    R (shown hooks o k) (shown hooks' o k) := by
  have hfilter := hlifts.filter
  unfold Rendering.shown
  generalize hooks.filter = filter at hfilter ⊢
  generalize hooks'.filter = filter' at hfilter ⊢
  cases hfilter with
  | none => exact hlifts.pure true
  | some hcall => exact hlifts.asked (fun h => .filtering o k (h.count (.object o))) (hcall o k)

theorem transformed (hlifts : Lifts hooks hooks' R) (c : Container) (p : Position)
    (text : String) : R (transformed hooks c p text) (transformed hooks' c p text) := by
  have htransform := hlifts.transform
  unfold Rendering.transformed
  generalize hooks.transform = transform at htransform ⊢
  generalize hooks'.transform = transform' at htransform ⊢
  cases htransform with
  | none => exact hlifts.pure text
  | some hcall =>
      exact hlifts.asked (fun h => .transforming c p (h.count c) text) (hcall c p text)

theorem shownKeys (hlifts : Lifts hooks hooks' R) (o : ObjectRef) (ks : List Key) :
    R (shownKeys hooks o ks) (shownKeys hooks' o ks) := by
  induction ks with
  | nil => exact hlifts.pure []
  | cons k ks ih =>
      exact hlifts.bind (hlifts.shown o k) fun keep => hlifts.bind ih fun kept => hlifts.pure _

theorem elements (hlifts : Lifts hooks hooks' R) (hchild : ∀ v, R (child v) (child' v))
    (r : ArrayRef) (i : Nat) (vs : List Value) :
    R (elements hooks child r i vs) (elements hooks' child' r i vs) := by
  induction vs generalizing i with
  | nil => exact hlifts.pure []
  | cons v vs ih =>
      refine hlifts.bind (hchild v) fun text => ?_
      refine hlifts.bind (hlifts.transformed _ _ text) fun entry => ?_
      exact hlifts.bind (ih (i + 1)) fun entries => hlifts.pure _

theorem fields (hlifts : Lifts hooks hooks' R) (hchild : ∀ v, R (child v) (child' v))
    (style : Style) (o : ObjectRef) (fs : List (Key × Value)) :
    R (fields hooks style child o fs) (fields hooks' style child' o fs) := by
  induction fs with
  | nil => exact hlifts.pure []
  | cons f fs ih =>
      refine hlifts.bind (hchild f.2) fun text => ?_
      refine hlifts.bind (hlifts.transformed _ _ text) fun text' => ?_
      exact hlifts.bind ih fun entries => hlifts.pure _

theorem laid (hlifts : Lifts hooks hooks' R) (style : Style) (pad : String) (g : Group) :
    R (laid style pad g) (laid style pad g) := by
  unfold Rendering.laid
  cases style.limit with
  | none => exact hlifts.pure _
  | some limit => exact hlifts.bind (hlifts.tell _) fun _ => hlifts.pure _

/-- A relation that is lifted holds of the renderings of every value, with `extra` levels more on
the one side if it tolerates them where the other side ends. -/
theorem value (hlifts : Lifts hooks hooks' R) (style : Style) (extra : Nat)
    (hend : ∀ pad v, R (throw .tooDeep) (value ⟨style, hooks'⟩ extra pad v)) (depth : Nat)
    (pad : String) (v : Value) :
    R (value ⟨style, hooks⟩ depth pad v) (value ⟨style, hooks'⟩ (extra + depth) pad v) := by
  induction depth generalizing pad v with
  | zero => exact hend pad v
  | succ depth ih =>
      cases v with
      | atom a => exact hlifts.pure _
      | array r =>
          refine hlifts.unlessActive _ (hlifts.bind hlifts.heap fun heap => ?_)
          split
          · exact hlifts.pure _
          · exact hlifts.bind (hlifts.within _ (hlifts.elements (ih _) r 0 _)) fun _ =>
              hlifts.laid style pad _
      | object o =>
          refine hlifts.unlessActive _ (hlifts.bind hlifts.heap fun heap =>
            hlifts.bind (hlifts.shownKeys o _) fun kept => ?_)
          split
          · exact hlifts.pure _
          · exact hlifts.bind hlifts.heap fun heap' =>
              hlifts.bind (hlifts.within _ (hlifts.fields (ih _) style o _)) fun _ =>
                hlifts.laid style pad _

end Lifts

end Rendering

end ObjectLiteral
