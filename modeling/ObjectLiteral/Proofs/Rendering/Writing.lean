import ObjectLiteral.Proofs.Rendering.Texts
import ObjectLiteral.Proofs.Tree.Writing
/-!
Renderings under hooks that answer by what they are asked.  Such a rendering writes the unfolding
of its value: it ends alike, with a text or with the same failure, and tells of the same cuts and
layouts.  What the unfolding leaves out, the rendering cannot show.
-/

namespace ObjectLiteral

variable {σ α β : Type}

namespace Rendering

/-- A step has ended as a step of writing has: with the same result or the same failure, and having
told of the same cuts and layouts.  With a result, the heap is still steady and the containers of
`path` are active again. -/
inductive EndsAs (steady : Heap → Prop) (path : List Container) :
    EStateM.Result Stop (Run σ) α → EStateM.Result Failure (List Event) α → Prop
  | ok {a : α} {run : Run σ} (hrun : run.At steady path) :
      EndsAs steady path (.ok a run) (.ok a (shape run.journal))
  | error {f : Failure} {run : Run σ} :
      EndsAs steady path (.error (.failed f) run) (.error f (shape run.journal))

/-- From every run with a steady heap and at `path` a step ends as the step of writing does. -/
def Writes (steady : Heap → Prop) (path : List Container) (m : RenderM σ α) (t : WriteM α) :
    Prop :=
  ∀ run : Run σ, run.At steady path → EndsAs steady path (m run) (t (shape run.journal))

variable {steady : Heap → Prop} {path : List Container} {hooks : Hooks σ} {m : RenderM σ α}
  {t : WriteM α} {keep : ObjectRef → Key → Bool}
  {rewrite : Position → String → Except Failure String}

theorem Writes.pure (a : α) : Writes steady path (pure a : RenderM σ α) (pure a) :=
  fun _ hrun => .ok hrun

theorem Writes.bind {f : α → RenderM σ β} {g : α → WriteM β} (hm : Writes steady path m t)
    (hf : ∀ a, Writes steady path (f a) (g a)) : Writes steady path (m >>= f) (t >>= g) := by
  intro run hrun
  have hends := hm run hrun
  simp only [Bind.bind, EStateM.bind]
  generalize m run = result at hends ⊢
  generalize t (shape run.journal) = result' at hends ⊢
  cases hends with
  | ok hrun' => exact hf _ _ hrun'
  | error => exact .error

/-- A step that only finds something out is left out of the writing. -/
theorem Writes.bind_pure {a : α} {f : α → RenderM σ β} {t : WriteM β}
    (hm : Writes steady path m (Pure.pure a)) (hf : Writes steady path (f a) t) :
    Writes steady path (m >>= f) t := by
  intro run hrun
  have hends := hm run hrun
  simp only [Bind.bind, EStateM.bind]
  generalize m run = result at hends ⊢
  generalize hsilent : (Pure.pure a : WriteM α) (shape run.journal) = result' at hends
  cases hends with
  | ok hrun' =>
      obtain ⟨rfl, htold⟩ := EStateM.Result.ok.inj hsilent
      rw [htold]
      exact hf _ hrun'
  | error => cases hsilent

theorem writes_heap_bind {f : Heap → RenderM σ α}
    (hf : ∀ h, steady h → Writes steady path (f h) t) : Writes steady path (heap >>= f) t :=
  fun run hrun => hf run.world.heap hrun.heap run hrun

theorem writes_tell {e : Event} (he : e.isShape = true) :
    Writes steady path (tell e : RenderM σ Unit) (WriteM.tell e) := by
  rintro ⟨world, active, journal⟩ hrun
  have htold : shape (e :: journal) = e :: shape journal := List.filter_cons_of_pos he
  rw [WriteM.tell, ← htold]
  exact .ok ⟨hrun.heap, hrun.active⟩

/-- What is told of hooks is not about the shape of the text. -/
theorem writes_tell_silent {e : Event} (he : e.isShape = false) :
    Writes steady path (tell e : RenderM σ Unit) (Pure.pure ()) := by
  rintro ⟨world, active, journal⟩ hrun
  have htold : shape (e :: journal) = shape journal :=
    List.filter_cons_of_neg (Bool.eq_false_iff.mp he)
  have hpure : (Pure.pure () : WriteM Unit) (shape journal) = .ok () (shape journal) := rfl
  rw [hpure, ← htold]
  exact .ok ⟨hrun.heap, hrun.active⟩

theorem writes_call {hook : HookM σ α} {answer : Except Failure α}
    (hhook : ∀ w, steady w.heap → ∃ w', hook w = HookM.ended w' answer ∧ steady w'.heap) :
    Writes steady path (call hook) (WriteM.settle answer) := by
  rintro ⟨world, active, journal⟩ hrun
  obtain ⟨world', hcall, hsteady⟩ := hhook world hrun.heap
  cases answer with
  | ok a =>
      simp only [call, hcall, HookM.ended]
      exact .ok ⟨hsteady, hrun.active⟩
  | error f =>
      simp only [call, hcall, HookM.ended]
      exact .error

theorem Writes.within {c : Container} (hm : Writes steady (c :: path) m t) :
    Writes steady path (within c m) t := by
  rintro ⟨world, active, journal⟩ hrun
  have hends := hm ⟨world, c :: active, journal⟩ ⟨hrun.heap, congrArg (c :: ·) hrun.active⟩
  simp only [Rendering.within]
  generalize m ⟨world, c :: active, journal⟩ = result at hends ⊢
  generalize t (shape journal) = result' at hends ⊢
  cases hends with
  | ok hrun' => exact .ok ⟨hrun'.heap, congrArg List.tail hrun'.active⟩
  | error => exact .error

theorem writes_unlessActive_of_mem {c : Container} {text : RenderM σ String} (hc : c ∈ path) :
    Writes steady path (unlessActive c text) (do
      WriteM.tell (.cut path.length)
      Pure.pure circularMark) := by
  rintro ⟨world, active, journal⟩ hrun
  obtain rfl : active = path := hrun.active
  rw [unlessActive_of_mem ⟨world, active, journal⟩ hc]
  exact .ok ⟨hrun.heap, rfl⟩

theorem writes_unlessActive {c : Container} {text : RenderM σ String} {t : WriteM String}
    (hc : c ∉ path) (htext : Writes steady path text t) :
    Writes steady path (unlessActive c text) t := by
  intro run hrun
  rw [unlessActive_of_not_mem run (hrun.active ▸ hc)]
  exact htext run hrun

theorem writes_shown (hhooks : hooks.Answers steady keep rewrite) (o : ObjectRef) (k : Key) :
    Writes steady path (shown hooks o k) (Pure.pure (keep o k)) := by
  unfold shown
  split
  · rename_i hnone
    rw [hhooks.no_filter hnone]
    exact .pure true
  · rename_i filter hfilter
    refine writes_heap_bind fun _ _ => (writes_tell_silent rfl).bind_pure ?_
    have hanswer : ∀ w, steady w.heap → ∃ w',
        filter o k w = HookM.ended w' (.ok (keep o k)) ∧ steady w'.heap :=
      hhooks.filter filter hfilter o k
    exact writes_call hanswer

theorem writes_transformed (hhooks : hooks.Answers steady keep rewrite) (c : Container)
    (p : Position) (text : String) :
    Writes steady path (transformed hooks c p text) (WriteM.settle (rewrite p text)) := by
  unfold transformed
  split
  · rename_i hnone
    rw [hhooks.no_transform hnone]
    exact .pure text
  · rename_i transform htransform
    refine writes_heap_bind fun _ _ => (writes_tell_silent rfl).bind_pure ?_
    exact writes_call (hhooks.transform transform htransform c p text)

theorem writes_shownKeys (hhooks : hooks.Answers steady keep rewrite) (o : ObjectRef)
    (ks : List Key) :
    Writes steady path (shownKeys hooks o ks) (Pure.pure (ks.filter (keep o))) := by
  induction ks with
  | nil => exact .pure []
  | cons k ks ih =>
      rw [List.filter_cons]
      exact (writes_shown hhooks o k).bind_pure (ih.bind_pure (.pure _))

theorem writes_elements (hhooks : hooks.Answers steady keep rewrite) {style : Style} {r : ArrayRef}
    {child : Value → RenderM σ String} {tree : Value → Tree} {depth : Nat} {pad : String}
    (vs : List Value) (i : Nat)
    (hchild : ∀ v ∈ vs, Writes steady path (child v) ((tree v).write style rewrite depth pad)) :
    Writes steady path (elements hooks child r i vs)
      (Tree.writeElements style rewrite depth pad i (vs.map tree)) := by
  induction vs generalizing i with
  | nil => exact .pure []
  | cons v vs ih =>
      refine (hchild v List.mem_cons_self).bind fun text => ?_
      refine (writes_transformed hhooks _ _ text).bind fun entry => ?_
      refine (ih (i + 1) fun u hu => hchild u (List.mem_cons_of_mem v hu)).bind fun entries => ?_
      exact .pure _

theorem writes_fields (hhooks : hooks.Answers steady keep rewrite) {style : Style} {o : ObjectRef}
    {child : Value → RenderM σ String} {tree : Value → Tree} {depth : Nat} {pad : String}
    (hentry : ∀ k v text, (tree v).entry style k text = style.entry k v text)
    (fs : List (Key × Value))
    (hchild : ∀ f ∈ fs,
      Writes steady path (child f.2) ((tree f.2).write style rewrite depth pad)) :
    Writes steady path (fields hooks style child o fs)
      (Tree.writeFields style rewrite depth pad (fs.map fun f => (f.1, tree f.2))) := by
  induction fs with
  | nil => exact .pure []
  | cons f fs ih =>
      refine (hchild f List.mem_cons_self).bind fun text => ?_
      refine (writes_transformed hhooks _ _ text).bind fun text' => ?_
      refine (ih fun e he => hchild e (List.mem_cons_of_mem f he)).bind fun entries => ?_
      rw [hentry]
      exact .pure _

theorem writes_laid (style : Style) (pad : String) (g : Group) :
    Writes steady path (laid style pad g : RenderM σ String) (WriteM.laid style pad g) := by
  unfold laid WriteM.laid
  cases style.limit with
  | none => exact .pure _
  | some limit => exact (writes_tell rfl).bind fun _ => .pure _

/-- With a depth above the room off the active containers a value is written as its unfolding. -/
theorem writes_value {h : Heap} {known : Container → Prop} (hframe : Frame h known steady)
    {options : Options σ} (hhooks : options.hooks.Answers steady keep rewrite) {depth : Nat}
    {path : List Container} (hroom : h.room path < depth) (pad : String) {v : Value}
    (hv : ∀ c, v.container? = some c → known c) :
    Writes steady path (value options depth pad v)
      ((h.unfold keep path v).write options.style rewrite path.length pad) := by
  induction depth generalizing path pad v with
  | zero => contradiction
  | succ depth ih =>
      cases v with
      | atom a =>
          rw [Heap.unfold, Tree.write]
          exact .pure _
      | array r =>
          rw [value]
          by_cases hr : Container.array r ∈ path
          · rw [Heap.unfold_of_mem rfl hr, Tree.write]
            exact writes_unlessActive_of_mem hr
          rw [Heap.unfold_array hr]
          refine writes_unlessActive hr (writes_heap_bind fun heap hheap => ?_)
          have henter : ∀ v ∈ (h.elements r).toList, Writes steady (.array r :: path)
              (value options depth (pad ++ options.style.unit) v)
              ((h.unfold keep (.array r :: path) v).write options.style rewrite
                (path.length + 1) (pad ++ options.style.unit)) := by
            intro v hv
            have hlt := Heap.room_cons_lt (Heap.array_mem_containers hv) hr
            exact ih (by omega) _ (hframe.known_elements r v hv)
          rw [hframe.elements heap r hheap (hv _ rfl)]
          split
          · rename_i hnil
            rw [hnil, List.map_nil, Tree.write]
            exact .pure _
          · rename_i v vs hcons
            rw [hcons] at henter ⊢
            rw [List.map_cons, Tree.write]
            exact (writes_elements hhooks (v :: vs) 0 henter).within.bind fun _ =>
              writes_laid options.style pad _
      | object o =>
          rw [value]
          by_cases ho : Container.object o ∈ path
          · rw [Heap.unfold_of_mem rfl ho, Tree.write]
            exact writes_unlessActive_of_mem ho
          rw [Heap.unfold_object ho]
          refine writes_unlessActive ho (writes_heap_bind fun heap hheap => ?_)
          rw [hframe.properties heap o hheap (hv _ rfl)]
          refine (writes_shownKeys hhooks o _).bind_pure ?_
          have henter : ∀ f ∈ h.shownFields keep o, Writes steady (.object o :: path)
              (value options depth (pad ++ options.style.unit) f.2)
              ((h.unfold keep (.object o :: path) f.2).write options.style rewrite
                (path.length + 1) (pad ++ options.style.unit)) := by
            intro f hf
            have hlt := Heap.room_cons_lt (Heap.object_mem_containers_of_shownFields hf) ho
            exact ih (by omega) _ (hframe.known_fieldsAt hf)
          unfold Heap.shownFields at henter ⊢
          split
          · rename_i hnil
            rw [hnil]
            exact .pure _
          · rename_i k ks hcons
            refine writes_heap_bind fun heap' hheap' => ?_
            rw [hframe.properties heap' o hheap' (hv _ rfl)]
            rw [hcons] at henter ⊢
            exact (writes_fields hhooks (Heap.entry_unfold options.style) _ henter).within.bind
              fun _ => writes_laid options.style pad _

end Rendering

/-- A rendering under hooks that answer by what they are asked writes the unfolding. -/
theorem render_written {steady : Heap → Prop} {known : Container → Prop} {options : Options σ}
    {keep : ObjectRef → Key → Bool} {rewrite : Position → String → Except Failure String}
    {w : World σ} (hframe : Rendering.Frame w.heap known steady)
    (hhooks : options.hooks.Answers steady keep rewrite) (hsteady : steady w.heap) (pad : String)
    {v : Value} (hv : ∀ c, v.container? = some c → known c) :
    (render options pad v w).result =
        ((w.heap.unfold keep [] v).written options.style rewrite pad).1.mapError .failed ∧
      shape (render options pad v w).events =
        ((w.heap.unfold keep [] v).written options.style rewrite pad).2 := by
  have hroom := options.room_lt_depth w.heap
  have hends := Rendering.writes_value hframe hhooks hroom pad hv ⟨w, [], []⟩ ⟨hsteady, rfl⟩
  rw [render, Tree.written]
  generalize Rendering.value options (options.depth w.heap) pad v ⟨w, [], []⟩ = result at hends ⊢
  change Rendering.EndsAs _ _ result
    ((w.heap.unfold keep [] v).write options.style rewrite 0 pad []) at hends
  generalize (w.heap.unfold keep [] v).write options.style rewrite 0 pad [] = result' at hends ⊢
  cases hends with
  | ok hrun => exact ⟨rfl, List.filter_reverse⟩
  | error => exact ⟨rfl, List.filter_reverse⟩

end ObjectLiteral
