import Mathlib.Data.List.Forall2
import ObjectLiteral.Proofs.Rendering.Hooks
import ObjectLiteral.Proofs.Tree.Basic
/-!
Renderings under gentle hooks.  Every step ends without a stop, keeps the heap steady and leaves the
record of the active containers as it was, so a step is described by its result alone; from the
steps follows, by one induction on the depth, what any relation that is closed under them says
about the text of a value.
-/

namespace ObjectLiteral

variable {σ α β : Type}

/-- The heap of a run is steady, and the containers that are being written are those of `path`. -/
structure Run.At (run : Run σ) (steady : Heap → Prop) (path : List Container) : Prop where
  heap : steady run.world.heap
  active : run.active = path

namespace Rendering

/-- From every run with a steady heap and at `path` a step ends without a stop, with a result that
satisfies `post`, and again with a steady heap and at `path`. -/
def Settles (steady : Heap → Prop) (path : List Container) (m : RenderM σ α) (post : α → Prop) :
    Prop :=
  ∀ run : Run σ, run.At steady path →
    ∃ a run', m run = .ok a run' ∧ post a ∧ run'.At steady path

variable {steady : Heap → Prop} {path : List Container} {hooks : Hooks σ}
  {answers : ObjectRef → Key → Bool → Prop}
  {rewrites : Container → Position → String → String → Prop}

theorem Settles.pure {post : α → Prop} {a : α} (hpost : post a) :
    Settles steady path (pure a : RenderM σ α) post :=
  fun run hrun => ⟨a, run, rfl, hpost, hrun⟩

theorem Settles.bind {m : RenderM σ α} {f : α → RenderM σ β} {mid : α → Prop} {post : β → Prop}
    (hm : Settles steady path m mid) (hf : ∀ a, mid a → Settles steady path (f a) post) :
    Settles steady path (m >>= f) post := by
  intro run hrun
  obtain ⟨a, run', hstep, hmid, hrun'⟩ := hm run hrun
  obtain ⟨b, run'', hrest, hpost, hrun''⟩ := hf a hmid run' hrun'
  refine ⟨b, run'', ?_, hpost, hrun''⟩
  simp only [Bind.bind, EStateM.bind, hstep]
  exact hrest

theorem Settles.imp {m : RenderM σ α} {post post' : α → Prop} (hm : Settles steady path m post)
    (himp : ∀ a, post a → post' a) : Settles steady path m post' := by
  intro run hrun
  obtain ⟨a, run', hstep, hpost, hrun'⟩ := hm run hrun
  exact ⟨a, run', hstep, himp a hpost, hrun'⟩

theorem settles_heap : Settles steady path (heap : RenderM σ Heap) steady :=
  fun run hrun => ⟨run.world.heap, run, rfl, hrun.heap, hrun⟩

theorem settles_tell (e : Event) : Settles steady path (tell e : RenderM σ Unit) fun _ => True :=
  fun ⟨world, active, journal⟩ hrun =>
    ⟨(), ⟨world, active, e :: journal⟩, rfl, trivial, ⟨hrun.heap, hrun.active⟩⟩

theorem settles_call {f : HookM σ α} {post : α → Prop}
    (hf : ∀ w, steady w.heap → ∃ a w', f w = .ok a w' ∧ post a ∧ steady w'.heap) :
    Settles steady path (call f) post := by
  rintro ⟨world, active, journal⟩ hrun
  obtain ⟨a, world', hcall, hpost, hsteady⟩ := hf world hrun.heap
  refine ⟨a, ⟨world', active, journal⟩, ?_, hpost, hsteady, hrun.active⟩
  simp only [call, hcall]

theorem settles_within {c : Container} {m : RenderM σ α} {post : α → Prop}
    (hm : Settles steady (c :: path) m post) : Settles steady path (within c m) post := by
  rintro ⟨world, active, journal⟩ hrun
  obtain ⟨a, ⟨world', active', journal'⟩, hstep, hpost, hrun'⟩ :=
    hm ⟨world, c :: active, journal⟩ ⟨hrun.heap, congrArg (c :: ·) hrun.active⟩
  refine ⟨a, ⟨world', active'.tail, journal'⟩, ?_, hpost, hrun'.heap, ?_⟩
  · simp only [within, hstep]
  · exact congrArg List.tail hrun'.active

theorem settles_unlessActive_of_mem {c : Container} {text : RenderM σ String}
    (hc : c ∈ path) : Settles steady path (unlessActive c text) (· = circularMark) := by
  rintro ⟨world, active, journal⟩ hrun
  obtain rfl : active = path := hrun.active
  refine ⟨circularMark, ⟨world, active, .cut active.length :: journal⟩, ?_, rfl,
    hrun.heap, rfl⟩
  exact unlessActive_of_mem ⟨world, active, journal⟩ hc

theorem settles_unlessActive {c : Container} {text : RenderM σ String} {post : String → Prop}
    (hc : c ∉ path) (htext : Settles steady path text post) :
    Settles steady path (unlessActive c text) post := by
  intro run hrun
  rw [unlessActive_of_not_mem run (hrun.active ▸ hc)]
  exact htext run hrun

theorem settles_shown (hhooks : hooks.Gentle steady answers rewrites) (o : ObjectRef) (k : Key) :
    Settles steady path (shown hooks o k) (answers o k) := by
  unfold shown
  split
  · rename_i hnone
    exact .pure (hhooks.no_filter hnone o k)
  · rename_i filter hfilter
    refine settles_heap.bind fun _ _ => (settles_tell _).bind fun _ _ => ?_
    exact settles_call (hhooks.filter filter hfilter o k)

theorem settles_transformed (hhooks : hooks.Gentle steady answers rewrites) (c : Container)
    (p : Position) (text : String) :
    Settles steady path (transformed hooks c p text) (rewrites c p text) := by
  unfold transformed
  split
  · rename_i hnone
    exact .pure (hhooks.no_transform hnone c p text)
  · rename_i transform htransform
    refine settles_heap.bind fun _ _ => (settles_tell _).bind fun _ _ => ?_
    exact settles_call (hhooks.transform transform htransform c p text)

/-- Keys that remain of a list of keys, each judged by an answer that is allowed for it. -/
inductive Sifted (allowed : Key → Bool → Prop) : List Key → List Key → Prop
  | nil : Sifted allowed [] []
  | keep {k : Key} {ks kept : List Key} (hanswer : allowed k true)
      (hrest : Sifted allowed ks kept) : Sifted allowed (k :: ks) (k :: kept)
  | drop {k : Key} {ks kept : List Key} (hanswer : allowed k false)
      (hrest : Sifted allowed ks kept) : Sifted allowed (k :: ks) kept

theorem Sifted.sublist {allowed : Key → Bool → Prop} {ks kept : List Key}
    (hsifted : Sifted allowed ks kept) : kept.Sublist ks := by
  induction hsifted with
  | nil => exact .slnil
  | keep _ _ ih => exact ih.cons_cons _
  | drop _ _ ih => exact ih.cons _

/-- Answers that follow a predicate leave the keys that satisfy it. -/
theorem Sifted.eq_filter {keep : Key → Bool} {ks kept : List Key}
    (hsifted : Sifted (fun k answer => answer = keep k) ks kept) : kept = ks.filter keep := by
  induction hsifted with
  | nil => rfl
  | keep hanswer _ ih => rw [List.filter_cons, ← hanswer, if_pos rfl, ih]
  | drop hanswer _ ih => rw [List.filter_cons, ← hanswer, if_neg Bool.false_ne_true, ih]

theorem settles_shownKeys (hhooks : hooks.Gentle steady answers rewrites) (o : ObjectRef)
    (ks : List Key) :
    Settles steady path (shownKeys hooks o ks) (Sifted (answers o) ks) := by
  induction ks with
  | nil => exact .pure .nil
  | cons k ks ih =>
      refine (settles_shown hhooks o k).bind fun answer hanswer => ih.bind fun kept hkept => ?_
      apply Settles.pure
      cases answer with
      | true => exact .keep hanswer hkept
      | false => exact .drop hanswer hkept

theorem settles_elements (hhooks : hooks.Gentle steady answers rewrites) {r : ArrayRef}
    {child : Value → RenderM σ String} {texts : Value → String → Prop} (vs : List Value) (i : Nat)
    (hchild : ∀ v ∈ vs, Settles steady path (child v) (texts v)) :
    Settles steady path (elements hooks child r i vs)
      (List.Forall₂ (fun v entry => ∃ p text, texts v text ∧ rewrites (.array r) p text entry)
        vs) := by
  induction vs generalizing i with
  | nil => exact .pure .nil
  | cons v vs ih =>
      refine (hchild v List.mem_cons_self).bind fun text htext => ?_
      refine (settles_transformed hhooks _ _ text).bind fun entry hentry => ?_
      refine (ih (i + 1) fun u hu => hchild u (List.mem_cons_of_mem v hu)).bind
        fun entries hentries => ?_
      exact .pure (.cons ⟨.index i, text, htext, hentry⟩ hentries)

theorem settles_fields (hhooks : hooks.Gentle steady answers rewrites) {style : Style}
    {o : ObjectRef} {child : Value → RenderM σ String} {texts : Value → String → Prop}
    (fs : List (Key × Value)) (hchild : ∀ f ∈ fs, Settles steady path (child f.2) (texts f.2)) :
    Settles steady path (fields hooks style child o fs)
      (List.Forall₂ (fun f entry => ∃ text text', texts f.2 text ∧
        rewrites (.object o) (.key f.1) text text' ∧ entry = style.entry f.1 f.2 text') fs) := by
  induction fs with
  | nil => exact .pure .nil
  | cons f fs ih =>
      refine (hchild f List.mem_cons_self).bind fun text htext => ?_
      refine (settles_transformed hhooks _ _ text).bind fun text' htext' => ?_
      refine (ih fun e he => hchild e (List.mem_cons_of_mem f he)).bind fun entries hentries => ?_
      exact .pure (.cons ⟨text, text', htext, htext', rfl⟩ hentries)

theorem settles_laid (style : Style) (pad : String) {g : Group} (hentries : g.entries ≠ []) :
    Settles steady path (laid style pad g : RenderM σ String) (· = g.printed style pad) := by
  rw [Group.printed_of_ne_nil hentries]
  unfold laid
  cases style.limit with
  | none => exact .pure rfl
  | some limit => exact (settles_tell _).bind fun _ _ => .pure rfl

/-- A relation between values and texts, below a path and at a pad, that is closed under what a
rendering does with an atom, a container on the path, an array and an object. -/
structure Describes (options : Options σ) (h : Heap) (answers : ObjectRef → Key → Bool → Prop)
    (rewrites : Container → Position → String → String → Prop)
    (texts : List Container → String → Value → String → Prop) : Prop where
  atom : ∀ path pad a, texts path pad (.atom a) (a.literal options.style)
  cut : ∀ path pad v c, v.container? = some c → c ∈ path → texts path pad v circularMark
  array : ∀ path pad r entries, Container.array r ∉ path →
    List.Forall₂ (fun v entry => ∃ p text,
        texts (.array r :: path) (pad ++ options.style.unit) v text ∧
          rewrites (.array r) p text entry)
      (h.elements r).toList entries →
    texts path pad (.array r) ((Group.ofElements entries).printed options.style pad)
  object : ∀ path pad o kept entries, Container.object o ∉ path →
    Sifted (answers o) (h.properties o).displayKeys kept →
    List.Forall₂ (fun f entry => ∃ text text',
        texts (.object o :: path) (pad ++ options.style.unit) f.2 text ∧
          rewrites (.object o) (.key f.1) text text' ∧
          entry = options.style.entry f.1 f.2 text')
      (h.fieldsAt o kept) entries →
    texts path pad (.object o) ((Group.ofFields entries).printed options.style pad)

end Rendering

end ObjectLiteral
