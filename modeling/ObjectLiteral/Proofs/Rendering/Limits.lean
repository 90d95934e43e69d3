import ObjectLiteral.Proofs.Rendering.Depth
import ObjectLiteral.Proofs.Rendering.Lockstep
import ObjectLiteral.Proofs.Tree.Limits
/-!
The limit of a rendering.  Without a transform no text gets to a hook, so renderings under two limits
go in lockstep and write one tree; and of one tree the larger limit makes the shorter text.
-/

namespace ObjectLiteral

open Text

variable {σ : Type}

namespace Heap.Unfolds

variable {h : Heap} {path : List Container} {v : Value} {t : Tree}

theorem method? (hunfolds : h.Unfolds path v t) (style : Style) :
    t.method? style = v.method? style := by
  cases hunfolds with
  | atom a => rfl
  | cut hv hc =>
      cases v with
      | atom a => cases hv
      | array r => rfl
      | object o => rfl
  | array hr hvalues hslots => rfl
  | object ho hks hfields hslots => rfl

theorem empty_array {r : ArrayRef} (hr : .array r ∉ path) (hnil : (h.elements r).toList = []) :
    h.Unfolds path (.array r) (.array []) := by
  have hvalues : ([] : List (Value × Tree)).map (·.1) = (h.elements r).toList := hnil.symm
  exact .array hr hvalues (List.forall_mem_nil _)

theorem empty_object {o : ObjectRef} (ho : .object o ∉ path) :
    h.Unfolds path (.object o) (.object []) := by
  have hfields : ([] : List ((Key × Value) × Tree)).map (·.1) = h.fieldsAt o [] := rfl
  exact .object ho (List.nil_sublist _) hfields (List.forall_mem_nil _)

theorem entry (hunfolds : h.Unfolds path v t) (style : Style) (k : Key) (text : String) :
    t.entry style k text = style.entry k v text := by
  rw [Tree.entry, hunfolds.method?]
  rfl

end Heap.Unfolds

theorem Tree.text_array_slots (slots : List (Value × Tree)) (style : Style) (pad : String) :
    (array (slots.map (·.2))).text style pad =
      (Group.ofElements (slots.map (·.2.text style (pad ++ style.unit)))).printed style pad := by
  rw [text, List.map_map]
  rfl

theorem Tree.text_object_slots {h : Heap} {path : List Container}
    {slots : List ((Key × Value) × Tree)} (hslots : ∀ s ∈ slots, h.Unfolds path s.1.2 s.2)
    (style : Style) (pad : String) :
    (object (slots.map fun s => (s.1.1, s.2))).text style pad =
      (Group.ofFields (slots.map fun s =>
        style.entry s.1.1 s.1.2 (s.2.text style (pad ++ style.unit)))).printed style pad := by
  rw [text, List.map_map]
  congr 2
  exact List.map_congr_left fun s hs => (hslots s hs).entry style s.1.1 _

namespace Rendering

/-- Two texts are those of one tree that satisfies `shows`, each in a style of its own. -/
def OneTree (style style' : Style) (pad : String) (shows : Tree → Prop) (text text' : String) :
    Prop :=
  ∃ t, shows t ∧ text = t.text style pad ∧ text' = t.text style' pad

variable {steady : Heap → Prop} {path : List Container} {hooks : Hooks σ}
  {style style' : Style} {child child' : Value → RenderM σ String} {pad : String}
  {shows : Value → Tree → Prop}

theorem lockstep_elements (htransform : hooks.transform = none) {r : ArrayRef} (vs : List Value)
    (i : Nat)
    (hchild : ∀ v ∈ vs,
      Lockstep steady path (child v) (child' v) (OneTree style style' pad (shows v))) :
    Lockstep steady path (elements hooks child r i vs) (elements hooks child' r i vs)
      fun entries entries' => ∃ slots : List (Value × Tree), slots.map (·.1) = vs ∧
        (∀ s ∈ slots, shows s.1 s.2) ∧ entries = slots.map (·.2.text style pad) ∧
        entries' = slots.map (·.2.text style' pad) := by
  induction vs generalizing i with
  | nil => exact .pure ⟨[], rfl, List.forall_mem_nil _, rfl, rfl⟩
  | cons v vs ih =>
      obtain ⟨hfirst, hrest⟩ := List.forall_mem_cons.mp hchild
      have hpass : ∀ text, transformed hooks (.array r) (.index i) text = Pure.pure text := by
        intro text
        rw [transformed, htransform]
      simp only [elements, hpass, pure_bind]
      refine hfirst.bind fun text text' hone => (ih (i + 1) hrest).bind fun es es' hes => ?_
      obtain ⟨t, ht, rfl, rfl⟩ := hone
      obtain ⟨slots, rfl, hslots, rfl, rfl⟩ := hes
      exact .pure ⟨(v, t) :: slots, rfl, List.forall_mem_cons.mpr ⟨ht, hslots⟩, rfl, rfl⟩

theorem lockstep_fields (htransform : hooks.transform = none) {o : ObjectRef}
    (fs : List (Key × Value))
    (hchild : ∀ f ∈ fs,
      Lockstep steady path (child f.2) (child' f.2) (OneTree style style' pad (shows f.2))) :
    Lockstep steady path (fields hooks style child o fs) (fields hooks style' child' o fs)
      fun entries entries' => ∃ slots : List ((Key × Value) × Tree), slots.map (·.1) = fs ∧
        (∀ s ∈ slots, shows s.1.2 s.2) ∧
        entries = slots.map (fun s => style.entry s.1.1 s.1.2 (s.2.text style pad)) ∧
        entries' = slots.map fun s => style'.entry s.1.1 s.1.2 (s.2.text style' pad) := by
  induction fs with
  | nil => exact .pure ⟨[], rfl, List.forall_mem_nil _, rfl, rfl⟩
  | cons f fs ih =>
      obtain ⟨hfirst, hrest⟩ := List.forall_mem_cons.mp hchild
      have hpass : ∀ text, transformed hooks (.object o) (.key f.1) text = Pure.pure text := by
        intro text
        rw [transformed, htransform]
      simp only [fields, hpass, pure_bind]
      refine hfirst.bind fun text text' hone => (ih hrest).bind fun es es' hes => ?_
      obtain ⟨t, ht, rfl, rfl⟩ := hone
      obtain ⟨slots, rfl, hslots, rfl, rfl⟩ := hes
      exact .pure ⟨(f, t) :: slots, rfl, List.forall_mem_cons.mpr ⟨ht, hslots⟩, rfl, rfl⟩

variable {h : Heap} {known : Container → Prop} {limit limit' : Option Nat} {depth : Nat}

theorem lockstep_array (hframe : Frame h known steady) (htransform : hooks.transform = none)
    {r : ArrayRef} (hknown : known (.array r))
    (hchild : ∀ u, (∀ c, u.container? = some c → known c) → Lockstep steady (.array r :: path)
      (value ⟨style.limited limit, hooks⟩ depth (pad ++ style.unit) u)
      (value ⟨style.limited limit', hooks⟩ depth (pad ++ style.unit) u)
      (OneTree (style.limited limit) (style.limited limit') (pad ++ style.unit)
        (h.Unfolds (.array r :: path) u))) :
    Lockstep steady path (value ⟨style.limited limit, hooks⟩ (depth + 1) pad (.array r))
      (value ⟨style.limited limit', hooks⟩ (depth + 1) pad (.array r))
      (OneTree (style.limited limit) (style.limited limit') pad (h.Unfolds path (.array r))) := by
  rw [value, value]
  by_cases hr : Container.array r ∈ path
  · refine (lockstep_unlessActive_of_mem hr).imp ?_
    rintro _ _ ⟨rfl, rfl⟩
    exact ⟨.cut, .cut rfl hr, by rw [Tree.text], by rw [Tree.text]⟩
  refine lockstep_unlessActive hr (lockstep_heap_bind fun heap hheap => ?_)
  rw [hframe.elements heap r hheap hknown]
  split
  · rename_i hnil
    refine .pure ⟨.array [], .empty_array hr hnil, ?_, ?_⟩
    · rw [Tree.text]; rfl
    · rw [Tree.text]; rfl
  · rename_i v vs hcons
    refine (lockstep_elements htransform (v :: vs) 0 fun u hu =>
      hchild u (hframe.known_elements r u (hcons ▸ hu))).within.bind fun entries entries' hone => ?_
    obtain ⟨slots, hvalues, hslots, rfl, rfl⟩ := hone
    have hne : slots ≠ [] := by
      rintro rfl
      cases hvalues
    refine (lockstep_laid _ _ pad pad (by simpa [Group.ofElements] using hne)
      (by simpa [Group.ofElements] using hne)).imp ?_
    rintro _ _ ⟨rfl, rfl⟩
    exact ⟨.array (slots.map (·.2)), .array hr (hvalues.trans hcons.symm) hslots,
      (Tree.text_array_slots slots _ pad).symm, (Tree.text_array_slots slots _ pad).symm⟩

theorem lockstep_object (hframe : Frame h known steady) (hfilter : KeepsSteady hooks steady)
    (htransform : hooks.transform = none) {o : ObjectRef} (hknown : known (.object o))
    (hchild : ∀ u, (∀ c, u.container? = some c → known c) → Lockstep steady (.object o :: path)
      (value ⟨style.limited limit, hooks⟩ depth (pad ++ style.unit) u)
      (value ⟨style.limited limit', hooks⟩ depth (pad ++ style.unit) u)
      (OneTree (style.limited limit) (style.limited limit') (pad ++ style.unit)
        (h.Unfolds (.object o :: path) u))) :
    Lockstep steady path (value ⟨style.limited limit, hooks⟩ (depth + 1) pad (.object o))
      (value ⟨style.limited limit', hooks⟩ (depth + 1) pad (.object o))
      (OneTree (style.limited limit) (style.limited limit') pad (h.Unfolds path (.object o))) := by
  rw [value, value]
  by_cases ho : Container.object o ∈ path
  · refine (lockstep_unlessActive_of_mem ho).imp ?_
    rintro _ _ ⟨rfl, rfl⟩
    exact ⟨.cut, .cut rfl ho, by rw [Tree.text], by rw [Tree.text]⟩
  refine lockstep_unlessActive ho (lockstep_heap_bind fun heap hheap => ?_)
  rw [hframe.properties heap o hheap hknown]
  refine (lockstep_shownKeys hfilter o _).bind fun kept _ hkept => ?_
  obtain ⟨rfl, hsublist⟩ := hkept
  split
  · refine .pure ⟨.object [], .empty_object ho, ?_, ?_⟩
    · rw [Tree.text]; rfl
    · rw [Tree.text]; rfl
  · rename_i k ks
    refine lockstep_heap_bind fun heap' hheap' => ?_
    rw [hframe.properties heap' o hheap' hknown]
    refine (lockstep_fields htransform (h.fieldsAt o (k :: ks)) fun f hf =>
      hchild f.2 (hframe.known_fieldsAt hf)).within.bind fun entries entries' hone => ?_
    obtain ⟨slots, hfields, hslots, rfl, rfl⟩ := hone
    have hne : slots ≠ [] := by
      rintro rfl
      cases hfields
    refine (lockstep_laid _ _ pad pad (by simpa [Group.ofFields] using hne)
      (by simpa [Group.ofFields] using hne)).imp ?_
    rintro _ _ ⟨rfl, rfl⟩
    exact ⟨.object (slots.map fun s => (s.1.1, s.2)), .object ho hsublist hfields hslots,
      (Tree.text_object_slots hslots _ pad).symm, (Tree.text_object_slots hslots _ pad).symm⟩

/-- Under two limits a value is written in lockstep, as one tree of it. -/
theorem lockstep_value (hframe : Frame h known steady) (hfilter : KeepsSteady hooks steady)
    (htransform : hooks.transform = none) (limit limit' : Option Nat) (depth : Nat)
    (pad : String) {v : Value} (hv : ∀ c, v.container? = some c → known c) :
    Lockstep steady path (value ⟨style.limited limit, hooks⟩ depth pad v)
      (value ⟨style.limited limit', hooks⟩ depth pad v)
      (OneTree (style.limited limit) (style.limited limit') pad (h.Unfolds path v)) := by
  induction depth generalizing path pad v with
  | zero => exact lockstep_throw .tooDeep
  | succ depth ih =>
      cases v with
      | atom a => exact .pure ⟨.leaf a, .atom a, by rw [Tree.text], by rw [Tree.text]⟩
      | array r => exact lockstep_array hframe htransform (hv _ rfl) fun u hu => ih _ hu
      | object o => exact lockstep_object hframe hfilter htransform (hv _ rfl) fun u hu => ih _ hu

end Rendering

def Options.limited (options : Options σ) (limit : Option Nat) : Options σ :=
  { options with style := options.style.limited limit }

/-- Hooks that never fail and change no container, without a transform, have the texts under two
limits written from one tree. -/
theorem render_limited {options : Options σ} (hhooks : options.hooks.Harmless)
    (htransform : options.hooks.transform = none) (limit limit' : Option Nat) (pad : String)
    {v : Value} {w : World σ} (hclosed : w.heap.Closed) (hv : w.heap.Has v) :
    ∃ t, w.heap.Unfolds [] v t ∧
      (render (options.limited limit) pad v w).result =
        .ok (t.text (options.style.limited limit) pad) ∧
      (render (options.limited limit') pad v w).result =
        .ok (t.text (options.style.limited limit') pad) := by
  have hstart : Run.At ⟨w, [], []⟩ w.heap.Keeps [] := ⟨.refl w.heap, rfl⟩
  have hlimited : (options.limited limit).hooks.Harmless := hhooks
  obtain ⟨text, run, hrun, -⟩ := Rendering.settles_of_harmless hlimited hclosed
    ((options.limited limit).room_lt_depth w.heap) pad hv ⟨w, [], []⟩ hstart
  have hends : Rendering.EndsAlike _ _ _
      (Rendering.value (options.limited limit) ((options.limited limit).depth w.heap) pad v
        ⟨w, [], []⟩)
      (Rendering.value (options.limited limit') ((options.limited limit').depth w.heap) pad v
        ⟨w, [], []⟩) :=
    Rendering.lockstep_value (Rendering.frame_keeps hclosed)
      (Rendering.keepsSteady_of_harmless hhooks _) htransform limit limit'
      (options.depth w.heap) pad hv _ _ hstart (.refl _)
  rw [hrun] at hends
  generalize hrun' : Rendering.value (options.limited limit') _ _ _ _ = result' at hends
  cases hends with
  | ok hone =>
      obtain ⟨t, ht, rfl, rfl⟩ := hone
      refine ⟨t, ht, ?_, ?_⟩
      · rw [render, hrun]
      · rw [render, hrun']

/-- With a filter that never fails and changes no container, and without a transform, two limits
give two texts of one tree of the value.  A container that is on one line under the smaller limit is
on the same line under the larger one, which makes the text neither wider nor higher.  Having no
limit counts as the smallest one. -/
theorem render_noLonger {options : Options σ} (hhooks : options.hooks.Harmless)
    (htransform : options.hooks.transform = none) {limit limit' : Option Nat}
    (hle : limit ≤ limit') (pad : String) {v : Value} {w : World σ} (hclosed : w.heap.Closed)
    (hv : w.heap.Has v) :
    ∃ t, w.heap.Unfolds [] v t ∧
      (render (options.limited limit) pad v w).result =
        .ok (t.text (options.style.limited limit) pad) ∧
      (render (options.limited limit') pad v w).result =
        .ok (t.text (options.style.limited limit') pad) ∧
      t.NoLonger options.style limit limit' pad := by
  obtain ⟨t, ht, hrender, hrender'⟩ :=
    render_limited hhooks htransform limit limit' pad hclosed hv
  exact ⟨t, ht, hrender, hrender', t.noLonger options.style hle pad⟩

namespace LimitsWitness

/-- A filter that shows every second property it is asked about, and makes an array each time. -/
def hooks : Hooks Bool where
  filter := some fun _ _ w => .ok w.state ⟨(w.heap.newArray #[]).2, !w.state⟩

def options : Options Bool :=
  ⟨{}, hooks⟩

theorem harmless_hooks : options.hooks.Harmless where
  filter f hf o k w := by
    cases hf
    exact ⟨_, _, rfl, w.heap.keeps_newArray #[]⟩
  transform f hf := by cases hf

def world : World Bool :=
  ⟨⟨#[#[.object ⟨0⟩, .object ⟨0⟩]], #[⟨[(.name "a", ⟨.atom .null, true⟩),
    (.name "b", ⟨.array ⟨0⟩, true⟩), (.name "c", ⟨.atom (.bool true), true⟩)]⟩], 0⟩, true⟩

def text : String :=
  "[\n\t\x7b\n\t\ta: null,\n\t\tc: true\n\t\x7d,\n\t\x7b\n\t\tb: \"[Circular]\"\n\t\x7d\n]"

theorem render_noLonger_shared :
    options.hooks.Harmless ∧ options.hooks.transform = none ∧ (none : Option Nat) ≤ some 21 ∧
      world.heap.Closed ∧ world.heap.Has (.array ⟨0⟩) ∧
      ∃ text', (render (options.limited (some 21)) "" (.array ⟨0⟩) world).result = .ok text' ∧
        Text.lineFeeds text' ≤ 8 ∧ Text.width text' ≤ Text.width text := by
  have hle : (none : Option Nat) ≤ some 21 := trivial
  have hclosed : world.heap.Closed := by decide
  have hroot : world.heap.Has (.array ⟨0⟩) := by decide
  obtain ⟨t, -, hrender, hrender', hnoLonger⟩ :=
    render_noLonger harmless_hooks rfl hle "" hclosed hroot
  have htext : (render (options.limited none) "" (.array ⟨0⟩) world).result = .ok text :=
    Outcome.result_eq_ok (by decide +kernel)
  rw [htext, Except.ok.injEq] at hrender
  have hheight := hnoLonger.lineFeeds_le
  have hwidth := hnoLonger.width_le
  rw [← hrender] at hheight hwidth
  have hlines : Text.lineFeeds text = 8 := by decide
  exact ⟨harmless_hooks, rfl, hle, hclosed, hroot, _, hrender', hlines ▸ hheight, hwidth⟩

end LimitsWitness

end ObjectLiteral
