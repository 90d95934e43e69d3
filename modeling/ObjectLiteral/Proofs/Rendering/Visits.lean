import ObjectLiteral.Proofs.Heap.Containers
import ObjectLiteral.Proofs.Rendering.Spans
/-!
Visits.  A rendering is a tree of visits of values, told here without the bookkeeping of the
renderer.  Of a container it says when its entries are taken and in which order hooks are called
for them, whatever hooks do to the heap on the way: elements and keys are those on entry, values
are those after the last question of the filter, and every text goes to the transform at once.
-/

namespace ObjectLiteral

variable {σ ι : Type}

/-- A question about a key of an object, with its answer and its stretch. -/
structure Judgement (σ : Type) where
  key : Key
  kept : Bool
  span : Span σ

/-- The making of an entry: the value in its slot is visited, which gives a text, and consulting the
transform about that text gives the output. -/
structure Entry (σ ι : Type) where
  slot : ι
  value : Value
  text : String
  visit : Span σ
  output : String
  rewriting : Span σ

def Entry.span (e : Entry σ ι) : Span σ :=
  e.visit ++ e.rewriting

/-- The keys of an object are judged one after the other, from one world to another. -/
structure Judged (hooks : Hooks σ) (o : ObjectRef) (w : World σ) (js : List (Judgement σ))
    (w' : World σ) : Prop where
  chain : Span.Chain w (js.map (·.span)) w'
  judges : ∀ j ∈ js, hooks.Judges o j.key j.kept j.span

/-- The entries of a container are made one after the other, from one world to another, and the
transform gets each text right after it is written. -/
structure Made (hooks : Hooks σ) (c : Container) (position : ι → Position) (w : World σ)
    (es : List (Entry σ ι)) (w' : World σ) : Prop where
  chain : Span.Chain w (es.map (·.span)) w'
  right_after : ∀ e ∈ es, e.rewriting.before = e.visit.after
  rewrites : ∀ e ∈ es, hooks.Rewrites c (position e.slot) e.text e.output e.rewriting

/-- `Visit options path pad v text s`: below the containers of `path` and at `pad`, the visit of `v`
gives `text` in the stretch `s`.

An array makes one entry for each element that it holds on entry, in the order of the slots.  An
object first judges the keys that it shows on entry, in display order, and then makes one entry for
each kept key in that order, with the value that is under the key right after the last judgement.
Once there are entries a visit changes the world through hooks alone. -/
inductive Visit (options : Options σ) :
    List Container → String → Value → String → Span σ → Prop
  | atom {path : List Container} {pad : String} (a : Atom) (w : World σ) :
      Visit options path pad (.atom a) (a.literal options.style) (.still w)
  | cut {path : List Container} {pad : String} {v : Value} {c : Container} (w : World σ)
      (hv : v.container? = some c) (hc : c ∈ path) :
      Visit options path pad v circularMark (.told w [.cut path.length])
  | array {path : List Container} {pad : String} {r : ArrayRef} {w w' : World σ}
      {es : List (Entry σ Nat)} (hr : .array r ∉ path)
      (hslots : es.map (·.slot) = List.range es.length)
      (hvalues : es.map (·.value) = (w.heap.elements r).toList)
      (hmade : Made options.hooks (.array r) .index w es w')
      (hvisits : ∀ e ∈ es, Visit options (.array r :: path) (pad ++ options.style.unit)
        e.value e.text e.visit) :
      Visit options path pad (.array r)
        ((Group.ofElements (es.map (·.output))).printed options.style pad)
        ⟨w, es.flatMap (·.span.events)
          ++ (Group.ofElements (es.map (·.output))).told options.style, w'⟩
  | object {path : List Container} {pad : String} {o : ObjectRef} {w w' w'' : World σ}
      {js : List (Judgement σ)} {es : List (Entry σ Key)} (ho : .object o ∉ path)
      (hkeys : js.map (·.key) = (w.heap.properties o).displayKeys)
      (hjudged : Judged options.hooks o w js w')
      (hfields : es.map (fun e => (e.slot, e.value))
        = w'.heap.fieldsAt o ((js.filter (·.kept)).map (·.key)))
      (hmade : Made options.hooks (.object o) .key w' es w'')
      (hvisits : ∀ e ∈ es, Visit options (.object o :: path) (pad ++ options.style.unit)
        e.value e.text e.visit) :
      Visit options path pad (.object o)
        ((Group.ofFields (es.map fun e =>
          options.style.entry e.slot e.value e.output)).printed options.style pad)
        ⟨w, js.flatMap (·.span.events) ++ es.flatMap (·.span.events)
          ++ (Group.ofFields (es.map fun e =>
            options.style.entry e.slot e.value e.output)).told options.style, w''⟩

namespace Judged

variable {hooks : Hooks σ} {o : ObjectRef}

theorem nil (w : World σ) : Judged hooks o w [] w :=
  ⟨rfl, List.forall_mem_nil _⟩

theorem cons (j : Judgement σ) {js : List (Judgement σ)} {w' : World σ}
    (hj : hooks.Judges o j.key j.kept j.span) (hjs : Judged hooks o j.span.after js w') :
    Judged hooks o j.span.before (j :: js) w' :=
  ⟨⟨rfl, hjs.chain⟩, List.forall_mem_cons.mpr ⟨hj, hjs.judges⟩⟩

end Judged

namespace Made

variable {hooks : Hooks σ} {c : Container} {position : ι → Position}

theorem nil (w : World σ) : Made hooks c position w [] w :=
  ⟨rfl, List.forall_mem_nil _, List.forall_mem_nil _⟩

theorem cons (e : Entry σ ι) {es : List (Entry σ ι)} {w' : World σ}
    (hafter : e.rewriting.before = e.visit.after)
    (he : hooks.Rewrites c (position e.slot) e.text e.output e.rewriting)
    (hes : Made hooks c position e.rewriting.after es w') :
    Made hooks c position e.visit.before (e :: es) w' :=
  ⟨⟨rfl, hes.chain⟩, List.forall_mem_cons.mpr ⟨hafter, hes.right_after⟩,
    List.forall_mem_cons.mpr ⟨he, hes.rewrites⟩⟩

end Made

namespace Rendering

variable {path : List Container} {hooks : Hooks σ}

/-- The keys of an object are judged in order, and the kept ones are left. -/
theorem stretches_shownKeys (o : ObjectRef) (ks : List Key) :
    Stretches path (shownKeys hooks o ks) fun kept s =>
      ∃ js : List (Judgement σ), js.map (·.key) = ks ∧ Judged hooks o s.before js s.after ∧
        s.events = js.flatMap (·.span.events) ∧ kept = (js.filter (·.kept)).map (·.key) := by
  induction ks with
  | nil => exact .pure fun w => ⟨[], rfl, .nil w, rfl, rfl⟩
  | cons k ks ih =>
      refine (stretches_shown o k).bind fun keep s hjudges => ih.map fun kept s' hjs hs' => ?_
      obtain ⟨js, rfl, hjudged, hevents, rfl⟩ := hjs
      refine ⟨⟨k, keep, s⟩ :: js, rfl, ?_, ?_, ?_⟩
      · rw [hs'] at hjudged
        exact .cons ⟨k, keep, s⟩ hjudges hjudged
      · simp [hevents]
      · cases keep <;> rfl

/-- Entries are made in order: each value is written by `child`, and its text goes to the
transform. -/
theorem stretches_elements {child : Value → RenderM σ String} {P : Value → String → Span σ → Prop}
    (hchild : ∀ v, Stretches path (child v) (P v)) (r : ArrayRef) (i : Nat) (vs : List Value) :
    Stretches path (elements hooks child r i vs) fun outputs s =>
      ∃ es : List (Entry σ Nat), es.map (·.slot) = List.range' i es.length ∧
        es.map (·.value) = vs ∧ Made hooks (.array r) .index s.before es s.after ∧
        (∀ e ∈ es, P e.value e.text e.visit) ∧ s.events = es.flatMap (·.span.events) ∧
        outputs = es.map (·.output) := by
  induction vs generalizing i with
  | nil => exact .pure fun w => ⟨[], rfl, rfl, .nil w, List.forall_mem_nil _, rfl, rfl⟩
  | cons v vs ih =>
      refine (hchild v).bind fun text s hvisit =>
        (stretches_transformed _ _ text).bind fun output s' hrewrites =>
          (ih (i + 1)).map fun outputs s'' hes hs'' hs' => ?_
      obtain ⟨es, hslots, rfl, hmade, hvisits, hevents, rfl⟩ := hes
      refine ⟨⟨i, v, text, s, output, s'⟩ :: es, ?_, rfl, ?_, ?_, ?_, rfl⟩
      · rw [List.map_cons, hslots, List.length_cons, List.range'_succ]
      · rw [hs''] at hmade
        exact .cons ⟨i, v, text, s, output, s'⟩ hs' hrewrites hmade
      · exact List.forall_mem_cons.mpr ⟨hvisit, hvisits⟩
      · simp [Entry.span, hevents]

theorem stretches_fields {style : Style} {child : Value → RenderM σ String}
    {P : Value → String → Span σ → Prop} (hchild : ∀ v, Stretches path (child v) (P v))
    (o : ObjectRef) (fs : List (Key × Value)) :
    Stretches path (fields hooks style child o fs) fun outputs s =>
      ∃ es : List (Entry σ Key), es.map (fun e => (e.slot, e.value)) = fs ∧
        Made hooks (.object o) .key s.before es s.after ∧
        (∀ e ∈ es, P e.value e.text e.visit) ∧ s.events = es.flatMap (·.span.events) ∧
        outputs = es.map fun e => style.entry e.slot e.value e.output := by
  induction fs with
  | nil => exact .pure fun w => ⟨[], rfl, .nil w, List.forall_mem_nil _, rfl, rfl⟩
  | cons f fs ih =>
      obtain ⟨k, v⟩ := f
      refine (hchild v).bind fun text s hvisit =>
        (stretches_transformed _ _ text).bind fun output s' hrewrites =>
          ih.map fun outputs s'' hes hs'' hs' => ?_
      obtain ⟨es, rfl, hmade, hvisits, hevents, rfl⟩ := hes
      refine ⟨⟨k, v, text, s, output, s'⟩ :: es, rfl, ?_, ?_, ?_, rfl⟩
      · rw [hs''] at hmade
        exact .cons ⟨k, v, text, s, output, s'⟩ hs' hrewrites hmade
      · exact List.forall_mem_cons.mpr ⟨hvisit, hvisits⟩
      · simp [Entry.span, hevents]

variable {options : Options σ} {depth : Nat} {pad : String}

theorem stretches_array {r : ArrayRef}
    (hchild : ∀ v, Stretches (.array r :: path) (value options depth (pad ++ options.style.unit) v)
      (Visit options (.array r :: path) (pad ++ options.style.unit) v)) :
    Stretches path (value options (depth + 1) pad (.array r))
      (Visit options path pad (.array r)) := by
  rw [value]
  by_cases hr : Container.array r ∈ path
  · refine (stretches_unlessActive_of_mem hr).imp ?_
    rintro _ s ⟨rfl, hs⟩
    rw [hs]
    exact .cut s.before rfl hr
  refine stretches_unlessActive hr (stretches_heap_bind fun h => ?_)
  split
  · rename_i hnil
    refine .pure fun w hw => ?_
    rw [← hw] at hnil
    exact @Visit.array σ options path pad r w w [] hr rfl hnil.symm (.nil w)
      (List.forall_mem_nil _)
  · rename_i v vs hcons
    refine (stretches_within (stretches_elements hchild r 0 (v :: vs))).bind fun _ s hes => ?_
    obtain ⟨es, hslots, hvalues, hmade, hvisits, hevents, rfl⟩ := hes
    have hne : es.map (·.output) ≠ [] := by
      intro hnil
      rw [List.map_eq_nil_iff.mp hnil] at hvalues
      cases hvalues
    refine (stretches_laid options.style pad hne).imp ?_
    rintro _ s' ⟨rfl, hs'⟩ hbefore hheap
    rw [← hheap, ← hvalues] at hcons
    rw [hs', hbefore, Span.append_told, hevents]
    refine .array hr ?_ hcons.symm hmade hvisits
    rw [hslots, List.range_eq_range']

theorem stretches_object {o : ObjectRef}
    (hchild : ∀ v, Stretches (.object o :: path) (value options depth (pad ++ options.style.unit) v)
      (Visit options (.object o :: path) (pad ++ options.style.unit) v)) :
    Stretches path (value options (depth + 1) pad (.object o))
      (Visit options path pad (.object o)) := by
  rw [value]
  by_cases ho : Container.object o ∈ path
  · refine (stretches_unlessActive_of_mem ho).imp ?_
    rintro _ s ⟨rfl, hs⟩
    rw [hs]
    exact .cut s.before rfl ho
  refine stretches_unlessActive ho (stretches_heap_bind fun h => ?_)
  refine (stretches_shownKeys o _).bind fun kept s hjs => ?_
  obtain ⟨js, hkeys, hjudged, hevents, hkept⟩ := hjs
  split
  · refine .pure fun w hw hheap => ?_
    obtain rfl : w = s.after := hw
    rw [Span.append_still] at hheap ⊢
    rw [← hheap] at hkeys
    have hstretch : s = ⟨s.before, js.flatMap (·.span.events) ++ [] ++ [], s.after⟩ := by
      rw [List.append_nil, List.append_nil, ← hevents]
    rw [hstretch]
    refine @Visit.object σ options path pad o s.before s.after s.after js [] ho hkeys hjudged ?_
      (.nil _) (List.forall_mem_nil _)
    rw [← hkept]
    rfl
  · rename_i k ks
    refine stretches_heap_bind fun h' => ?_
    refine (stretches_within (stretches_fields hchild o _)).bind fun _ s' hes => ?_
    obtain ⟨es, hfields, hmade, hvisits, hevents', rfl⟩ := hes
    have hne : (es.map fun e => options.style.entry e.slot e.value e.output) ≠ [] := by
      intro hnil
      rw [List.map_eq_nil_iff.mp hnil] at hfields
      cases hfields
    refine (stretches_laid options.style pad hne).imp ?_
    rintro _ s'' ⟨rfl, hs''⟩ hlaid hheap' hbefore hheap
    rw [hs'', hlaid, Span.append_told] at hheap' hbefore hheap ⊢
    change s'.before.heap = h' at hheap'
    change s'.before = s.after at hbefore
    change s.before.heap = h at hheap
    have hstretch : ∀ told, s ++ ⟨s'.before, s'.events ++ told, s'.after⟩ =
        ⟨s.before, js.flatMap (·.span.events) ++ es.flatMap (·.span.events) ++ told,
          s'.after⟩ := by
      intro told
      rw [← hevents, ← hevents', List.append_assoc]
      rfl
    rw [hstretch]
    rw [hbefore] at hmade hheap'
    refine .object ho (hheap ▸ hkeys) hjudged ?_ hmade hvisits
    rw [hfields, ← hheap', hkept]
    rfl

/-- The text of a value that comes without a stop is that of a visit. -/
theorem stretches_value (options : Options σ) (depth : Nat) (pad : String) (v : Value) :
    Stretches path (value options depth pad v) (Visit options path pad v) := by
  induction depth generalizing path pad v with
  | zero =>
      intro world journal text run hrun
      cases hrun
  | succ depth ih =>
      cases v with
      | atom a => exact .pure fun w => .atom a w
      | array r => exact stretches_array (ih _)
      | object o => exact stretches_object (ih _)

end Rendering

/-- A rendering that gives a text is a visit of its value. -/
theorem visit_of_render {options : Options σ} {pad : String} {v : Value} {w : World σ}
    {text : String} (hok : (render options pad v w).result = .ok text) :
    Visit options [] pad v text
      ⟨w, (render options pad v w).events, (render options pad v w).world⟩ := by
  unfold render at hok ⊢
  split at hok
  · rename_i text' run hrun
    cases hok
    obtain ⟨s, rfl, rfl, hvisit⟩ := Rendering.stretches_value options _ pad v w [] _ _ hrun
    simpa using hvisit
  · cases hok

end ObjectLiteral
