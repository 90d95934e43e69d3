import ObjectLiteral.Proofs.Rendering.Visits
/-!
The order of hook calls.  While a container is being written all calls on its behalf come from its
own visit, so the events of the visit show them as they are: the filter is asked about each key
that is shown on entry, and the transform about each entry that is taken, once and in order.
-/

namespace ObjectLiteral

variable {σ ι δ : Type}

namespace Event

/-- A call of a hook on behalf of a container. -/
def Concerns (c : Container) : Event → Prop
  | .filtering o _ _ => c = .object o
  | .transforming d _ _ _ => c = d
  | _ => False

/-- The slot of a container that the transform is asked about. -/
def slotOf? (c : Container) : Event → Option Position
  | .transforming d p _ _ => if d = c then some p else none
  | _ => none

/-- The key of an object that the filter is asked about. -/
def keyOf? (o : ObjectRef) : Event → Option Key
  | .filtering p k _ => if p = o then some k else none
  | _ => none

theorem slotOf?_eq_none {c : Container} {e : Event} (he : ¬ e.Concerns c) :
    e.slotOf? c = none := by
  cases e with
  | transforming d p count text => exact if_neg fun hd => he hd.symm
  | _ => rfl

theorem keyOf?_eq_none {o : ObjectRef} {e : Event} (he : ¬ e.Concerns (.object o)) :
    e.keyOf? o = none := by
  cases e with
  | filtering p k count => exact if_neg fun hp => he (congrArg Container.object hp.symm)
  | _ => rfl

theorem filterMap_slotOf?_eq_nil {c : Container} {events : List Event}
    (hevents : ∀ e ∈ events, ¬ e.Concerns c) : events.filterMap (slotOf? c) = [] :=
  List.filterMap_eq_nil_iff.mpr fun e he => slotOf?_eq_none (hevents e he)

theorem filterMap_keyOf?_eq_nil {o : ObjectRef} {events : List Event}
    (hevents : ∀ e ∈ events, ¬ e.Concerns (.object o)) : events.filterMap (keyOf? o) = [] :=
  List.filterMap_eq_nil_iff.mpr fun e he => keyOf?_eq_none (hevents e he)

end Event

/-- Parts that show one thing each show all things in order. -/
theorem filterMap_flatMap_eq_map {α β γ : Type} {f : α → List β} {view : β → Option γ} {g : α → γ}
    {as : List α} (hall : ∀ a ∈ as, (f a).filterMap view = [g a]) :
    (as.flatMap f).filterMap view = as.map g := by
  rw [List.filterMap_flatMap, List.map_eq_flatMap, List.flatMap_def, List.flatMap_def,
    List.map_congr_left hall]

/-- The layout of a container is no call. -/
theorem Group.told_not_concerns (g : Group) (style : Style) (c : Container) :
    ∀ e ∈ g.told style, ¬ e.Concerns c := by
  unfold told
  split
  · exact List.forall_mem_singleton.mpr id
  · exact List.forall_mem_nil _

namespace Consults

variable {hook? : Option (HookM σ δ)} {default answer : δ} {event : World σ → Event} {s : Span σ}

theorem events_eq (hs : Consults hook? default event answer s) (hhook : hook?.isSome) :
    s.events = [event s.before] := by
  cases hook? with
  | none => cases hhook
  | some hook => exact hs.2

theorem forall_mem_events (hs : Consults hook? default event answer s) {P : Event → Prop}
    (hevent : P (event s.before)) : ∀ e ∈ s.events, P e := by
  cases hook? with
  | none =>
      rw [hs.2]
      exact List.forall_mem_nil _
  | some hook =>
      rw [hs.2]
      exact List.forall_mem_singleton.mpr hevent

end Consults

section Parts

variable {hooks : Hooks σ} {w w' : World σ}

theorem Judged.forall_mem_events {o : ObjectRef} {js : List (Judgement σ)}
    (hjudged : Judged hooks o w js w') {P : Event → Prop}
    (hasked : ∀ k count, P (.filtering o k count)) : ∀ e ∈ js.flatMap (·.span.events), P e := by
  intro e he
  obtain ⟨j, hj, he⟩ := List.mem_flatMap.mp he
  exact (hjudged.judges j hj).forall_mem_events (hasked _ _) e he

theorem Judged.filterMap_keyOf? {o : ObjectRef} {js : List (Judgement σ)}
    (hfilter : hooks.filter.isSome) (hjudged : Judged hooks o w js w') :
    (js.flatMap (·.span.events)).filterMap (Event.keyOf? o) = js.map (·.key) := by
  refine filterMap_flatMap_eq_map fun j hj => ?_
  rw [(hjudged.judges j hj).events_eq (by simpa using hfilter)]
  simp [Event.keyOf?]

variable {c : Container} {position : ι → Position} {es : List (Entry σ ι)}

theorem Made.forall_mem_events (hmade : Made hooks c position w es w') {P : Event → Prop}
    (hvisits : ∀ e ∈ es, ∀ event ∈ e.visit.events, P event)
    (hasked : ∀ p count text, P (.transforming c p count text)) :
    ∀ e ∈ es.flatMap (·.span.events), P e := by
  intro event hevent
  obtain ⟨e, he, hevent⟩ := List.mem_flatMap.mp hevent
  rcases List.mem_append.mp hevent with hevent | hevent
  · exact hvisits e he event hevent
  · exact (hmade.rewrites e he).forall_mem_events (hasked _ _ _) event hevent

theorem Made.filterMap_slotOf? (htransform : hooks.transform.isSome)
    (hmade : Made hooks c position w es w')
    (hvisits : ∀ e ∈ es, ∀ event ∈ e.visit.events, ¬ event.Concerns c) :
    (es.flatMap (·.span.events)).filterMap (Event.slotOf? c) = es.map fun e => position e.slot := by
  refine filterMap_flatMap_eq_map fun e he => ?_
  have hcall := (hmade.rewrites e he).events_eq (by simpa using htransform)
  rw [Entry.span, Span.events_append, List.filterMap_append,
    Event.filterMap_slotOf?_eq_nil (hvisits e he), hcall]
  simp [Event.slotOf?]

end Parts

namespace Visit

variable {options : Options σ} {path : List Container} {pad text : String} {v : Value}
  {s : Span σ}

/-- While a container is being written no visit below it calls a hook on its behalf. -/
theorem not_concerns (hvisit : Visit options path pad v text s) {c : Container} (hc : c ∈ path) :
    ∀ e ∈ s.events, ¬ e.Concerns c := by
  induction hvisit with
  | atom a w => exact List.forall_mem_nil _
  | cut w hv hmem => exact List.forall_mem_singleton.mpr id
  | array hr _ _ hmade _ ih =>
      refine List.forall_mem_append.mpr ⟨?_, Group.told_not_concerns _ _ c⟩
      exact hmade.forall_mem_events (fun e he => ih e he (List.mem_cons_of_mem _ hc))
        fun _ _ _ heq => hr (heq ▸ hc)
  | object ho _ hjudged _ hmade _ ih =>
      refine List.forall_mem_append.mpr
        ⟨List.forall_mem_append.mpr ⟨?_, ?_⟩, Group.told_not_concerns _ _ c⟩
      · exact hjudged.forall_mem_events fun _ _ heq => ho (heq ▸ hc)
      · exact hmade.forall_mem_events (fun e he => ih e he (List.mem_cons_of_mem _ hc))
          fun _ _ _ heq => ho (heq ▸ hc)

/-- With a transform the visit of an array calls it on behalf of the array once for each slot that
the array has on entry, in order. -/
theorem filterMap_slotOf?_array {r : ArrayRef} (hvisit : Visit options path pad (.array r) text s)
    (hr : .array r ∉ path) (htransform : options.hooks.transform.isSome) :
    s.events.filterMap (Event.slotOf? (.array r)) =
      (List.range (s.before.heap.elements r).size).map .index := by
  cases hvisit with
  | cut w hv hc =>
      cases hv
      exact absurd hc hr
  | @array _ _ _ w w' es _ hslots hvalues hmade hvisits =>
      have hsize : (w.heap.elements r).size = es.length := by
        rw [← Array.length_toList, ← hvalues, List.length_map]
      have hfresh := fun e he => (hvisits e he).not_concerns List.mem_cons_self
      rw [List.filterMap_append, hmade.filterMap_slotOf? htransform hfresh,
        Event.filterMap_slotOf?_eq_nil (Group.told_not_concerns _ _ _), List.append_nil, hsize,
        ← hslots, List.map_map]
      rfl

/-- With a filter the visit of an object asks it once for each key that the object shows on entry,
in display order. -/
theorem filterMap_keyOf?_object {o : ObjectRef}
    (hvisit : Visit options path pad (.object o) text s) (ho : .object o ∉ path)
    (hfilter : options.hooks.filter.isSome) :
    s.events.filterMap (Event.keyOf? o) = (s.before.heap.properties o).displayKeys := by
  cases hvisit with
  | cut w hv hc =>
      cases hv
      exact absurd hc ho
  | @object _ _ _ w w' w'' js es _ hkeys hjudged _ hmade hvisits =>
      have hentries : (es.flatMap (·.span.events)).filterMap (Event.keyOf? o) = [] := by
        refine List.filterMap_eq_nil_iff.mpr (hmade.forall_mem_events ?_ fun _ _ _ => rfl)
        intro e he event hevent
        exact Event.keyOf?_eq_none ((hvisits e he).not_concerns List.mem_cons_self event hevent)
      rw [List.filterMap_append, List.filterMap_append, hjudged.filterMap_keyOf? hfilter, hentries,
        Event.filterMap_keyOf?_eq_nil (Group.told_not_concerns _ _ _), List.append_nil,
        List.append_nil, hkeys]

/-- With a transform the visit of an object calls it on behalf of the object once for each kept key,
in display order. -/
theorem filterMap_slotOf?_object {o : ObjectRef}
    (hvisit : Visit options path pad (.object o) text s) (ho : .object o ∉ path)
    (htransform : options.hooks.transform.isSome) :
    ∃ kept : List Key, kept.Sublist (s.before.heap.properties o).displayKeys ∧
      s.events.filterMap (Event.slotOf? (.object o)) = kept.map .key := by
  cases hvisit with
  | cut w hv hc =>
      cases hv
      exact absurd hc ho
  | @object _ _ _ w w' w'' js es _ hkeys hjudged hfields hmade hvisits =>
      refine ⟨(js.filter (·.kept)).map (·.key), hkeys ▸ List.filter_sublist.map _, ?_⟩
      have hquestions : (js.flatMap (·.span.events)).filterMap (Event.slotOf? (.object o)) = [] :=
        List.filterMap_eq_nil_iff.mpr (hjudged.forall_mem_events fun _ _ => rfl)
      have hfresh := fun e he => (hvisits e he).not_concerns List.mem_cons_self
      have hslots : es.map (·.slot) = (js.filter (·.kept)).map (·.key) := by
        have hfst := congrArg (List.map Prod.fst) hfields
        simpa [Heap.fieldsAt, Function.comp_def] using hfst
      rw [List.filterMap_append, List.filterMap_append, hquestions,
        hmade.filterMap_slotOf? htransform hfresh,
        Event.filterMap_slotOf?_eq_nil (Group.told_not_concerns _ _ _), List.append_nil,
        List.nil_append, ← hslots, List.map_map]
      rfl

end Visit

/-- A rendering that gives a text is a visit of its value: whatever hooks do to the world meanwhile,
entries are taken and hooks are called as the rules of a visit lay down.  So the calls on behalf of
the value itself are one for each slot of an array and, of an object, a question for each key that
is shown at the start and then a call for each kept one. -/
theorem render_visit {options : Options σ} {pad : String} {v : Value} {w : World σ}
    {text : String} (hok : (render options pad v w).result = .ok text) :
    Visit options [] pad v text
        ⟨w, (render options pad v w).events, (render options pad v w).world⟩ ∧
      (∀ r, v = .array r → options.hooks.transform.isSome →
        (render options pad v w).events.filterMap (Event.slotOf? (.array r)) =
          (List.range (w.heap.elements r).size).map .index) ∧
      (∀ o, v = .object o → options.hooks.filter.isSome →
        (render options pad v w).events.filterMap (Event.keyOf? o) =
          (w.heap.properties o).displayKeys) ∧
      ∀ o, v = .object o → options.hooks.transform.isSome →
        ∃ kept : List Key, kept.Sublist (w.heap.properties o).displayKeys ∧
          (render options pad v w).events.filterMap (Event.slotOf? (.object o)) =
            kept.map .key := by
  have hvisit := visit_of_render hok
  refine ⟨hvisit, ?_, ?_, ?_⟩
  · rintro r rfl htransform
    exact hvisit.filterMap_slotOf?_array List.not_mem_nil htransform
  · rintro o rfl hfilter
    exact hvisit.filterMap_keyOf?_object List.not_mem_nil hfilter
  · rintro o rfl htransform
    exact hvisit.filterMap_slotOf?_object List.not_mem_nil htransform

namespace HookOrderWitness

/-- A filter that takes the key `b` out of the object, and a transform that numbers the entries and
empties the array. -/
def hooks : Hooks Nat where
  filter := some fun o _ w => .ok true ⟨(w.heap.erase o (.name "b")).2, w.state⟩
  transform := some fun _ _ text w =>
    .ok (Numeral.ofNat w.state ++ text) ⟨w.heap.truncate ⟨0⟩ 0, w.state + 1⟩

def heap : Heap :=
  ⟨#[#[.object ⟨0⟩, .object ⟨0⟩]],
    #[⟨[(.name "a", ⟨.array ⟨0⟩, true⟩), (.name "b", ⟨.atom .null, true⟩)]⟩], 0⟩

def options : Options Nat :=
  ⟨{ indent := " " }, hooks⟩

/-- The second element is written although it is gone by then, and `b` has no value any more when
the first one takes its values. -/
def text : String :=
  "[\n 2\x7b\n  a: 0\"[Circular]\",\n  b: 1undefined\n \x7d,\n"
    ++ " 4\x7b\n  a: 3\"[Circular]\"\n \x7d\n]"

theorem render_visit_emptied :
    (render options "" (.array ⟨0⟩) ⟨heap, 0⟩).result = .ok text ∧
      Visit options [] "" (.array ⟨0⟩) text ⟨⟨heap, 0⟩,
        (render options "" (.array ⟨0⟩) ⟨heap, 0⟩).events,
        (render options "" (.array ⟨0⟩) ⟨heap, 0⟩).world⟩ ∧
      (render options "" (.array ⟨0⟩) ⟨heap, 0⟩).events.filterMap (Event.slotOf? (.array ⟨0⟩)) =
        [.index 0, .index 1] := by
  have hok : (render options "" (.array ⟨0⟩) ⟨heap, 0⟩).result = .ok text :=
    Outcome.result_eq_ok (by decide +kernel)
  obtain ⟨hvisit, hslots, -⟩ := render_visit hok
  exact ⟨hok, hvisit, hslots ⟨0⟩ rfl rfl⟩

end HookOrderWitness

end ObjectLiteral
