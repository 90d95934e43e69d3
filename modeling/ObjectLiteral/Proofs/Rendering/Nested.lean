import ObjectLiteral.Proofs.Heap.Reachability
import ObjectLiteral.Proofs.Rendering.Log
import ObjectLiteral.Proofs.Tree.Occurrences
/-!
Nested containers.  Without hooks a rendering changes nothing on its way, so of all that was
written around a container only the pad and the active containers bear on its text; and of the
active ones only those that the container reaches.
-/

namespace ObjectLiteral

variable {σ ι : Type}

/-- Without a filter all keys are kept, and nothing happens meanwhile. -/
theorem Judged.of_no_filter {hooks : Hooks σ} {o : ObjectRef} {w w' : World σ}
    {js : List (Judgement σ)} (hjudged : Judged hooks o w js w') (hfilter : hooks.filter = none) :
    w' = w ∧ js.filter (·.kept) = js := by
  induction js generalizing w with
  | nil => exact ⟨hjudged.chain, rfl⟩
  | cons j js ih =>
      obtain ⟨⟨hbefore, hchain⟩, hjudges⟩ := hjudged
      obtain ⟨hj, hjs⟩ := List.forall_mem_cons.mp hjudges
      simp only [Hooks.Judges, hfilter, Option.map_none, Consults] at hj
      obtain ⟨hkept, hstill⟩ := hj
      have hafter : j.span.after = w := by
        rw [hstill]
        exact hbefore
      rw [hafter] at hchain
      obtain ⟨hw', hall⟩ := ih ⟨hchain, hjs⟩
      exact ⟨hw', by rw [List.filter_cons, if_pos hkept, hall]⟩

/-- Without a transform nothing happens between the visits of the entries. -/
theorem Made.of_no_transform {hooks : Hooks σ} {c : Container} {position : ι → Position}
    {w w' : World σ} {es : List (Entry σ ι)} (hmade : Made hooks c position w es w')
    (htransform : hooks.transform = none) (hstill : ∀ e ∈ es, e.visit.after = e.visit.before) :
    w' = w ∧ ∀ e ∈ es, e.visit.before = w := by
  induction es generalizing w with
  | nil => exact ⟨hmade.chain, List.forall_mem_nil _⟩
  | cons e es ih =>
      obtain ⟨⟨hbefore, hchain⟩, hright, hrewrites⟩ := hmade
      obtain ⟨he, hes⟩ := List.forall_mem_cons.mp hrewrites
      obtain ⟨hvisit, hvisits⟩ := List.forall_mem_cons.mp hstill
      obtain ⟨hnext, hnexts⟩ := List.forall_mem_cons.mp hright
      simp only [Hooks.Rewrites, htransform, Option.map_none, Consults] at he
      change e.visit.before = w at hbefore
      have hafter : e.span.after = w := by
        change e.rewriting.after = w
        rw [he.2]
        exact hnext.trans (hvisit.trans hbefore)
      rw [hafter] at hchain
      obtain ⟨hw', hall⟩ := ih ⟨hchain, hnexts, hes⟩ hvisits
      exact ⟨hw', List.forall_mem_cons.mpr ⟨hbefore, hall⟩⟩

def Hooks.Absent (hooks : Hooks σ) : Prop :=
  hooks.filter = none ∧ hooks.transform = none

namespace Walked

variable {options : Options σ} {path : List Container} {pad text : String} {v : Value}
  {s : Span σ} {walk : Walk}

/-- Without hooks the world stays as it is. -/
theorem after_eq (hwalked : Walked options path pad v text s walk)
    (hhooks : options.hooks.Absent) : s.after = s.before := by
  induction hwalked with
  | atom a w => rfl
  | cut w hv hc => rfl
  | array _ _ _ hmade _ _ ih => exact (hmade.of_no_transform hhooks.2 ih).1
  | object _ _ hjudged _ hmade _ _ ih =>
      exact (hmade.of_no_transform hhooks.2 ih).1.trans (hjudged.of_no_filter hhooks.1).1

/-- The entries of an array that is written without hooks: all are made in the world on entry. -/
theorem visits_of_array {r : ArrayRef} {w w' : World σ} {es : List (Entry σ Nat)}
    {walks : Entry σ Nat → Walk} (hhooks : options.hooks.Absent)
    (hmade : Made options.hooks (.array r) .index w es w')
    (hvisits : ∀ e ∈ es, Walked options (.array r :: path) (pad ++ options.style.unit)
      e.value e.text e.visit (walks e)) : ∀ e ∈ es, e.visit.before = w :=
  (hmade.of_no_transform hhooks.2 fun e he => (hvisits e he).after_eq hhooks).2

/-- The entries of an object that is written without hooks: all shown fields, made in the world on
entry. -/
theorem visits_of_object {o : ObjectRef} {w w' w'' : World σ} {js : List (Judgement σ)}
    {es : List (Entry σ Key)} {walks : Entry σ Key → Walk} (hhooks : options.hooks.Absent)
    (hkeys : js.map (·.key) = (w.heap.properties o).displayKeys)
    (hjudged : Judged options.hooks o w js w')
    (hfields : es.map (fun e => (e.slot, e.value)) =
      w'.heap.fieldsAt o ((js.filter (·.kept)).map (·.key)))
    (hmade : Made options.hooks (.object o) .key w' es w'')
    (hvisits : ∀ e ∈ es, Walked options (.object o :: path) (pad ++ options.style.unit)
      e.value e.text e.visit (walks e)) :
    es.map (fun e => (e.slot, e.value)) = w.heap.shownFields (fun _ _ => true) o ∧
      ∀ e ∈ es, e.visit.before = w := by
  obtain ⟨rfl, hkept⟩ := hjudged.of_no_filter hhooks.1
  refine ⟨?_, (hmade.of_no_transform hhooks.2 fun e he => (hvisits e he).after_eq hhooks).2⟩
  rw [hfields, hkept, hkeys, Heap.shownFields, List.filter_eq_self.mpr fun _ _ => rfl]

/-- Without hooks a visit writes the text of the unfolding below its path. -/
theorem text_eq (hwalked : Walked options path pad v text s walk)
    (hhooks : options.hooks.Absent) :
    text = (s.before.heap.unfold (fun _ _ => true) path v).text options.style pad := by
  induction hwalked with
  | atom a w => rw [Heap.unfold, Tree.text]
  | cut w hv hc => rw [Heap.unfold_of_mem hv hc, Tree.text]
  | @array path pad r w w' es walks g hr _ hvalues hmade hvisits hgroup ih =>
      have hbefore := visits_of_array hhooks hmade hvisits
      rw [Heap.unfold_array hr, Tree.text, hgroup, ← hvalues, List.map_map, List.map_map]
      congr 2
      refine List.map_congr_left fun e he => ?_
      rw [(hmade.rewrites e he).output_eq hhooks.2, ih e he, hbefore e he]
      rfl
  | @object path pad o w w' w'' js es walks g ho hkeys hjudged hfields hmade hvisits hgroup ih =>
      obtain ⟨hshown, hbefore⟩ := visits_of_object hhooks hkeys hjudged hfields hmade hvisits
      rw [Heap.unfold_object ho, Tree.text, hgroup, ← hshown, List.map_map, List.map_map]
      congr 2
      refine List.map_congr_left fun e he => ?_
      rw [(hmade.rewrites e he).output_eq hhooks.2, ih e he, hbefore e he]
      exact (Heap.entry_unfold options.style e.slot e.value _).symm

/-- The step of a walk to an entry: without hooks the walk has a part for each entry that the
container shows. -/
theorem exists_entry {c : Container} {i : Nat} {u : Value}
    (hwalked : Walked options path pad v text s walk) (hhooks : options.hooks.Absent)
    (hv : v.container? = some c) (hc : c ∉ path)
    (hu : (s.before.heap.shownEntries (fun _ _ => true) v)[i]? = some u) :
    ∃ entry text' s', walk.entries[i]? = some entry ∧ s'.before = s.before ∧
      Walked options (c :: path) (pad ++ options.style.unit) u text' s' entry := by
  cases hwalked with
  | atom a w => cases hv
  | cut w hd hmem =>
      cases hv.symm.trans hd
      exact absurd hmem hc
  | @array _ _ r w w' es walks g hr _ hvalues hmade hvisits hgroup =>
      cases hv
      change (w.heap.elements r).toList[i]? = some u at hu
      rw [← hvalues, List.getElem?_map, Option.map_eq_some_iff] at hu
      obtain ⟨e, hget, rfl⟩ := hu
      have he := List.mem_of_getElem? hget
      refine ⟨walks e, _, _, ?_, visits_of_array hhooks hmade hvisits e he, hvisits e he⟩
      rw [Walk.entries, List.getElem?_map, hget, Option.map_some]
  | @object _ _ o w w' w'' js es walks g ho hkeys hjudged hfields hmade hvisits hgroup =>
      cases hv
      obtain ⟨hshown, hbefore⟩ := visits_of_object hhooks hkeys hjudged hfields hmade hvisits
      change ((w.heap.shownFields (fun _ _ => true) o).map (·.2))[i]? = some u at hu
      rw [← hshown, List.map_map, List.getElem?_map, Option.map_eq_some_iff] at hu
      obtain ⟨e, hget, rfl⟩ := hu
      have he := List.mem_of_getElem? hget
      refine ⟨walks e, _, _, ?_, hbefore e he, hvisits e he⟩
      rw [Walk.entries, List.getElem?_map, hget, Option.map_some]

/-- Without hooks the walk has a part at the end of every route that meets no container twice:
the visit of what is there, below the containers that the route has met. -/
theorem exists_part {route : List Nat} {ancestors : List Container} {u : Value}
    (hwalked : Walked options path pad v text s walk) (hhooks : options.hooks.Absent)
    (hfollow : s.before.heap.follow (fun _ _ => true) path v route = some (ancestors, u))
    (hnodup : ancestors.Nodup) :
    ∃ part text' s', walk.at? route = some part ∧ s'.before = s.before ∧
      Walked options ancestors (options.style.padAt pad route.length) u text' s' part := by
  induction route generalizing path pad v text s walk with
  | nil =>
      cases hfollow
      exact ⟨walk, text, s, rfl, rfl, hwalked⟩
  | cons i route ih =>
      rw [Heap.follow] at hfollow
      split at hfollow
      · rename_i c entry hv hentry
        have hsuffix := (Heap.suffix_of_follow hfollow).sublist
        have hc : c ∉ path := (List.nodup_cons.mp (hnodup.sublist hsuffix)).1
        obtain ⟨step, _, s', hstep, hbefore, hbelow⟩ := hwalked.exists_entry hhooks hv hc hentry
        rw [← hbefore] at hfollow
        obtain ⟨part, text', s'', hpart, hbefore', hend⟩ := ih hbelow hfollow
        refine ⟨part, text', s'', ?_, hbefore'.trans hbefore, hend⟩
        rw [Walk.at?, hstep]
        exact hpart
      · cases hfollow

/-- A container that is not active is written with its group. -/
theorem exists_container {c : Container} (hwalked : Walked options path pad v text s walk)
    (hv : v.container? = some c) (hc : c ∉ path) :
    ∃ g below, walk = .container g text below := by
  cases hwalked with
  | atom a w => cases hv
  | cut w hd hmem =>
      cases hv.symm.trans hd
      exact absurd hmem hc
  | array | object => exact ⟨_, _, rfl⟩

end Walked

/-- Without hooks the text of a value below active containers is that of its unfolding there. -/
theorem Rendering.value_without_hooks (style : Style) (pad : String) (v : Value) (w : World σ)
    (path : List Container) (journal : List Event) {depth : Nat}
    (hroom : w.heap.room path < depth) :
    ∃ run, Rendering.value { style } depth pad v ⟨w, path, journal⟩ =
      .ok ((w.heap.unfold (fun _ _ => true) path v).text style pad) run := by
  obtain ⟨_, run, hrun, rfl, -⟩ := Rendering.settles_value (Rendering.frame_eq w.heap)
    (Hooks.gentle_none _) (Rendering.describes_unfold { style } w.heap fun _ _ => true) hroom pad
    (fun _ _ => trivial) ⟨w, path, journal⟩ ⟨rfl, rfl⟩
  exact ⟨run, hrun⟩

/-- Without hooks the text of a value depends on its context by the pad and by those active
containers that the value reaches.  A container inside a rendering that reaches none of the
containers around it has there the text that it has alone, at the pad of its level. -/
theorem render_nested (style : Style) (pad : String) (v : Value) (w : World σ) :
    (∃ text walk, (render { style } pad v w).result = .ok text ∧
      Walked { style } [] pad v text
        ⟨w, (render { style } pad v w).events, (render { style } pad v w).world⟩ walk ∧
      ∀ route ancestors u c,
        w.heap.follow (fun _ _ => true) [] v route = some (ancestors, u) → ancestors.Nodup →
        u.container? = some c → (∀ a ∈ ancestors, ¬ w.heap.Reaches (fun _ _ => true) u a) →
        ∃ g nested below, walk.at? route = some (.container g nested below) ∧
          (render { style } (style.padAt pad route.length) u w).result = .ok nested ∧
          nested.toList <:+: text.toList) ∧
    ∀ path path' : List Container, w.heap.Agree (fun _ _ => true) v path path' →
      ∃ text, ∀ depth journal,
        (w.heap.room path < depth → ∃ run,
          Rendering.value { style } depth pad v ⟨w, path, journal⟩ = .ok text run) ∧
        (w.heap.room path' < depth → ∃ run,
          Rendering.value { style } depth pad v ⟨w, path', journal⟩ = .ok text run) := by
  have hhooks : (Options.mk style {} : Options σ).hooks.Absent := ⟨rfl, rfl⟩
  constructor
  · have hok := render_without_hooks style pad v w
    obtain ⟨walk, hwalked⟩ := (visit_of_render hok).exists_walked
    refine ⟨_, walk, hok, hwalked, fun route ancestors u c hfollow hnodup hu hfree => ?_⟩
    obtain ⟨part, nested, s, hpart, hbefore, hthere⟩ := hwalked.exists_part hhooks hfollow hnodup
    have hc : c ∉ ancestors := fun hmem => hfree c hmem (.here hu)
    obtain ⟨g, below, rfl⟩ := hthere.exists_container hu hc
    have halone : w.heap.unfold (fun _ _ => true) ancestors u = w.heap.unfolding u :=
      (Heap.agree_nil_iff.mpr hfree).unfold_eq
    have hnested := hthere.text_eq hhooks
    rw [hbefore, halone] at hnested
    refine ⟨g, nested, below, hpart, ?_, ?_⟩
    · rw [render_without_hooks, hnested]
    · have hat : (w.heap.unfolding v).at? route = some (w.heap.unfolding u) :=
        (Heap.at?_unfold_eq_some_iff List.nodup_nil).mpr
          ⟨ancestors, u, hfollow, hnodup, halone.symm⟩
      have hmethod : (w.heap.unfolding u).method? style = none := by
        rw [Heap.unfolding, Heap.method?_unfold]
        cases u with
        | atom a => cases hu
        | array r | object o => rfl
      rw [hnested]
      exact Tree.text_infix_of_at? hat hmethod pad
  · intro path path' hagree
    refine ⟨(w.heap.unfold (fun _ _ => true) path v).text style pad,
      fun depth journal => ⟨?_, ?_⟩⟩
    · exact Rendering.value_without_hooks style pad v w path journal
    · rw [hagree.unfold_eq]
      exact Rendering.value_without_hooks style pad v w path' journal

namespace NestedWitness

def heap : Heap :=
  ⟨#[#[.array ⟨1⟩, .array ⟨0⟩], #[.atom .null]], #[], 0⟩

theorem eq_of_reaches_list {c : Container}
    (hreaches : heap.Reaches (fun _ _ => true) (.array ⟨1⟩) c) : c = .array ⟨1⟩ := by
  cases hreaches with
  | here hc =>
      cases hc
      rfl
  | @inside _ u _ hu hinside =>
      have hentries : heap.shownEntries (fun _ _ => true) (.array ⟨1⟩) = [.atom .null] := rfl
      rw [hentries] at hu
      obtain rfl := List.mem_singleton.mp hu
      cases hinside with
      | here hc => cases hc
      | inside hnone _ => cases hnone

theorem not_reaches_outer :
    ∀ a ∈ [Container.array ⟨0⟩], ¬ heap.Reaches (fun _ _ => true) (.array ⟨1⟩) a := by
  intro a ha hreaches
  obtain rfl := List.mem_singleton.mp ha
  exact absurd (eq_of_reaches_list hreaches) (by decide)

/-- The list is written below the array as it is written alone one level deeper. -/
theorem render_nested_list :
    ∃ text walk, (render { style := {} } "" (.array ⟨0⟩) ⟨heap, ()⟩).result = .ok text ∧
      Walked { style := {} } [] "" (.array ⟨0⟩) text ⟨⟨heap, ()⟩,
        (render { style := {} } "" (.array ⟨0⟩) ⟨heap, ()⟩).events,
        (render { style := {} } "" (.array ⟨0⟩) ⟨heap, ()⟩).world⟩ walk ∧
      (∃ g nested below, walk.at? [0] = some (.container g nested below) ∧
        (render { style := {} } "\t" (.array ⟨1⟩) ⟨heap, ()⟩).result = .ok nested ∧
        nested.toList <:+: text.toList) ∧
      ∃ nested, (∃ run, Rendering.value { style := {} } 2 "\t" (.array ⟨1⟩)
          ⟨⟨heap, ()⟩, [.array ⟨0⟩], []⟩ = .ok nested run) ∧
        ∃ run, Rendering.value { style := {} } 3 "\t" (.array ⟨1⟩)
          ⟨⟨heap, ()⟩, [], []⟩ = .ok nested run := by
  obtain ⟨⟨text, walk, hok, hwalked, hnested⟩, -⟩ :=
    render_nested {} "" (.array ⟨0⟩) ⟨heap, ()⟩
  obtain ⟨-, hcontexts⟩ := render_nested {} "\t" (.array ⟨1⟩) ⟨heap, ()⟩
  refine ⟨text, walk, hok, hwalked, ?_, ?_⟩
  · have hpad : Style.padAt {} "" [0].length = "\t" := by decide
    rw [← hpad]
    exact hnested [0] [.array ⟨0⟩] (.array ⟨1⟩) (.array ⟨1⟩) rfl (by decide) rfl not_reaches_outer
  · obtain ⟨nested, hsame⟩ :=
      hcontexts [.array ⟨0⟩] [] (Heap.agree_nil_iff.mpr not_reaches_outer)
    exact ⟨nested, (hsame 2 []).1 (by decide), (hsame 3 []).2 (by decide)⟩

end NestedWitness

end ObjectLiteral
