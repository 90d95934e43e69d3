import ObjectLiteral.Proofs.Rendering.HookOrder
import ObjectLiteral.Proofs.Rendering.Texts
import ObjectLiteral.Proofs.Rendering.Walks
import ObjectLiteral.Proofs.Tree.Decisions
import ObjectLiteral.Proofs.Tree.Layout
/-!
The log of a rendering.  Next to the calls of hooks an observer is told of marks and of layouts,
and what it is told is a walk in post-order: each mark where it is written, and each layout after
all that was told of the entries.
-/

namespace ObjectLiteral

open Text

variable {σ ι : Type}

/-- What is to be told of the layout of a group under a limit, if its text is `text`: how wide the
one-line form of the entries is, and whether the text is that form. -/
def Group.layouts (g : Group) (limit : Option Nat) (text : String) : List Event :=
  match g.entries, limit with
  | _ :: _, some limit => [.layout (width g.oneLine) limit (decide (text = g.oneLine))]
  | _, _ => []

namespace Walk

/-- The log of a walk that stands below so many containers, in post-order. -/
def log (limit : Option Nat) (depth : Nat) : Walk → List Event
  | atom => []
  | cut => [.cut depth]
  | container g text below => below.flatMap (log limit (depth + 1)) ++ g.layouts limit text
termination_by walk => walk
decreasing_by exact sizeOf_lt_container ‹_›

/-- A container on one line has only containers on one line in it, by the log of its walk. -/
def Settled (limit : Option Nat) (depth : Nat) (walk : Walk) : Prop :=
  ∀ told width limit', walk.log limit depth = told ++ [.layout width limit' true] →
    ∀ e ∈ told, e.fits? ≠ some false

end Walk

/-- What is told of a group is the layout of its text. -/
theorem Group.told_eq_layouts (g : Group) (style : Style) (pad : String) :
    g.told style = g.layouts style.limit (g.printed style pad) := by
  unfold told layouts
  cases hentries : g.entries with
  | nil => rfl
  | cons e es =>
      cases hlimit : style.limit with
      | none => rfl
      | some limit =>
          have hline : g.printed style pad = g.oneLine ↔ width g.oneLine ≤ limit := by
            have hne : g.entries ≠ [] := by simp [hentries]
            rw [printed_of_ne_nil hne, hlimit, Option.map_some]
            exact g.text_decision_eq_oneLine_iff pad style.unit limit
          simp [decision, hline]

theorem Group.shape_told (g : Group) (style : Style) : shape (g.told style) = g.told style := by
  unfold told
  split
  · rfl
  · rfl

/-- The layout of a text on one line is not told as broken. -/
theorem Group.fits_layouts (g : Group) {limit : Option Nat} {text : String}
    (hline : text = g.oneLine) : ∀ e ∈ g.layouts limit text, e.fits? ≠ some false := by
  unfold layouts
  split
  · simp [hline, Event.fits?]
  · simp

/-- A group that is printed on one line under a limit is within it. -/
theorem Group.fits_of_printed (g : Group) {style : Style} {limit : Nat} {pad : String}
    (hlimit : style.limit = some limit) (hne : g.entries ≠ [])
    (hline : g.printed style pad = g.oneLine) : width g.oneLine ≤ limit := by
  apply (g.text_decision_eq_oneLine_iff pad style.unit limit).mp
  simpa [printed_of_ne_nil hne, hlimit] using hline

/-- Without a transform every text stays as it was written. -/
theorem Hooks.Rewrites.output_eq {hooks : Hooks σ} {c : Container} {p : Position}
    {text output : String} {s : Span σ} (hrewrites : hooks.Rewrites c p text output s)
    (htransform : hooks.transform = none) : output = text := by
  simp only [Hooks.Rewrites, htransform, Option.map_none, Consults] at hrewrites
  exact hrewrites.1

/-- Questions about keys do not tell of the shape. -/
theorem Judged.shape_events {hooks : Hooks σ} {o : ObjectRef} {w w' : World σ}
    {js : List (Judgement σ)} (hjudged : Judged hooks o w js w') :
    shape (js.flatMap (·.span.events)) = [] := by
  apply List.filter_eq_nil_iff.mpr
  apply hjudged.forall_mem_events (P := fun e => ¬ e.isShape)
  simp [Event.isShape]

/-- Of an entry only its visit tells of the shape. -/
theorem Made.shape_events {hooks : Hooks σ} {c : Container} {position : ι → Position}
    {w w' : World σ} {es : List (Entry σ ι)} (hmade : Made hooks c position w es w') :
    shape (es.flatMap (·.span.events)) = es.flatMap fun e => shape e.visit.events := by
  simp only [shape, List.filter_flatMap]
  apply List.flatMap_congr
  intro e he
  have hcall : ∀ event ∈ e.rewriting.events, ¬ event.isShape := by
    apply (hmade.rewrites e he).forall_mem_events (P := fun e => ¬ e.isShape)
    simp [Event.isShape]
  simp [Entry.span, List.filter_eq_nil_iff.mpr hcall]

namespace Walked

variable {options : Options σ} {path : List Container} {pad text : String} {v : Value}
  {s : Span σ} {walk : Walk}

/-- The log of the entries of a container, from the logs of the single ones. -/
theorem flatMap_log {es : List (Entry σ ι)} {walks : Entry σ ι → Walk} {limit : Option Nat}
    {depth : Nat} (hlogs : ∀ e ∈ es, shape e.visit.events = (walks e).log limit depth) :
    (es.flatMap fun e => shape e.visit.events) = (es.map walks).flatMap (Walk.log limit depth) := by
  rw [List.flatMap_map]
  exact List.flatMap_congr hlogs

/-- What is told of a visit is the log of its walk. -/
theorem shape_events (hwalked : Walked options path pad v text s walk) :
    shape s.events = walk.log options.style.limit path.length := by
  induction hwalked with
  | atom a w => simp [Span.still, Walk.log, shape]
  | cut w hv hc => simp [Span.told, Walk.log, shape, Event.isShape]
  | @array path pad r w w' es walks g _ _ _ hmade _ _ ih =>
      have hentries := hmade.shape_events.trans (flatMap_log ih)
      have hlayout := (g.shape_told options.style).trans (g.told_eq_layouts options.style pad)
      simp only [shape, List.filter_append, Walk.log] at hentries hlayout ⊢
      rw [hentries, hlayout, List.length_cons]
  | @object path pad o w w' w'' js es walks g _ _ hjudged _ hmade _ _ ih =>
      have hquestions := hjudged.shape_events
      have hentries := hmade.shape_events.trans (flatMap_log ih)
      have hlayout := (g.shape_told options.style).trans (g.told_eq_layouts options.style pad)
      simp only [shape, List.filter_append, Walk.log] at hquestions hentries hlayout ⊢
      rw [hquestions, hentries, hlayout, List.nil_append, List.length_cons]

/-- Every part of a walk is the walk of a visit. -/
theorem of_at? {route : List Nat} {u : Walk} (hwalked : Walked options path pad v text s walk)
    (hu : walk.at? route = some u) :
    ∃ path' pad' v' text' s', Walked options path' pad' v' text' s' u := by
  induction route generalizing path pad v text s walk with
  | nil =>
      cases hu
      exact ⟨path, pad, v, text, s, hwalked⟩
  | cons i route ih =>
      simp only [Walk.at?] at hu
      split at hu
      · rename_i entry hentry
        have hmem := List.mem_of_getElem? hentry
        cases hwalked with
        | atom | cut => simp [Walk.entries] at hmem
        | array _ _ _ _ hvisits _ | object _ _ _ _ _ hvisits _ =>
            obtain ⟨e, he, rfl⟩ := List.mem_map.mp hmem
            exact ih (hvisits e he) hu
      · cases hu

end Walked

namespace Walk

/-- Without a limit no layout is told of. -/
theorem fits?_of_no_limit {walk : Walk} {depth : Nat} :
    ∀ e ∈ walk.log none depth, e.fits? = none := by
  induction depth, walk using log.induct with
  | case1 depth => simp [log]
  | case2 depth => simp [log, Event.fits?]
  | case3 depth g text below ih =>
      intro e he
      have hlayouts : g.layouts none text = [] := by
        unfold Group.layouts
        split
        · contradiction
        · rfl
      simp only [log, hlayouts, List.append_nil, List.mem_flatMap] at he
      obtain ⟨entry, hentry, he⟩ := he
      exact ih entry hentry e he

theorem settled_of_no_layout {walk : Walk} {limit : Option Nat} {depth : Nat}
    (hlog : ∀ e ∈ walk.log limit depth, e.fits? = none) : walk.Settled limit depth := by
  intro told width limit' heq
  have hlast := hlog (.layout width limit' true) (by simp [heq])
  cases hlast

theorem settled_container {g : Group} {text : String} {below : List Walk} {limit depth : Nat}
    (hempty : g.entries = [] → below = [])
    (hbelow : g.entries ≠ [] → text = g.oneLine →
      ∀ e ∈ below.flatMap (log (some limit) (depth + 1)), e.fits? ≠ some false) :
    (container g text below).Settled (some limit) depth := by
  intro told width limit' heq
  simp only [log, Group.layouts] at heq
  split at heq
  · rename_i hentries _
    obtain ⟨rfl, hlast⟩ := List.append_inj' heq rfl
    simp only [List.cons.injEq, Event.layout.injEq, decide_eq_true_eq] at hlast
    exact hbelow (by simp [hentries]) hlast.1.2.2
  · rename_i hnot
    have hentries : g.entries = [] := by
      cases hcases : g.entries with
      | nil => rfl
      | cons e es => exact absurd rfl (hnot e es limit hcases)
    simp [hempty hentries] at heq

end Walk

namespace Walked

variable {options : Options σ} {path : List Container} {pad text : String} {v : Value}
  {s : Span σ} {walk : Walk} {limit : Nat}

/-- A declaration that stands for a whole entry is the text of no container. -/
theorem log_of_method? {declaration : String} {limit? : Option Nat} {depth : Nat}
    (hwalked : Walked options path pad v text s walk)
    (hmethod : v.method? options.style = some declaration) : walk.log limit? depth = [] := by
  cases hwalked with
  | atom a w => simp [Walk.log]
  | cut w hv hc =>
      cases v with
      | atom a => cases hv
      | array r | object o => cases hmethod
  | array | object => cases hmethod

/-- If the one-line form of a container fits, so do the texts of its entries, except for that of a
method, which may be longer than the declaration in its place. -/
theorem fits_below {es : List (Entry σ ι)} {walks : Entry σ ι → Walk} {c : Container}
    {pad' : String} {g : Group} (hline : width g.oneLine ≤ limit)
    (hvisits : ∀ e ∈ es, Walked options (c :: path) pad' e.value e.text e.visit (walks e))
    (hwidth : ∀ e ∈ es, e.value.method? options.style = none → width e.text < width g.oneLine)
    (hfits : ∀ e ∈ es, width e.text ≤ limit → ∀ depth, ∀ event ∈ (walks e).log (some limit) depth,
      event.fits? ≠ some false) (depth : Nat) :
    ∀ event ∈ (es.map walks).flatMap (Walk.log (some limit) depth), event.fits? ≠ some false := by
  intro event hevent
  rw [List.flatMap_map] at hevent
  obtain ⟨e, he, hevent⟩ := List.mem_flatMap.mp hevent
  cases hmethod : e.value.method? options.style with
  | none =>
      have hlt := hwidth e he hmethod
      exact hfits e he (by omega) depth event hevent
  | some declaration =>
      rw [(hvisits e he).log_of_method? hmethod] at hevent
      cases hevent

theorem width_lt_of_elements {r : ArrayRef} {w w' : World σ} {es : List (Entry σ Nat)}
    (htransform : options.hooks.transform = none)
    (hmade : Made options.hooks (.array r) .index w es w') :
    ∀ e ∈ es, width e.text < width (Group.ofElements (es.map (·.output))).oneLine := by
  intro e he
  have houtput := (hmade.rewrites e he).output_eq htransform
  apply Group.width_lt_width_oneLine
  exact List.mem_map.mpr ⟨e, he, houtput⟩

theorem width_lt_of_fields {o : ObjectRef} {w w' : World σ} {es : List (Entry σ Key)}
    (htransform : options.hooks.transform = none)
    (hmade : Made options.hooks (.object o) .key w es w') :
    ∀ e ∈ es, e.value.method? options.style = none → width e.text <
      width (Group.ofFields
        (es.map fun e => options.style.entry e.slot e.value e.output)).oneLine := by
  intro e he hmethod
  have houtput := (hmade.rewrites e he).output_eq htransform
  have hentry : width e.text ≤ width (options.style.entry e.slot e.value e.output) := by
    simp [Style.entry, hmethod, houtput]
  have hline := Group.width_lt_width_oneLine
    (g := .ofFields (es.map fun e => options.style.entry e.slot e.value e.output))
    (List.mem_map.mpr ⟨e, he, rfl⟩)
  exact Nat.lt_of_le_of_lt hentry hline

/-- Without a transform a text that fits tells only of layouts on one line. -/
theorem fits_of_width_le (htransform : options.hooks.transform = none)
    (hlimit : options.style.limit = some limit)
    (hwalked : Walked options path pad v text s walk) (hwidth : width text ≤ limit) (depth : Nat) :
    ∀ e ∈ walk.log (some limit) depth, e.fits? ≠ some false := by
  induction hwalked generalizing depth with
  | atom a w => simp [Walk.log]
  | cut w hv hc => simp [Walk.log, Event.fits?]
  | @array path pad r w w' es walks g _ _ _ hmade hvisits hgroup ih =>
      have hline := Nat.le_trans (isMeasure_width.oneLine_le_printed g options.style pad) hwidth
      have hlt := hgroup ▸ width_lt_of_elements htransform hmade
      simp only [Walk.log, List.forall_mem_append]
      exact ⟨fits_below hline hvisits (fun e he _ => hlt e he) ih _,
        g.fits_layouts (g.printed_of_fits hlimit hline pad)⟩
  | @object path pad o w w' w'' js es walks g _ _ _ _ hmade hvisits hgroup ih =>
      have hline := Nat.le_trans (isMeasure_width.oneLine_le_printed g options.style pad) hwidth
      have hlt := hgroup ▸ width_lt_of_fields htransform hmade
      simp only [Walk.log, List.forall_mem_append]
      exact ⟨fits_below hline hvisits hlt ih _,
        g.fits_layouts (g.printed_of_fits hlimit hline pad)⟩

/-- Without a transform a container on one line has only containers on one line in it. -/
theorem settled (htransform : options.hooks.transform = none)
    (hwalked : Walked options path pad v text s walk) (depth : Nat) :
    walk.Settled options.style.limit depth := by
  cases hlimit : options.style.limit with
  | none =>
      intro told width limit' hlog e he
      have hnone := Walk.fits?_of_no_limit e (hlog ▸ List.mem_append_left _ he)
      simp [hnone]
  | some limit =>
      cases hwalked with
      | atom a w => exact Walk.settled_of_no_layout (by simp [Walk.log])
      | cut w hv hc => exact Walk.settled_of_no_layout (by simp [Walk.log, Event.fits?])
      | @array _ _ r w w' es walks g _ _ _ hmade hvisits hgroup =>
          have hlt := hgroup ▸ width_lt_of_elements htransform hmade
          refine Walk.settled_container (by simp [hgroup, Group.ofElements]) fun hne hline => ?_
          exact fits_below (g.fits_of_printed hlimit hne hline) hvisits (fun e he _ => hlt e he)
            (fun e he => (hvisits e he).fits_of_width_le htransform hlimit) _
      | @object _ _ o w w' w'' js es walks g _ _ _ _ hmade hvisits hgroup =>
          have hlt := hgroup ▸ width_lt_of_fields htransform hmade
          refine Walk.settled_container (by simp [hgroup, Group.ofFields]) fun hne hline => ?_
          exact fits_below (g.fits_of_printed hlimit hne hline) hvisits hlt
            (fun e he => (hvisits e he).fits_of_width_le htransform hlimit) _

end Walked

/-- What is told of a rendering that gives a text, next to the calls of hooks, is the log of the walk
of its visits in post-order.  Without a limit that are marks alone, and without a transform no
container on one line has one in it that is broken. -/
theorem render_log {options : Options σ} {pad : String} {v : Value} {w : World σ} {text : String}
    (hok : (render options pad v w).result = .ok text) :
    ∃ walk, Walked options [] pad v text
        ⟨w, (render options pad v w).events, (render options pad v w).world⟩ walk ∧
      shape (render options pad v w).events = walk.log options.style.limit 0 ∧
      (options.style.limit = none → ∀ e ∈ (render options pad v w).events, e.fits? = none) ∧
      (options.hooks.transform = none → ∀ route u, walk.at? route = some u →
        u.Settled options.style.limit route.length) := by
  obtain ⟨walk, hwalked⟩ := (visit_of_render hok).exists_walked
  have hlog := hwalked.shape_events
  refine ⟨walk, hwalked, hlog, ?_, ?_⟩
  · intro hlimit e he
    cases hshape : e.isShape with
    | true =>
        have hmem : e ∈ shape (render options pad v w).events := List.mem_filter.mpr ⟨he, hshape⟩
        rw [hlog, hlimit] at hmem
        exact Walk.fits?_of_no_limit e hmem
    | false =>
        cases e with
        | layout => cases hshape
        | _ => rfl
  · intro htransform route u hu
    obtain ⟨_, _, _, _, _, hbelow⟩ := hwalked.of_at? hu
    exact hbelow.settled htransform _

namespace LogWitness

def heap : Heap :=
  ⟨#[#[.array ⟨1⟩, .array ⟨0⟩], #[.atom (.bool true), .atom .null]], #[], 0⟩

def style : Style :=
  { indent := " ", limit := some 12 }

/-- The list, which is just as wide as the limit. -/
def list : Tree :=
  .array [.leaf (.bool true), .leaf .null]

def text : String :=
  "[\n [true, null],\n \"[Circular]\"\n]"

theorem unfolding_array : heap.unfolding (.array ⟨0⟩) = .array [list, .cut] := by
  have houter : (heap.elements ⟨0⟩).toList = [.array ⟨1⟩, .array ⟨0⟩] := rfl
  have hinner : (heap.elements ⟨1⟩).toList = [.atom (.bool true), .atom .null] := rfl
  simp [Heap.unfolding, Heap.unfold_array, Heap.unfold, houter, hinner, list]

theorem text_list (pad : String) : list.text style pad = "[true, null]" := by
  have hline : (Group.ofElements ["true", "null"]).oneLine = "[true, null]" := by decide
  have hwidth : width "[true, null]" ≤ 12 := by
    rw [width_eq_sum]
    decide
  have hgroup : list.group? style pad = some (.ofElements ["true", "null"]) := by
    simp [list, Tree.group?, Tree.text, Atom.literal]
  rw [Tree.text_of_group?_eq_some hgroup, Group.printed_of_fits rfl (hline ▸ hwidth), hline]

theorem text_array : (Tree.array [list, .cut]).text style "" = text := by
  have hwidth : 12 < width (Group.ofElements ["[true, null]", circularMark]).oneLine := by
    rw [width_eq_sum]
    decide
  have hgroup : (Tree.array [list, .cut]).group? style "" =
      some (.ofElements ["[true, null]", circularMark]) := by
    simp [Tree.group?, text_list, Tree.text]
  rw [Tree.text_of_group?_eq_some hgroup]
  exact ((Group.text_decision_eq_broken_iff _ "" style.unit 12).mpr hwidth).trans (by decide)

theorem render_log_cyclic :
    (render { style } "" (.array ⟨0⟩) ⟨heap, ()⟩).result = .ok text ∧
      ∃ walk, Walked { style } [] "" (.array ⟨0⟩) text ⟨⟨heap, ()⟩,
          (render { style } "" (.array ⟨0⟩) ⟨heap, ()⟩).events,
          (render { style } "" (.array ⟨0⟩) ⟨heap, ()⟩).world⟩ walk ∧
        shape (render { style } "" (.array ⟨0⟩) ⟨heap, ()⟩).events = walk.log (some 12) 0 ∧
        ∀ route u, walk.at? route = some u → u.Settled (some 12) route.length := by
  have hok : (render { style } "" (.array ⟨0⟩) ⟨heap, ()⟩).result = .ok text := by
    rw [render_without_hooks, unfolding_array, text_array]
  obtain ⟨walk, hwalked, hlog, -, hsettled⟩ := render_log hok
  exact ⟨hok, walk, hwalked, hlog, hsettled rfl⟩

end LogWitness

end ObjectLiteral
