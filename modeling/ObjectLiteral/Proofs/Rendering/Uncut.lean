import ObjectLiteral.Proofs.Heap.Footprint
import ObjectLiteral.Proofs.PropertyTable.History
import ObjectLiteral.Proofs.Rendering.Failures
import ObjectLiteral.Proofs.Rendering.Log
/-!
Renderings of trees in memory.  A value whose footprint has no container twice meets none of those
that are being written, so no mark is ever written for it, whatever hooks say, even if one of
them fails in the end.
-/

namespace ObjectLiteral

variable {σ α β : Type}

def Event.isCut : Event → Bool
  | .cut _ => true
  | _ => false

namespace Rendering

/-- From every run with a steady heap and at `path` a step tells of no cut, whether it ends with a
result or with a stop.  After a result, which satisfies `post`, the heap is steady again and the run
at `path`. -/
structure Uncut (steady : Heap → Prop) (path : List Container) (m : RenderM σ α)
    (post : α → Prop) : Prop where
  journal : ∀ run : Run σ, run.At steady path → (∀ e ∈ run.journal, e.isCut = false) →
    ∀ e ∈ (last m run).journal, e.isCut = false
  result : ∀ (run : Run σ) a run', run.At steady path → m run = .ok a run' →
    post a ∧ run'.At steady path

variable {steady : Heap → Prop} {path : List Container} {hooks : Hooks σ}

namespace Uncut

theorem pure {post : α → Prop} {a : α} (hpost : post a) :
    Uncut steady path (pure a : RenderM σ α) post where
  journal _ _ hjournal := hjournal
  result run b run' hrun hok := by
    cases hok
    exact ⟨hpost, hrun⟩

theorem throw (stop : Stop) {post : α → Prop} :
    Uncut steady path (throw stop : RenderM σ α) post where
  journal _ _ hjournal := hjournal
  result run b run' hrun hok := by cases hok

theorem bind {m : RenderM σ α} {f : α → RenderM σ β} {mid : α → Prop} {post : β → Prop}
    (hm : Uncut steady path m mid) (hf : ∀ a, mid a → Uncut steady path (f a) post) :
    Uncut steady path (m >>= f) post where
  journal run hrun hjournal := by
    have hfirst := hm.journal run hrun hjournal
    cases hstep : m run with
    | ok a run' =>
        obtain ⟨hmid, hrun'⟩ := hm.result run a run' hrun hstep
        rw [last, hstep] at hfirst
        rw [last_bind_of_ok hstep]
        exact (hf a hmid).journal run' hrun' hfirst
    | error stop run' =>
        rw [last, hstep] at hfirst
        rw [last_bind_of_error hstep]
        exact hfirst
  result run b run'' hrun hok := by
    simp only [Bind.bind, EStateM.bind] at hok
    cases hstep : m run with
    | ok a run' =>
        rw [hstep] at hok
        obtain ⟨hmid, hrun'⟩ := hm.result run a run' hrun hstep
        exact (hf a hmid).result run' b run'' hrun' hok
    | error stop run' =>
        rw [hstep] at hok
        cases hok

theorem heap : Uncut steady path (heap : RenderM σ Heap) steady where
  journal _ _ hjournal := hjournal
  result run h run' hrun hok := by
    cases hok
    exact ⟨hrun.heap, hrun⟩

theorem tell {e : Event} (he : e.isCut = false) :
    Uncut steady path (tell e : RenderM σ Unit) fun _ => True where
  journal _ _ hjournal := List.forall_mem_cons.mpr ⟨he, hjournal⟩
  result run _ run' hrun hok := by
    cases hok
    exact ⟨trivial, hrun.heap, hrun.active⟩

theorem call {f : HookM σ α}
    (hf : ∀ w a w', steady w.heap → f w = .ok a w' → steady w'.heap) :
    Uncut steady path (call f) fun _ => True where
  journal run _ hjournal := by
    simp only [last, Rendering.call]
    cases f run.world <;> exact hjournal
  result run a run' hrun hok := by
    simp only [Rendering.call] at hok
    cases hcall : f run.world with
    | ok b w' =>
        rw [hcall] at hok
        cases hok
        exact ⟨trivial, hf _ _ _ hrun.heap hcall, hrun.active⟩
    | error failure w' =>
        rw [hcall] at hok
        cases hok

theorem within {c : Container} {m : RenderM σ α} {post : α → Prop}
    (hm : Uncut steady (c :: path) m post) : Uncut steady path (within c m) post where
  journal := by
    rintro ⟨world, active, journal⟩ hrun hjournal
    rw [last_within]
    exact hm.journal ⟨world, c :: active, journal⟩ ⟨hrun.heap, congrArg (c :: ·) hrun.active⟩
      hjournal
  result := by
    rintro ⟨world, active, journal⟩ a run' hrun hok
    have hinner := hm.result ⟨world, c :: active, journal⟩
    simp only [Rendering.within] at hok
    cases hstep : m ⟨world, c :: active, journal⟩ with
    | ok b run'' =>
        rw [hstep] at hok
        cases hok
        obtain ⟨hpost, hrun'⟩ :=
          hinner _ _ ⟨hrun.heap, congrArg (c :: ·) hrun.active⟩ hstep
        exact ⟨hpost, hrun'.heap, congrArg List.tail hrun'.active⟩
    | error stop run'' =>
        rw [hstep] at hok
        cases hok

/-- A container that is not being written is written, without a mark. -/
theorem unlessActive {c : Container} {text : RenderM σ String} {post : String → Prop}
    (hc : c ∉ path) (htext : Uncut steady path text post) :
    Uncut steady path (unlessActive c text) post where
  journal run hrun hjournal := by
    rw [last, unlessActive_of_not_mem run (hrun.active ▸ hc)]
    exact htext.journal run hrun hjournal
  result run a run' hrun hok := by
    rw [unlessActive_of_not_mem run (hrun.active ▸ hc)] at hok
    exact htext.result run a run' hrun hok

end Uncut

variable {h : Heap}

theorem uncut_shown (hhooks : hooks.Preserving) (o : ObjectRef) (k : Key) :
    Uncut h.Keeps path (shown hooks o k) fun _ => True := by
  unfold shown
  split
  · exact .pure trivial
  · rename_i filter hfilter
    refine Uncut.heap.bind fun _ _ => (Uncut.tell rfl).bind fun _ _ => .call ?_
    exact fun w keep w' hw hcall => hw.trans (hhooks.filter filter hfilter o k w keep w' hcall)

theorem uncut_transformed (hhooks : hooks.Preserving) (c : Container) (p : Position)
    (text : String) : Uncut h.Keeps path (transformed hooks c p text) fun _ => True := by
  unfold transformed
  split
  · exact .pure trivial
  · rename_i transform htransform
    refine Uncut.heap.bind fun _ _ => (Uncut.tell rfl).bind fun _ _ => .call ?_
    exact fun w text' w' hw hcall =>
      hw.trans (hhooks.transform transform htransform c p text w text' w' hcall)

theorem uncut_shownKeys (hhooks : hooks.Preserving) (o : ObjectRef) (ks : List Key) :
    Uncut h.Keeps path (shownKeys hooks o ks) (·.Sublist ks) := by
  induction ks with
  | nil => exact .pure .slnil
  | cons k ks ih =>
      refine (uncut_shown hhooks o k).bind fun keep _ => ih.bind fun kept hkept => .pure ?_
      cases keep with
      | true => exact hkept.cons_cons k
      | false => exact hkept.cons k

theorem uncut_elements (hhooks : hooks.Preserving) {child : Value → RenderM σ String}
    {r : ArrayRef} (vs : List Value) (i : Nat)
    (hchild : ∀ v ∈ vs, Uncut h.Keeps path (child v) fun _ => True) :
    Uncut h.Keeps path (elements hooks child r i vs) fun _ => True := by
  induction vs generalizing i with
  | nil => exact .pure trivial
  | cons v vs ih =>
      obtain ⟨hfirst, hrest⟩ := List.forall_mem_cons.mp hchild
      refine hfirst.bind fun text _ => (uncut_transformed hhooks _ _ text).bind fun _ _ => ?_
      exact (ih (i + 1) hrest).bind fun _ _ => .pure trivial

theorem uncut_fields (hhooks : hooks.Preserving) {style : Style}
    {child : Value → RenderM σ String} {o : ObjectRef} (fs : List (Key × Value))
    (hchild : ∀ f ∈ fs, Uncut h.Keeps path (child f.2) fun _ => True) :
    Uncut h.Keeps path (fields hooks style child o fs) fun _ => True := by
  induction fs with
  | nil => exact .pure trivial
  | cons f fs ih =>
      obtain ⟨hfirst, hrest⟩ := List.forall_mem_cons.mp hchild
      refine hfirst.bind fun text _ => (uncut_transformed hhooks _ _ text).bind fun _ _ => ?_
      exact (ih hrest).bind fun _ _ => .pure trivial

theorem uncut_laid (style : Style) (pad : String) (g : Group) :
    Uncut steady path (laid style pad g : RenderM σ String) fun _ => True := by
  unfold laid
  split
  · exact .pure trivial
  · exact (Uncut.tell rfl).bind fun _ _ => .pure trivial

/-- A container makes way for its slots: what they take up is still off the path below it. -/
theorem off_path {ι : Type} {slots : List ι} {footprint : ι → List Container} {c : Container}
    (hnodup : (c :: slots.flatMap footprint).Nodup)
    (hoff : ∀ d ∈ c :: slots.flatMap footprint, d ∉ path) :
    ∀ s ∈ slots, (footprint s).Nodup ∧ ∀ d ∈ footprint s, d ∉ c :: path := by
  intro s hs
  obtain ⟨hnew, hbelow⟩ := List.nodup_cons.mp hnodup
  refine ⟨(List.nodup_flatMap.mp hbelow).1 s hs, fun d hd hmem => ?_⟩
  have hslots : d ∈ slots.flatMap footprint := List.mem_flatMap.mpr ⟨s, hs, hd⟩
  rcases List.mem_cons.mp hmem with rfl | hpath
  · exact hnew hslots
  · exact hoff d (List.mem_cons_of_mem c hslots) hpath

/-- A shown key has the value of a field. -/
theorem exists_field {o : ObjectRef} {fields : List (Key × Slot)}
    (hentries : (h.properties o).entries = fields.map fun f => (f.1, ⟨f.2.value, true⟩)) {k : Key}
    (hk : k ∈ (h.properties o).displayKeys) :
    ∃ f ∈ fields, (h.properties o).get? k = some f.2.value := by
  have hkey : k ∈ (h.properties o).keys := (PropertyTable.enumerableKeys_sublist _).subset
    (PropertyTable.mem_displayKeys_iff.mp hk)
  cases hfind : (h.properties o).find? k with
  | none => exact absurd hkey (PropertyTable.find?_eq_none_iff.mp hfind)
  | some p =>
      obtain ⟨before, after, hsplit, -⟩ := List.lookup_eq_some_iff.mp hfind
      have hmem : (k, p) ∈ fields.map fun f => (f.1, Property.mk f.2.value true) := by
        simp [← hentries, hsplit]
      obtain ⟨f, hf, heq⟩ := List.mem_map.mp hmem
      cases heq
      exact ⟨f, hf, by simp [PropertyTable.get?, hfind]⟩

section Containers

variable {options : Options σ} {depth : Nat} {pad : String}

theorem uncut_array (hhooks : options.hooks.Preserving) {r : ArrayRef} {slots : List Slot}
    (hr : .array r ∈ h.containers) (helements : (h.elements r).toList = slots.map (·.value))
    (hpath : .array r ∉ path)
    (hslots : ∀ s ∈ slots, Uncut h.Keeps (.array r :: path)
      (value options depth (pad ++ options.style.unit) s.value) fun _ => True) :
    Uncut h.Keeps path (value options (depth + 1) pad (.array r)) fun _ => True := by
  rw [value]
  refine .unlessActive hpath (Uncut.heap.bind fun heap hheap => ?_)
  rw [hheap.elements hr, helements]
  split
  · exact .pure trivial
  · rename_i v vs hvalues
    have hchild : ∀ u ∈ v :: vs, Uncut h.Keeps (.array r :: path)
        (value options depth (pad ++ options.style.unit) u) fun _ => True := by
      rw [← hvalues]
      simpa using hslots
    exact (Uncut.within (uncut_elements hhooks _ 0 hchild)).bind fun _ _ => uncut_laid _ _ _

theorem uncut_object (hhooks : options.hooks.Preserving) {o : ObjectRef}
    {fields : List (Key × Slot)} (ho : .object o ∈ h.containers)
    (hentries : (h.properties o).entries = fields.map fun f => (f.1, ⟨f.2.value, true⟩))
    (hpath : .object o ∉ path)
    (hfields : ∀ f ∈ fields, Uncut h.Keeps (.object o :: path)
      (value options depth (pad ++ options.style.unit) f.2.value) fun _ => True) :
    Uncut h.Keeps path (value options (depth + 1) pad (.object o)) fun _ => True := by
  rw [value]
  refine .unlessActive hpath (Uncut.heap.bind fun heap hheap => ?_)
  rw [hheap.properties ho]
  refine (uncut_shownKeys hhooks o _).bind fun kept hkept => ?_
  split
  · exact .pure trivial
  · rename_i k ks
    refine Uncut.heap.bind fun heap' hheap' => ?_
    rw [hheap'.properties ho]
    refine (Uncut.within (uncut_fields hhooks _ fun e he => ?_)).bind fun _ _ => uncut_laid _ _ _
    obtain ⟨j, hj, rfl⟩ := List.mem_map.mp he
    obtain ⟨f, hf, hvalue⟩ := exists_field hentries (hkept.subset hj)
    simpa [hvalue] using hfields f hf

/-- No mark is written for a value whose footprint has no container twice and none of the path. -/
theorem uncut_value (hhooks : options.hooks.Preserving) {v : Value} {t : Tree}
    {footprint : List Container} (hholds : h.Holds v t footprint) (hnodup : footprint.Nodup)
    (hoff : ∀ c ∈ footprint, c ∉ path) (depth : Nat) (pad : String) :
    Uncut h.Keeps path (value options depth pad v) fun _ => True := by
  induction hholds generalizing path depth pad with
  | atom a =>
      cases depth with
      | zero => exact .throw _
      | succ depth => exact .pure trivial
  | array hr helements _ ih =>
      cases depth with
      | zero => exact .throw _
      | succ depth =>
          apply uncut_array hhooks hr helements (hoff _ List.mem_cons_self)
          intro s hs
          obtain ⟨hpart, hbelow⟩ := off_path hnodup hoff s hs
          exact ih s hs hpart hbelow depth _
  | object ho hentries _ ih =>
      cases depth with
      | zero => exact .throw _
      | succ depth =>
          apply uncut_object hhooks ho hentries (hoff _ List.mem_cons_self)
          intro f hf
          obtain ⟨hpart, hbelow⟩ := off_path hnodup hoff f hf
          exact ih f hf hpart hbelow depth _

end Containers

end Rendering

/-- A rendering of a value whose footprint has no container twice tells of no cut, however it
ends. -/
theorem isCut_of_mem_events {options : Options σ} (hhooks : options.hooks.Preserving)
    (pad : String) {v : Value} {t : Tree} {footprint : List Container} {w : World σ}
    (hholds : w.heap.Holds v t footprint) (hnodup : footprint.Nodup) :
    ∀ e ∈ (render options pad v w).events, e.isCut = false := by
  have hoff : ∀ c ∈ footprint, c ∉ ([] : List Container) := by simp
  have huncut := Rendering.uncut_value hhooks hholds hnodup hoff (options.depth w.heap) pad
  have hjournal := huncut.journal ⟨w, [], []⟩ ⟨.refl w.heap, rfl⟩ (by simp)
  rw [render_eq_ofEnd, Outcome.events_ofEnd]
  simpa using hjournal

/-- A mark in a walk is on its log. -/
theorem Walk.exists_cut_of_at? {walk : Walk} {route : List Nat}
    (hcut : walk.at? route = some .cut) (limit : Option Nat) (depth : Nat) :
    ∃ e ∈ walk.log limit depth, e.isCut = true := by
  induction route generalizing walk depth with
  | nil =>
      cases hcut
      exact ⟨.cut depth, by simp [log], rfl⟩
  | cons i route ih =>
      simp only [at?] at hcut
      split at hcut
      · rename_i entry hentry
        have hmem := List.mem_of_getElem? hentry
        cases walk with
        | atom | cut => simp [entries] at hmem
        | container g text below =>
            obtain ⟨e, he, hcut⟩ := ih hcut (depth + 1)
            refine ⟨e, ?_, hcut⟩
            rw [log]
            exact List.mem_append_left _ (List.mem_flatMap.mpr ⟨entry, hmem, he⟩)
      · cases hcut

/-- So no part of such a rendering is a mark. -/
theorem Walked.at?_ne_cut {options : Options σ} {path : List Container} {pad text : String}
    {v : Value} {s : Span σ} {walk : Walk} (hwalked : Walked options path pad v text s walk)
    (huncut : ∀ e ∈ s.events, e.isCut = false) (route : List Nat) :
    walk.at? route ≠ some .cut := by
  intro hcut
  obtain ⟨e, he, hcut⟩ := Walk.exists_cut_of_at? hcut options.style.limit path.length
  rw [← hwalked.shape_events] at he
  have hfalse := huncut e (List.mem_filter.mp he).1
  rw [hcut] at hfalse
  cases hfalse

end ObjectLiteral
