import ObjectLiteral.Proofs.Heap.Unfolding
import ObjectLiteral.Proofs.Rendering.Steps
/-!
The text of a value under harmless hooks.  A depth above the room off the active containers is
enough, whatever the references of the heap, and where hooks only choose keys the text is that of
the unfolding.
-/

namespace ObjectLiteral

variable {σ : Type}

namespace Rendering

/-- In a steady heap the known containers hold what they hold in `h`, and nothing in them refers to
a container that is not known. -/
structure Frame (h : Heap) (known : Container → Prop) (steady : Heap → Prop) : Prop where
  elements : ∀ h' r, steady h' → known (.array r) → h'.elements r = h.elements r
  properties : ∀ h' o, steady h' → known (.object o) → h'.properties o = h.properties o
  known_elements : ∀ r, ∀ v ∈ (h.elements r).toList, ∀ c, v.container? = some c → known c
  known_properties : ∀ o k v, (h.properties o).get? k = some v →
    ∀ c, v.container? = some c → known c

/-- Where nothing changes, all containers may count as known. -/
theorem frame_eq (h : Heap) : Frame h (fun _ => True) (· = h) where
  elements h' r hsteady _ := by rw [hsteady]
  properties h' o hsteady _ := by rw [hsteady]
  known_elements _ _ _ _ _ := trivial
  known_properties _ _ _ _ _ _ := trivial

/-- Where new containers may come, those of the start are known. -/
theorem frame_keeps {h : Heap} (hclosed : h.Closed) : Frame h (· ∈ h.containers) h.Keeps where
  elements _ _ hsteady hr := hsteady.elements hr
  properties _ _ hsteady ho := hsteady.properties ho
  known_elements _ _ hv := hclosed.has_of_elements hv
  known_properties _ _ _ hv := hclosed.has_of_properties hv

theorem Frame.known_fieldsAt {h : Heap} {known : Container → Prop} {steady : Heap → Prop}
    (hframe : Frame h known steady) {o : ObjectRef} {ks : List Key} {f : Key × Value}
    (hf : f ∈ h.fieldsAt o ks) : ∀ c, f.2.container? = some c → known c := by
  obtain ⟨k, -, rfl⟩ := List.mem_map.mp hf
  cases hget : (h.properties o).get? k with
  | none =>
      intro c hc
      cases hc
  | some v => exact hframe.known_properties o k v hget

variable {h : Heap} {known : Container → Prop} {steady : Heap → Prop} {options : Options σ}
  {answers : ObjectRef → Key → Bool → Prop}
  {rewrites : Container → Position → String → String → Prop}
  {texts : List Container → String → Value → String → Prop}

/-- The text of a value stands in every relation that describes the rendering, and there is a text
wherever the depth exceeds the room: each container that is entered takes up room. -/
theorem settles_value (hframe : Frame h known steady)
    (hhooks : options.hooks.Gentle steady answers rewrites)
    (htexts : Describes options h answers rewrites texts) {depth : Nat} {path : List Container}
    (hroom : h.room path < depth) (pad : String) {v : Value}
    (hv : ∀ c, v.container? = some c → known c) :
    Settles steady path (value options depth pad v) (texts path pad v) := by
  induction depth generalizing path pad v with
  | zero => contradiction
  | succ depth ih =>
      cases v with
      | atom a => exact .pure (htexts.atom path pad a)
      | array r =>
          rw [value]
          by_cases hr : Container.array r ∈ path
          · refine (settles_unlessActive_of_mem hr).imp ?_
            rintro _ rfl
            exact htexts.cut path pad _ _ rfl hr
          refine settles_unlessActive hr (settles_heap.bind fun heap hheap => ?_)
          have hdone := htexts.array path pad r
          have henter : ∀ v ∈ (h.elements r).toList, Settles steady (.array r :: path)
              (value options depth (pad ++ options.style.unit) v)
              (texts (.array r :: path) (pad ++ options.style.unit) v) := by
            intro v hv
            have hlt := Heap.room_cons_lt (Heap.array_mem_containers hv) hr
            exact ih (by omega) _ (hframe.known_elements r v hv)
          rw [hframe.elements heap r hheap (hv _ rfl)]
          split
          · rename_i hnil
            exact .pure (hdone [] hr (hnil ▸ .nil))
          · rename_i v vs hcons
            rw [hcons] at hdone henter
            refine (settles_within (settles_elements hhooks (v :: vs) 0 henter)).bind
              fun entries hentries => ?_
            have hne : entries ≠ [] := by
              rintro rfl
              cases hentries
            refine (settles_laid options.style pad hne).imp ?_
            rintro _ rfl
            exact hdone entries hr hentries
      | object o =>
          rw [value]
          by_cases ho : Container.object o ∈ path
          · refine (settles_unlessActive_of_mem ho).imp ?_
            rintro _ rfl
            exact htexts.cut path pad _ _ rfl ho
          refine settles_unlessActive ho (settles_heap.bind fun heap hheap => ?_)
          rw [hframe.properties heap o hheap (hv _ rfl)]
          refine (settles_shownKeys hhooks o _).bind fun kept hkept => ?_
          have hdone := htexts.object path pad o kept
          split
          · exact .pure (hdone [] ho hkept .nil)
          · rename_i k ks
            have hlt := Heap.room_cons_lt
              (Heap.object_mem_containers (hkept.sublist.subset List.mem_cons_self)) ho
            refine settles_heap.bind fun heap' hheap' => ?_
            rw [hframe.properties heap' o hheap' (hv _ rfl)]
            refine (settles_within (settles_fields hhooks (h.fieldsAt o (k :: ks))
              fun f hf => ih (by omega) _ (hframe.known_fieldsAt hf))).bind
              fun entries hentries => ?_
            have hne : entries ≠ [] := by
              rintro rfl
              cases hentries
            refine (settles_laid options.style pad hne).imp ?_
            rintro _ rfl
            exact hdone entries ho hkept hentries

theorem map_eq_of_forall₂ {α β : Type} {f : α → β} {as : List α} {bs : List β}
    (hall : List.Forall₂ (fun a b => f a = b) as bs) : as.map f = bs := by
  rw [← List.forall₂_eq_eq_eq, List.forall₂_map_left_iff]
  exact hall

/-- Under hooks that only choose keys the text of a value is the text of its unfolding. -/
theorem describes_unfold (options : Options σ) (h : Heap) (keep : ObjectRef → Key → Bool) :
    Describes options h (fun o k answer => answer = keep o k)
      (fun _ _ text text' => text' = text)
      (fun path pad v text => text = (h.unfold keep path v).text options.style pad) where
  atom path pad a := by rw [Heap.unfold, Tree.text]
  cut path pad v c hv hc := by rw [Heap.unfold_of_mem hv hc, Tree.text]
  array path pad r entries hr hentries := by
    rw [Heap.unfold_array hr, Tree.text, List.map_map]
    congr 2
    refine (map_eq_of_forall₂ (hentries.imp ?_)).symm
    rintro v _ ⟨_, _, rfl, rfl⟩
    rfl
  object path pad o kept entries ho hkept hentries := by
    rw [Heap.unfold_object ho, Tree.text, Heap.shownFields, ← hkept.eq_filter, List.map_map]
    congr 2
    refine (map_eq_of_forall₂ (hentries.imp ?_)).symm
    rintro f _ ⟨_, _, rfl, rfl, rfl⟩
    exact Heap.entry_unfold options.style f.1 f.2 _

end Rendering

/-- A rendering starts with more depth than there is room. -/
theorem Options.room_lt_depth (options : Options σ) (h : Heap) : h.room [] < options.depth h := by
  rw [Heap.room_nil, Options.depth]
  omega

/-- A rendering that starts in a steady heap gives the text of the unfolding if hooks only choose
keys. -/
theorem render_of_gentle {options : Options σ} {keep : ObjectRef → Key → Bool}
    {known : Container → Prop} {steady : Heap → Prop} {w : World σ}
    (hframe : Rendering.Frame w.heap known steady)
    (hhooks : options.hooks.Gentle steady (fun o k answer => answer = keep o k)
      (fun _ _ text text' => text' = text))
    (hsteady : steady w.heap) (pad : String) {v : Value}
    (hv : ∀ c, v.container? = some c → known c) :
    (render options pad v w).result =
      .ok ((w.heap.unfold keep [] v).text options.style pad) := by
  have hroom := options.room_lt_depth w.heap
  obtain ⟨_, run, hrun, rfl, -⟩ := Rendering.settles_value hframe hhooks
    (Rendering.describes_unfold options w.heap keep) hroom pad hv ⟨w, [], []⟩ ⟨hsteady, rfl⟩
  rw [render, hrun]

theorem render_of_select {options : Options σ} {keep : ObjectRef → Key → Bool}
    (hhooks : options.hooks.Select keep) (pad : String) {v : Value} {w : World σ}
    (hclosed : w.heap.Closed) (hv : w.heap.Has v) :
    (render options pad v w).result =
      .ok ((w.heap.unfold keep [] v).text options.style pad) :=
  render_of_gentle (Rendering.frame_keeps hclosed) (hhooks.gentle w.heap) (.refl w.heap) pad hv

theorem render_without_hooks (style : Style) (pad : String) (v : Value) (w : World σ) :
    (render { style } pad v w).result = .ok ((w.heap.unfolding v).text style pad) :=
  render_of_gentle (Rendering.frame_eq w.heap) (Hooks.gentle_none _) rfl pad fun _ _ => trivial

end ObjectLiteral
