import ObjectLiteral.Proofs.Heap.Containers
import ObjectLiteral.Proofs.Tree.Basic
/-!
The unfolding of a value: the tree of everything that is reached from it along paths that meet no
container twice.  An occurrence is named by a route, and a route leads to a cut leaf exactly if
the container at its end stands on the way to it.
-/

namespace ObjectLiteral

namespace Heap

/-- The tree of a value below a path of containers.  Of an object only the keys that `keep` lets
through are unfolded. -/
def unfold (h : Heap) (keep : ObjectRef → Key → Bool) (path : List Container) : Value → Tree
  | .atom a => .leaf a
  | .array r =>
    if Container.array r ∈ path then .cut
    else .array ((h.elements r).toList.attach.map fun v => h.unfold keep (.array r :: path) v.1)
  | .object o =>
    if Container.object o ∈ path then .cut
    else .object ((h.shownFields keep o).attach.map fun f =>
      (f.1.1, h.unfold keep (.object o :: path) f.1.2))
termination_by h.room path
decreasing_by
  · exact room_cons_lt (array_mem_containers v.2) ‹_›
  · exact room_cons_lt (object_mem_containers_of_shownFields f.2) ‹_›

/-- The tree of a value, with all enumerable properties. -/
def unfolding (h : Heap) (v : Value) : Tree :=
  h.unfold (fun _ _ => true) [] v

/-- `h.Unfolds path v t`: below a path of containers `t` is the tree of `v` with some of the
enumerable properties of each object, in their order, which may be others wherever the object
stands. -/
inductive Unfolds (h : Heap) : List Container → Value → Tree → Prop
  | atom {path : List Container} (a : Atom) : Unfolds h path (.atom a) (.leaf a)
  | cut {path : List Container} {v : Value} {c : Container} (hv : v.container? = some c)
      (hc : c ∈ path) : Unfolds h path v .cut
  | array {path : List Container} {r : ArrayRef} {slots : List (Value × Tree)}
      (hr : .array r ∉ path) (hvalues : slots.map (·.1) = (h.elements r).toList)
      (hslots : ∀ s ∈ slots, Unfolds h (.array r :: path) s.1 s.2) :
      Unfolds h path (.array r) (.array (slots.map (·.2)))
  | object {path : List Container} {o : ObjectRef} {ks : List Key}
      {slots : List ((Key × Value) × Tree)} (ho : .object o ∉ path)
      (hks : ks.Sublist (h.properties o).displayKeys) (hfields : slots.map (·.1) = h.fieldsAt o ks)
      (hslots : ∀ s ∈ slots, Unfolds h (.object o :: path) s.1.2 s.2) :
      Unfolds h path (.object o) (.object (slots.map fun s => (s.1.1, s.2)))

/-- The value at the end of a route and the containers on the way to it, innermost first, put
before a path that led to the start of the route.  A route may meet a container any number of
times. -/
def follow (h : Heap) (keep : ObjectRef → Key → Bool) :
    List Container → Value → List Nat → Option (List Container × Value)
  | path, v, [] => some (path, v)
  | path, v, i :: route =>
    match v.container?, (h.shownEntries keep v)[i]? with
    | some c, some u => h.follow keep (c :: path) u route
    | _, _ => none

/-- A tree shows the entries of a value, as many and under the same keys. -/
def Expands (h : Heap) (keep : ObjectRef → Key → Bool) : Value → Tree → Prop
  | .atom a, .leaf b => a = b
  | .array r, .array ts => ts.length = (h.elements r).size
  | .object o, .object fs => fs.map (·.1) = (h.properties o).displayKeys.filter (keep o)
  | _, _ => False

variable {h : Heap} {keep : ObjectRef → Key → Bool} {path : List Container}

theorem unfold_of_mem {v : Value} {c : Container} (hv : v.container? = some c)
    (hc : c ∈ path) : h.unfold keep path v = .cut := by
  cases v with
  | atom a => cases hv
  | array r => cases hv; rw [unfold, if_pos hc]
  | object o => cases hv; rw [unfold, if_pos hc]

theorem unfold_array {r : ArrayRef} (hr : Container.array r ∉ path) :
    h.unfold keep path (.array r) =
      .array ((h.elements r).toList.map (h.unfold keep (.array r :: path))) := by
  rw [unfold, if_neg hr, List.attach_map_val (f := h.unfold keep (.array r :: path))]

theorem unfold_object {o : ObjectRef} (ho : Container.object o ∉ path) :
    h.unfold keep path (.object o) =
      .object ((h.shownFields keep o).map fun f =>
        (f.1, h.unfold keep (.object o :: path) f.2)) := by
  rw [unfold, if_neg ho, List.attach_map_val
    (f := fun e : Key × Value => (e.1, h.unfold keep (.object o :: path) e.2))]

theorem children_unfold {v : Value} {c : Container} (hv : v.container? = some c)
    (hc : c ∉ path) :
    (h.unfold keep path v).children =
      (h.shownEntries keep v).map (h.unfold keep (c :: path)) := by
  cases v with
  | atom a => cases hv
  | array r => cases hv; rw [unfold_array hc]; rfl
  | object o =>
      cases hv
      rw [unfold_object hc]
      simp [Tree.children, shownEntries, Function.comp_def]

theorem expands_unfold {v : Value} (hv : ∀ c, v.container? = some c → c ∉ path) :
    h.Expands keep v (h.unfold keep path v) := by
  cases v with
  | atom a => rw [unfold]; rfl
  | array r => rw [unfold_array (hv _ rfl)]; simp [Expands]
  | object o =>
      rw [unfold_object (hv _ rfl)]
      simp [Expands, shownFields, fieldsAt, Function.comp_def]

theorem method?_unfold (style : Style) (v : Value) :
    (h.unfold keep path v).method? style = v.method? style := by
  cases v with
  | atom a => rw [unfold]; rfl
  | array r => rw [unfold]; split <;> rfl
  | object o => rw [unfold]; split <;> rfl

theorem entry_unfold (style : Style) (k : Key) (v : Value) (text : String) :
    (h.unfold keep path v).entry style k text = style.entry k v text := by
  rw [Tree.entry, method?_unfold]
  rfl

/-- A route goes on from an entry. -/
theorem exists_follow_cons (path : List Container) {v u : Value} {c : Container}
    (hv : v.container? = some c) (hu : u ∈ h.shownEntries keep v) :
    ∃ i, ∀ route, h.follow keep path v (i :: route) = h.follow keep (c :: path) u route := by
  obtain ⟨i, hi⟩ := List.getElem?_of_mem hu
  exact ⟨i, fun route => by rw [follow, hv, hi]⟩

/-- What a route has met stays on its path. -/
theorem suffix_of_follow {route : List Nat} {v u : Value} {ancestors : List Container}
    (hfollow : h.follow keep path v route = some (ancestors, u)) : path <:+ ancestors := by
  induction route generalizing path v with
  | nil =>
      rw [follow, Option.some.injEq, Prod.mk.injEq] at hfollow
      exact hfollow.1 ▸ List.suffix_rfl
  | cons i route ih =>
      rw [follow] at hfollow
      split at hfollow
      · exact (List.suffix_cons _ path).trans (ih hfollow)
      · cases hfollow

/-- The routes of an unfolding are the routes of the heap that meet no container twice, and the
tree at the end of one is the unfolding below its path. -/
theorem at?_unfold_eq_some_iff {route : List Nat} {v : Value} {t : Tree} (hpath : path.Nodup) :
    (h.unfold keep path v).at? route = some t ↔
      ∃ ancestors u, h.follow keep path v route = some (ancestors, u) ∧ ancestors.Nodup ∧
        t = h.unfold keep ancestors u := by
  induction route generalizing path v with
  | nil =>
      rw [Tree.at?, follow]
      constructor
      · intro ht
        exact ⟨path, v, rfl, hpath, (Option.some.inj ht).symm⟩
      · rintro ⟨_, _, hfollow, -, rfl⟩
        cases hfollow
        rfl
  | cons i route ih =>
      rw [Tree.at?, follow]
      cases hv : v.container? with
      | none =>
          cases v with
          | atom a => rw [unfold]; simp [Tree.children]
          | array r => cases hv
          | object o => cases hv
      | some c =>
          by_cases hc : c ∈ path
          · -- a cut leaf has no entries, and every longer route meets `c` again
            rw [unfold_of_mem hv hc]
            simp only [Tree.children, List.getElem?_nil, reduceCtorEq, false_iff]
            rintro ⟨ancestors, u, hfollow, hnodup, -⟩
            split at hfollow
            · have hsuffix := suffix_of_follow hfollow
              rename_i d _ hd _
              cases hd
              exact (List.nodup_cons.mp (hnodup.sublist hsuffix.sublist)).1 hc
            · cases hfollow
          · rw [children_unfold hv hc, List.getElem?_map]
            cases hu : (h.shownEntries keep v)[i]? with
            | none => simp
            | some u => exact ih (List.nodup_cons.mpr ⟨hc, hpath⟩)

end Heap

end ObjectLiteral
