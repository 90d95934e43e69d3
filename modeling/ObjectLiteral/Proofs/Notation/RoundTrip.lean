import ObjectLiteral.Proofs.Notation.Trees
import ObjectLiteral.Proofs.Rendering.Texts
/-!
The notation loses nothing.  A rendering without hooks of a value of plain atoms, arrays and objects
with names as keys is read back as the unfolding of the value, whatever the limit, the indent and
the pad.
-/

namespace ObjectLiteral

open Text (Quote)
open Notation

namespace Heap

/-- A value that is itself plain or a container, with names as the keys that are shown. -/
def PlainAt (h : Heap) : Value → Prop
  | .atom a => a.isPlain = true
  | .array _ => True
  | .object o => ∀ k ∈ (h.properties o).displayKeys, k.isSymbol = false

/-- All that is reached from a value is plain. -/
def Plain (h : Heap) (v : Value) : Prop :=
  ∀ route ancestors u,
    h.follow (fun _ _ => true) [] v route = some (ancestors, u) → h.PlainAt u

/-- No container that is reached from a value has been met on the way to it. -/
def Acyclic (h : Heap) (v : Value) : Prop :=
  ∀ route ancestors u, h.follow (fun _ _ => true) [] v route = some (ancestors, u) →
    ∀ c ∈ u.container?, c ∉ ancestors

variable {h : Heap} {keep : ObjectRef → Key → Bool} {path ancestors : List Container}
  {u v : Value}

theorem follow_cons {c : Container} {i : Nat} (hv : v.container? = some c)
    (hu : (h.shownEntries keep v)[i]? = some u) (route : List Nat) :
    h.follow keep path v (i :: route) = h.follow keep (c :: path) u route := by
  rw [follow, hv, hu]

/-- What passes from a value to the entries it shows holds at the end of every route. -/
theorem of_follow {P : Value → Prop} (hstep : ∀ v, P v → ∀ u ∈ h.shownEntries keep v, P u)
    (hv : P v) {route : List Nat} (hfollow : h.follow keep path v route = some (ancestors, u)) :
    P u := by
  induction route generalizing path v with
  | nil =>
      rw [follow, Option.some.injEq, Prod.mk.injEq] at hfollow
      rw [← hfollow.2]
      exact hv
  | cons i route ih =>
      rw [follow] at hfollow
      split at hfollow
      · rename_i child _ hchild
        exact ih (hstep v hv child (List.mem_of_getElem? hchild)) hfollow
      · cases hfollow

/-- All that is reached from a value below a path is plain, and in double quotes nothing on the
way is met again. -/
def PlainBelow (h : Heap) (q : Quote) (path : List Container) (v : Value) : Prop :=
  ∀ route ancestors u, h.follow (fun _ _ => true) path v route = some (ancestors, u) →
    h.PlainAt u ∧ (q = .double → ∀ c ∈ u.container?, c ∉ ancestors)

theorem PlainBelow.here {q : Quote} (hv : h.PlainBelow q path v) :
    h.PlainAt v ∧ (q = .double → ∀ c ∈ v.container?, c ∉ path) :=
  hv [] path v rfl

theorem PlainBelow.entry {q : Quote} (hv : h.PlainBelow q path v) {c : Container}
    (hc : v.container? = some c) (hu : u ∈ h.shownEntries (fun _ _ => true) v) :
    h.PlainBelow q (c :: path) u := by
  intro route ancestors x hfollow
  obtain ⟨i, hi⟩ := List.getElem?_of_mem hu
  rw [← follow_cons hc hi] at hfollow
  exact hv (i :: route) ancestors x hfollow

theorem PlainBelow.eq_single {q : Quote} (hv : h.PlainBelow q path v) {c : Container}
    (hc : v.container? = some c) (hmet : c ∈ path) : q = .single := by
  cases q with
  | single => rfl
  | double => exact absurd hmet (hv.here.2 rfl c hc)

theorem plain_unfold {q : Quote} (hv : h.PlainBelow q path v) :
    (h.unfold (fun _ _ => true) path v).Plain q := by
  generalize ht : h.unfold (fun _ _ => true) path v = t
  induction t using Tree.induction_children generalizing path v with
  | step t ih =>
      subst ht
      cases v with
      | atom a =>
          rw [unfold]
          exact .leaf hv.here.1
      | array r =>
          by_cases hr : Container.array r ∈ path
          · rw [unfold_of_mem rfl hr]
            exact .cut (hv.eq_single rfl hr)
          · rw [unfold_array hr] at ih ⊢
            apply Tree.Plain.array
            intro t ht
            obtain ⟨u, hu, rfl⟩ := List.mem_map.mp ht
            exact ih _ ht (hv.entry rfl hu) rfl
      | object o =>
          by_cases ho : Container.object o ∈ path
          · rw [unfold_of_mem rfl ho]
            exact .cut (hv.eq_single rfl ho)
          · rw [unfold_object ho] at ih ⊢
            apply Tree.Plain.object
            · intro f hf
              obtain ⟨e, he, rfl⟩ := List.mem_map.mp hf
              obtain ⟨k, hk, rfl⟩ := List.mem_map.mp he
              exact hv.here.1 k (List.mem_filter.mp hk).1
            · intro f hf
              obtain ⟨e, he, rfl⟩ := List.mem_map.mp hf
              have hentry := hv.entry rfl (List.mem_map.mpr ⟨e, he, rfl⟩)
              exact ih _ (List.mem_map.mpr ⟨_, hf, rfl⟩) hentry rfl

end Heap

theorem Style.blank_unit {style : Style} (hindent : Blank style.indent.toList) :
    Blank style.unit.toList := by
  unfold Style.unit
  split
  · decide
  · exact hindent

/-- What a rendering has to be like to be read back: a plain value that reaches itself at most
where strings are in single quotes, with an indent and a pad of spaces. -/
structure Readable (style : Style) (pad : String) (h : Heap) (v : Value) : Prop where
  plain : h.Plain v
  acyclic : style.quote = .double → h.Acyclic v
  indent : Blank style.indent.toList
  pad : Blank pad.toList

theorem Readable.read?_text {style : Style} {pad : String} {h : Heap} {v : Value}
    (hread : Readable style pad h v) :
    read? style.quote ((h.unfolding v).text style pad) = some (h.unfolding v) := by
  have hbelow : h.PlainBelow style.quote [] v := fun route ancestors u hfollow =>
    ⟨hread.plain route ancestors u hfollow,
      fun hdouble => hread.acyclic hdouble route ancestors u hfollow⟩
  exact Notation.read?_text (Style.blank_unit hread.indent) (Heap.plain_unfold hbelow) hread.pad

/-- A reader that knows the quotes alone gives back the unfolding of the value, so two values that
are rendered alike, with the same quotes and otherwise in any style and at any pad, have the same
unfolding. -/
theorem read?_render {σ τ : Type} {style : Style} {pad : String} {v : Value} {w : World σ}
    (hread : Readable style pad w.heap v) :
    (∃ text, (render { style } pad v w).result = .ok text ∧
        read? style.quote text = some (w.heap.unfolding v)) ∧
      ∀ (style' : Style) (pad' : String) (v' : Value) (w' : World τ),
        Readable style' pad' w'.heap v' → style'.quote = style.quote →
        (render { style := style' } pad' v' w').result = (render { style } pad v w).result →
        w'.heap.unfolding v' = w.heap.unfolding v := by
  constructor
  · exact ⟨_, render_without_hooks style pad v w, hread.read?_text⟩
  · intro style' pad' v' w' hread' hquote halike
    rw [render_without_hooks, render_without_hooks, Except.ok.injEq] at halike
    have hback := hread'.read?_text
    rw [hquote, halike, hread.read?_text] at hback
    exact (Option.some.inj hback).symm

namespace RoundTripWitness

/-- An array with a string, a number and an object that holds the array. -/
def heap : Heap :=
  ⟨#[#[.atom (.string "it's"), .atom (.bigInt (-5)), .object ⟨0⟩]],
    #[⟨[(.name "the list", ⟨.array ⟨0⟩, true⟩), (.name "0", ⟨.atom .null, true⟩),
      (.name "hidden", ⟨.atom .null, false⟩)]⟩], 0⟩

def style : Style :=
  { indent := " ", limit := some 20 }

def reached : List Value :=
  [.array ⟨0⟩, .object ⟨0⟩, .atom (.string "it's"), .atom (.bigInt (-5)), .atom .null]

theorem displayKeys_object :
    (heap.properties ⟨0⟩).displayKeys = [.name "0", .name "the list"] := by
  have hindex : (Key.name "0").arrayIndex? = some 0 := by decide
  have hname : (Key.name "the list").arrayIndex? = none := by decide
  simp [heap, Heap.properties, PropertyTable.displayKeys, PropertyTable.enumerableKeys, hindex,
    hname, Key.isSymbol]

theorem shownFields_object :
    heap.shownFields (fun _ _ => true) ⟨0⟩ =
      [(.name "0", .atom .null), (.name "the list", .array ⟨0⟩)] := by
  rw [Heap.shownFields, displayKeys_object]
  rfl

theorem shownEntries_object :
    heap.shownEntries (fun _ _ => true) (.object ⟨0⟩) = [.atom .null, .array ⟨0⟩] := by
  rw [Heap.shownEntries, shownFields_object]
  rfl

theorem shownEntries_reached : ∀ v ∈ reached,
    ∀ u ∈ heap.shownEntries (fun _ _ => true) v, u ∈ reached := by
  intro v hv
  simp only [reached, List.mem_cons, List.not_mem_nil, or_false] at hv
  rcases hv with rfl | rfl | rfl | rfl | rfl
  · decide
  · rw [shownEntries_object]
    decide
  all_goals exact fun _ hu => absurd hu List.not_mem_nil

theorem plain_heap : heap.Plain (.array ⟨0⟩) := by
  intro route ancestors u hfollow
  have hu : u ∈ reached := Heap.of_follow shownEntries_reached (by decide) hfollow
  simp only [reached, List.mem_cons, List.not_mem_nil, or_false] at hu
  rcases hu with rfl | rfl | rfl | rfl | rfl
  · trivial
  · rw [Heap.PlainAt, displayKeys_object]
    decide
  all_goals rfl

theorem read?_render_cycle :
    Readable style "\t" heap (.array ⟨0⟩) ∧
      ∃ text, (render { style } "\t" (.array ⟨0⟩) ⟨heap, ()⟩).result = .ok text ∧
        read? .single text = some (.array [.leaf (.string "it's"), .leaf (.bigInt (-5)),
          .object [(.name "0", .leaf .null), (.name "the list", .cut)]]) := by
  have hread : Readable style "\t" heap (.array ⟨0⟩) :=
    { plain := plain_heap
      acyclic := fun hdouble => absurd hdouble (by decide)
      indent := by decide
      pad := by decide }
  have hunfolding : heap.unfolding (.array ⟨0⟩) =
      .array [.leaf (.string "it's"), .leaf (.bigInt (-5)),
        .object [(.name "0", .leaf .null), (.name "the list", .cut)]] := by
    have helements : (heap.elements ⟨0⟩).toList =
        [.atom (.string "it's"), .atom (.bigInt (-5)), .object ⟨0⟩] := rfl
    simp [Heap.unfolding, Heap.unfold_array, Heap.unfold_object, Heap.unfold, helements,
      shownFields_object]
  obtain ⟨text, hrender, hback⟩ := (read?_render (w := ⟨heap, ()⟩) (τ := Unit) hread).1
  rw [hunfolding] at hback
  exact ⟨hread, text, hrender, hback⟩

end RoundTripWitness

end ObjectLiteral
