import ObjectLiteral.Proofs.Rendering.Writing
import ObjectLiteral.Proofs.Tree.Decisions
import ObjectLiteral.Proofs.Tree.Pads
/-!
The pad of a rendering.  It only stands after line feeds: the text at a pad is the text without it,
with the pad after every line feed, and every layout is decided as it is without it.
-/

namespace ObjectLiteral

open Text

variable {σ : Type}

theorem filterMap_fits?_shape (events : List Event) :
    (shape events).filterMap Event.fits? = events.filterMap Event.fits? := by
  rw [shape, List.filterMap_filter]
  refine List.filterMap_congr fun e _ => ?_
  cases e <;> rfl

/-- The decisions that are told without hooks are those of the unfolding. -/
theorem filterMap_fits?_render (style : Style) (pad : String) (v : Value) (w : World σ) :
    (render { style } pad v w).events.filterMap Event.fits? =
      (w.heap.unfolding v).decisions style := by
  have hshape : shape (render { style } pad v w).events =
      ((w.heap.unfolding v).written style Tree.passes pad).2 :=
    (render_written (Rendering.frame_eq w.heap) (Hooks.answers_none _) rfl pad
      fun _ _ => trivial).2
  obtain ⟨new, hwrite, hdecisions⟩ := Tree.decides_write style (w.heap.unfolding v) 0 pad []
  rw [← filterMap_fits?_shape, hshape, Tree.written, hwrite, List.append_nil]
  exact hdecisions

/-- What is quiet in a heap is quiet in the unfolding. -/
theorem Heap.quiet_unfolding {h : Heap} {v : Value}
    (hquiet : ∀ route ancestors a,
      h.follow (fun _ _ => true) [] v route = some (ancestors, .atom a) → a.Quiet) :
    (h.unfolding v).Quiet := by
  intro route a hroute
  obtain ⟨ancestors, u, hfollow, -, hleaf⟩ :=
    (Heap.at?_unfold_eq_some_iff List.nodup_nil).mp hroute
  cases u with
  | atom b =>
      rw [Heap.unfold] at hleaf
      cases hleaf
      exact hquiet route ancestors a hfollow
  | array r =>
      rw [Heap.unfold] at hleaf
      split at hleaf <;> cases hleaf
  | object o =>
      rw [Heap.unfold] at hleaf
      split at hleaf <;> cases hleaf

/-- Without hooks, and without line feeds in the indentation and in the own texts of what is reached
from the value, a pad stands after every line feed and nowhere else, and no decision about a layout
depends on it. -/
theorem render_indented {style : Style} (hunit : lineFeeds style.unit = 0) (pad : String)
    {v : Value} {w : World σ}
    (hquiet : ∀ route ancestors a,
      w.heap.follow (fun _ _ => true) [] v route = some (ancestors, .atom a) → a.Quiet) :
    ∃ text, (render { style } "" v w).result = .ok text ∧
      (render { style } pad v w).result = .ok (indented pad text) ∧
      (render { style } pad v w).events.filterMap Event.fits? =
        (render { style } "" v w).events.filterMap Event.fits? := by
  refine ⟨(w.heap.unfolding v).text style "", render_without_hooks style "" v w, ?_, ?_⟩
  · have hempty : lineFeeds "" = 0 := rfl
    have htext := Tree.text_append_pad hunit hempty (Heap.quiet_unfolding hquiet) pad
    rw [render_without_hooks, ← htext, String.append_empty]
  · rw [filterMap_fits?_render, filterMap_fits?_render]

namespace PadsWitness

def style : Style :=
  { indent := " " }

def method : Callable :=
  ⟨0, "k", .normal, some "[k]() \x7b\x7d"⟩

/-- An array of a method, of a string with a line feed, and of itself. -/
def heap : Heap :=
  ⟨#[#[.atom (.callable method), .atom (.string "a\nb"), .array ⟨0⟩]], #[], 1⟩

theorem quiet_of_follow {route : List Nat} {path ancestors : List Container} {a : Atom}
    (hfollow : heap.follow (fun _ _ => true) path (.array ⟨0⟩) route =
      some (ancestors, .atom a)) : a.Quiet := by
  induction route generalizing path with
  | nil => cases hfollow
  | cons i route ih =>
      match i, route with
      | 0, [] =>
          cases hfollow
          intro text htext
          cases htext
          decide
      | 1, [] =>
          cases hfollow
          intro text htext
          cases htext
      | 2, route => exact ih hfollow
      | 0, _ :: _ => cases hfollow
      | 1, _ :: _ => cases hfollow
      | _ + 3, _ => cases hfollow

/-- Also a pad that has a line feed itself is put in as it is. -/
theorem render_indented_cycle :
    lineFeeds style.unit = 0 ∧
      (∀ route ancestors a, heap.follow (fun _ _ => true) [] (.array ⟨0⟩) route =
        some (ancestors, .atom a) → a.Quiet) ∧
      (render { style } "\n> " (.array ⟨0⟩) ⟨heap, ()⟩).result =
        .ok "[\n\n>  function [k]() \x7b\x7d,\n\n>  'a\\nb',\n\n>  \"[Circular]\"\n\n> ]" := by
  have hquiet : ∀ route ancestors a, heap.follow (fun _ _ => true) [] (.array ⟨0⟩) route =
      some (ancestors, .atom a) → a.Quiet := fun _ _ _ hfollow => quiet_of_follow hfollow
  have hunit : lineFeeds style.unit = 0 := by decide
  obtain ⟨text, hplain, hpadded, -⟩ :=
    render_indented (w := ⟨heap, ()⟩) hunit "\n> " hquiet
  have htext : (render { style } "" (.array ⟨0⟩) ⟨heap, ()⟩).result =
      .ok "[\n function [k]() \x7b\x7d,\n 'a\\nb',\n \"[Circular]\"\n]" :=
    Outcome.result_eq_ok (by decide +kernel)
  obtain rfl := Except.ok.inj (hplain.symm.trans htext)
  exact ⟨hunit, hquiet, hpadded.trans (congrArg Except.ok (by decide +kernel))⟩

end PadsWitness

end ObjectLiteral
