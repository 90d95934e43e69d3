import ObjectLiteral.Proofs.Rendering.Texts
/-!
Cycles.  The record of active containers amounts to unfolding a value along the paths that meet no
container twice: a container is cut where it stands inside itself and nowhere else, however often
it is shared.
-/

namespace ObjectLiteral

namespace Heap

variable {h : Heap} {keep : ObjectRef → Key → Bool} {path : List Container}

theorem unfold_eq_cut_iff {v : Value} :
    h.unfold keep path v = .cut ↔ ∃ c ∈ path, v.container? = some c := by
  constructor
  · intro hcut
    by_contra hnone
    have hexpands : h.Expands keep v (h.unfold keep path v) :=
      expands_unfold fun c hv hc => hnone ⟨c, hc, hv⟩
    rw [hcut] at hexpands
    cases v <;> exact hexpands
  · rintro ⟨c, hc, hv⟩
    exact unfold_of_mem hv hc

end Heap

/-- Without hooks the text of a value is the text of its unfolding.  The occurrences in the
unfolding are the routes that meet no container twice; an occurrence is cut exactly if its own
container is on the way to it, and shows all its entries otherwise.  Values with the same
unfolding have the same text, whatever the heaps they are in. -/
theorem render_unfolding {σ τ : Type} (style : Style) (pad : String) (v : Value) (w : World σ) :
    (render { style } pad v w).result = .ok ((w.heap.unfolding v).text style pad) ∧
      (∀ route t, (w.heap.unfolding v).at? route = some t →
        ∃ ancestors u, w.heap.follow (fun _ _ => true) [] v route = some (ancestors, u) ∧
          ancestors.Nodup) ∧
      (∀ route ancestors u,
        w.heap.follow (fun _ _ => true) [] v route = some (ancestors, u) → ancestors.Nodup →
        ∃ t, (w.heap.unfolding v).at? route = some t ∧
          (t = .cut ↔ ∃ c ∈ ancestors, u.container? = some c) ∧
          (t ≠ .cut → w.heap.Expands (fun _ _ => true) u t)) ∧
      ∀ (v' : Value) (w' : World τ), w'.heap.unfolding v' = w.heap.unfolding v →
        (render { style } pad v' w').result = (render { style } pad v w).result := by
  refine ⟨render_without_hooks style pad v w, ?_, ?_, ?_⟩
  · intro route t ht
    obtain ⟨ancestors, u, hfollow, hnodup, -⟩ :=
      (Heap.at?_unfold_eq_some_iff List.nodup_nil).mp ht
    exact ⟨ancestors, u, hfollow, hnodup⟩
  · intro route ancestors u hfollow hnodup
    refine ⟨w.heap.unfold (fun _ _ => true) ancestors u, ?_, Heap.unfold_eq_cut_iff, ?_⟩
    · exact (Heap.at?_unfold_eq_some_iff List.nodup_nil).mpr ⟨ancestors, u, hfollow, hnodup, rfl⟩
    · intro hcut
      refine Heap.expands_unfold fun c hu hc => ?_
      exact hcut (Heap.unfold_eq_cut_iff.mpr ⟨c, hc, hu⟩)
  · intro v' w' hsame
    rw [render_without_hooks, render_without_hooks, hsame]

namespace CyclesWitness

def heap : Heap :=
  ⟨#[#[.array ⟨1⟩, .array ⟨1⟩, .array ⟨0⟩], #[.atom .null]], #[], 0⟩

def tree : Tree :=
  .array [.array [.leaf .null], .array [.leaf .null], .cut]

theorem render_unfolding_shared :
    heap.unfolding (.array ⟨0⟩) = tree ∧
      (render { style := {} } "" (.array ⟨0⟩) ⟨heap, ()⟩).result = .ok (tree.text {} "") ∧
      (∃ t, tree.at? [2] = some t ∧ t = .cut) ∧ ∃ t, tree.at? [1] = some t ∧ t ≠ .cut := by
  have hunfolding : heap.unfolding (.array ⟨0⟩) = tree := by
    simp [Heap.unfolding, Heap.unfold, Heap.elements, heap, tree]
  obtain ⟨hrender, -, hroutes, -⟩ :=
    render_unfolding (τ := Unit) {} "" (.array ⟨0⟩) ⟨heap, ()⟩
  rw [hunfolding] at hrender hroutes
  refine ⟨hunfolding, hrender, ?_, ?_⟩
  · obtain ⟨t, ht, hcut, -⟩ := hroutes [2] [.array ⟨0⟩] (.array ⟨0⟩) rfl (by decide)
    exact ⟨t, ht, hcut.mpr ⟨.array ⟨0⟩, by decide, rfl⟩⟩
  · obtain ⟨t, ht, hcut, -⟩ := hroutes [1] [.array ⟨0⟩] (.array ⟨1⟩) rfl (by decide)
    refine ⟨t, ht, fun heq => ?_⟩
    obtain ⟨c, hc, hmet⟩ := hcut.mp heq
    cases hmet
    exact absurd hc (by decide)

end CyclesWitness

end ObjectLiteral
