import ObjectLiteral.Proofs.Heap.Unfolding
/-!
Reachability.  What is reached from an entry is reached from its container too, so two paths that
agree on what a value reaches still agree below it, and of a path no more than that matters to an
unfolding.
-/

namespace ObjectLiteral

namespace Heap

/-- `h.Reaches keep v c`: along entries that are shown some route from `v` leads to the container
`c`, which may be `v` itself. -/
inductive Reaches (h : Heap) (keep : ObjectRef → Key → Bool) : Value → Container → Prop
  | here {v : Value} {c : Container} (hv : v.container? = some c) : Reaches h keep v c
  | inside {v u : Value} {c : Container} (hu : u ∈ h.shownEntries keep v)
      (hreaches : Reaches h keep u c) : Reaches h keep v c

variable {h : Heap} {keep : ObjectRef → Key → Bool}

/-- Two paths with the same containers among those that a value reaches. -/
def Agree (h : Heap) (keep : ObjectRef → Key → Bool) (v : Value) (path path' : List Container) :
    Prop :=
  ∀ c, h.Reaches keep v c → (c ∈ path ↔ c ∈ path')

/-- Paths that agree go on to agree when the same container joins both. -/
theorem Agree.below {v u : Value} {path path' : List Container}
    (hagree : h.Agree keep v path path') (hu : u ∈ h.shownEntries keep v) (c : Container) :
    h.Agree keep u (c :: path) (c :: path') := by
  intro d hd
  rw [List.mem_cons, List.mem_cons, hagree d (.inside hu hd)]

theorem agree_nil_iff {v : Value} {path : List Container} :
    h.Agree keep v path [] ↔ ∀ c ∈ path, ¬ h.Reaches keep v c := by
  constructor
  · intro hagree c hc hreaches
    exact List.not_mem_nil ((hagree c hreaches).mp hc)
  · intro hnone c hreaches
    exact iff_of_false (fun hc => hnone c hc hreaches) List.not_mem_nil

/-- Below paths that agree a value unfolds to the same tree. -/
theorem Agree.unfold_eq {v : Value} {path path' : List Container}
    (hagree : h.Agree keep v path path') : h.unfold keep path v = h.unfold keep path' v := by
  induction path, v using Heap.unfold.induct h keep generalizing path' with
  | case1 path a => rw [unfold, unfold]
  | case2 path r hr =>
      have hr' := (hagree _ (.here rfl)).mp hr
      rw [unfold_of_mem rfl hr, unfold_of_mem rfl hr']
  | case3 path r hr ih =>
      have hr' := fun hmem => hr ((hagree _ (.here rfl)).mpr hmem)
      rw [unfold_array hr, unfold_array hr']
      congr 1
      refine List.map_congr_left fun v hv => ?_
      exact ih ⟨v, hv⟩ (hagree.below hv _)
  | case4 path o ho =>
      have ho' := (hagree _ (.here rfl)).mp ho
      rw [unfold_of_mem rfl ho, unfold_of_mem rfl ho']
  | case5 path o ho ih =>
      have ho' := fun hmem => ho ((hagree _ (.here rfl)).mpr hmem)
      rw [unfold_object ho, unfold_object ho']
      congr 1
      refine List.map_congr_left fun f hf => ?_
      rw [ih ⟨f, hf⟩ (hagree.below (List.mem_map_of_mem hf) _)]

end Heap

end ObjectLiteral
