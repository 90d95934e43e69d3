import ObjectLiteral.Proofs.Tree.Layout
import ObjectLiteral.Proofs.Tree.Writing
/-!
Decisions about layouts.  Those that are told while a tree is written can be read off the fully
inline texts of its containers.
-/

namespace ObjectLiteral

open Text

variable {α β : Type}

/-- The decision that an event tells of: whether the one-line form was taken. -/
def Event.fits? : Event → Option Bool
  | .layout _ _ fits => some fits
  | _ => none

namespace Tree

/-- The decision about a tree: one if it is a container with entries and there is a limit. -/
def decision (style : Style) (t : Tree) : List Bool :=
  match style.limit, t.children with
  | some limit, _ :: _ => [decide (width (t.inline style) ≤ limit)]
  | _, _ => []

/-- The decisions about the containers of a tree, those about entries before the one about their
container. -/
def decisions (style : Style) : Tree → List Bool
  | leaf _ => []
  | cut => []
  | array ts => ts.flatMap (decisions style) ++ (array ts).decision style
  | object fs => fs.flatMap (fun f => decisions style f.2) ++ (object fs).decision style
termination_by t => t
decreasing_by
  · exact sizeOf_lt_array ‹_›
  · exact sizeOf_lt_object ‹_›

variable {style : Style}

/-- A step of writing gives a result and tells of decisions. -/
def Decides (t : WriteM α) (a : α) (bs : List Bool) : Prop :=
  ∀ told, ∃ new, t told = .ok a (new ++ told) ∧ new.reverse.filterMap Event.fits? = bs

theorem Decides.pure (a : α) : Decides (pure a) a [] :=
  fun _ => ⟨[], rfl, rfl⟩

theorem Decides.bind {t : WriteM α} {f : α → WriteM β} {a : α} {b : β} {bs cs : List Bool}
    (ht : Decides t a bs) (hf : Decides (f a) b cs) : Decides (t >>= f) b (bs ++ cs) := by
  intro told
  obtain ⟨new, hstep, hbs⟩ := ht told
  obtain ⟨new', hrest, hcs⟩ := hf (new ++ told)
  refine ⟨new' ++ new, ?_, ?_⟩
  · simp only [Bind.bind, EStateM.bind, hstep, List.append_assoc]
    exact hrest
  · rw [List.reverse_append, List.filterMap_append, hbs, hcs]

theorem Decides.map {t : WriteM α} {a : α} {bs : List Bool} (ht : Decides t a bs) (f : α → β) :
    Decides (t >>= fun a => Pure.pure (f a)) (f a) bs := by
  have hf : Decides (Pure.pure (f a) : WriteM β) (f a) [] := .pure (f a)
  have hbind := ht.bind (f := fun a => Pure.pure (f a)) hf
  rwa [List.append_nil] at hbind

theorem decides_laid {t : Tree} {g : Group} {pad : String} (hg : t.group? style pad = some g)
    (hentries : g.entries ≠ []) (hchildren : t.children ≠ []) :
    Decides (WriteM.laid style pad g) (g.printed style pad) (t.decision style) := by
  intro told
  rw [Group.printed_of_ne_nil hentries, decision, WriteM.laid]
  cases hlimit : style.limit with
  | none => exact ⟨[], rfl, rfl⟩
  | some limit =>
      cases ht : t.children with
      | nil => contradiction
      | cons u us =>
          refine ⟨[.layout (g.decision limit).width limit (g.decision limit).fits], rfl, ?_⟩
          have hfits : decide (width g.oneLine ≤ limit) = decide (width (t.inline style) ≤ limit) :=
            decide_eq_decide.mpr (width_oneLine_le_iff hlimit hg)
          exact congrArg (fun fits => [fits]) hfits

theorem decides_writeElements {ts : List Tree} {depth : Nat} {pad : String} (i : Nat)
    (hts : ∀ t ∈ ts, Decides (t.write style passes depth pad) (t.text style pad)
      (t.decisions style)) :
    Decides (writeElements style passes depth pad i ts) (ts.map (text style pad))
      (ts.flatMap (decisions style)) := by
  induction ts generalizing i with
  | nil => exact .pure []
  | cons t ts ih =>
      have hrest := ih (i + 1) fun u hu => hts u (List.mem_cons_of_mem t hu)
      exact (hts t List.mem_cons_self).bind (hrest.map (t.text style pad :: ·))

theorem decides_writeFields {fs : List (Key × Tree)} {depth : Nat} {pad : String}
    (hfs : ∀ f ∈ fs, Decides (f.2.write style passes depth pad) (f.2.text style pad)
      (f.2.decisions style)) :
    Decides (writeFields style passes depth pad fs)
      (fs.map fun f => f.2.entry style f.1 (f.2.text style pad))
      (fs.flatMap fun f => f.2.decisions style) := by
  induction fs with
  | nil => exact .pure []
  | cons f fs ih =>
      have hrest := ih fun e he => hfs e (List.mem_cons_of_mem f he)
      exact (hfs f List.mem_cons_self).bind
        (hrest.map (f.2.entry style f.1 (f.2.text style pad) :: ·))

/-- Where no text is transformed, the text of a tree is written, and the decisions are told that its
one-line texts ask for, whatever the pad. -/
theorem decides_write (style : Style) (t : Tree) (depth : Nat) (pad : String) :
    Decides (t.write style passes depth pad) (t.text style pad) (t.decisions style) := by
  induction t using induction_children generalizing depth pad with
  | step t ih =>
      cases t with
      | leaf a =>
          rw [write, text, decisions]
          exact .pure _
      | cut =>
          rw [write, text, decisions]
          exact fun told => ⟨[.cut depth], rfl, rfl⟩
      | array ts =>
          rw [text, decisions]
          cases ts with
          | nil =>
              rw [write, decision]
              cases style.limit <;> exact .pure _
          | cons t ts =>
              rw [write]
              refine (decides_writeElements 0 fun u hu => ih u hu _ _).bind ?_
              exact decides_laid rfl (List.cons_ne_nil _ _) (List.cons_ne_nil _ _)
      | object fs =>
          rw [text, decisions]
          cases fs with
          | nil =>
              rw [write, decision]
              cases style.limit <;> exact .pure _
          | cons f fs =>
              rw [write]
              refine (decides_writeFields fun e he =>
                ih e.2 (List.mem_map.mpr ⟨e, he, rfl⟩) _ _).bind ?_
              exact decides_laid rfl (List.cons_ne_nil _ _) (List.cons_ne_nil _ _)

end Tree

end ObjectLiteral
