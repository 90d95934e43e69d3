import ObjectLiteral.Proofs.Rendering.Texts
import ObjectLiteral.Proofs.Tree.Layout
import ObjectLiteral.Proofs.Tree.LineFeeds
import ObjectLiteral.Proofs.Tree.Occurrences
/-!
The inline limit.  Layouts are chosen from the innermost container outwards, each from entries that
are already written, and yet every choice is the one that the fully inline text of the container
asks for.
-/

namespace ObjectLiteral

open Text

/-- What a limit makes of a container whose entries, as written at `pad`, are those of `g`. -/
structure Tree.LaidExactly (style : Style) (limit : Nat) (pad : String) (t : Tree) (g : Group) :
    Prop where
  one_line_iff : t.text style pad = g.oneLine ↔ width (t.inline style) ≤ limit
  broken_iff : t.text style pad = g.broken pad style.unit ↔ limit < width (t.inline style)
  eq_inline : width (t.inline style) ≤ limit → t.text style pad = t.inline style
  nested_one_line : width (t.inline style) ≤ limit → ∀ route u g', t.at? route = some u →
    u.group? style (style.padAt pad route.length) = some g' →
    u.text style (style.padAt pad route.length) = g'.oneLine
  inline_of_limit : ∀ indent limit' pad', width (t.inline style) ≤ limit' →
    t.text { style with indent := indent, limit := some limit' } pad' = t.inline style
  lineFeeds_inline : lineFeeds (t.inline style) = t.sourceLineFeeds style

namespace Tree

variable {style : Style} {limit : Nat} {pad : String} {t : Tree} {g : Group}

theorem text_eq_text_decision (hlimit : style.limit = some limit)
    (hg : t.group? style pad = some g) (hentries : g.entries ≠ []) :
    t.text style pad = g.text pad style.unit (some (g.decision limit)) := by
  rw [text_of_group?_eq_some hg, Group.printed_of_ne_nil hentries, hlimit, Option.map_some]

theorem laidExactly (hlimit : style.limit = some limit) (hg : t.group? style pad = some g)
    (hentries : g.entries ≠ []) : t.LaidExactly style limit pad g where
  one_line_iff := by
    rw [text_eq_text_decision hlimit hg hentries, Group.text_decision_eq_oneLine_iff]
    exact width_oneLine_le_iff hlimit hg
  broken_iff := by
    rw [text_eq_text_decision hlimit hg hentries, Group.text_decision_eq_broken_iff,
      ← Nat.not_le, ← Nat.not_le, width_oneLine_le_iff hlimit hg]
  eq_inline hfits := text_eq_inline hlimit hfits pad
  nested_one_line hfits route u g' hu hg' := by
    have hle : width (u.inline style) ≤ width (t.inline style) :=
      width_inline_le_of_at? hu (method?_of_group? hg')
    exact text_eq_oneLine hlimit hg' (Nat.le_trans hle hfits)
  inline_of_limit indent limit' pad' hfits := by
    have hinline : t.inline { style with indent := indent, limit := some limit' } =
        t.inline style := by
      apply inline_congr
      · rfl
      · rfl
    rw [← hinline] at hfits ⊢
    exact text_eq_inline rfl hfits pad'
  lineFeeds_inline := lineFeeds_inline style t

end Tree

variable {σ : Type}

/-- Every container that is written with entries stands in the text of the whole at the pad of its
depth, and is on one line exactly if its fully inline text is within the limit. -/
theorem render_laidExactly {options : Options σ} {keep : ObjectRef → Key → Bool} {limit : Nat}
    (hhooks : options.hooks.Select keep) (hlimit : options.style.limit = some limit)
    (pad : String) {v : Value} {w : World σ} (hclosed : w.heap.Closed) (hv : w.heap.Has v) :
    (render options pad v w).result =
        .ok ((w.heap.unfold keep [] v).text options.style pad) ∧
      ∀ route t g, (w.heap.unfold keep [] v).at? route = some t →
        t.group? options.style (options.style.padAt pad route.length) = some g →
        g.entries ≠ [] →
        (t.text options.style (options.style.padAt pad route.length)).toList <:+:
            ((w.heap.unfold keep [] v).text options.style pad).toList ∧
          t.LaidExactly options.style limit (options.style.padAt pad route.length) g := by
  refine ⟨render_of_select hhooks pad hclosed hv, ?_⟩
  intro route t g ht hg hentries
  have hmethod := Tree.method?_of_group? hg
  exact ⟨Tree.text_infix_of_at? ht hmethod pad, Tree.laidExactly hlimit hg hentries⟩

namespace InlineLimitWitness

def keep (_ : ObjectRef) (k : Key) : Bool :=
  k != .name "secret"

/-- A filter that makes an array and counts whenever it is asked. -/
def hooks : Hooks Nat where
  filter := some fun o k w => .ok (keep o k) ⟨(w.heap.newArray #[]).2, w.state + 1⟩

def heap : Heap :=
  ⟨#[#[.atom (.bool true), .atom .null]],
    #[⟨[(.name "list", ⟨.array ⟨0⟩, true⟩), (.name "secret", ⟨.atom .null, true⟩),
      (.name "self", ⟨.object ⟨0⟩, true⟩)]⟩], 0⟩

def options : Options Nat :=
  ⟨{ limit := some 12 }, hooks⟩

theorem select_hooks : options.hooks.Select keep where
  no_transform := rfl
  filter f hf o k w := by
    cases hf
    exact ⟨_, rfl, w.heap.keeps_newArray #[]⟩
  no_filter hnone := by cases hnone

/-- The list, which is just as wide as the limit. -/
def list : Tree :=
  .array [.leaf (.bool true), .leaf .null]

theorem displayKeys_object :
    (heap.properties ⟨0⟩).displayKeys = [.name "list", .name "secret", .name "self"] := by
  have hlist : (Key.name "list").arrayIndex? = none := by decide
  have hself : (Key.name "self").arrayIndex? = none := by decide
  have hsecret : (Key.name "secret").arrayIndex? = none := by decide
  simp [Heap.properties, heap, PropertyTable.displayKeys, PropertyTable.enumerableKeys, hlist,
    hself, hsecret, Key.isSymbol]

theorem unfold_object :
    heap.unfold keep [] (.object ⟨0⟩) = .object [(.name "list", list), (.name "self", .cut)] := by
  have hfields : heap.shownFields keep ⟨0⟩ =
      [(.name "list", .array ⟨0⟩), (.name "self", .object ⟨0⟩)] := by
    rw [Heap.shownFields, displayKeys_object]
    rfl
  have helements : (heap.elements ⟨0⟩).toList = [.atom (.bool true), .atom .null] := rfl
  simp [Heap.unfold_object, Heap.unfold_array, Heap.unfold, hfields, helements, list]

theorem render_laidExactly_list :
    options.hooks.Select keep ∧ options.style.limit = some 12 ∧ heap.Closed ∧
      heap.Has (.object ⟨0⟩) ∧
      list.LaidExactly options.style 12 "\t" (.ofElements ["true", "null"]) := by
  have hclosed : heap.Closed := by decide
  have hroot : heap.Has (.object ⟨0⟩) := by decide
  obtain ⟨-, hlaid⟩ :=
    render_laidExactly (w := ⟨heap, 0⟩) select_hooks rfl "" hclosed hroot
  have hroute : (heap.unfold keep [] (.object ⟨0⟩)).at? [0] = some list := by
    rw [unfold_object]
    rfl
  have hgroup : list.group? options.style "\t" = some (.ofElements ["true", "null"]) := by
    simp [list, Tree.group?, Tree.text, Atom.literal]
  exact ⟨select_hooks, rfl, hclosed, hroot, (hlaid [0] _ _ hroute hgroup (by decide)).2⟩

end InlineLimitWitness

end ObjectLiteral
