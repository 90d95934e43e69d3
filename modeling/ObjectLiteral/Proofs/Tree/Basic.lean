import ObjectLiteral.Group
/-!
Trees: values without sharing.  A tree is what is left of a value of a heap once every container
is written out where it stands, and its printer needs neither a heap nor a record of the
containers that are being written.
-/

namespace ObjectLiteral

/-- A value whose containers hold their entries themselves.  A cut leaf stands where a container
would stand inside itself. -/
inductive Tree where
  | leaf (a : Atom)
  | cut
  | array (elements : List Tree)
  | object (fields : List (Key × Tree))

/-- The text of a group at a pad: without entries only the brackets, otherwise one of the two
layouts, which the limit decides if there is one. -/
def Group.printed (g : Group) (style : Style) (pad : String) : String :=
  match g.entries with
  | [] => g.oneLine
  | _ :: _ => g.text pad style.unit (style.limit.map g.decision)

theorem Group.printed_of_ne_nil {g : Group} (hentries : g.entries ≠ []) (style : Style)
    (pad : String) :
    g.printed style pad = g.text pad style.unit (style.limit.map g.decision) := by
  rw [Group.printed]
  split
  · contradiction
  · rfl

theorem Group.printed_eq_or (g : Group) (style : Style) (pad : String) :
    g.printed style pad = g.oneLine ∨ g.printed style pad = g.broken pad style.unit := by
  by_cases hentries : g.entries = []
  · left
    rw [Group.printed, hentries]
  · rw [Group.printed_of_ne_nil hentries]
    rcases style.limit with _ | limit
    · exact Or.inr rfl
    · rw [Option.map_some, Group.text]
      split
      · exact Or.inl rfl
      · exact Or.inr rfl

/-- The pad of an entry that stands so many levels below a container at `pad`. -/
def Style.padAt (style : Style) (pad : String) : Nat → String
  | 0 => pad
  | depth + 1 => style.padAt (pad ++ style.unit) depth

namespace Tree

theorem sizeOf_lt_array {t : Tree} {ts : List Tree} (ht : t ∈ ts) :
    sizeOf t < sizeOf (array ts) := by
  have hlt := List.sizeOf_lt_of_mem ht
  rw [array.sizeOf_spec]
  omega

theorem sizeOf_lt_object {f : Key × Tree} {fs : List (Key × Tree)} (hf : f ∈ fs) :
    sizeOf f.2 < sizeOf (object fs) := by
  have hlt := List.sizeOf_lt_of_mem hf
  have hsize : sizeOf f = 1 + sizeOf f.1 + sizeOf f.2 := rfl
  rw [object.sizeOf_spec]
  omega

/-- The declaration text that a tree contributes to an object as a whole entry. -/
def method? (style : Style) : Tree → Option String
  | leaf a => (Value.atom a).method? style
  | _ => none

/-- The entry of a field: its key and the text of its tree, or the declaration of a method
alone. -/
def entry (style : Style) (k : Key) (t : Tree) (text : String) : String :=
  match t.method? style with
  | some declaration => declaration
  | none => k.literal style.quote ++ ": " ++ text

/-- The text of a tree at a pad.  Entries are written one level deeper. -/
def text (style : Style) (pad : String) : Tree → String
  | leaf a => a.literal style
  | cut => circularMark
  | array ts => (Group.ofElements (ts.map (text style (pad ++ style.unit)))).printed style pad
  | object fs =>
    (Group.ofFields (fs.map fun f =>
      f.2.entry style f.1 (text style (pad ++ style.unit) f.2))).printed style pad
termination_by t => t
decreasing_by
  · exact sizeOf_lt_array ‹_›
  · exact sizeOf_lt_object ‹_›

/-- The text of a tree with all its containers on one line.  It needs no pad and asks for no
limit. -/
def inline (style : Style) : Tree → String
  | leaf a => a.literal style
  | cut => circularMark
  | array ts => (Group.ofElements (ts.map (inline style))).oneLine
  | object fs => (Group.ofFields (fs.map fun f => f.2.entry style f.1 (inline style f.2))).oneLine
termination_by t => t
decreasing_by
  · exact sizeOf_lt_array ‹_›
  · exact sizeOf_lt_object ‹_›

def children : Tree → List Tree
  | array ts => ts
  | object fs => fs.map (·.2)
  | _ => []

theorem sizeOf_lt_of_mem_children {t u : Tree} (hu : u ∈ t.children) : sizeOf u < sizeOf t := by
  cases t with
  | leaf a => cases hu
  | cut => cases hu
  | array ts => exact sizeOf_lt_array hu
  | object fs =>
      obtain ⟨f, hf, rfl⟩ := List.mem_map.mp hu
      exact sizeOf_lt_object hf

/-- Induction on trees: what passes from all entries to their container holds of every tree. -/
@[elab_as_elim]
theorem induction_children {motive : Tree → Prop}
    (step : ∀ t, (∀ u ∈ t.children, motive u) → motive t) (t : Tree) : motive t :=
  step t fun u _ => induction_children step u
termination_by t
decreasing_by exact sizeOf_lt_of_mem_children ‹_›

/-- The group of a container, as it is written at a pad. -/
def group? (style : Style) (pad : String) : Tree → Option Group
  | array ts => some (.ofElements (ts.map (text style (pad ++ style.unit))))
  | object fs =>
    some (.ofFields (fs.map fun f =>
      f.2.entry style f.1 (text style (pad ++ style.unit) f.2)))
  | _ => none

theorem text_of_group?_eq_some {style : Style} {pad : String} {t : Tree} {g : Group}
    (hg : t.group? style pad = some g) : t.text style pad = g.printed style pad := by
  cases t with
  | leaf a => cases hg
  | cut => cases hg
  | array ts => cases hg; rw [text]
  | object fs => cases hg; rw [text]

theorem text_of_group?_eq_none {style : Style} {pad : String} {t : Tree}
    (hg : t.group? style pad = none) : t.text style pad = t.inline style := by
  cases t with
  | leaf a => rw [text, inline]
  | cut => rw [text, inline]
  | array ts => cases hg
  | object fs => cases hg

/-- The tree at the end of a route, which names an entry by its index at every step. -/
def at? : Tree → List Nat → Option Tree
  | t, [] => some t
  | t, i :: route =>
    match t.children[i]? with
    | some child => child.at? route
    | none => none

/-- Only a container has entries, so a tree above another one is no method. -/
theorem method?_of_at? {style : Style} {t u : Tree} {route : List Nat}
    (hu : t.at? route = some u) (hmethod : u.method? style = none) : t.method? style = none := by
  cases route with
  | nil =>
      cases hu
      exact hmethod
  | cons i route =>
      cases t with
      | leaf a => simp [at?, children] at hu
      | _ => rfl

theorem method?_of_group? {style : Style} {pad : String} {t : Tree} {g : Group}
    (hg : t.group? style pad = some g) : t.method? style = none := by
  cases t with
  | leaf a => cases hg
  | _ => rfl

/-- The first step of a route leads to an entry. -/
theorem exists_child_of_at?_cons {t u : Tree} {i : Nat} {route : List Nat}
    (hu : t.at? (i :: route) = some u) : ∃ child ∈ t.children, child.at? route = some u := by
  rw [at?] at hu
  split at hu
  · rename_i child hchild
    exact ⟨child, List.mem_of_getElem? hchild, hu⟩
  · cases hu

end Tree

end ObjectLiteral
