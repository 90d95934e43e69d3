import ObjectLiteral.Proofs.Rendering.Visits
/-!
Walks.  A walk is the tree of visits below a visit, with what each of them wrote and with nothing
of the world in between, so that what is told of a rendering can be compared with what was written.
-/

namespace ObjectLiteral

variable {σ : Type}

/-- What a visit wrote: an atom, a mark for a container that was being written already, or a
container with its group, its text and the walks of its entries. -/
inductive Walk where
  | atom
  | cut
  | container (group : Group) (text : String) (below : List Walk)

namespace Walk

def entries : Walk → List Walk
  | container _ _ below => below
  | _ => []

theorem sizeOf_lt_container {g : Group} {text : String} {walk : Walk} {below : List Walk}
    (hwalk : walk ∈ below) : sizeOf walk < sizeOf (container g text below) := by
  have hlt := List.sizeOf_lt_of_mem hwalk
  rw [container.sizeOf_spec]
  omega

/-- The walk at the end of a route, which names an entry by its index at every step. -/
def at? : Walk → List Nat → Option Walk
  | walk, [] => some walk
  | walk, i :: route =>
    match walk.entries[i]? with
    | some entry => entry.at? route
    | none => none

end Walk

/-- `Walked options path pad v text s walk`: the visit of `v` below the containers of `path` gives
`text` in the stretch `s`, by the rules of `Visit`, and consists of the visits that `walk` shows. -/
inductive Walked (options : Options σ) :
    List Container → String → Value → String → Span σ → Walk → Prop
  | atom {path : List Container} {pad : String} (a : Atom) (w : World σ) :
      Walked options path pad (.atom a) (a.literal options.style) (.still w) .atom
  | cut {path : List Container} {pad : String} {v : Value} {c : Container} (w : World σ)
      (hv : v.container? = some c) (hc : c ∈ path) :
      Walked options path pad v circularMark (.told w [.cut path.length]) .cut
  | array {path : List Container} {pad : String} {r : ArrayRef} {w w' : World σ}
      {es : List (Entry σ Nat)} {walks : Entry σ Nat → Walk} {g : Group} (hr : .array r ∉ path)
      (hslots : es.map (·.slot) = List.range es.length)
      (hvalues : es.map (·.value) = (w.heap.elements r).toList)
      (hmade : Made options.hooks (.array r) .index w es w')
      (hvisits : ∀ e ∈ es, Walked options (.array r :: path) (pad ++ options.style.unit)
        e.value e.text e.visit (walks e))
      (hgroup : g = .ofElements (es.map (·.output))) :
      Walked options path pad (.array r) (g.printed options.style pad)
        ⟨w, es.flatMap (·.span.events) ++ g.told options.style, w'⟩
        (.container g (g.printed options.style pad) (es.map walks))
  | object {path : List Container} {pad : String} {o : ObjectRef} {w w' w'' : World σ}
      {js : List (Judgement σ)} {es : List (Entry σ Key)} {walks : Entry σ Key → Walk} {g : Group}
      (ho : .object o ∉ path)
      (hkeys : js.map (·.key) = (w.heap.properties o).displayKeys)
      (hjudged : Judged options.hooks o w js w')
      (hfields : es.map (fun e => (e.slot, e.value))
        = w'.heap.fieldsAt o ((js.filter (·.kept)).map (·.key)))
      (hmade : Made options.hooks (.object o) .key w' es w'')
      (hvisits : ∀ e ∈ es, Walked options (.object o :: path) (pad ++ options.style.unit)
        e.value e.text e.visit (walks e))
      (hgroup : g = .ofFields (es.map fun e => options.style.entry e.slot e.value e.output)) :
      Walked options path pad (.object o) (g.printed options.style pad)
        ⟨w, js.flatMap (·.span.events) ++ es.flatMap (·.span.events) ++ g.told options.style, w''⟩
        (.container g (g.printed options.style pad) (es.map walks))

variable {options : Options σ} {path : List Container} {pad text : String} {v : Value}
  {s : Span σ}

/-- A walk is one of a visit. -/
theorem Walked.visit {walk : Walk} (hwalked : Walked options path pad v text s walk) :
    Visit options path pad v text s := by
  induction hwalked with
  | atom a w => exact .atom a w
  | cut w hv hc => exact .cut w hv hc
  | array hr hslots hvalues hmade _ hgroup ih =>
      rw [hgroup]
      exact .array hr hslots hvalues hmade ih
  | object ho hkeys hjudged hfields hmade _ hgroup ih =>
      rw [hgroup]
      exact .object ho hkeys hjudged hfields hmade ih

/-- Walks of the single members of a list can be had for all of them at once. -/
theorem exists_walks {α : Type} {as : List α} {P : α → Walk → Prop}
    (hall : ∀ a ∈ as, ∃ walk, P a walk) : ∃ walks : α → Walk, ∀ a ∈ as, P a (walks a) := by
  have hsome : ∀ a, ∃ walk, a ∈ as → P a walk := by
    intro a
    by_cases ha : a ∈ as
    · obtain ⟨walk, hwalk⟩ := hall a ha
      exact ⟨walk, fun _ => hwalk⟩
    · exact ⟨.atom, fun hmem => absurd hmem ha⟩
  exact Classical.skolem.mp hsome

/-- Every visit has a walk. -/
theorem Visit.exists_walked (hvisit : Visit options path pad v text s) :
    ∃ walk, Walked options path pad v text s walk := by
  induction hvisit with
  | atom a w => exact ⟨_, .atom a w⟩
  | cut w hv hc => exact ⟨_, .cut w hv hc⟩
  | array hr hslots hvalues hmade _ ih =>
      obtain ⟨walks, hwalks⟩ := exists_walks ih
      exact ⟨_, .array hr hslots hvalues hmade hwalks rfl⟩
  | object ho hkeys hjudged hfields hmade _ ih =>
      obtain ⟨walks, hwalks⟩ := exists_walks ih
      exact ⟨_, .object ho hkeys hjudged hfields hmade hwalks rfl⟩

end ObjectLiteral
