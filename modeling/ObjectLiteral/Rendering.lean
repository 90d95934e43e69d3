import ObjectLiteral.Group
import ObjectLiteral.Hooks
/-!
Rendering a value as a literal.  The containers that are being written are kept, innermost first;
a container that is met among them is cut to a mark, so a value that reaches itself still has a
finite text.  Entries of a container are taken when its turn comes, so that hooks which change it
afterwards do not change what is written.
-/

namespace ObjectLiteral

/-- Why a rendering gave no text. -/
inductive Stop where
  /-- A hook failed. -/
  | failed (f : Failure)
  /-- Hooks nested containers deeper than they had announced.  This is no failure: the recursion
  has been given too few levels to come to the end. -/
  | tooDeep
deriving DecidableEq

/-- The state of a rendering: the world, the containers that are being written, innermost first,
and the events so far, latest first. -/
structure Run (σ : Type) where
  world : World σ
  active : List Container
  journal : List Event

/-- A step of a rendering.  The state outlives a stop. -/
abbrev RenderM (σ : Type) := EStateM Stop (Run σ)

namespace Rendering

variable {σ α : Type}

def heap : RenderM σ Heap := fun r => .ok r.world.heap r

def tell (e : Event) : RenderM σ Unit := fun ⟨world, active, journal⟩ =>
  .ok () ⟨world, active, e :: journal⟩

def call (h : HookM σ α) : RenderM σ α := fun ⟨world, active, journal⟩ =>
  match h world with
  | .ok a world => .ok a ⟨world, active, journal⟩
  | .error f world => .error (.failed f) ⟨world, active, journal⟩

/-- Writes a part of a container: it is active meanwhile, whether the part is finished or not. -/
def within (c : Container) (part : RenderM σ α) : RenderM σ α :=
    fun ⟨world, active, journal⟩ =>
  match part ⟨world, c :: active, journal⟩ with
  | .ok a ⟨world, active, journal⟩ => .ok a ⟨world, active.tail, journal⟩
  | .error s ⟨world, active, journal⟩ => .error s ⟨world, active.tail, journal⟩

/-- Writes a container, or the mark if it is being written already. -/
def unlessActive (c : Container) (text : RenderM σ String) : RenderM σ String := do
  let active := (← get).active
  if c ∈ active then
    tell (.cut active.length)
    pure circularMark
  else text

theorem unlessActive_of_mem {c : Container} {text : RenderM σ String} (run : Run σ)
    (hc : c ∈ run.active) :
    unlessActive c text run =
      .ok circularMark ⟨run.world, run.active, .cut run.active.length :: run.journal⟩ := by
  change (if c ∈ run.active then _ else _ : RenderM σ String) run = _
  rw [if_pos hc]
  rfl

theorem unlessActive_of_not_mem {c : Container} {text : RenderM σ String} (run : Run σ)
    (hc : c ∉ run.active) : unlessActive c text run = text run := by
  change (if c ∈ run.active then _ else _ : RenderM σ String) run = _
  rw [if_neg hc]

/-- Whether the property under a key is shown: as the filter says, and always without one. -/
def shown (hooks : Hooks σ) (o : ObjectRef) (k : Key) : RenderM σ Bool :=
  match hooks.filter with
  | none => pure true
  | some filter => do
    tell (.filtering o k ((← heap).count (.object o)))
    call (filter o k)

/-- The text of an entry: as the transform makes it, and unchanged without one. -/
def transformed (hooks : Hooks σ) (c : Container) (p : Position) (text : String) :
    RenderM σ String :=
  match hooks.transform with
  | none => pure text
  | some transform => do
    tell (.transforming c p ((← heap).count c) text)
    call (transform c p text)

/-- The keys that are shown, of a list of keys of an object. -/
def shownKeys (hooks : Hooks σ) (o : ObjectRef) : List Key → RenderM σ (List Key)
  | [] => pure []
  | k :: ks => do
    let keep ← shown hooks o k
    let kept ← shownKeys hooks o ks
    pure (if keep then k :: kept else kept)

/-- The entries of an array from an index on, each value written by `child`. -/
def elements (hooks : Hooks σ) (child : Value → RenderM σ String) (r : ArrayRef) :
    Nat → List Value → RenderM σ (List String)
  | _, [] => pure []
  | i, v :: vs => do
    let text ← child v
    let entry ← transformed hooks (.array r) (.index i) text
    let entries ← elements hooks child r (i + 1) vs
    pure (entry :: entries)

/-- The entries of an object, each value written by `child`. -/
def fields (hooks : Hooks σ) (style : Style) (child : Value → RenderM σ String)
    (o : ObjectRef) : List (Key × Value) → RenderM σ (List String)
  | [] => pure []
  | (k, v) :: rest => do
    let text ← child v
    let text ← transformed hooks (.object o) (.key k) text
    let entries ← fields hooks style child o rest
    pure (style.entry k v text :: entries)

/-- The text of a group, with its layout told if there is a limit. -/
def laid (style : Style) (pad : String) (g : Group) : RenderM σ String :=
  match style.limit with
  | none => pure (g.text pad style.unit none)
  | some limit => do
    let d := g.decision limit
    tell (.layout d.width d.limit d.fits)
    pure (g.text pad style.unit (some d))

/-- The text of a value at a pad, with at most `depth - 1` containers inside each other.  The
elements of an array are taken at once; of an object first the keys that are shown, and only then
their values, where a key that is gone by then has the value `undefined`. -/
def value (options : Options σ) : Nat → String → Value → RenderM σ String
  | 0, _, _ => throw .tooDeep
  | _ + 1, _, .atom a => pure (a.literal options.style)
  | depth + 1, pad, .array r =>
    unlessActive (.array r) do
      match ((← heap).elements r).toList with
      | [] => pure "[]"
      | v :: vs =>
        let child := value options depth (pad ++ options.style.unit)
        let entries ← within (.array r) (elements options.hooks child r 0 (v :: vs))
        laid options.style pad (.ofElements entries)
  | depth + 1, pad, .object o =>
    unlessActive (.object o) do
      match ← shownKeys options.hooks o ((← heap).properties o).displayKeys with
      | [] => pure "\x7b\x7d"
      | k :: ks =>
        let stored := (← heap).properties o
        let child := value options depth (pad ++ options.style.unit)
        let taken := (k :: ks).map fun k => (k, (stored.get? k).getD default)
        let entries ← within (.object o) (fields options.hooks options.style child o taken)
        laid options.style pad (.ofFields entries)

end Rendering

/-- The depth that is enough for every value of a heap: a path through distinct containers, and
one more value at its end; hooks add what they have announced. -/
def Options.depth {σ : Type} (options : Options σ) (h : Heap) : Nat :=
  h.size + 1 + options.hooks.growth

/-- What a rendering leaves behind: a text or the cause of its stop, the world, and all events in
the order in which they came. -/
structure Outcome (σ : Type) where
  result : Except Stop String
  world : World σ
  events : List Event

theorem Outcome.result_eq_ok {σ : Type} {outcome : Outcome σ} {text : String}
    (htext : outcome.result.toOption = some text) : outcome.result = .ok text := by
  cases hresult : outcome.result with
  | error stop =>
      rw [hresult] at htext
      cases htext
  | ok text' =>
      rw [hresult] at htext
      exact congrArg _ (Option.some.inj htext)

/-- Renders a value.  The text starts on a line that is already begun; `pad` stands in front of
the further lines. -/
def render {σ : Type} (options : Options σ) (pad : String) (v : Value) (w : World σ) :
    Outcome σ :=
  match Rendering.value options (options.depth w.heap) pad v ⟨w, [], []⟩ with
  | .ok text r => ⟨.ok text, r.world, r.journal.reverse⟩
  | .error s r => ⟨.error s, r.world, r.journal.reverse⟩

/-- The text of a value at a pad in a style, without hooks. -/
def Heap.literal? (h : Heap) (style : Style) (pad : String) (v : Value) : Option String :=
  (render { style } pad v ⟨h, ()⟩).result.toOption

/-- The text of a value in a style, without hooks.  Nothing stops such a rendering. -/
def Heap.literal (h : Heap) (style : Style) (v : Value) : String :=
  (h.literal? style "" v).getD ""

/-- The text of a value in the default style, without hooks. -/
def Heap.display (h : Heap) (v : Value) : String :=
  h.literal {} v

end ObjectLiteral
