import Mathlib.Control.Monad.Basic
import ObjectLiteral.Proofs.Rendering.Recording
/-!
Traces.  A trace tells of every call that the renderer makes of itself where the call begins and
where it ends, each time with the containers that are recorded as active.  Which calls are under
way follows from the trace alone, so the record of active containers can be compared with them.
-/

namespace ObjectLiteral

variable {σ α : Type}

/-- A turn in a rendering: a call for a value begins, or the innermost call ends with a text or a
stop, while `active` is the record of the containers that are being written. -/
inductive Turn where
  | begins (v : Value) (active : List Container)
  | ends (result : Except Stop String) (active : List Container)
deriving DecidableEq

/-- The calls that are under way after a turn, innermost first, each with the record that it began
with. -/
def Turn.apply (calls : List (Value × List Container)) : Turn → List (Value × List Container)
  | begins v active => (v, active) :: calls
  | ends _ _ => calls.tail

/-- The calls that have begun in a trace and have not ended. -/
def underWay (turns : List Turn) : List (Value × List Container) :=
  turns.foldl Turn.apply []

def containersOf (calls : List (Value × List Container)) : List Container :=
  calls.filterMap fun call => call.1.container?

/-- The state of hooks with the turns so far, in order. -/
structure Traced (σ : Type) where
  state : σ
  turns : List Turn

def World.traced (w : World σ) (turns : List Turn) : World (Traced σ) :=
  ⟨w.heap, w.state, turns⟩

/-- The outcome of a hook that knows nothing of the trace. -/
def HookM.beside (turns : List Turn) :
    EStateM.Result Failure (World σ) α → EStateM.Result Failure (World (Traced σ)) α
  | .ok a w => .ok a (w.traced turns)
  | .error f w => .error f (w.traced turns)

def HookM.traced (hook : HookM σ α) : HookM (Traced σ) α := fun w =>
  beside w.state.turns (hook ⟨w.heap, w.state.state⟩)

def Hooks.traced (hooks : Hooks σ) : Hooks (Traced σ) where
  filter := hooks.filter.map fun f o k => (f o k).traced
  transform := hooks.transform.map fun f c p text => (f c p text).traced
  growth := hooks.growth

def Options.traced (options : Options σ) : Options (Traced σ) :=
  ⟨options.style, options.hooks.traced⟩

def Run.turn (run : Run (Traced σ)) (t : Turn) : Run (Traced σ) :=
  ⟨⟨run.world.heap, run.world.state.state, run.world.state.turns ++ [t]⟩, run.active, run.journal⟩

namespace Rendering

/-- The text of a value at a pad, where the values inside it are written by `child`. -/
def level (options : Options σ) (child : String → Value → RenderM σ String) (pad : String) :
    Value → RenderM σ String
  | .atom a => pure (a.literal options.style)
  | .array r =>
    unlessActive (.array r) do
      match ((← heap).elements r).toList with
      | [] => pure "[]"
      | v :: vs =>
        let child := child (pad ++ options.style.unit)
        let entries ← within (.array r) (elements options.hooks child r 0 (v :: vs))
        laid options.style pad (.ofElements entries)
  | .object o =>
    unlessActive (.object o) do
      match ← shownKeys options.hooks o ((← heap).properties o).displayKeys with
      | [] => pure "\x7b\x7d"
      | k :: ks =>
        let stored := (← heap).properties o
        let child := child (pad ++ options.style.unit)
        let taken := (k :: ks).map fun k => (k, (stored.get? k).getD default)
        let entries ← within (.object o) (fields options.hooks options.style child o taken)
        laid options.style pad (.ofFields entries)

/-- A rendering calls itself for the values inside the one that it writes. -/
theorem value_succ (options : Options σ) (depth : Nat) (pad : String) (v : Value) :
    value options (depth + 1) pad v = level options (value options depth) pad v := by
  cases v <;> rfl

/-- A call for a value, with its begin and its end on the trace. -/
def onTrace (v : Value) (text : RenderM (Traced σ) String) : RenderM (Traced σ) String := fun run =>
  match text (run.turn (.begins v run.active)) with
  | .ok t run => .ok t (run.turn (.ends (.ok t) run.active))
  | .error s run => .error s (run.turn (.ends (.error s) run.active))

/-- The text of a value at a pad, with all calls on the trace. -/
def tracedValue (options : Options σ) : Nat → String → Value → RenderM (Traced σ) String
  | 0, _, v => onTrace v (throw .tooDeep)
  | depth + 1, pad, v => onTrace v (level options.traced (tracedValue options depth) pad v)

end Rendering

/-- The rendering of a value with all its calls on the trace. -/
def tracedRender (options : Options σ) (pad : String) (v : Value) (w : World σ) :
    Outcome (Traced σ) :=
  .ofEnd (Rendering.tracedValue options (options.depth w.heap) pad v ⟨w.traced [], [], []⟩)

def turns (options : Options σ) (pad : String) (v : Value) (w : World σ) : List Turn :=
  (tracedRender options pad v w).world.state.turns

end ObjectLiteral
