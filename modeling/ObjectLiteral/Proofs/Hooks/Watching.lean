import ObjectLiteral.Rendering
/-!
Watched hooks.  A record of the calls so far travels with the state of the hooks, so it shows of
every call what the hook was asked and what it did to the world.  The watcher may also overrule a
call: let it fail once the hook has done its work.
-/

namespace ObjectLiteral

variable {σ α : Type}

/-- A call of a hook that has ended: the event that tells of it, the worlds before and after it,
and the failure that it ended in, if it failed. -/
structure Call (σ : Type) where
  event : Event
  before : World σ
  after : World σ
  failure? : Option Failure

structure Watched (σ : Type) where
  state : σ
  calls : List (Call σ)

def World.watched (w : World σ) (calls : List (Call σ)) : World (Watched σ) :=
  ⟨w.heap, w.state, calls⟩

def World.unwatched (w : World (Watched σ)) : World σ :=
  ⟨w.heap, w.state.state⟩

/-- The outcomes of a watched call: it goes on record, and the verdict on it may be a failure. -/
def HookM.noted (calls : List (Call σ)) (event : Event) (before : World σ)
    (verdict : Option Failure) :
    EStateM.Result Failure (World σ) α → EStateM.Result Failure (World (Watched σ)) α
  | .ok a after =>
    let w := after.watched (calls ++ [⟨event, before, after, verdict⟩])
    match verdict with
    | none => .ok a w
    | some f => .error f w
  | .error f after =>
    let f := verdict.getD f
    .error f (after.watched (calls ++ [⟨event, before, after, some f⟩]))

/-- A hook under watch.  `verdict` says of each call, counted from zero, whether it is overruled and
with which failure. -/
def HookM.watched (verdict : Nat → Option Failure) (event : World σ → Event) (hook : HookM σ α) :
    HookM (Watched σ) α := fun w =>
  noted w.state.calls (event w.unwatched) w.unwatched (verdict w.state.calls.length)
    (hook w.unwatched)

/-- Hooks under watch. -/
def Hooks.watched (verdict : Nat → Option Failure) (hooks : Hooks σ) : Hooks (Watched σ) where
  filter := hooks.filter.map fun f o k =>
    (f o k).watched verdict fun w => .filtering o k (w.heap.count (.object o))
  transform := hooks.transform.map fun f c p text =>
    (f c p text).watched verdict fun w => .transforming c p (w.heap.count c) text
  growth := hooks.growth

def allPass (_ : Nat) : Option Failure :=
  none

/-- The call of one number is overruled. -/
def failsAt (k : Nat) (f : Failure) (n : Nat) : Option Failure :=
  if n = k then some f else none

def Options.watched (verdict : Nat → Option Failure) (options : Options σ) :
    Options (Watched σ) :=
  ⟨options.style, options.hooks.watched verdict⟩

/-- The rendering of a value with all calls on record. -/
def watchedRender (verdict : Nat → Option Failure) (options : Options σ) (pad : String)
    (v : Value) (w : World σ) : Outcome (Watched σ) :=
  render (options.watched verdict) pad v (w.watched [])

/-- The calls of hooks in a rendering, in order. -/
def calls (options : Options σ) (pad : String) (v : Value) (w : World σ) : List (Call σ) :=
  (watchedRender allPass options pad v w).world.state.calls

end ObjectLiteral
