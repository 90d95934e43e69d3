import ObjectLiteral.Failure
import ObjectLiteral.Heap
import ObjectLiteral.Literal
/-!
Hooks: a filter that decides which properties are shown and a transform that gives the text of
each entry.  A hook may look at the heap, change it, keep a state of its own, and fail.
-/

namespace ObjectLiteral

/-- All that a hook can reach: the heap, and the state that the hooks share. -/
structure World (σ : Type) where
  heap : Heap
  state : σ

/-- A call of a hook.  What it did to the world before it failed stays done. -/
abbrev HookM (σ : Type) := EStateM Failure (World σ)

/-- The hooks of a rendering.  `growth` is the number of levels that hooks may add to the nesting
which the heap has at the start: hooks that put nothing deeper need none, and for others the number
of containers that they make is enough.  It bounds the recursion and has no other part in it. -/
structure Hooks (σ : Type) where
  filter : Option (ObjectRef → Key → HookM σ Bool) := none
  transform : Option (Container → Position → String → HookM σ String) := none
  growth : Nat := 0

structure Options (σ : Type) where
  style : Style := {}
  hooks : Hooks σ := {}

/-- An event of a rendering, as an observer is told of it. -/
inductive Event where
  /-- The filter is asked about a key of an object that has `count` properties. -/
  | filtering (object : ObjectRef) (key : Key) (count : Nat)
  /-- The transform is given the text of an entry of a container that has `count` entries. -/
  | transforming (container : Container) (position : Position) (count : Nat) (text : String)
  /-- A container stood inside itself, with `depth` containers being written. -/
  | cut (depth : Nat)
  /-- A container under a limit got its layout. -/
  | layout (width limit : Nat) (fits : Bool)
deriving DecidableEq

end ObjectLiteral
