import ObjectLiteral.Hooks
import ObjectLiteral.Proofs.Tree.Basic
/-!
Writing a tree when the transform is a function of position and text.  It needs no heap and no
state of hooks: what it gives, and what it tells of cuts and layouts, depends on the tree alone.
-/

namespace ObjectLiteral

variable {α : Type}

/-- The event is about the shape of the text: a cut or a layout. -/
def Event.isShape : Event → Bool
  | .cut _ => true
  | .layout _ _ _ => true
  | _ => false

def shape (events : List Event) : List Event :=
  events.filter (·.isShape)

/-- A step of writing a tree: it tells of cuts and layouts, latest first, and stops where the
transform fails. -/
abbrev WriteM := EStateM Failure (List Event)

namespace WriteM

def tell (e : Event) : WriteM Unit := fun told =>
  .ok () (e :: told)

/-- A result, or the failure instead of it. -/
def settle : Except Failure α → WriteM α
  | .ok a => fun told => .ok a told
  | .error f => fun told => .error f told

def laid (style : Style) (pad : String) (g : Group) : WriteM String :=
  match style.limit with
  | none => pure (g.text pad style.unit none)
  | some limit => do
    let d := g.decision limit
    tell (.layout d.width d.limit d.fits)
    pure (g.text pad style.unit (some d))

end WriteM

namespace Tree

open WriteM (settle tell laid)

variable (style : Style) (rewrite : Position → String → Except Failure String)

mutual

/-- Writes a tree at a pad, `depth` levels below the root.  The texts of entries go through
`rewrite`. -/
def write (depth : Nat) (pad : String) : Tree → WriteM String
  | leaf a => pure (a.literal style)
  | cut => do
    tell (.cut depth)
    pure circularMark
  | array [] => pure "[]"
  | array (t :: ts) => do
    let entries ← writeElements (depth + 1) (pad ++ style.unit) 0 (t :: ts)
    laid style pad (.ofElements entries)
  | object [] => pure "\x7b\x7d"
  | object (f :: fs) => do
    let entries ← writeFields (depth + 1) (pad ++ style.unit) (f :: fs)
    laid style pad (.ofFields entries)

def writeElements (depth : Nat) (pad : String) : Nat → List Tree → WriteM (List String)
  | _, [] => pure []
  | i, t :: ts => do
    let text ← write depth pad t
    let entry ← settle (rewrite (.index i) text)
    let entries ← writeElements depth pad (i + 1) ts
    pure (entry :: entries)

def writeFields (depth : Nat) (pad : String) : List (Key × Tree) → WriteM (List String)
  | [] => pure []
  | (k, t) :: fs => do
    let text ← write depth pad t
    let text ← settle (rewrite (.key k) text)
    let entries ← writeFields depth pad fs
    pure (t.entry style k text :: entries)

end

def passes (_ : Position) (text : String) : Except Failure String :=
  .ok text

/-- What writing a tree gives: its text or the failure of the transform, and the cuts and layouts
in order. -/
def written (pad : String) (t : Tree) : Except Failure String × List Event :=
  match t.write style rewrite 0 pad [] with
  | .ok text told => (.ok text, told.reverse)
  | .error f told => (.error f, told.reverse)

end Tree

end ObjectLiteral
