import ObjectLiteral.Conversion
/-!
Writing text into a sink that takes it in pieces.  The unwritten rest is offered again until it is
taken, and after an interruption too; a sink that takes nothing, or refuses, ends the writing.
-/

namespace ObjectLiteral

namespace Sink

inductive Reply where
  /-- It took bytes from the front, at most as many as there were. -/
  | took (n : Nat)
  /-- It took nothing this time, and is to be asked again. -/
  | interrupted
  | refused (reason : String)
deriving DecidableEq

end Sink

/-- A sink with a state: how it answers a piece of text, and the bytes that it has taken.  Into a
sink that interrupts one offer forever a writing has no end, so `patience` bounds how often that
happens from a state on. -/
structure Sink (τ : Type) where
  offer : List UInt8 → τ → Sink.Reply × τ
  taken : τ → List UInt8
  patience : List UInt8 → τ → Nat
  patience_lt : ∀ bytes s s', offer bytes s = (.interrupted, s') →
    patience bytes s' < patience bytes s

namespace Sink

variable {τ : Type}

/-- The reason of a failure where a sink takes nothing of a text that is left. -/
def stalled : String :=
  "failed to write whole buffer"

/-- Offers bytes until all are taken.  Nothing is offered if there are none. -/
def writeAll (sink : Sink τ) (bytes : List UInt8) (s : τ) : Except Failure Unit × τ :=
  match bytes with
  | [] => (.ok (), s)
  | b :: bs =>
    match _ : sink.offer (b :: bs) s with
    | (.took 0, s') => (.error (.output stalled), s')
    | (.took (n + 1), s') => writeAll sink (bs.drop n) s'
    | (.interrupted, s') => writeAll sink (b :: bs) s'
    | (.refused reason, s') => (.error (.output reason), s')
termination_by (bytes.length, sink.patience bytes s)
decreasing_by
  · apply Prod.Lex.left
    rw [List.length_drop, List.length_cons]
    omega
  · exact Prod.Lex.right _ (sink.patience_lt _ _ _ ‹_›)

/-- The state of a bounded sink: the bytes that it still takes, if there is a bound, and the
pieces that it has taken, latest first. -/
structure Store where
  budget : Option Nat
  pieces : List (List UInt8)

/-- As many bytes from the front as a bound allows, and all of them without one. -/
def upTo : Option Nat → List UInt8 → List UInt8
  | none, bytes => bytes
  | some n, bytes => bytes.take n

/-- A sink that takes at most `chunk` bytes of each piece, and no more than its budget in all.
Where that leaves no byte to take, because the budget is spent or `chunk` is zero, it refuses with
a reason, or takes nothing if it has none.  It is never interrupted. -/
def bounded (chunk : Option Nat) (reason : Option String) : Sink Store where
  offer bytes s :=
    match upTo s.budget (upTo chunk bytes), reason with
    | [], some r => (.refused r, s)
    | [], none => (.took 0, s)
    | b :: bs, _ =>
      let piece := b :: bs
      (.took piece.length, ⟨s.budget.map (· - piece.length), piece :: s.pieces⟩)
  taken s := s.pieces.reverse.flatten
  patience _ _ := 0
  patience_lt bytes s s' hoffer := by
    dsimp only at hoffer
    split at hoffer <;> cases hoffer

def Store.ofBudget (budget : Option Nat) : Store := ⟨budget, []⟩

end Sink

/-- What writing data leaves behind: success or the cause of its stop, the world, and the sink. -/
structure Delivery (σ τ : Type) where
  result : Except Stop Unit
  world : World σ
  sink : τ

/-- Renders data and writes the text in UTF-8 into a sink.  Nothing is offered to the sink unless
the whole text is there. -/
def Datum.deliver {σ τ : Type} (options : Options σ) (d : Datum) (w : World σ) (sink : Sink τ)
    (s : τ) : Delivery σ τ :=
  let out := d.render options w
  match out.result with
  | .error stop => ⟨.error stop, out.world, s⟩
  | .ok text =>
    match sink.writeAll text.toUTF8.toList s with
    | (.ok (), s) => ⟨.ok (), out.world, s⟩
    | (.error f, s) => ⟨.error (.failed f), out.world, s⟩

end ObjectLiteral
