import ObjectLiteral.Proofs.Sink.Delivery
/-!
Interruptions of a writing.  The rest is offered again after each, so a sink that is interrupted
between its answers gets what it would get without, and the delivery ends in the same way.
-/

namespace ObjectLiteral

variable {σ τ : Type}

namespace Sink

/-- The sink beside a count of interruptions that are still due: it answers only when none is, and
`times` more are due after each answer. -/
def interrupting (sink : Sink τ) (times : Nat) : Sink (τ × Nat) where
  offer
    | bytes, (s, 0) => ((sink.offer bytes s).1, ((sink.offer bytes s).2, times))
    | _, (s, due + 1) => (.interrupted, (s, due))
  taken s := sink.taken s.1
  patience bytes s := (times + 1) * sink.patience bytes s.1 + s.2
  patience_lt bytes s s' hoffer := by
    obtain ⟨s, due⟩ := s
    cases due with
    | zero =>
        obtain ⟨hreply, rfl⟩ := Prod.mk.inj hoffer
        have hlt := sink.patience_lt bytes s (sink.offer bytes s).2 (Prod.ext hreply rfl)
        calc (times + 1) * sink.patience bytes (sink.offer bytes s).2 + times
            < (times + 1) * (sink.patience bytes (sink.offer bytes s).2 + 1) := by
              rw [Nat.mul_succ]
              omega
          _ ≤ (times + 1) * sink.patience bytes s := Nat.mul_le_mul_left _ hlt
    | succ due =>
        cases hoffer
        exact Nat.lt_succ_self _

/-- One offer, and the writing that follows it. -/
theorem writeAll_cons (sink : Sink τ) (b : UInt8) (bs : List UInt8) (s : τ) :
    sink.writeAll (b :: bs) s =
      match sink.offer (b :: bs) s with
      | (.took 0, s') => (.error (.output stalled), s')
      | (.took (n + 1), s') => sink.writeAll (bs.drop n) s'
      | (.interrupted, s') => sink.writeAll (b :: bs) s'
      | (.refused reason, s') => (.error (.output reason), s') := by
  rw [writeAll]
  split
  · rename_i hoffer
    rw [hoffer]
  · rename_i hoffer
    rw [hoffer]
  · rename_i hoffer
    rw [hoffer]
  · rename_i hoffer
    rw [hoffer]

/-- The interruptions that are due pass. -/
theorem writeAll_due (sink : Sink τ) (times : Nat) (b : UInt8) (bs : List UInt8) (s : τ)
    (due : Nat) :
    (sink.interrupting times).writeAll (b :: bs) (s, due) =
      (sink.interrupting times).writeAll (b :: bs) (s, 0) := by
  induction due with
  | zero => rfl
  | succ due ih =>
      rw [writeAll_cons]
      exact ih

/-- A sink that is interrupted before it answers gets the same as one that is not. -/
theorem writeAll_interrupting (sink : Sink τ) (times : Nat) (bytes : List UInt8) (s : τ)
    (due : Nat) :
    ((sink.interrupting times).writeAll bytes (s, due)).map id Prod.fst =
      sink.writeAll bytes s := by
  have hanswer : ∀ bytes s reply s', sink.offer bytes s = (reply, s') →
      (sink.interrupting times).offer bytes (s, 0) = (reply, (s', times)) := by
    intro bytes s reply s' hoffer
    simp only [interrupting, hoffer]
  fun_induction writeAll sink bytes s generalizing due with
  | case1 s => rw [writeAll, Prod.map_apply, id]
  | case2 s b bs s' hoffer =>
      rw [writeAll_due, writeAll_cons, hanswer _ _ _ _ hoffer]
      rfl
  | case3 s b bs n s₁ hoffer ih =>
      rw [writeAll_due, writeAll_cons, hanswer _ _ _ _ hoffer]
      exact ih times
  | case4 s b bs s₁ hoffer ih =>
      rw [writeAll_due, writeAll_cons, hanswer _ _ _ _ hoffer]
      exact ih times
  | case5 s b bs reason s' hoffer =>
      rw [writeAll_due, writeAll_cons, hanswer _ _ _ _ hoffer]
      rfl

end Sink

/-- Interruptions leave no trace in a delivery, however many there are. -/
theorem deliver_interrupting (options : Options σ) (d : Datum) (w : World σ) (sink : Sink τ)
    (times : Nat) (s : τ) (due : Nat) :
    let delivery := d.deliver options w (sink.interrupting times) (s, due)
    d.deliver options w sink s = ⟨delivery.result, delivery.world, delivery.sink.1⟩ := by
  cases htext : (d.render options w).result with
  | error stop => simp only [Datum.deliver, htext]
  | ok text =>
      rw [Datum.deliver_of_ok htext, Datum.deliver_of_ok htext,
        ← Sink.writeAll_interrupting sink times _ s due]
      rfl

end ObjectLiteral
