import ObjectLiteral.Proofs.Sink.Writing
/-!
Deliveries.  Data that has no text leaves the sink as it was.  Otherwise the sink has a part of the
text from the front, and only a sink that has all of it makes the delivery succeed.
-/

namespace ObjectLiteral

variable {σ τ : Type}

/-- How the delivery of bytes into a sink ends, from one state of the sink to another. -/
structure Sink.Delivered (sink : Sink τ) (s : τ) (bytes : List UInt8) (result : Except Stop Unit)
    (s' : τ) : Prop where
  front : ∃ written, written <+: bytes ∧ sink.taken s' = sink.taken s ++ written
  ok_iff : result = .ok () ↔ sink.taken s' = sink.taken s ++ bytes
  /-- A delivery fails by the answer to its last offer, which took nothing of what was left. -/
  failed : result ≠ .ok () → ∃ written rest s₁ reply reason, bytes = written ++ rest ∧
    rest ≠ [] ∧ sink.Takes written rest s s₁ ∧ sink.offer rest s₁ = (reply, s') ∧
    reply.ending? = some reason ∧ result = .error (.failed (.output reason))
  /-- The sizes of the pieces have no part in what is delivered. -/
  any_pieces : ∀ room reason, sink.Budgeted room reason →
    sink.taken s' = sink.taken s ++ upTo (room s) bytes ∧
    result = if upTo (room s) bytes = bytes then .ok () else .error (.failed (.output reason))

theorem Sink.Lawful.delivered {sink : Sink τ} (hlawful : sink.Lawful) (s : τ)
    (bytes : List UInt8) :
    sink.Delivered s bytes ((sink.writeAll bytes s).1.mapError .failed)
      (sink.writeAll bytes s).2 := by
  obtain ⟨written, rest, s₁, rfl, htakes, hends, htaken⟩ := hlawful.taken_writeAll bytes s
  refine ⟨⟨written, List.prefix_append _ _, htaken⟩, ?_, ?_, ?_⟩
  · rw [htaken, List.append_cancel_left_eq]
    generalize sink.writeAll (written ++ rest) s = result at hends
    cases hends with
    | done s => exact ⟨fun _ => (List.append_nil written).symm, fun _ => rfl⟩
    | failed hrest _ _ =>
        constructor
        · intro hok
          cases hok
        · intro hall
          exact absurd (List.append_right_eq_self.mp hall.symm) hrest
  · intro hfailed
    generalize sink.writeAll (written ++ rest) s = result at hends hfailed
    cases hends with
    | done s => exact absurd rfl hfailed
    | failed hrest hoffer hending =>
        exact ⟨written, rest, s₁, _, _, rfl, hrest, htakes, hoffer, hending, rfl⟩
  · intro room reason hbudget
    obtain ⟨htaken, hresult⟩ := hbudget.writeAll_eq hlawful (written ++ rest) s
    refine ⟨htaken, ?_⟩
    rw [hresult]
    split
    · rfl
    · rfl

theorem Datum.deliver_of_ok {options : Options σ} {d : Datum} {w : World σ} {text : String}
    (htext : (d.render options w).result = .ok text) (sink : Sink τ) (s : τ) :
    d.deliver options w sink s =
      ⟨(sink.writeAll text.toUTF8.toList s).1.mapError .failed, (d.render options w).world,
        (sink.writeAll text.toUTF8.toList s).2⟩ := by
  rw [Datum.deliver, htext]
  dsimp only
  rcases sink.writeAll text.toUTF8.toList s with ⟨_ | _, s'⟩
  · rfl
  · rfl

/-- Data that cannot be rendered is delivered to no sink: the failure is that of the rendering and
nothing is offered.  Otherwise a sink gets the text in UTF-8 from the front until it takes no
more, and the delivery succeeds exactly if the sink has the whole text. -/
theorem deliver_front (options : Options σ) (d : Datum) (w : World σ) {sink : Sink τ}
    (hlawful : sink.Lawful) (s : τ) :
    (∀ stop, (d.render options w).result = .error stop →
      d.deliver options w sink s = ⟨.error stop, (d.render options w).world, s⟩) ∧
    ∀ text, (d.render options w).result = .ok text →
      (d.deliver options w sink s).world = (d.render options w).world ∧
      sink.Delivered s text.toUTF8.toList (d.deliver options w sink s).result
        (d.deliver options w sink s).sink := by
  refine ⟨?_, ?_⟩
  · intro stop hstop
    rw [Datum.deliver, hstop]
  · intro text htext
    rw [Datum.deliver_of_ok htext]
    exact ⟨rfl, hlawful.delivered s text.toUTF8.toList⟩

namespace DeliveryWitness

/-- A sink that takes one byte at a time, and has room for two. -/
def sink : Sink Sink.Store :=
  .bounded (some 1) (some "no space left")

def world : World Unit :=
  ⟨⟨#[], #[], 0⟩, ()⟩

/-- The sink is full in the middle of a letter. -/
theorem deliver_front_letter :
    sink.Lawful ∧
      (Datum.deliver {} (.string "é") world sink (.ofBudget (some 2))).result =
        .error (.failed (.output "no space left")) ∧
      sink.taken (Datum.deliver {} (.string "é") world sink (.ofBudget (some 2))).sink =
        [0x27, 0xC3] := by
  have hlawful : sink.Lawful := Sink.lawful_bounded _ _
  have htext : (Datum.render {} (.string "é") world).result = .ok "'é'" :=
    Outcome.result_eq_ok (by decide +kernel)
  have hbytes : "'é'".toUTF8.toList = [0x27, 0xC3, 0xA9, 0x27] := by decide +kernel
  obtain ⟨-, hdelivered⟩ :=
    deliver_front {} (.string "é") world hlawful (.ofBudget (some 2))
  obtain ⟨htaken, hresult⟩ := (hdelivered _ htext).2.any_pieces _ _
    (Sink.budgeted_bounded (by decide) (some "no space left"))
  rw [hbytes] at htaken hresult
  exact ⟨hlawful, hresult, htaken⟩

end DeliveryWitness

end ObjectLiteral
