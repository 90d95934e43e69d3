import ObjectLiteral.Sink
/-!
Writing into a sink.  A sink may take any part of what it is offered, and be interrupted in between,
so what is known of a writing is what was offered last: it ends with all bytes taken, or with an
offer of which none was.
-/

namespace ObjectLiteral

namespace Sink

variable {τ : Type} {sink : Sink τ} {bytes written rest : List UInt8} {s s' : τ}

/-- Why writing ends at a reply; it does not if a byte was taken, or at an interruption. -/
def Reply.ending? : Reply → Option String
  | .took 0 => some stalled
  | .took (_ + 1) | .interrupted => none
  | .refused reason => some reason

/-- A sink that takes what it says, from the front of what it is offered, and nothing else. -/
structure Lawful (sink : Sink τ) : Prop where
  le_length : ∀ bytes s n s', sink.offer bytes s = (.took n, s') → n ≤ bytes.length
  taken_took : ∀ bytes s n s', sink.offer bytes s = (.took n, s') →
    sink.taken s' = sink.taken s ++ bytes.take n
  taken_interrupted : ∀ bytes s s', sink.offer bytes s = (.interrupted, s') →
    sink.taken s' = sink.taken s
  taken_refused : ∀ bytes s reason s', sink.offer bytes s = (.refused reason, s') →
    sink.taken s' = sink.taken s

/-- `sink.Takes written rest s s'`: of `written ++ rest` the sink is offered what is left, again and
again, and takes a piece from the front each time, unless it is interrupted, which leads from `s` to
`s'` and leaves `rest`. -/
inductive Takes (sink : Sink τ) : List UInt8 → List UInt8 → τ → τ → Prop
  | none (rest : List UInt8) (s : τ) : Takes sink [] rest s s
  | piece {piece written rest : List UInt8} {s s₁ s' : τ} (hpiece : piece ≠ [])
      (hoffer : sink.offer (piece ++ (written ++ rest)) s = (.took piece.length, s₁))
      (hrest : Takes sink written rest s₁ s') : Takes sink (piece ++ written) rest s s'
  | again {written rest : List UInt8} {s s₁ s' : τ} (hleft : written ++ rest ≠ [])
      (hoffer : sink.offer (written ++ rest) s = (.interrupted, s₁))
      (hrest : Takes sink written rest s₁ s') : Takes sink written rest s s'

/-- How writing ends in front of a rest: nothing is left, or the sink takes nothing of it. -/
inductive Ends (sink : Sink τ) : List UInt8 → τ → Except Failure Unit × τ → Prop
  | done (s : τ) : Ends sink [] s (.ok (), s)
  | failed {rest : List UInt8} {s s' : τ} {reply : Reply} {reason : String} (hrest : rest ≠ [])
      (hoffer : sink.offer rest s = (reply, s')) (hending : reply.ending? = some reason) :
      Ends sink rest s (.error (.output reason), s')

/-- Writing is a series of offers with a piece taken of each, and then the end. -/
theorem Lawful.exists_ends_writeAll (hlawful : sink.Lawful) (bytes : List UInt8) (s : τ) :
    ∃ written rest s', bytes = written ++ rest ∧ sink.Takes written rest s s' ∧
      sink.Ends rest s' (sink.writeAll bytes s) := by
  fun_induction writeAll sink bytes s with
  | case1 s => exact ⟨[], [], s, rfl, .none _ _, .done s⟩
  | case2 s b bs s' hoffer =>
      exact ⟨[], b :: bs, s, rfl, .none _ _, .failed (List.cons_ne_nil b bs) hoffer rfl⟩
  | case3 s b bs n s₁ hoffer ih =>
      obtain ⟨written, rest, s', hbytes, htakes, hends⟩ := ih
      have hall : b :: bs = (b :: bs.take n) ++ (written ++ rest) := by
        rw [← hbytes, List.cons_append, List.take_append_drop]
      have hlength : (b :: bs.take n).length = n.succ := by
        have hle := hlawful.le_length _ _ _ _ hoffer
        rw [List.length_cons] at hle
        rw [List.length_cons, List.length_take, Nat.min_eq_left (Nat.le_of_succ_le_succ hle)]
      rw [hall, ← hlength] at hoffer
      refine ⟨(b :: bs.take n) ++ written, rest, s', ?_, ?_, hends⟩
      · rw [hall, List.append_assoc]
      · exact .piece (List.cons_ne_nil _ _) hoffer htakes
  | case4 s b bs s₁ hoffer ih =>
      obtain ⟨written, rest, s', hbytes, htakes, hends⟩ := ih
      have hleft : written ++ rest ≠ [] := hbytes ▸ List.cons_ne_nil b bs
      exact ⟨written, rest, s', hbytes, .again hleft (hbytes ▸ hoffer) htakes, hends⟩
  | case5 s b bs reason s' hoffer =>
      exact ⟨[], b :: bs, s, rfl, .none _ _, .failed (List.cons_ne_nil b bs) hoffer rfl⟩

/-- All pieces are taken, one behind the other. -/
theorem Lawful.taken_of_takes (hlawful : sink.Lawful) (htakes : sink.Takes written rest s s') :
    sink.taken s' = sink.taken s ++ written := by
  induction htakes with
  | none rest s => exact (List.append_nil _).symm
  | piece hpiece hoffer hrest ih =>
      rw [ih, hlawful.taken_took _ _ _ _ hoffer, List.take_left, List.append_assoc]
  | again hleft hoffer hrest ih => rw [ih, hlawful.taken_interrupted _ _ _ hoffer]

/-- An offer that ends a writing takes nothing. -/
theorem Lawful.taken_of_ending (hlawful : sink.Lawful) {reply : Reply} {reason : String}
    (hoffer : sink.offer bytes s = (reply, s')) (hending : reply.ending? = some reason) :
    sink.taken s' = sink.taken s := by
  match reply with
  | .took 0 => rw [hlawful.taken_took _ _ _ _ hoffer, List.take_zero, List.append_nil]
  | .took (_ + 1) => cases hending
  | .interrupted => cases hending
  | .refused _ => exact hlawful.taken_refused _ _ _ _ hoffer

/-- Of a whole writing the sink has a part from the front. -/
theorem Lawful.taken_writeAll (hlawful : sink.Lawful) (bytes : List UInt8) (s : τ) :
    ∃ written rest s', bytes = written ++ rest ∧ sink.Takes written rest s s' ∧
      sink.Ends rest s' (sink.writeAll bytes s) ∧
      sink.taken (sink.writeAll bytes s).2 = sink.taken s ++ written := by
  obtain ⟨written, rest, s', hbytes, htakes, hends⟩ := hlawful.exists_ends_writeAll bytes s
  refine ⟨written, rest, s', hbytes, htakes, hends, ?_⟩
  rw [← hlawful.taken_of_takes htakes]
  generalize sink.writeAll bytes s = result at hends
  cases hends with
  | done s => rfl
  | failed _ hoffer hending => exact hlawful.taken_of_ending hoffer hending

/-- A sink with room for so many bytes, or for any number, that takes no more than it has room for
and ends a writing only when the room is spent, with `reason`.  How many bytes it takes at once, and
how often it is interrupted, is its own affair. -/
structure Budgeted (sink : Sink τ) (room : τ → Option Nat) (reason : String) : Prop where
  took : ∀ bytes s n s', bytes ≠ [] → sink.offer bytes s = (.took n, s') → 0 < n →
    (∀ r, room s = some r → n ≤ r) ∧ room s' = (room s).map (· - n)
  interrupted : ∀ bytes s s', bytes ≠ [] → sink.offer bytes s = (.interrupted, s') →
    room s' = room s
  ending : ∀ bytes s reply s' reason', bytes ≠ [] → sink.offer bytes s = (reply, s') →
    reply.ending? = some reason' → room s = some 0 ∧ reason' = reason

variable {room : τ → Option Nat} {reason : String}

/-- Room is used up byte by byte. -/
theorem Budgeted.room_of_takes (hbudget : sink.Budgeted room reason)
    (htakes : sink.Takes written rest s s') :
    (∀ r, room s = some r → written.length ≤ r) ∧
      room s' = (room s).map (· - written.length) := by
  induction htakes with
  | none rest s => exact ⟨fun _ _ => Nat.zero_le _, by cases room s <;> rfl⟩
  | @piece piece written rest s s₁ s' hpiece hoffer hrest ih =>
      obtain ⟨hfits, hleft⟩ := ih
      obtain ⟨hfits₁, hleft₁⟩ := hbudget.took _ _ _ _
        (List.append_ne_nil_of_left_ne_nil hpiece _) hoffer (List.length_pos_iff.mpr hpiece)
      constructor
      · intro r hr
        rw [hr, Option.map_some] at hleft₁
        have hn := hfits₁ r hr
        have hwritten := hfits (r - piece.length) hleft₁
        rw [List.length_append]
        omega
      · rw [hleft, hleft₁, Option.map_map]
        congr 1
        funext r
        rw [List.length_append]
        exact Nat.sub_sub r piece.length written.length
  | again hleft hoffer hrest ih =>
      rw [hbudget.interrupted _ _ _ hleft hoffer] at ih
      exact ih

/-- What a sink has of a writing depends on its room alone, and so does the result. -/
theorem Budgeted.writeAll_eq (hlawful : sink.Lawful) (hbudget : sink.Budgeted room reason)
    (bytes : List UInt8) (s : τ) :
    sink.taken (sink.writeAll bytes s).2 = sink.taken s ++ upTo (room s) bytes ∧
      (sink.writeAll bytes s).1 =
        if upTo (room s) bytes = bytes then .ok () else .error (.output reason) := by
  obtain ⟨written, rest, s', rfl, htakes, hends, htaken⟩ := hlawful.taken_writeAll bytes s
  obtain ⟨hfits, hleft⟩ := hbudget.room_of_takes htakes
  rw [htaken]
  generalize sink.writeAll (written ++ rest) s = result at hends
  cases hends with
  | done s' =>
      have hupTo : upTo (room s) (written ++ []) = written ++ [] := by
        cases hroom : room s with
        | none => rfl
        | some r => exact List.take_of_length_le (by simpa using hfits r hroom)
      rw [hupTo, if_pos rfl, List.append_nil]
      exact ⟨rfl, rfl⟩
  | failed hrest hoffer hending =>
      obtain ⟨hfull, rfl⟩ := hbudget.ending _ _ _ _ _ hrest hoffer hending
      have hroom : room s = some written.length := by
        cases hroom : room s with
        | none =>
            rw [hroom, hfull] at hleft
            cases hleft
        | some r =>
            rw [hroom, hfull, Option.map_some, Option.some.injEq] at hleft
            have hle := hfits r hroom
            exact congrArg some (by omega)
      have hupTo : upTo (room s) (written ++ rest) = written := by
        rw [hroom]
        exact List.take_left
      rw [hupTo, if_neg fun heq => hrest (List.append_right_eq_self.mp heq.symm)]
      exact ⟨rfl, rfl⟩

theorem upTo_front (bound : Option Nat) (bytes : List UInt8) : upTo bound bytes <+: bytes := by
  cases bound with
  | none => exact List.prefix_rfl
  | some n => exact List.take_prefix n bytes

theorem upTo_ne_nil {bound : Option Nat} (hbound : bound ≠ some 0) (hbytes : bytes ≠ []) :
    upTo bound bytes ≠ [] := by
  cases bound with
  | none => exact hbytes
  | some n =>
      intro hnil
      rcases List.take_eq_nil_iff.mp hnil with rfl | hnil
      · exact hbound rfl
      · exact hbytes hnil

/-- What a bounded sink takes stands at the front of the offer, and is the last of its pieces. -/
theorem bounded_took {chunk : Option Nat} {reason : Option String} {n : Nat} {s s' : Store}
    (hoffer : (bounded chunk reason).offer bytes s = (.took n, s')) :
    ∃ piece, piece <+: bytes ∧ piece.length = n ∧
      s'.pieces.reverse.flatten = s.pieces.reverse.flatten ++ piece := by
  have hprefix : upTo s.budget (upTo chunk bytes) <+: bytes :=
    (upTo_front s.budget _).trans (upTo_front chunk bytes)
  simp only [bounded] at hoffer
  split at hoffer
  · cases hoffer
  · cases hoffer
    exact ⟨[], List.nil_prefix, rfl, (List.append_nil _).symm⟩
  · rename_i b bs hpiece
    cases hoffer
    exact ⟨b :: bs, hpiece ▸ hprefix, rfl, by simp⟩

theorem lawful_bounded (chunk : Option Nat) (reason : Option String) :
    (bounded chunk reason).Lawful where
  le_length bytes s n s' hoffer := by
    obtain ⟨piece, hprefix, rfl, -⟩ := bounded_took hoffer
    exact hprefix.length_le
  taken_took bytes s n s' hoffer := by
    obtain ⟨piece, hprefix, rfl, htaken⟩ := bounded_took hoffer
    rw [← List.prefix_iff_eq_take.mp hprefix]
    exact htaken
  taken_interrupted bytes s s' hoffer := by
    cases Nat.not_lt_zero _ ((bounded chunk reason).patience_lt _ _ _ hoffer)
  taken_refused bytes s reason s' hoffer := by
    simp only [bounded] at hoffer
    split at hoffer
    · cases hoffer
      rfl
    · cases hoffer
    · cases hoffer

/-- A bounded sink has its budget as room, whatever the size of the pieces. -/
theorem budgeted_bounded {chunk : Option Nat} (hchunk : chunk ≠ some 0) (reason : Option String) :
    (bounded chunk reason).Budgeted Store.budget (reason.getD stalled) where
  took bytes s n s' hbytes hoffer hpos := by
    have hfits : ∀ r, s.budget = some r → (upTo s.budget (upTo chunk bytes)).length ≤ r := by
      intro r hr
      rw [hr]
      exact List.length_take_le r _
    simp only [bounded] at hoffer
    split at hoffer
    · cases hoffer
    · cases hoffer
      cases Nat.not_lt_zero _ hpos
    · rename_i b bs hpiece
      cases hoffer
      rw [hpiece] at hfits
      exact ⟨hfits, rfl⟩
  interrupted bytes s s' _ hoffer := by
    cases Nat.not_lt_zero _ ((bounded chunk reason).patience_lt _ _ _ hoffer)
  ending bytes s reply s' reason' hbytes hoffer hending := by
    have hspent : upTo s.budget (upTo chunk bytes) = [] → s.budget = some 0 := fun hnil =>
      Decidable.not_not.mp fun hroom =>
        upTo_ne_nil hroom (upTo_ne_nil hchunk hbytes) hnil
    simp only [bounded] at hoffer
    split at hoffer
    · rename_i r hnil
      cases hoffer
      exact ⟨hspent hnil, (Option.some.inj hending).symm⟩
    · rename_i hnil
      cases hoffer
      exact ⟨hspent hnil, (Option.some.inj hending).symm⟩
    · cases hoffer
      cases hending

end Sink

end ObjectLiteral
