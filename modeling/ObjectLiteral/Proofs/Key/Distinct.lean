import ObjectLiteral.Proofs.Notation.Keys
import ObjectLiteral.Proofs.Rendering.Depth
import ObjectLiteral.Proofs.Text.Unbroken
/-!
Keys are told apart by what is shown of them, and only a well-known symbol is shown as one, whatever
the descriptions of other symbols look like.
-/

namespace ObjectLiteral

open Text (Quote quoted isIdentifier)

theorem Key.anonymous_cases (k : Key) :
    k.anonymous = k ∨ ∃ i d, k = .symbol (.unique i d) := by
  rcases k with s | ⟨i, d⟩ | key | w
  · exact .inl rfl
  · exact .inr ⟨i, d, rfl⟩
  · exact .inl rfl
  · exact .inl rfl

theorem Key.anonymous_eq_iff {a b : Key} :
    a.anonymous = b.anonymous ↔
      a = b ∨ ∃ i j d, a = .symbol (.unique i d) ∧ b = .symbol (.unique j d) := by
  constructor
  · intro hsame
    rcases a.anonymous_cases with ha | ⟨i, d, rfl⟩ <;>
      rcases b.anonymous_cases with hb | ⟨j, e, rfl⟩
    · exact .inl (ha.symm.trans (hsame.trans hb))
    · exact .inr ⟨0, j, e, ha.symm.trans hsame, rfl⟩
    · exact .inr ⟨i, 0, d, rfl, (hsame.trans hb).symm⟩
    · cases hsame
      exact .inr ⟨i, j, d, rfl, rfl⟩
  · rintro (rfl | ⟨i, j, d, rfl, rfl⟩)
    · rfl
    · rfl

namespace WellKnown

theorem ofDescription?_description (w : WellKnown) : ofDescription? w.description = some w := by
  have hname : "Symbol.".toList.isPrefixOf? w.description.toList = some w.name.toList :=
    List.isPrefixOf?_eq_some_iff_append_eq.mpr String.toList_append.symm
  rw [ofDescription?, hname, Option.bind_some, String.ofList_toList, ofName?_name]

end WellKnown

namespace Symbol

theorem length_le_length_escapeAll (q : Quote) (cs : List Char) :
    cs.length ≤ (Text.escapeAll q cs).length := by
  induction cs with
  | nil => exact Nat.le_refl 0
  | cons c cs ih =>
      have hcons : Text.escapeAll q (c :: cs) = Text.escape q c ++ Text.escapeAll q cs := rfl
      have hescape : 1 ≤ (Text.escape q c).length := by
        rcases Text.escape_cases q c with ⟨e, -, hescape⟩ | ⟨-, hescape⟩ <;> simp [hescape]
      rw [hcons, List.length_append, List.length_cons]
      omega

theorem isWellKnown_iff {s : Symbol} : s.isWellKnown = true ↔ ∃ w, s = .wellKnown w := by
  constructor
  · intro hs
    rw [isWellKnown] at hs
    split at hs
    · rename_i w hw
      cases s with
      | unique serial d => cases hs
      | registered key => cases hs
      | wellKnown w => exact ⟨w, rfl⟩
    · cases hs
  · rintro ⟨w, rfl⟩
    rw [isWellKnown, description?, Option.bind_some, WellKnown.ofDescription?_description]
    exact beq_self_eq_true (some w)

/-- The literal of a symbol as its description, its being well-known and its registry key decide
it, in this order. -/
theorem literal_eq (q : Quote) (s : Symbol) :
    s.literal q =
      match s.description? with
      | none => "Symbol()"
      | some d =>
          if s.isWellKnown then d
          else if s.registryKey?.isSome then "Symbol.for(" ++ quoted q d ++ ")"
          else "Symbol(" ++ quoted q d ++ ")" := by
  have hother : (∀ w, s ≠ .wellKnown w) → ¬ s.isWellKnown = true := by
    intro hs hwell
    obtain ⟨w, hw⟩ := isWellKnown_iff.mp hwell
    exact hs w hw
  rcases s with ⟨serial, _ | d⟩ | key | w
  · rfl
  · exact (if_neg (hother (by simp))).symm
  · exact (if_neg (hother (by simp))).symm
  · exact (if_pos (isWellKnown_iff.mpr ⟨w, rfl⟩)).symm

/-- Behind the name of the namespace a bare word stands only for the well-known symbol of that
name. -/
theorem literal_eq_bare_iff (q : Quote) (s : Symbol) {x : String}
    (hx : isIdentifier x.toList = true) :
    s.literal q = "Symbol." ++ x ↔ ∃ w, w.name = x ∧ s = .wellKnown w := by
  constructor
  · intro hbare
    have htext := congrArg String.toList hbare
    rcases s with ⟨serial, _ | d⟩ | key | w
    · simp [literal] at htext
    · simp [literal] at htext
    · have hword := Notation.all_isWordChar_of_isIdentifier hx
      have hparen : '(' ∈ x.toList := by
        simp [literal] at htext
        simp [← htext]
      cases hword '(' hparen
    · rw [literal, WellKnown.description, String.toList_append, String.toList_append] at htext
      exact ⟨w, String.toList_injective (List.append_cancel_left htext), rfl⟩
  · rintro ⟨w, rfl, rfl⟩
    rfl

/-- A text in quotes is longer than the text. -/
theorem applied_ne (opening : String) (q : Quote) (d : String) :
    opening ++ quoted q d ++ ")" ≠ d := by
  intro hsame
  have hlength := congrArg (fun s => s.toList.length) hsame
  have hescape := length_le_length_escapeAll q d.toList
  simp only [String.toList_append, Text.toList_quoted, List.length_append, List.length_cons]
    at hlength
  omega

/-- Only a well-known symbol is written as its description stands. -/
theorem literal_eq_description_iff (q : Quote) {s : Symbol} {d : String}
    (hd : s.description? = some d) : s.literal q = d ↔ ∃ w, s = .wellKnown w := by
  rw [← isWellKnown_iff, literal_eq, hd]
  by_cases hwell : s.isWellKnown = true
  · exact iff_of_true (if_pos hwell) hwell
  · refine iff_of_false ?_ hwell
    simp only [if_neg hwell]
    split
    · exact applied_ne _ q d
    · exact applied_ne _ q d

theorem literal_anonymous (q : Quote) (s : Symbol) : s.anonymous.literal q = s.literal q := by
  rcases s with ⟨serial, _ | d⟩ | key | w <;> rfl

end Symbol

namespace Key

theorem literal_anonymous (q : Quote) (k : Key) : k.anonymous.literal q = k.literal q := by
  cases k with
  | name s => rfl
  | symbol s => rw [anonymous, literal, literal, s.literal_anonymous]

/-- Two keys are shown alike exactly if they are one key or unique symbols with one description. -/
theorem literal_eq_iff (q : Quote) (a b : Key) :
    a.literal q = b.literal q ↔
      a = b ∨ ∃ i j d, a = .symbol (.unique i d) ∧ b = .symbol (.unique j d) := by
  rw [← anonymous_eq_iff]
  constructor
  · intro hsame
    have hread := Notation.anyKey_reads q a []
    rw [hsame, Notation.anyKey_reads q b []] at hread
    exact (congrArg Prod.fst (Option.some.inj hread)).symm
  · intro hsame
    rw [← a.literal_anonymous, hsame, b.literal_anonymous]

end Key

/-- What is shown of two keys is the same exactly if they are one key or unique symbols with one
description.  A symbol is written as a bare property of `Symbol` only if it is the well-known symbol
of that name, and as its own description only if it is well-known, whatever the description looks
like.  What is shown of a key stays on its line. -/
theorem Key.literal_distinct {σ : Type} (options : Options σ) :
    (∀ a b : Key, a.literal options.style.quote = b.literal options.style.quote ↔
        a = b ∨ ∃ i j d, a = .symbol (.unique i d) ∧ b = .symbol (.unique j d)) ∧
      (∀ pad s w x, isIdentifier x.toList = true →
        ((render options pad (.atom (.symbol s)) w).result = .ok ("Symbol." ++ x) ↔
          ∃ k : WellKnown, k.name = x ∧ s = .wellKnown k)) ∧
      (∀ pad s w d, s.description? = some d →
        ((render options pad (.atom (.symbol s)) w).result = .ok d ↔
          ∃ k : WellKnown, s = .wellKnown k)) ∧
      ∀ k : Key, Text.Unbroken (k.literal options.style.quote) := by
  have hresult : ∀ pad s w text, (render options pad (.atom (.symbol s)) w).result = .ok text ↔
      s.literal options.style.quote = text := by
    intro pad s w text
    rw [render_atom, Except.ok.injEq]
    rfl
  refine ⟨Key.literal_eq_iff _, ?_, ?_, fun k => k.unbroken_literal _⟩
  · intro pad s w x hx
    rw [hresult]
    exact s.literal_eq_bare_iff _ hx
  · intro pad s w d hd
    rw [hresult]
    exact Symbol.literal_eq_description_iff _ hd

/-- Three symbols described alike, and a name that spells the literal of one of them. -/
example :
    ([.symbol (.unique 0 (some "Symbol.iterator")), .symbol (.registered "Symbol.iterator"),
        .symbol (.wellKnown .iterator), .name "[Symbol.iterator]"].map (Key.literal .single)) =
      ["[Symbol('Symbol.iterator')]", "[Symbol.for('Symbol.iterator')]", "[Symbol.iterator]",
        "'[Symbol.iterator]'"] := by
  decide

end ObjectLiteral
