import ObjectLiteral.Literal
/-!
Texts without line breaks.  Every literal that is no callable and no regular expression is such a
text, whatever the strings that it holds.
-/

namespace ObjectLiteral

open Text (Quote quoted)

namespace Text

/-- The line breaks that a quoted string escapes. -/
def IsBreak (c : Char) : Prop := c = '\n' ∨ c = '\r'

instance (c : Char) : Decidable (IsBreak c) :=
  inferInstanceAs (Decidable (_ ∨ _))

def Unbroken (s : String) : Prop := ∀ c ∈ s.toList, ¬ IsBreak c

instance (s : String) : Decidable (Unbroken s) :=
  List.decidableBAll (fun c => ¬ IsBreak c) s.toList

theorem Unbroken.append {s t : String} (hs : Unbroken s) (ht : Unbroken t) :
    Unbroken (s ++ t) := by
  intro c hc
  rw [String.toList_append, List.mem_append] at hc
  rcases hc with hc | hc
  · exact hs c hc
  · exact ht c hc

theorem unbroken_ofList {cs : List Char} (hcs : ∀ c ∈ cs, ¬ IsBreak c) :
    Unbroken (String.ofList cs) := by
  intro c hc
  rw [String.toList_ofList] at hc
  exact hcs c hc

theorem not_isBreak_of_isDigit {c : Char} (hc : c.isDigit = true) : ¬ IsBreak c := by
  rintro (rfl | rfl) <;> contradiction

theorem not_isBreak_of_isWordChar {c : Char} (hc : isWordChar c = true) : ¬ IsBreak c := by
  rintro (rfl | rfl) <;> contradiction

theorem not_isBreak_mark (q : Quote) : ¬ IsBreak q.mark := by
  cases q <;> decide

theorem not_isBreak_of_mem_escape (q : Quote) (c : Char) : ∀ d ∈ escape q c, ¬ IsBreak d := by
  rcases escape_cases q c with ⟨e, he, hescape⟩ | ⟨⟨-, hfeed, hreturn, -⟩, hescape⟩
  · have hall : ∀ p ∈ escapes q, ¬ IsBreak p.1 := by
      cases q <;> decide
    rw [hescape, List.forall_mem_cons, List.forall_mem_singleton]
    exact ⟨by decide, hall (e, c) he⟩
  · rw [hescape, List.forall_mem_singleton]
    exact not_or.mpr ⟨hfeed, hreturn⟩

/-- Between its quotes and at them a quoted string stays on its line. -/
theorem unbroken_quoted (q : Quote) (s : String) : Unbroken (quoted q s) := by
  intro c hc
  rw [toList_quoted, List.mem_append, List.mem_cons, List.mem_singleton] at hc
  rcases hc with (rfl | hc) | rfl
  · exact not_isBreak_mark q
  · obtain ⟨d, -, hd⟩ := List.mem_flatMap.mp hc
    exact not_isBreak_of_mem_escape q d c hd
  · exact not_isBreak_mark q

end Text

open Text

namespace Numeral

theorem not_isBreak_of_mem_digits {n : Nat} {c : Char} (hc : c ∈ digits n) : ¬ IsBreak c :=
  not_isBreak_of_isDigit (Nat.isDigit_of_mem_toDigits (by decide) (by decide) hc)

theorem unbroken_ofNat (n : Nat) : Unbroken (ofNat n) :=
  unbroken_ofList fun _ => not_isBreak_of_mem_digits

theorem unbroken_ofInt (z : Int) : Unbroken (ofInt z) := by
  unfold ofInt
  split
  · exact Unbroken.append (by decide) (unbroken_ofNat _)
  · exact unbroken_ofNat _

theorem unbroken_padded (width n : Nat) : Unbroken (padded width n) := by
  apply unbroken_ofList
  intro c hc
  rcases List.mem_append.mp hc with hc | hc
  · rw [List.eq_of_mem_replicate hc]
    decide
  · exact not_isBreak_of_mem_digits hc

end Numeral

theorem Decimal.unbroken_text (d : Decimal) : Unbroken d.text := by
  have hdigits : ∀ c ∈ Numeral.digits d.coefficient, ¬ IsBreak c :=
    fun _ => Numeral.not_isBreak_of_mem_digits
  have htake : ∀ n, ∀ c ∈ (Numeral.digits d.coefficient).take n, ¬ IsBreak c :=
    fun n c hc => hdigits c (List.mem_of_mem_take hc)
  have hpoint : ∀ n, ∀ c ∈ '.' :: (Numeral.digits d.coefficient).drop n, ¬ IsBreak c :=
    fun n => List.forall_mem_cons.mpr
      ⟨by decide, fun c hc => hdigits c (List.mem_of_mem_drop hc)⟩
  have hzeros : ∀ n, ∀ c ∈ List.replicate n '0', ¬ IsBreak c := by
    intro n c hc
    rw [List.eq_of_mem_replicate hc]
    decide
  have hmark : ∀ e, ∀ c ∈ exponentMark e, ¬ IsBreak c := by
    intro e
    rw [exponentMark, List.forall_mem_cons, List.forall_mem_cons]
    refine ⟨by decide, ?_, fun _ => Numeral.not_isBreak_of_mem_digits⟩
    split <;> decide
  apply unbroken_ofList
  split
  · exact List.forall_mem_append.mpr ⟨hdigits, hzeros _⟩
  split
  · exact List.forall_mem_append.mpr ⟨htake _, hpoint _⟩
  split
  · rw [List.cons_append, List.cons_append, List.forall_mem_cons, List.forall_mem_cons]
    exact ⟨by decide, by decide, List.forall_mem_append.mpr ⟨hzeros _, hdigits⟩⟩
  · refine List.forall_mem_append.mpr ⟨List.forall_mem_append.mpr ⟨htake 1, ?_⟩, hmark _⟩
    split
    · exact List.forall_mem_nil _
    · exact hpoint 1

theorem Number.unbroken_text (n : Number) : Unbroken n.text := by
  cases n with
  | integer i => exact Numeral.unbroken_ofInt _
  | float x =>
      rw [Number.text, Binary64.text]
      split
      · decide
      split
      · split <;> decide
      split
      · decide
      · refine Unbroken.append ?_ (Decimal.unbroken_text _)
        split <;> decide
  | infinity => decide
  | negativeInfinity => decide
  | nan => decide

theorem Instant.unbroken_text (t : Instant) : Unbroken t.text := by
  have hyear : Unbroken (CivilDate.yearText t.date.year) := by
    unfold CivilDate.yearText
    split
    · exact Numeral.unbroken_padded _ _
    · refine Unbroken.append ?_ (Numeral.unbroken_padded _ _)
      split <;> decide
  have hdate : Unbroken t.date.text :=
    (((hyear.append (by decide)).append (Numeral.unbroken_padded _ _)).append
      (by decide)).append (Numeral.unbroken_padded _ _)
  have hminute : Unbroken (t.date.text ++ "T" ++ Numeral.padded 2 (t.secondOfDay / 3600) ++ ":"
      ++ Numeral.padded 2 (t.secondOfDay / 60 % 60)) :=
    (((hdate.append (by decide)).append (Numeral.unbroken_padded _ _)).append
      (by decide)).append (Numeral.unbroken_padded _ _)
  exact ((((hminute.append (by decide)).append (Numeral.unbroken_padded _ _)).append
    (by decide)).append (Numeral.unbroken_padded _ _)).append (by decide)

theorem WellKnown.unbroken_description (w : WellKnown) : Unbroken w.description := by
  cases w <;> decide

theorem Symbol.unbroken_literal (q : Quote) (s : Symbol) : Unbroken (s.literal q) := by
  cases s with
  | unique serial description =>
      cases description with
      | none => exact (by decide : Unbroken "Symbol()")
      | some d => exact (Unbroken.append (by decide) (unbroken_quoted q d)).append (by decide)
  | registered key => exact (Unbroken.append (by decide) (unbroken_quoted q key)).append (by decide)
  | wellKnown w => exact WellKnown.unbroken_description w

/-- A key never breaks its line. -/
theorem Key.unbroken_literal (q : Quote) (k : Key) : Unbroken (k.literal q) := by
  cases k with
  | name s =>
      rw [Key.literal]
      split
      · rename_i hidentifier
        intro c hc
        cases hs : s.toList with
        | nil => simp [hs] at hc
        | cons d ds =>
            rw [hs, isIdentifier, Bool.and_eq_true, Bool.and_eq_true] at hidentifier
            rw [hs, List.mem_cons] at hc
            apply not_isBreak_of_isWordChar
            rcases hc with rfl | hc
            · exact hidentifier.1.1
            · exact List.all_eq_true.mp hidentifier.2 c hc
      · exact unbroken_quoted q s
  | symbol s =>
      exact (Unbroken.append (by decide) (s.unbroken_literal q)).append (by decide)

namespace Atom

/-- The atoms whose text is taken from their source: callables and regular expressions. -/
def isSourced : Atom → Bool
  | callable _ => true
  | regExp _ => true
  | _ => false

/-- Only an atom with a source may have a literal of several lines. -/
theorem unbroken_literal {a : Atom} (ha : a.isSourced = false) (style : Style) :
    Unbroken (a.literal style) := by
  cases a with
  | undefined => exact (by decide : Unbroken "undefined")
  | null => exact (by decide : Unbroken "null")
  | bool b =>
      cases b with
      | true => exact (by decide : Unbroken "true")
      | false => exact (by decide : Unbroken "false")
  | number n => exact n.unbroken_text
  | bigInt z => exact (Numeral.unbroken_ofInt z).append (by decide)
  | string s => exact unbroken_quoted style.quote s
  | regExp r => contradiction
  | callable c => contradiction
  | symbol s => exact s.unbroken_literal style.quote
  | date t => exact (Unbroken.append (by decide) t.unbroken_text).append (by decide)

end Atom

end ObjectLiteral
