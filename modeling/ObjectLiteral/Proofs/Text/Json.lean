import ObjectLiteral.Text.Quoted
/-!
Strings of JSON.  Their grammar knows escapes that a quoted string never uses, and it lets no
control character stand between the quotes.  So the JSON strings among the texts in double quotes
are those of a text whose only control characters are line feeds and carriage returns, and such a
literal denotes that text and no other.
-/

namespace ObjectLiteral.Text

namespace Json

/-- The characters that stand for themselves in a JSON string. -/
def isPlain (c : Char) : Bool :=
  0x20 ≤ c.toNat && c != '"' && c != '\\'

/-- The characters behind a backslash, with what the two stand for. -/
def shortEscapes : List (Char × Char) :=
  [('"', '"'), ('\\', '\\'), ('/', '/'), ('b', '\x08'), ('f', '\x0c'), ('n', '\n'), ('r', '\r'),
    ('t', '\t')]

def hexDigit? (c : Char) : Option Nat :=
  if c.isDigit then some (c.toNat - '0'.toNat)
  else if 'a' ≤ c ∧ c ≤ 'f' then some (c.toNat - 'a'.toNat + 10)
  else if 'A' ≤ c ∧ c ≤ 'F' then some (c.toNat - 'A'.toNat + 10)
  else none

def hex4? (a b c d : Char) : Option Nat := do
  let a ← hexDigit? a
  let b ← hexDigit? b
  let c ← hexDigit? c
  let d ← hexDigit? d
  some (((a * 16 + b) * 16 + c) * 16 + d)

/-- A character is spelled at the front of a text, and this is what follows it.  A character above
U+FFFF may be spelled as the two surrogates that encode it in UTF-16. -/
inductive Spells : List Char → Char → List Char → Prop
  | plain {ch : Char} {rest : List Char} (hplain : isPlain ch = true) : Spells (ch :: rest) ch rest
  | short {e ch : Char} {rest : List Char} (hescape : shortEscapes.lookup e = some ch) :
      Spells ('\\' :: e :: rest) ch rest
  | unit {a b c d ch : Char} {rest : List Char} (hunit : hex4? a b c d = some ch.toNat) :
      Spells ('\\' :: 'u' :: a :: b :: c :: d :: rest) ch rest
  | pair {a b c d a' b' c' d' ch : Char} {h l : Nat} {rest : List Char}
      (hhigh : hex4? a b c d = some (0xD800 + h)) (hlow : hex4? a' b' c' d' = some (0xDC00 + l))
      (hhigh_lt : h < 0x400) (hlow_lt : l < 0x400) (hch : ch.toNat = 0x10000 + h * 0x400 + l) :
      Spells ('\\' :: 'u' :: a :: b :: c :: d :: '\\' :: 'u' :: a' :: b' :: c' :: d' :: rest) ch rest

/-- Characters are spelled one after the other, up to a closing quote at the end of the text. -/
inductive Inside : List Char → List Char → Prop
  | close : Inside ['"'] []
  | cons {cs rest s : List Char} {c : Char} (hfirst : Spells cs c rest) (hrest : Inside rest s) :
      Inside cs (c :: s)

/-- The text is a JSON string that denotes `s`. -/
def Denotes (literal s : String) : Prop :=
  ∃ inside, literal.toList = '"' :: inside ∧ Inside inside s.toList

end Json

/-- No control character but those that a quoted string escapes. -/
def OnlyBreaks (cs : List Char) : Prop :=
  ∀ c ∈ cs, c.toNat < 0x20 → c = '\n' ∨ c = '\r'

namespace Json

variable {c d : Char} {rest rest' : List Char}

theorem not_spells_quote : ¬ Spells ('"' :: rest) d rest' := by
  intro hspells
  cases hspells with
  | plain hplain => contradiction

/-- Behind a backslash a character that starts no number is one of the short escapes. -/
theorem spells_backslash_iff (hc : c ≠ 'u') :
    Spells ('\\' :: c :: rest) d rest' ↔ shortEscapes.lookup c = some d ∧ rest' = rest := by
  constructor
  · intro hspells
    cases hspells with
    | plain hplain => contradiction
    | short hescape => exact ⟨hescape, rfl⟩
    | unit => contradiction
    | pair => contradiction
  · rintro ⟨hescape, rfl⟩
    exact .short hescape

theorem spells_unescaped_iff (hquote : c ≠ '"') (hbackslash : c ≠ '\\') :
    Spells (c :: rest) d rest' ↔ 0x20 ≤ c.toNat ∧ d = c ∧ rest' = rest := by
  constructor
  · intro hspells
    cases hspells with
    | plain hplain =>
        rw [isPlain, Bool.and_eq_true, Bool.and_eq_true, decide_eq_true_eq] at hplain
        exact ⟨hplain.1.1, rfl, rfl⟩
    | short => contradiction
    | unit => contradiction
    | pair => contradiction
  · rintro ⟨hcontrol, rfl, rfl⟩
    apply Spells.plain
    simp [isPlain, hcontrol, hquote, hbackslash]

theorem spells_of_mem_escapes {e : Char} (he : (e, c) ∈ escapes .double) :
    Spells ('\\' :: e :: rest) d rest' ↔ d = c ∧ rest' = rest := by
  have hall : ∀ p ∈ escapes .double, p.1 ≠ 'u' ∧ shortEscapes.lookup p.1 = some p.2 := by
    decide
  obtain ⟨hu, hescape⟩ := hall (e, c) he
  rw [spells_backslash_iff hu, hescape, Option.some.injEq, eq_comm]

/-- What stands for a character spells that character, unless it is a control character that is
not escaped. -/
theorem spells_escape_iff :
    Spells (escape .double c ++ rest) d rest' ↔
      (c.toNat < 0x20 → c = '\n' ∨ c = '\r') ∧ d = c ∧ rest' = rest := by
  rcases escape_cases .double c with ⟨e, he, hescape⟩ | ⟨⟨hbackslash, hfeed, hreturn, hmark⟩, hescape⟩
  · have hall : ∀ p ∈ escapes .double, p.2.toNat < 0x20 → p.2 = '\n' ∨ p.2 = '\r' := by
      decide
    rw [hescape, and_iff_right (hall (e, c) he)]
    exact spells_of_mem_escapes he
  · have hcontrol : 0x20 ≤ c.toNat ↔ (c.toNat < 0x20 → c = '\n' ∨ c = '\r') := by
      simp [hfeed, hreturn]
    rw [hescape, ← hcontrol]
    exact spells_unescaped_iff hmark hbackslash

theorem escape_append_ne_quote (c : Char) (rest : List Char) :
    escape .double c ++ rest ≠ ['"'] := by
  rcases escape_cases .double c with ⟨e, he, hescape⟩ | ⟨⟨-, -, -, hmark⟩, hescape⟩
  · simp [hescape]
  · intro heq
    rw [hescape] at heq
    exact hmark (List.cons.inj heq).1

theorem inside_quote_iff {s : List Char} : Inside ['"'] s ↔ s = [] := by
  constructor
  · intro hinside
    cases hinside with
    | close => rfl
    | cons hfirst _ => exact absurd hfirst not_spells_quote
  · rintro rfl
    exact .close

theorem inside_escapeAll_iff {cs s : List Char} :
    Inside (escapeAll .double cs ++ ['"']) s ↔ OnlyBreaks cs ∧ s = cs := by
  induction cs generalizing s with
  | nil => exact inside_quote_iff.trans (and_iff_right (List.forall_mem_nil _)).symm
  | cons c cs ih =>
      have hcons : escapeAll .double (c :: cs) ++ ['"'] =
          escape .double c ++ (escapeAll .double cs ++ ['"']) := List.append_assoc ..
      rw [hcons, OnlyBreaks, List.forall_mem_cons]
      constructor
      · intro hinside
        generalize hwhole : escape .double c ++ (escapeAll .double cs ++ ['"']) = whole at hinside
        cases hinside with
        | close => exact absurd hwhole (escape_append_ne_quote c _)
        | cons hfirst hrest =>
            subst hwhole
            obtain ⟨hc, rfl, rfl⟩ := spells_escape_iff.mp hfirst
            obtain ⟨hcs, rfl⟩ := ih.mp hrest
            exact ⟨⟨hc, hcs⟩, rfl⟩
      · rintro ⟨⟨hc, hcs⟩, rfl⟩
        exact .cons (spells_escape_iff.mpr ⟨hc, rfl, rfl⟩) (ih.mpr ⟨hcs, rfl⟩)

theorem denotes_quoted_iff {s s' : String} :
    Denotes (quoted .double s) s' ↔ OnlyBreaks s.toList ∧ s' = s := by
  rw [Denotes, toList_quoted, ← String.toList_inj, ← inside_escapeAll_iff]
  constructor
  · rintro ⟨inside, hinside, hs⟩
    obtain rfl := (List.cons.inj hinside).2
    exact hs
  · intro hs
    exact ⟨_, rfl, hs⟩

/-- A character above U+FFFF as two surrogates. -/
example : Denotes "\"\\ud83d\\uDE00\"" "😀" :=
  ⟨_, rfl, .cons (.pair (h := 0x3d) (l := 0x200) rfl rfl (by decide) (by decide) rfl) .close⟩

end Json

end ObjectLiteral.Text
