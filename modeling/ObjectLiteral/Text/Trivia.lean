import ObjectLiteral.Text.Blank
/-!
Trivia of a declaration: blanks, line comments that are ended by a line feed, and block comments
that stay on one line.  A comment that does not end, or a block comment that spans lines, is not
trivia.
-/

namespace ObjectLiteral.Text

/-- The text after the first line feed. -/
def afterLine? : List Char → Option (List Char)
  | [] => none
  | c :: cs => if c = '\n' then some cs else afterLine? cs

/-- The text after the first `*/`, unless a line feed comes before it. -/
def afterBlock? : List Char → Option (List Char)
  | [] => none
  | '*' :: '/' :: cs => some cs
  | c :: cs => if c = '\n' then none else afterBlock? cs

/-- The text after one piece of trivia: a blank, a line comment or a block comment. -/
def afterTrivium? : List Char → Option (List Char)
  | [] => none
  | '/' :: '/' :: cs => afterLine? cs
  | '/' :: '*' :: cs => afterBlock? cs
  | c :: cs => if isBlank c then some cs else none

theorem afterLine?_length {cs rest : List Char} (h : afterLine? cs = some rest) :
    rest.length < cs.length := by
  induction cs with
  | nil => simp [afterLine?] at h
  | cons c cs ih =>
    rw [afterLine?] at h
    split at h
    · cases h; simp
    · have := ih h; simp only [List.length_cons]; omega

theorem afterBlock?_length {cs rest : List Char} (h : afterBlock? cs = some rest) :
    rest.length < cs.length := by
  fun_induction afterBlock? cs with
  | case1 => simp at h
  | case2 cs => cases h; simp only [List.length_cons]; omega
  | case3 => simp at h
  | case4 c cs _ _ ih => have := ih h; simp only [List.length_cons]; omega

theorem afterTrivium?_length {cs rest : List Char} (h : afterTrivium? cs = some rest) :
    rest.length < cs.length := by
  fun_cases afterTrivium? cs with
  | case1 => simp [afterTrivium?] at h
  | case2 cs =>
    have := afterLine?_length (by simpa [afterTrivium?] using h)
    simp only [List.length_cons]; omega
  | case3 cs =>
    have := afterBlock?_length (by simpa [afterTrivium?] using h)
    simp only [List.length_cons]; omega
  | case4 c cs => simp_all [afterTrivium?]
  | case5 c cs => simp_all [afterTrivium?]

/-- The text without the trivia at its start. -/
def dropTrivia (cs : List Char) : List Char :=
  match _h : afterTrivium? cs with
  | none => cs
  | some rest => dropTrivia rest
termination_by cs.length
decreasing_by exact afterTrivium?_length _h

end ObjectLiteral.Text
