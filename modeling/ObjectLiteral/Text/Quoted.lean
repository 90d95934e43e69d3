/-!
Quoted strings.  Inside the quotes a backslash, a line feed, a carriage return and the quote
character itself are written as an escape of two characters; every other character stands for
itself.
-/

namespace ObjectLiteral.Text

inductive Quote where
  | single
  | double
deriving DecidableEq

def Quote.mark : Quote → Char
  | .single => '\''
  | .double => '"'

/-- One character as it stands between quotes. -/
def escape (q : Quote) (c : Char) : List Char :=
  if c = '\\' then ['\\', '\\']
  else if c = '\n' then ['\\', 'n']
  else if c = '\r' then ['\\', 'r']
  else if c = q.mark then ['\\', c]
  else [c]

/-- The characters behind a backslash, with what the two stand for. -/
def escapes (q : Quote) : List (Char × Char) :=
  [('\\', '\\'), ('n', '\n'), ('r', '\r'), (q.mark, q.mark)]

/-- A character is written as one of the escapes, or as itself if it needs none. -/
theorem escape_cases (q : Quote) (c : Char) :
    (∃ e, (e, c) ∈ escapes q ∧ escape q c = ['\\', e]) ∨
      (c ≠ '\\' ∧ c ≠ '\n' ∧ c ≠ '\r' ∧ c ≠ q.mark) ∧ escape q c = [c] := by
  unfold escape
  by_cases hbackslash : c = '\\'
  · exact .inl ⟨'\\', by simp [escapes, hbackslash], if_pos hbackslash⟩
  rw [if_neg hbackslash]
  by_cases hfeed : c = '\n'
  · exact .inl ⟨'n', by simp [escapes, hfeed], if_pos hfeed⟩
  rw [if_neg hfeed]
  by_cases hreturn : c = '\r'
  · exact .inl ⟨'r', by simp [escapes, hreturn], if_pos hreturn⟩
  rw [if_neg hreturn]
  by_cases hmark : c = q.mark
  · exact .inl ⟨c, by simp [escapes, hmark], if_pos hmark⟩
  · exact .inr ⟨⟨hbackslash, hfeed, hreturn, hmark⟩, if_neg hmark⟩

def escapeAll (q : Quote) (cs : List Char) : List Char :=
  cs.flatMap (escape q)

def quoted (q : Quote) (s : String) : String :=
  String.ofList (q.mark :: escapeAll q s.toList ++ [q.mark])

@[simp] theorem toList_quoted (q : Quote) (s : String) :
    (quoted q s).toList = q.mark :: escapeAll q s.toList ++ [q.mark] := by
  simp [quoted]

end ObjectLiteral.Text
