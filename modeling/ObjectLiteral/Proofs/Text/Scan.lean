import ObjectLiteral.Text.Quoted
/-!
Reading quoted strings.  The scanner undoes escapes and stops at the first quote character that no
backslash precedes, so a quoted string delimits itself whatever it contains and whatever follows.
-/

namespace ObjectLiteral.Text

/-- The character that a backslash and a character stand for. -/
def unescape (c : Char) : Char :=
  if c = 'n' then '\n' else if c = 'r' then '\r' else c

/-- The characters of a quoted string from behind its opening quote, and what follows its closing
quote. -/
def scan (q : Quote) : List Char → Option (List Char × List Char)
  | [] => none
  | c :: cs =>
      if c = q.mark then some ([], cs)
      else if c = '\\' then
        match cs with
        | [] => none
        | e :: cs => (scan q cs).map fun (s, rest) => (unescape e :: s, rest)
      else (scan q cs).map fun (s, rest) => (c :: s, rest)

/-- The characters of a quoted string from its opening quote on, and what follows its closing
quote. -/
def unquote? (q : Quote) : List Char → Option (List Char × List Char)
  | [] => none
  | c :: cs => if c = q.mark then scan q cs else none

theorem backslash_ne_mark (q : Quote) : '\\' ≠ q.mark := by
  cases q <;> decide

theorem scan_mark (q : Quote) (rest : List Char) : scan q (q.mark :: rest) = some ([], rest) := by
  rw [scan.eq_def]
  exact if_pos rfl

theorem scan_backslash (q : Quote) (e : Char) (cs : List Char) :
    scan q ('\\' :: e :: cs) = (scan q cs).map fun (s, rest) => (unescape e :: s, rest) := by
  rw [scan, if_neg (backslash_ne_mark q), if_pos rfl]

theorem scan_plain {q : Quote} {c : Char} (hmark : c ≠ q.mark) (hbackslash : c ≠ '\\')
    (cs : List Char) : scan q (c :: cs) = (scan q cs).map fun (s, rest) => (c :: s, rest) := by
  rw [scan.eq_def]
  exact (if_neg hmark).trans (if_neg hbackslash)

theorem unescape_of_mem_escapes {q : Quote} {e c : Char} (he : (e, c) ∈ escapes q) :
    unescape e = c := by
  have hall : ∀ p ∈ escapes q, unescape p.1 = p.2 := by
    cases q <;> decide
  exact hall (e, c) he

/-- What stands for a character is read as that character. -/
theorem scan_escape (q : Quote) (c : Char) (cs : List Char) :
    scan q (escape q c ++ cs) = (scan q cs).map fun (s, rest) => (c :: s, rest) := by
  rcases escape_cases q c with ⟨e, he, hescape⟩ | ⟨⟨hbackslash, -, -, hmark⟩, hescape⟩
  · rw [hescape, ← unescape_of_mem_escapes he]
    exact scan_backslash q e cs
  · rw [hescape]
    exact scan_plain hmark hbackslash cs

theorem scan_escapeAll (q : Quote) (cs rest : List Char) :
    scan q (escapeAll q cs ++ q.mark :: rest) = some (cs, rest) := by
  induction cs with
  | nil => exact scan_mark q rest
  | cons c cs ih =>
      have hcons : escapeAll q (c :: cs) = escape q c ++ escapeAll q cs := rfl
      rw [hcons, List.append_assoc, scan_escape, ih]
      rfl

theorem toList_quoted_append (q : Quote) (s : String) (rest : List Char) :
    (quoted q s).toList ++ rest = q.mark :: (escapeAll q s.toList ++ q.mark :: rest) := by
  rw [toList_quoted, List.cons_append, List.cons_append, List.append_assoc, List.singleton_append]

theorem unquote?_quoted_append (q : Quote) (s : String) (rest : List Char) :
    unquote? q ((quoted q s).toList ++ rest) = some (s.toList, rest) := by
  rw [toList_quoted_append, unquote?, if_pos rfl]
  exact scan_escapeAll q s.toList rest

end ObjectLiteral.Text
