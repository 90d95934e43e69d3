import ObjectLiteral.Text.Trivia
/-!
The grammar of trivia.  Trivia is a sequence of pieces, each a blank, a line comment with its line
feed or a block comment on one line, and skipping trivia takes such a sequence off a text that goes
on with something else, whatever the comments say.
-/

namespace ObjectLiteral.Text

/-- A piece of trivia.  What stands in a comment is free, as long as it does not end it. -/
inductive Trivium : List Char → Prop
  | blank {c : Char} (hc : isBlank c = true) : Trivium [c]
  | line {body : List Char} (hbody : '\n' ∉ body) : Trivium ('/' :: '/' :: body ++ ['\n'])
  | block {body : List Char} (hline : '\n' ∉ body) (hend : ¬ ['*', '/'] <:+: body) :
      Trivium ('/' :: '*' :: body ++ ['*', '/'])

/-- Trivia: any number of pieces, in any order. -/
inductive Trivia : List Char → Prop
  | nil : Trivia []
  | cons {piece rest : List Char} (hpiece : Trivium piece) (hrest : Trivia rest) :
      Trivia (piece ++ rest)

theorem afterLine?_append {body : List Char} (hbody : '\n' ∉ body) (rest : List Char) :
    afterLine? (body ++ '\n' :: rest) = some rest := by
  induction body with
  | nil => rfl
  | cons c body ih =>
      simp only [List.mem_cons, not_or] at hbody
      rw [List.cons_append, afterLine?, if_neg (Ne.symm hbody.1)]
      exact ih hbody.2

/-- A block ends at the first `*/`, also where its body ends with a star. -/
theorem afterBlock?_append {body : List Char} (hline : '\n' ∉ body)
    (hend : ¬ ['*', '/'] <:+: body) (rest : List Char) :
    afterBlock? (body ++ '*' :: '/' :: rest) = some rest := by
  induction body with
  | nil => rfl
  | cons c body ih =>
      simp only [List.mem_cons, not_or] at hline
      have hstep := ih hline.2 fun hin => hend (hin.trans (List.suffix_cons c body).isInfix)
      have hopen : ∀ cs, c = '*' → body ++ '*' :: '/' :: rest = '/' :: cs → False := by
        rintro cs rfl hbody
        cases body with
        | nil => simp at hbody
        | cons d body =>
            simp only [List.cons_append, List.cons.injEq] at hbody
            obtain ⟨rfl, -⟩ := hbody
            exact hend (List.prefix_append ['*', '/'] body).isInfix
      rw [List.cons_append, afterBlock?.eq_3 _ _ hopen, if_neg (Ne.symm hline.1)]
      exact hstep

/-- Only a slash opens a comment. -/
theorem afterTrivium?_of_ne_slash {c : Char} (hslash : c ≠ '/') (cs : List Char) :
    afterTrivium? (c :: cs) = if isBlank c then some cs else none :=
  afterTrivium?.eq_4 c cs (fun _ hc _ => hslash hc) fun _ hc _ => hslash hc

theorem Trivium.after {piece : List Char} (hpiece : Trivium piece) (rest : List Char) :
    afterTrivium? (piece ++ rest) = some rest := by
  cases hpiece with
  | @blank c hc =>
      have hslash : c ≠ '/' := by
        rintro rfl
        exact absurd hc (by decide)
      rw [List.singleton_append, afterTrivium?_of_ne_slash hslash, if_pos hc]
  | @line body hbody =>
      have hshape : '/' :: '/' :: body ++ ['\n'] ++ rest = '/' :: '/' :: (body ++ '\n' :: rest) := by
        simp
      rw [hshape, afterTrivium?]
      exact afterLine?_append hbody rest
  | @block body hline hend =>
      have hshape : '/' :: '*' :: body ++ ['*', '/'] ++ rest =
          '/' :: '*' :: (body ++ '*' :: '/' :: rest) := by
        simp
      rw [hshape, afterTrivium?]
      exact afterBlock?_append hline hend rest

theorem dropTrivia_of_none {cs : List Char} (hcs : afterTrivium? cs = none) :
    dropTrivia cs = cs := by
  rw [dropTrivia]
  split
  · rfl
  · rename_i rest hrest
    rw [hcs] at hrest
    cases hrest

theorem dropTrivia_of_some {cs rest : List Char} (hcs : afterTrivium? cs = some rest) :
    dropTrivia cs = dropTrivia rest := by
  rw [dropTrivia]
  split
  · rename_i hnone
    rw [hcs] at hnone
    cases hnone
  · rename_i rest' hrest'
    rw [Option.some.inj (hcs.symm.trans hrest')]

/-- Trivia in front of anything that does not itself begin with trivia is skipped. -/
theorem dropTrivia_append {g cs : List Char} (hg : Trivia g) (hcs : afterTrivium? cs = none) :
    dropTrivia (g ++ cs) = cs := by
  induction hg with
  | nil => exact dropTrivia_of_none hcs
  | @cons piece rest hpiece hrest ih =>
      rw [List.append_assoc, dropTrivia_of_some (hpiece.after (rest ++ cs))]
      exact ih

/-- The first character of trivia is a blank or a slash. -/
theorem Trivia.cases_head {g : List Char} (hg : Trivia g) :
    g = [] ∨ ∃ c cs, g = c :: cs ∧ (isBlank c = true ∨ c = '/') := by
  cases hg with
  | nil => exact Or.inl rfl
  | cons hpiece hrest =>
      right
      cases hpiece with
      | blank hc => exact ⟨_, _, rfl, Or.inl hc⟩
      | line hbody => exact ⟨_, _, rfl, Or.inr rfl⟩
      | block hline hend => exact ⟨_, _, rfl, Or.inr rfl⟩

end ObjectLiteral.Text
