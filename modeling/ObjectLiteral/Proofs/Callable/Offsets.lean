import ObjectLiteral.Callable
import ObjectLiteral.Proofs.Text.Cuts
/-!
Classification at byte offsets.  A program that keeps a text as bytes takes the rest of a
declaration behind a word or a comment by an offset, and has no answer where an offset is past the
end or inside a character.  Done in this way, the classification has an answer for every source, and
it is the same.
-/

namespace ObjectLiteral

namespace Text

/-- One round of skipping trivia: leading blanks at once, or one comment, or nothing. -/
def skipRound? (cs : List Char) : Option (List Char) :=
  if (cs.dropWhile isBlank).length < cs.length then some (cs.dropWhile isBlank)
  else
    match cs with
    | '/' :: '/' :: body =>
      match offsetOf? ['\n'] body with
      | some stop => (cutAt? body (stop + 1)).map (·.2)
      | none => some cs
    | '/' :: '*' :: body =>
      match offsetOf? ['*', '/'] body with
      | some stop =>
        (cutAt? body stop).bind fun (inside, _) =>
          if inside.contains '\n' then some cs else (cutAt? body (stop + 2)).map (·.2)
      | none => some cs
    | _ => some cs

/-- Skips trivia, round by round, as long as the text gets shorter. -/
def skipTrivia? (cs : List Char) : Option (List Char) :=
  match skipRound? cs with
  | none => none
  | some rest => if rest.length < cs.length then skipTrivia? rest else some rest
termination_by cs.length

theorem dropTrivia_dropWhile (cs : List Char) :
    dropTrivia (cs.dropWhile isBlank) = dropTrivia cs := by
  induction cs with
  | nil => rfl
  | cons c cs ih =>
      rw [List.dropWhile_cons]
      split
      · rename_i hc
        exact ih.trans (dropTrivia_of_some ((Trivium.blank hc).after cs)).symm
      · rfl

/-- The text behind a pattern of ASCII characters can be cut off. -/
theorem cutAt?_behind {pattern : List Char} (front rest : List Char)
    (hpattern : byteLength pattern = pattern.length) :
    (cutAt? (front ++ (pattern ++ rest)) (byteLength front + pattern.length)).map (·.2) =
      some rest := by
  have hcut := cutAt?_append (front ++ pattern) rest
  rw [byteLength_append, hpattern, List.append_assoc] at hcut
  rw [hcut, Option.map_some]

/-- A round has a result, which is shorter or the end of all trivia. -/
theorem skipRound?_spec (cs : List Char) :
    ∃ rest, skipRound? cs = some rest ∧ dropTrivia rest = dropTrivia cs ∧
      (rest.length < cs.length ∨ rest = cs ∧ afterTrivium? cs = none) := by
  unfold skipRound?
  by_cases hblank : (cs.dropWhile isBlank).length < cs.length
  · rw [if_pos hblank]
    exact ⟨_, rfl, dropTrivia_dropWhile cs, Or.inl hblank⟩
  rw [if_neg hblank]
  split
  · rename_i body
    rcases offsetOf?_lineFeed body with ⟨hoffset, hafter⟩ | ⟨front, rest, rfl, hoffset, hafter⟩
    · rw [hoffset]
      exact ⟨_, rfl, rfl, Or.inr ⟨rfl, hafter⟩⟩
    · have hpiece : afterTrivium? ('/' :: '/' :: (front ++ '\n' :: rest)) = some rest := hafter
      rw [hoffset]
      refine ⟨rest, cutAt?_behind front rest (by decide : byteLength ['\n'] = 1),
        (dropTrivia_of_some hpiece).symm, Or.inl (afterTrivium?_length hpiece)⟩
  · rename_i body
    rcases offsetOf?_blockEnd body with ⟨hoffset, hafter⟩ | ⟨front, rest, rfl, hoffset, hafter⟩
    · rw [hoffset]
      exact ⟨_, rfl, rfl, Or.inr ⟨rfl, hafter⟩⟩
    · rw [hoffset]
      simp only [cutAt?_append, Option.bind_some]
      by_cases hfeed : front.contains '\n' = true
      · rw [if_pos hfeed] at hafter ⊢
        exact ⟨_, rfl, rfl, Or.inr ⟨rfl, hafter⟩⟩
      · rw [if_neg hfeed] at hafter ⊢
        have hpiece : afterTrivium? ('/' :: '*' :: (front ++ '*' :: '/' :: rest)) = some rest :=
          hafter
        refine ⟨rest, cutAt?_behind front rest (by decide : byteLength ['*', '/'] = 2),
          (dropTrivia_of_some hpiece).symm, Or.inl (afterTrivium?_length hpiece)⟩
  · rename_i hline hblock
    refine ⟨cs, rfl, rfl, Or.inr ⟨rfl, ?_⟩⟩
    cases cs with
    | nil => rfl
    | cons c cs =>
        have hhead : isBlank c = false := by
          refine Bool.eq_false_iff.mpr fun hc => hblank ?_
          rw [List.dropWhile_cons, if_pos hc]
          exact Nat.lt_succ_of_le (List.dropWhile_sublist isBlank).length_le
        rw [afterTrivium?.eq_4 c cs (fun ds hc hcs => hline ds (by rw [hc, hcs]))
          (fun ds hc hcs => hblock ds (by rw [hc, hcs])), hhead, if_neg Bool.false_ne_true]

/-- Skipping round by round has a result, and it is the text without its trivia. -/
theorem skipTrivia?_eq (cs : List Char) : skipTrivia? cs = some (dropTrivia cs) := by
  fun_induction skipTrivia? cs with
  | case1 cs hnone =>
      obtain ⟨rest, hround, -⟩ := skipRound?_spec cs
      rw [hnone] at hround
      cases hround
  | case2 cs rest hsome hlt ih =>
      obtain ⟨rest', hround, hdrop, -⟩ := skipRound?_spec cs
      obtain rfl := Option.some.inj (hsome.symm.trans hround)
      rw [ih, hdrop]
  | case3 cs rest hsome hle =>
      obtain ⟨rest', hround, -, hlt | ⟨rfl, hnone⟩⟩ := skipRound?_spec cs
      · obtain rfl := Option.some.inj (hsome.symm.trans hround)
        exact absurd hlt hle
      · obtain rfl := Option.some.inj (hsome.symm.trans hround)
        rw [dropTrivia_of_none hnone]

end Text

namespace Callable

open Text

/-- The part of a declaration that decides its form.  The word `async` is five bytes. -/
def declaredAt? (kind : Kind) (cs : List Char) : Option (List Char) :=
  if kind.isAsync then skipTrivia? (((cutAt? cs 5).map (·.2)).getD []) else some cs

/-- Whether a declaration is an arrow function of one bare parameter.  What follows the parameter is
taken by the number of its bytes. -/
def isBareArrowAt? (cs : List Char) : Option Bool :=
  if wordLength cs = 0 then some false
  else
    (cutAt? cs (wordLength cs)).bind fun parts =>
      (skipTrivia? parts.2).map fun rest => ['=', '>'].isPrefixOf rest

/-- Whether a declaration is in method shorthand. -/
def isMethodAt? (name : String) (cs : List Char) : Option Bool :=
  if cs.head? = some '(' then some false
  else if opensWith "function" ['(', '/', '*'] cs && name != "function" then some false
  else if opensWith "class" ['{', '/', '*'] cs && name != "class" then some false
  else (isBareArrowAt? cs).map fun arrow => !arrow

/-- The declaration text of a callable that was declared in method shorthand.  There is no answer
if a part of the text cannot be cut off. -/
def methodSourceAt? (c : Callable) : Option (Option String) :=
  match c.source with
  | none => some none
  | some s =>
    (declaredAt? c.kind s.toList).bind fun cs =>
      (isMethodAt? c.name cs).map fun method => if method then some s else none

theorem cutAt?_eq_dropBytes? (cs : List Char) (n : Nat) :
    (cutAt? cs n).map (·.2) = dropBytes? cs n := by
  fun_induction cutAt? cs n with
  | case1 cs => rw [dropBytes?]; rfl
  | case2 n => rfl
  | case3 c cs n hle ih =>
      rw [dropBytes?, if_pos hle, ← ih, Option.map_map]
      rfl
  | case4 c cs n hle => rw [dropBytes?, if_neg hle]; rfl

theorem declaredAt?_eq (kind : Kind) (cs : List Char) :
    declaredAt? kind cs = some (declared kind cs) := by
  rw [declaredAt?, declared, afterAsync, ← cutAt?_eq_dropBytes?, skipTrivia?_eq]
  split
  · rfl
  · rfl

/-- The leading word can be cut off, since all its characters are single bytes. -/
theorem cutAt?_wordLength (cs : List Char) :
    cutAt? cs (wordLength cs) = some (cs.takeWhile isWordChar, cs.dropWhile isWordChar) := by
  have hcut := cutAt?_append (cs.takeWhile isWordChar) (cs.dropWhile isWordChar)
  rwa [List.takeWhile_append_dropWhile, ← wordLength_eq] at hcut

theorem wordLength_eq_zero_iff (cs : List Char) :
    wordLength cs = 0 ↔ cs.takeWhile isWordChar = [] := by
  rw [wordLength_eq]
  cases cs.takeWhile isWordChar with
  | nil => simp [byteLength]
  | cons c word =>
      have hpos := c.utf8Size_pos
      simp only [byteLength, reduceCtorEq, iff_false]
      omega

theorem isBareArrowAt?_eq (cs : List Char) : isBareArrowAt? cs = some (isBareArrow cs) := by
  unfold isBareArrowAt? isBareArrow
  by_cases hword : cs.takeWhile isWordChar = []
  · rw [if_pos ((wordLength_eq_zero_iff cs).mpr hword), hword]
  · rw [if_neg fun hzero => hword ((wordLength_eq_zero_iff cs).mp hzero), cutAt?_wordLength,
      Option.bind_some, skipTrivia?_eq, Option.map_some]
    split
    · contradiction
    · rfl

theorem isMethodAt?_eq (name : String) (cs : List Char) :
    isMethodAt? name cs = some (isMethod name cs) := by
  rw [isMethodAt?, isMethod, isBareArrowAt?_eq, Option.map_some]
  by_cases hparen : cs.head? = some '('
  · simp [hparen]
  by_cases hfunction : (opensWith "function" ['(', '/', '*'] cs && name != "function") = true
  · rw [if_neg hparen, if_pos hfunction, hfunction]
    simp
  by_cases hclass : (opensWith "class" ['{', '/', '*'] cs && name != "class") = true
  · rw [if_neg hparen, if_neg hfunction, if_pos hclass, hclass]
    simp
  · rw [if_neg hparen, if_neg hfunction, if_neg hclass, Bool.eq_false_iff.mpr hfunction,
      Bool.eq_false_iff.mpr hclass]
    simp [hparen]

/-- No part of any source is cut off out of range or inside a character, and the answer is the
same. -/
theorem methodSourceAt?_eq (c : Callable) : c.methodSourceAt? = some c.methodSource? := by
  unfold methodSourceAt? methodSource?
  cases c.source with
  | none => rfl
  | some s =>
      simp only [declaredAt?_eq, isMethodAt?_eq, Option.bind_some, Option.map_some]

end Callable

end ObjectLiteral
