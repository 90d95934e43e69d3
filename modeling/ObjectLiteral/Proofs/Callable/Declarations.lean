import Mathlib.Data.List.Basic
import ObjectLiteral.Proofs.Callable.Offsets
/-!
Forms of declarations.  The classification looks only at the start of a source: an arrow function is
no method, a name with its parameters is one, and a full declaration is none unless its keyword is
the name of the callable, whatever comments stand between the parts and whatever follows them.
-/

namespace ObjectLiteral

namespace Callable

open Text

/-- An arrow function, up to its arrow or its first parenthesis. -/
inductive IsArrow : List Char → Prop
  | bare {word gap : List Char} (hword : IsWord word) (hgap : Trivia gap) (rest : List Char) :
      IsArrow (word ++ (gap ++ '=' :: '>' :: rest))
  | parenthesised (rest : List Char) : IsArrow ('(' :: rest)

/-- A method, up to the parenthesis that opens its parameters. -/
inductive IsShorthand : List Char → Prop
  | named {word gap : List Char} (hword : IsWord word) (hfunction : word ≠ "function".toList)
      (hclass : word ≠ "class".toList) (hgap : Trivia gap) (rest : List Char) :
      IsShorthand (word ++ (gap ++ '(' :: rest))

/-- The keywords that open full declarations, with the characters other than blanks that may
follow. -/
def fullKeywords : List (String × List Char) :=
  [("function", ['(', '/', '*']), ("class", ['{', '/', '*'])]

/-- A full declaration, up to the character behind its keyword. -/
inductive IsFull (keyword : String) (marks : List Char) : List Char → Prop
  | opened {c : Char} (hc : isBlank c = true ∨ c ∈ marks) (rest : List Char) :
      IsFull keyword marks (keyword.toList ++ c :: rest)

/-- A source of a kind with a declaration of a form in it.  The async kinds have the word `async`
and trivia in front. -/
inductive Kind.Declares (form : List Char → Prop) : Kind → List Char → Prop
  | plain {kind : Kind} {cs : List Char} (hkind : kind.isAsync = false) (hform : form cs) :
      kind.Declares form cs
  | async {kind : Kind} {gap cs : List Char} (hkind : kind.isAsync = true) (hgap : Trivia gap)
      (hform : form cs) : kind.Declares form ("async".toList ++ (gap ++ cs))

theorem afterAsync_append (cs : List Char) : afterAsync ("async".toList ++ cs) = cs := by
  have hcut := cutAt?_behind [] cs (by decide : byteLength "async".toList = 5)
  rw [afterAsync, ← cutAt?_eq_dropBytes?]
  exact congrArg (·.getD []) hcut

/-- What decides the form of a declaration is the declaration, if it does not begin with trivia. -/
theorem Kind.Declares.declared {form : List Char → Prop} {kind : Kind} {cs : List Char}
    (hcs : kind.Declares form cs) (hform : ∀ ds, form ds → afterTrivium? ds = none) :
    form (declared kind cs) := by
  cases hcs with
  | plain hkind hplain =>
      rw [Callable.declared, hkind, if_neg Bool.false_ne_true]
      exact hplain
  | async hkind hgap hasync =>
      rw [Callable.declared, if_pos hkind, afterAsync_append,
        dropTrivia_append hgap (hform _ hasync)]
      exact hasync

theorem not_isBlank_of_isWordChar {c : Char} (hc : isWordChar c = true) : isBlank c = false := by
  have hbounds := toNat_of_isWordChar hc
  simp only [isBlank, blankRanges, List.any_cons, List.any_nil, Bool.or_false,
    Bool.or_eq_false_iff, Bool.and_eq_false_imp, decide_eq_true_eq, decide_eq_false_iff_not,
    Nat.not_le]
  omega

theorem afterTrivium?_of_isWordChar {c : Char} (hc : isWordChar c = true) (cs : List Char) :
    afterTrivium? (c :: cs) = none := by
  have hslash : c ≠ '/' := by
    rintro rfl
    contradiction
  rw [afterTrivium?_of_ne_slash hslash, not_isBlank_of_isWordChar hc, if_neg Bool.false_ne_true]

theorem IsArrow.afterTrivium? {cs : List Char} (hcs : IsArrow cs) :
    Text.afterTrivium? cs = none := by
  cases hcs with
  | @bare word gap hword hgap rest =>
      obtain ⟨c, word, rfl⟩ := List.exists_cons_of_ne_nil hword.ne_nil
      exact afterTrivium?_of_isWordChar (hword.chars c List.mem_cons_self) _
  | parenthesised rest => rfl

theorem IsShorthand.afterTrivium? {cs : List Char} (hcs : IsShorthand cs) :
    Text.afterTrivium? cs = none := by
  cases hcs with
  | @named word gap hword _ _ hgap rest =>
      obtain ⟨c, word, rfl⟩ := List.exists_cons_of_ne_nil hword.ne_nil
      exact afterTrivium?_of_isWordChar (hword.chars c List.mem_cons_self) _

theorem isWordChar_of_isBlank {c : Char} (hc : isBlank c = true) : isWordChar c = false := by
  refine Bool.eq_false_iff.mpr fun hword => ?_
  rw [not_isBlank_of_isWordChar hword] at hc
  contradiction

/-- No word character opens trivia, so a word ends where trivia begins. -/
theorem isWordChar_head? {gap : List Char} (hgap : Trivia gap) {c : Char}
    (hc : isWordChar c = false) (rest : List Char) :
    ∀ d ∈ (gap ++ c :: rest).head?, isWordChar d = false := by
  intro d hd
  rcases hgap.cases_head with rfl | ⟨b, bs, rfl, hblank | rfl⟩
  · obtain rfl : c = d := Option.some.inj hd
    exact hc
  · obtain rfl : b = d := Option.some.inj hd
    exact isWordChar_of_isBlank hblank
  · obtain rfl : '/' = d := Option.some.inj hd
    rfl

theorem opensWith_iff {keyword : String} {marks cs : List Char} :
    opensWith keyword marks cs = true ↔ IsFull keyword marks cs := by
  unfold opensWith
  constructor
  · intro hopens
    split at hopens
    · rename_i c rest hprefix
      rw [← List.isPrefixOf?_eq_some_iff_append_eq.mp hprefix]
      rw [Bool.or_eq_true, List.contains_iff_mem] at hopens
      exact .opened hopens rest
    · contradiction
  · rintro ⟨hc, rest⟩
    rw [List.isPrefixOf?_eq_some_iff_append_eq.mpr rfl]
    simpa only [Bool.or_eq_true, List.contains_iff_mem] using hc

/-- A keyword that opens a text is its first word. -/
theorem IsFull.takeWhile_eq {keyword : String} {marks cs : List Char}
    (hkeyword : (keyword, marks) ∈ fullKeywords) (hcs : IsFull keyword marks cs) :
    cs.takeWhile isWordChar = keyword.toList := by
  have hwords : ∀ e ∈ fullKeywords,
      e.1.toList.all isWordChar = true ∧ e.2.all (fun c => !isWordChar c) = true := by
    decide
  obtain ⟨hchars, hmarks⟩ := hwords _ hkeyword
  cases hcs with
  | @opened c hc rest =>
      refine takeWhile_append (List.all_eq_true.mp hchars) fun d hd => ?_
      obtain rfl : c = d := Option.some.inj hd
      rcases hc with hblank | hmark
      · exact isWordChar_of_isBlank hblank
      · simpa using List.all_eq_true.mp hmarks c hmark

theorem IsArrow.isMethod_eq_false {cs : List Char} (hcs : IsArrow cs) (name : String) :
    isMethod name cs = false := by
  cases hcs with
  | @bare word gap hword hgap rest =>
      have hnext := isWordChar_head? hgap (by decide : isWordChar '=' = false) ('>' :: rest)
      have harrow : isBareArrow (word ++ (gap ++ '=' :: '>' :: rest)) = true := by
        rw [isBareArrow, takeWhile_append hword.chars hnext, dropWhile_append hword.chars hnext,
          dropTrivia_append hgap rfl]
        split
        · exact absurd rfl hword.ne_nil
        · rfl
      rw [isMethod, harrow, Bool.not_true, Bool.and_false]
  | parenthesised rest => rfl

theorem IsShorthand.isMethod_eq_true {cs : List Char} (hcs : IsShorthand cs) (name : String) :
    isMethod name cs = true := by
  cases hcs with
  | @named word gap hword hfunction hclass hgap rest =>
      have hnext := isWordChar_head? hgap (by decide : isWordChar '(' = false) rest
      have hfirst := takeWhile_append hword.chars hnext
      have hparen : ((word ++ (gap ++ '(' :: rest)).head? != some '(') = true := by
        obtain ⟨c, word, rfl⟩ := List.exists_cons_of_ne_nil hword.ne_nil
        have hc := hword.chars c List.mem_cons_self
        simp only [List.cons_append, List.head?_cons, bne_iff_ne, ne_eq, Option.some.injEq]
        rintro rfl
        contradiction
      have hopens : ∀ keyword marks, (keyword, marks) ∈ fullKeywords → word ≠ keyword.toList →
          opensWith keyword marks (word ++ (gap ++ '(' :: rest)) = false := by
        intro keyword marks hkeyword hne
        refine Bool.eq_false_iff.mpr fun hopens => hne ?_
        exact hfirst.symm.trans ((opensWith_iff.mp hopens).takeWhile_eq hkeyword)
      have harrow : isBareArrow (word ++ (gap ++ '(' :: rest)) = false := by
        rw [isBareArrow, hfirst, dropWhile_append hword.chars hnext, dropTrivia_append hgap rfl]
        split
        · rfl
        · rfl
      rw [isMethod, hparen, hopens "function" _ (by simp [fullKeywords]) hfunction,
        hopens "class" _ (by simp [fullKeywords]) hclass, harrow]
      rfl

theorem IsFull.isMethod_eq_false {keyword : String} {marks cs : List Char}
    (hkeyword : (keyword, marks) ∈ fullKeywords) (hcs : IsFull keyword marks cs) {name : String}
    (hname : name ≠ keyword) : isMethod name cs = false := by
  have hopens := opensWith_iff.mpr hcs
  have hne : (name != keyword) = true := bne_iff_ne.mpr hname
  simp only [fullKeywords, List.mem_cons, Prod.mk.injEq, List.not_mem_nil, or_false] at hkeyword
  rcases hkeyword with ⟨rfl, rfl⟩ | ⟨rfl, rfl⟩
  · simp [isMethod, hopens, hne]
  · simp [isMethod, hopens, hne]

theorem IsFull.afterTrivium? {keyword : String} {marks cs : List Char}
    (hkeyword : (keyword, marks) ∈ fullKeywords) (hcs : IsFull keyword marks cs) :
    Text.afterTrivium? cs = none := by
  simp only [fullKeywords, List.mem_cons, Prod.mk.injEq, List.not_mem_nil, or_false] at hkeyword
  cases hcs with
  | @opened c hc rest =>
      rcases hkeyword with ⟨rfl, rfl⟩ | ⟨rfl, rfl⟩
      · exact afterTrivium?_of_isWordChar (by decide : isWordChar 'f' = true) _
      · exact afterTrivium?_of_isWordChar (by decide : isWordChar 'c' = true) _

theorem methodSource?_eq {c : Callable} {source : String} (hsource : c.source = some source) :
    c.methodSource? =
      if isMethod c.name (declared c.kind source.toList) then some source else none := by
  unfold methodSource?
  rw [hsource]

/-- Of a source in one of the forms the verdict is known: arrow functions are no methods, a name
with its parameters is one, and a full declaration is none unless the callable has the name of its
keyword.  The answer is always the whole source or nothing, and wherever the source is cut on the
way, it is cut between characters. -/
theorem methodSource?_declares (c : Callable) :
    (∀ source, c.source = some source →
      (c.kind.Declares IsArrow source.toList → c.methodSource? = none) ∧
      (c.kind.Declares IsShorthand source.toList → c.methodSource? = some source) ∧
      ∀ keyword marks, (keyword, marks) ∈ fullKeywords → c.name ≠ keyword →
        c.kind.Declares (IsFull keyword marks) source.toList → c.methodSource? = none) ∧
    (c.methodSource? = none ∨ c.methodSource? = c.source) ∧
    c.methodSourceAt? = some c.methodSource? := by
  refine ⟨fun source hsource => ⟨?_, ?_, ?_⟩, ?_, methodSourceAt?_eq c⟩
  · intro hform
    have harrow := hform.declared fun _ => IsArrow.afterTrivium?
    rw [methodSource?_eq hsource, harrow.isMethod_eq_false, if_neg Bool.false_ne_true]
  · intro hform
    have hshorthand := hform.declared fun _ => IsShorthand.afterTrivium?
    rw [methodSource?_eq hsource, hshorthand.isMethod_eq_true, if_pos rfl]
  · intro keyword marks hkeyword hname hform
    have hfull := hform.declared fun _ => IsFull.afterTrivium? hkeyword
    rw [methodSource?_eq hsource, hfull.isMethod_eq_false hkeyword hname,
      if_neg Bool.false_ne_true]
  · cases hsource : c.source with
    | none => left; rw [methodSource?, hsource]
    | some source =>
        rw [methodSource?_eq hsource]
        split
        · exact Or.inr rfl
        · exact Or.inl rfl

namespace DeclarationsWitness

/-- Comments that read like the parts of other declarations. -/
def gap : String :=
  "/*=>*/ //(\n"

theorem trivia_gap : Trivia gap.toList := by
  have hblock : Trivium "/*=>*/".toList := @Trivium.block "=>".toList (by decide) (by decide)
  have hblank : Trivium " ".toList := @Trivium.blank ' ' (by decide)
  have hline : Trivium "//(\n".toList := @Trivium.line "(".toList (by decide)
  exact .cons hblock (.cons hblank (.cons hline .nil))

def method : Callable :=
  ⟨0, "function", .asyncGenerator, some "async/*=>*/ //(\nfunctions/*=>*/ //(\n() \x7b\x7d"⟩

def arrow : Callable :=
  ⟨1, "class", .normal, some "class/*=>*/ //(\n=> 1"⟩

def full : Callable :=
  ⟨2, "class", .async, some "async/*=>*/ //(\nfunction/()=>"⟩

theorem methodSource?_declares_gap :
    method.methodSource? = method.source ∧ arrow.methodSource? = none ∧
      full.methodSource? = none := by
  refine ⟨?_, ?_, ?_⟩
  · obtain ⟨-, hshorthand, -⟩ := (methodSource?_declares method).1 _ rfl
    have hword : IsWord "functions".toList := by decide
    have hform := IsShorthand.named hword (by decide) (by decide) trivia_gap ") \x7b\x7d".toList
    exact hshorthand (.async rfl trivia_gap hform)
  · obtain ⟨harrow, -, -⟩ := (methodSource?_declares arrow).1 _ rfl
    have hword : IsWord "class".toList := by decide
    exact harrow (.plain rfl (.bare hword trivia_gap " 1".toList))
  · obtain ⟨-, -, hfull⟩ := (methodSource?_declares full).1 _ rfl
    have hform : IsFull "function" ['(', '/', '*'] "function/()=>".toList :=
      .opened (Or.inr (by decide : '/' ∈ ['(', '/', '*'])) "()=>".toList
    exact hfull "function" _ List.mem_cons_self (by decide) (.async rfl trivia_gap hform)

end DeclarationsWitness

end Callable

end ObjectLiteral
