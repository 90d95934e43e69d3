import ObjectLiteral.Text.Trivia
import ObjectLiteral.Text.Word
/-!
Callables: their kind, the text of their declaration, and whether that text is a declaration in
method shorthand.  The text is never evaluated; only its start is looked at.
-/

namespace ObjectLiteral

namespace Callable

/-- What a call of a callable gives: a value, a promise, an iterator or an iterator of promises. -/
inductive Kind where
  | normal
  | async
  | generator
  | asyncGenerator
deriving DecidableEq

def Kind.isAsync : Kind → Bool
  | .async | .asyncGenerator => true
  | .normal | .generator => false

def Kind.keyword : Kind → String
  | .normal => "function"
  | .async => "async function"
  | .generator => "function*"
  | .asyncGenerator => "async function*"

end Callable

/-- A callable, numbered by its making.  A native one has no declaration text. -/
structure Callable where
  serial : Nat
  name : String
  kind : Callable.Kind
  source : Option String
deriving DecidableEq

namespace Callable

/-- The text that stands for a native callable. -/
def placeholder (c : Callable) : String :=
  c.kind.keyword ++ " " ++ c.name ++ "() \x7b [native code] \x7d"

/-- The text after its first `n` bytes of UTF-8, unless that cut is past the end or inside a
character. -/
def dropBytes? : List Char → Nat → Option (List Char)
  | cs, 0 => some cs
  | [], _ + 1 => none
  | c :: cs, n + 1 => if c.utf8Size ≤ n + 1 then dropBytes? cs (n + 1 - c.utf8Size) else none

/-- What follows the word `async` at the start of a declaration.  Nothing follows where the text
cannot be cut after five bytes. -/
def afterAsync (cs : List Char) : List Char :=
  (dropBytes? cs 5).getD []

theorem suffix_of_dropBytes? {cs rest : List Char} {n : Nat}
    (hrest : dropBytes? cs n = some rest) : rest <:+ cs := by
  fun_induction dropBytes? cs n with
  | case1 cs => exact Option.some.inj hrest ▸ List.suffix_rfl
  | case2 => cases hrest
  | case3 c cs n hle ih => exact (ih hrest).trans (List.suffix_cons c cs)
  | case4 => cases hrest

theorem afterAsync_suffix (cs : List Char) : afterAsync cs <:+ cs := by
  rw [afterAsync]
  cases hrest : dropBytes? cs 5 with
  | none => exact List.nil_suffix
  | some rest => exact suffix_of_dropBytes? hrest

/-- The text opens with a keyword that is followed by a blank or by one of `marks`. -/
def opensWith (keyword : String) (marks : List Char) (cs : List Char) : Bool :=
  match keyword.toList.isPrefixOf? cs with
  | some (c :: _) => Text.isBlank c || marks.contains c
  | _ => false

/-- The text is an arrow function of one bare parameter: a word, trivia, and an arrow. -/
def isBareArrow (cs : List Char) : Bool :=
  match cs.takeWhile Text.isWordChar with
  | [] => false
  | _ :: _ => ['=', '>'].isPrefixOf (Text.dropTrivia (cs.dropWhile Text.isWordChar))

/-- A declaration, without the word `async`, is in method shorthand unless it is an arrow function
or opens with `function` or `class`.  A callable that is named by such a keyword may open with
it. -/
def isMethod (name : String) (cs : List Char) : Bool :=
  cs.head? != some '('
    && !(opensWith "function" ['(', '/', '*'] cs && name != "function")
    && !(opensWith "class" ['{', '/', '*'] cs && name != "class")
    && !isBareArrow cs

/-- The part of a declaration that decides its form. -/
def declared (kind : Kind) (cs : List Char) : List Char :=
  if kind.isAsync then Text.dropTrivia (afterAsync cs) else cs

/-- The declaration text of a callable that was declared in method shorthand. -/
def methodSource? (c : Callable) : Option String :=
  match c.source with
  | some s => if isMethod c.name (declared c.kind s.toList) then some s else none
  | none => none

/-- A declaration in method shorthand as a full declaration. -/
def fullDeclaration (kind : Kind) (source : String) : String :=
  if kind.isAsync then "async function" ++ String.ofList (afterAsync source.toList)
  else "function " ++ source

/-- The method source of a callable where the shorthand is recognised at all. -/
def shorthand? (recognised : Bool) (c : Callable) : Option String :=
  if recognised then c.methodSource? else none

theorem source_of_shorthand? {c : Callable} {recognised : Bool} {source : String}
    (hmethod : c.shorthand? recognised = some source) : c.source = some source := by
  unfold shorthand? methodSource? at hmethod
  split at hmethod
  · split at hmethod
    · rename_i s hs
      split at hmethod
      · exact hs.trans hmethod
      · cases hmethod
    · cases hmethod
  · cases hmethod

/-- The text of a callable that is no entry of an object. -/
def text (recognised : Bool) (c : Callable) : String :=
  match c.shorthand? recognised with
  | some source => fullDeclaration c.kind source
  | none => c.source.getD c.placeholder

end Callable

end ObjectLiteral
