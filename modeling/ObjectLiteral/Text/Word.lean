/-!
ASCII words: the names that may stand bare as a key, and the leading word of a declaration.
-/

namespace ObjectLiteral.Text

/-- The characters of a word are the ASCII letters and digits, the underscore and the dollar. -/
def isWordChar (c : Char) : Bool :=
  c.isAlphanum || c == '_' || c == '$'

/-- An identifier is a word that is not empty and does not start with a digit. -/
def isIdentifier : List Char → Bool
  | [] => false
  | c :: cs => isWordChar c && !c.isDigit && cs.all isWordChar

end ObjectLiteral.Text
