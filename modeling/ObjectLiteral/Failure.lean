/-!
Failures that a caller is told of.
-/

namespace ObjectLiteral

/-- Why an operation gave no result. -/
inductive Failure where
  /-- A hook refused to go on. -/
  | hook (reason : String)
  /-- A sink did not take the text. -/
  | output (reason : String)
  /-- A value is of a kind that its place does not take. -/
  | unsupported (reason : String)
  /-- Any other reason, in the words of whoever gives it. -/
  | custom (reason : String)
deriving DecidableEq

namespace Failure

/-- The text of a failure: its cause, then its reason. -/
def message : Failure → String
  | hook reason => "Hook error: " ++ reason
  | output reason => "IO error: " ++ reason
  | unsupported reason => "Unsupported type: " ++ reason
  | custom reason => "Error: " ++ reason

end Failure

end ObjectLiteral
