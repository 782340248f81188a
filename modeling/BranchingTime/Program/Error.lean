import BranchingTime.Expr.Code

/-!
# Program errors

Why a program text has no control-flow table.
-/

namespace BranchingTime

inductive ProgramError where
  /-- A reserved word was declared as a variable. -/
  | forbiddenName (name : String)
  | duplicateVariable (name : String)
  | unexpectedOpenBrace
  | unexpectedCloseBrace
  | elseWithoutIf
  /-- No block follows a header. -/
  | missingBrace (header : String)
  /-- The block that follows a header does not end. -/
  | unclosedBlock (header : String)
  | malformedStatement (text : String)
  | undeclaredVariable (name : String)
  /-- An expression mentions a name that is not declared. -/
  | unknownIdentifier (text : String)
  /-- An expression is wrong in some other way. -/
  | expr (text : String) (cause : ExprError)
  | tooManyStatements (count : Nat)
  deriving DecidableEq, Repr

namespace ProgramError

def message : ProgramError → String
  | forbiddenName name => s!"forbidden variable name '{name}'"
  | duplicateVariable name => s!"variable '{name}' declared twice"
  | unexpectedOpenBrace => "unsuitable open bracket (\x7b)"
  | unexpectedCloseBrace => "unsuitable close bracket (\x7d)"
  | elseWithoutIf => "else without if"
  | missingBrace header => "there is no '\x7b' after '" ++ header ++ "'"
  | unclosedBlock header => s!"block after '{header}' is never closed"
  | malformedStatement text => s!"malformed statement '{text}'"
  | undeclaredVariable name => s!"there is no '{name}' variable"
  | unknownIdentifier text => s!"unknown identifier in '{text}'"
  | expr text cause => "in '" ++ text ++ "': " ++ cause.message
  | tooManyStatements count =>
      s!"{count} program locations do not fit in the 8-bit program counter"

/-- The messages of the errors behind an error, nearest first. -/
def causes : ProgramError → List String
  | expr _ cause => [cause.message]
  | _ => []

end ProgramError

end BranchingTime
