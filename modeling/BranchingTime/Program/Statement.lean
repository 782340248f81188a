import BranchingTime.Text.Blank
import BranchingTime.Text.Piece
import BranchingTime.Text.Word
import BranchingTime.Program.Error

/-!
# Statements

What a single statement is, by its text alone. A text of expression
characters that is no assignment and no `read` has no effect.
-/

namespace BranchingTime

/-- A statement; the texts of its parts are not looked into. -/
inductive Statement where
  | ifHeader (cond : String)
  | whileHeader (cond : String)
  | elseHeader
  | openBrace
  | closeBrace
  | assign (name rhs : String)
  | read (name : String)
  | ignored
  deriving DecidableEq, Repr

namespace Statement

open Text

/-- Characters of arithmetic expressions. -/
def isExpressionChar (c : Char) : Bool :=
  isWordChar c || isBlank c || "()+-*/".toList.contains c

/-- Characters of conditions. -/
def isConditionChar (c : Char) : Bool :=
  isExpressionChar c || "><!=|&".toList.contains c

/-- What stands in the parentheses that follow a keyword, up to the end of
the text. -/
def argument? (keyword : String) (text : List Char) : Option (List Char) := do
  let rest ← after? keyword.toList text
  let rest ← after? ['('] (trimStart rest)
  beforeLast? ')' rest

/-- The condition of a header that starts with a keyword. -/
def condition? (keyword : String) (text : List Char) : Option String := do
  let inner ← argument? keyword text
  if !inner.isEmpty && inner.all isConditionChar then some (String.ofList (trim inner)) else none

/-- Name and right-hand side of an assignment. -/
def assignment? (text : List Char) : Option (String × String) := do
  let (left, right) ← splitFirst? '=' text
  let name := trimEnd left
  if isIdentifier name && !right.isEmpty && right.all isExpressionChar then
    some (String.ofList name, String.ofList (trim right))
  else none

/-- The variable that is read. -/
def readTarget? (text : List Char) : Option String := do
  let name := trim (← argument? "read" text)
  if isIdentifier name then some (String.ofList name) else none

/-- What the text of a statement is. -/
def classify (text : String) : Except ProgramError Statement :=
  let cs := text.toList
  if let some cond := condition? "if" cs then .ok (.ifHeader cond)
  else if let some cond := condition? "while" cs then .ok (.whileHeader cond)
  else if text = "else" then .ok .elseHeader
  else if text = "\x7b" then .ok .openBrace
  else if text = "\x7d" then .ok .closeBrace
  else if let some (name, rhs) := assignment? cs then .ok (.assign name rhs)
  else if let some name := readTarget? cs then .ok (.read name)
  else if cs.all isExpressionChar then .ok .ignored
  else .error (.malformedStatement text)

end Statement

end BranchingTime
