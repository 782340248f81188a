import BranchingTime.Journal
import BranchingTime.Text.Blank
import BranchingTime.Text.Piece
import BranchingTime.Text.Word
import BranchingTime.Program.Error

/-!
# Program text

A program text is brought into a normal form: the declared variables, and
the other statements in order. Comments go, braces become statements of
their own, and statements end at semicolons. Blanks other than spaces do
not count inside a statement, nor do any blanks at its ends.
-/

namespace BranchingTime

/-- Declared variables and statements of a program. -/
structure Program where
  names : List String
  statements : List String
  deriving DecidableEq, Repr

namespace Program

open Text

/-- Words that no variable may have as its name. -/
def reserved : List String := ["if", "else", "while", "read", "int"]

/-- Is the text a letter followed by letters, digits and underscores? -/
def isName (text : String) : Bool := isIdentifier text.toList

/-- The part of a line before its comment. -/
def dropComment : List Char → List Char
  | [] => []
  | '/' :: '/' :: _ => []
  | c :: cs => c :: dropComment cs

/-- Puts semicolons around a brace. -/
def isolateBrace (c : Char) : List Char :=
  if c = '\x7b' || c = '\x7d' then [';', c, ';'] else [c]

/-- The text without comments, and with every brace a statement of its own. -/
def bare (text : List Char) : List Char :=
  (['\n'].intercalate ((lines text).map dropComment)).flatMap isolateBrace

/-- The parts between semicolons, without the empty ones at the end. -/
def parts (text : List Char) : List (List Char) :=
  ((pieces ';' (bare text)).reverse.dropWhile List.isEmpty).reverse

/-- The name that a part declares, if it is a declaration. -/
def declared? (part : List Char) : Option (List Char) := do
  let rest ← after? "int ".toList part
  let name := rest.dropWhile (· = ' ')
  if isIdentifier name then some name else none

/-- The statement that a part is: of its blanks only the inner spaces stay. -/
def statement (part : List Char) : List Char :=
  trim (part.filter fun c => c = ' ' || !isBlank c)

/-- Adds a part of the text to what was read before. -/
def add (p : Program) (part : List Char) : Except ProgramError Program :=
  let part := trim part
  match declared? part with
  | some name =>
    let name := String.ofList name
    if name ∈ reserved then .error (.forbiddenName name)
    else if name ∈ p.names then .error (.duplicateVariable name)
    else .ok { p with names := p.names ++ [name] }
  | none => .ok { p with statements := p.statements ++ [String.ofList (statement part)] }

/-- The normal form of a program text. -/
def parse (text : String) : Except ProgramError Program :=
  (parts text.toList).foldlM add ⟨[], []⟩

/-- Like `parse`, and records what was found. -/
def parseLogged (text : String) : Logged ProgramError Program := do
  let p ← MonadExcept.ofExcept (parse text)
  record (.programParsed p.names.length p.statements.length)
  return p

end Program

end BranchingTime
