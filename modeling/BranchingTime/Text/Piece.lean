/-!
# Cutting a text into pieces

`pieces` cuts at every occurrence of a separator; `lines` cuts at line
ends, where a carriage return before the line feed belongs to the line
end and a line feed at the very end starts no further line.
-/

namespace BranchingTime.Text

/-- The parts between the separators; one more than there are separators. -/
def pieces (sep : Char) : List Char → List (List Char)
  | [] => [[]]
  | c :: cs =>
    match pieces sep cs with
    | [] => [[c]]
    | p :: ps => if c = sep then [] :: p :: ps else (c :: p) :: ps

/-- Drops one carriage return from the end of a line. -/
def dropReturn (line : List Char) : List Char :=
  match line.getLast? with
  | some '\r' => line.dropLast
  | _ => line

/-- The lines of a text. The last piece is a line only if it is not empty,
and no line feed follows it. -/
def linesOfPieces : List (List Char) → List (List Char)
  | [] => []
  | [[]] => []
  | [p] => [p]
  | p :: ps => dropReturn p :: linesOfPieces ps

/-- The lines of a text, without their line ends. -/
def lines (cs : List Char) : List (List Char) := linesOfPieces (pieces '\n' cs)

/-- What follows `start` in a text that begins with it. -/
def after? : List Char → List Char → Option (List Char)
  | [], cs => some cs
  | _ :: _, [] => none
  | s :: start, c :: cs => if s = c then after? start cs else none

/-- What precedes a last character `c`. -/
def beforeLast? (c : Char) (cs : List Char) : Option (List Char) :=
  if cs.getLast? = some c then some cs.dropLast else none

/-- The parts before and after the first occurrence of a separator. -/
def splitFirst? (sep : Char) : List Char → Option (List Char × List Char)
  | [] => none
  | c :: cs =>
    if c = sep then some ([], cs)
    else (splitFirst? sep cs).map fun p => (c :: p.1, p.2)

end BranchingTime.Text
