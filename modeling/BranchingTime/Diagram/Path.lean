import BranchingTime.Diagram.PathCursor

/-!
# Paths and cubes

A path from a diagram to the constant true is a cube: the literals decided
on the way, in order, `v` for a variable taken as true and `-v` for one
taken as false. Variables that a path does not decide are free. Paths are
listed true branch first.

`Manager.pathsUpTo` lists the first few paths only, and looks no further
once it has them; a diagram can have very many. `Manager.paths?` takes them
from a cursor, one at a time.

The text of a set of cubes writes each cube as `<i:b, ...>`, with the bit
index `i` one below the variable and `b` the bit. True is `<>`, and false
is the empty text.
-/

namespace BranchingTime

namespace Manager

/-- All paths of `f`, going down at most `depth` levels. -/
def pathsWithin (m : Manager) : Nat → Handle → List Literals
  | 0, _ => []
  | depth + 1, f =>
    if f = .one then [[]]
    else if f = .zero then []
    else
      let v : Int := m.topVar f
      (pathsWithin m depth (m.high f)).map (v :: ·)
        ++ (pathsWithin m depth (m.low f)).map (-v :: ·)

/-- All paths of `f`, true branch first. -/
def paths (m : Manager) (f : Handle) : List Literals :=
  m.pathsWithin m.depthBound f

/-- The first `count` paths of `f`, going down at most `depth` levels. -/
def pathsUpToWithin (m : Manager) : Nat → Nat → Handle → List Literals
  | 0, _, _ => []
  | depth + 1, count, f =>
    if count = 0 then []
    else if f = .one then [[]]
    else if f = .zero then []
    else
      let v : Int := m.topVar f
      let taken := (pathsUpToWithin m depth count (m.high f)).map (v :: ·)
      taken ++ (pathsUpToWithin m depth (count - taken.length) (m.low f)).map (-v :: ·)

/-- The first `count` paths of `f`. -/
def pathsUpTo (m : Manager) (count : Nat) (f : Handle) : List Literals :=
  m.pathsUpToWithin m.depthBound count f

/-- The paths of `f` as a cursor hands them out, at most `limit?` many if a
limit is given. -/
def paths? (m : Manager) (limit? : Option Nat) (f : Handle) : List Literals :=
  match limit? with
  | some count => (PathCursor.start f).take m count
  | none => (PathCursor.start f).toList m

end Manager

/-- The written form of a literal: bit index and bit. -/
def literalText (literal : Int) : String :=
  toString (literal.natAbs - 1) ++ ":" ++ (if 0 < literal then "1" else "0")

/-- The written form of a cube. -/
def cubeText (cube : Literals) : String :=
  "<" ++ ", ".intercalate (cube.map literalText) ++ ">"

namespace Manager

/-- The text of the cubes of `f`, at most `limit?` many if a limit is given. -/
def cubesText (m : Manager) (limit? : Option Nat) (f : Handle) : String :=
  let paths := match limit? with
    | some count => m.pathsUpTo count f
    | none => m.paths f
  String.join (paths.map cubeText)

end Manager

end BranchingTime
