import Std.Data.HashMap
import BranchingTime.Diagram.Connective

/-!
# Renaming variables

`rename map f` puts the variable `map v` in the place of every variable
`v` of `f` that the map mentions. The result is rebuilt by if-then-else
on the new variable, so the map need not keep the order of variables.
-/

namespace BranchingTime

/-- Which variable takes the place of which; variables that are not
mentioned stay. -/
abbrev VarMap := Std.HashMap Nat Nat

namespace Diagram

/-- Results of cells that were renamed before. -/
abbrev RenameM := StateT (Std.HashMap Nat Handle) DiagramM

/-- Renames the variables of `f`, descending at most `depth` levels. -/
def renameWithin (map : VarMap) : Nat → Handle → RenameM Handle
  | 0, _ => throw .bottomless
  | depth + 1, f => do
    if f.isTerminal then return f
    match (← get)[f.index]? with
    | some r => return r.complementIf f.isComplemented
    | none =>
      let n := (← getThe Manager).node f.index
      let e ← renameWithin map depth n.low
      let t ← renameWithin map depth n.high
      let x ← mkVar (map.getD n.var n.var)
      let r ← ite x t e
      modify (·.insert f.index r)
      return r.complementIf f.isComplemented

/-- Renames the variables of `f`. -/
def rename (map : VarMap) (f : Handle) : DiagramM Handle := do
  record (.substituting f map.size)
  let depth := (← get).depthBound
  return (← renameWithin map depth f ∅).1

end Diagram

end BranchingTime
