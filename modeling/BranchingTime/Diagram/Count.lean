import Std.Data.HashMap
import BranchingTime.Diagram.Manager

/-!
# Counting satisfying assignments

`Manager.satCount f n` counts the assignments of the variables `1..=n` that
make `f` true. A node counts its two branches, each once for every choice
of the variables that the branch skips. The constants stand one level
below the manager's last variable, or below the last counted variable if
that comes first.
-/

namespace BranchingTime

namespace Manager

/-- The level of `f`, where the constants are below all variables. -/
def level (m : Manager) (f : Handle) : Nat :=
  if f.isTerminal then m.numVars + 1 else m.topVar f

/-- How many counted variables lie between a node at level `v` and its
child `f`. -/
def skipped (m : Manager) (n v : Nat) (f : Handle) : Except Fault Nat :=
  let l := min (m.level f) (n + 1)
  if v < l then .ok (l - v - 1) else .error .disordered

/-- Counts of subdiagrams that were counted before. -/
abbrev CountM := StateT (Std.HashMap Handle Nat) (Except Fault)

/-- Counts the assignments of the variables from the level of `f` on,
descending at most `depth` levels. -/
def countWithin (m : Manager) (n : Nat) : Nat → Handle → CountM Nat
  | 0, _ => throw .bottomless
  | depth + 1, f => do
    if f = .zero then return 0
    if f = .one then return 1
    match (← get)[f]? with
    | some c => return c
    | none =>
      let v := m.topVar f
      if n < v then throw (.beyond v n)
      let c0 ← countWithin m n depth (m.low f)
      let s0 ← m.skipped n v (m.low f)
      let c1 ← countWithin m n depth (m.high f)
      let s1 ← m.skipped n v (m.high f)
      let c := c0 * Nat.pow 2 s0 + c1 * Nat.pow 2 s1
      modify (·.insert f c)
      return c

/-- The number of assignments of `n` variables that make `f` true. -/
def satCount (m : Manager) (f : Handle) (n : Nat) : Except Fault Nat := do
  let (c, _) ← m.countWithin n m.depthBound f ∅
  return c * Nat.pow 2 (min (m.level f) (n + 1) - 1)

end Manager

/-- Counts in the manager at hand. -/
def Diagram.satCount (f : Handle) (n : Nat) : DiagramM Nat := do
  MonadExcept.ofExcept ((← get).satCount f n)

end BranchingTime
