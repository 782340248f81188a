import BranchingTime.Diagram.Manager

/-!
# Reachable nodes

`Manager.reach` marks the cells that can be reached from some roots. The
number of marks is the size of a diagram, and garbage collection frees
every stored node without a mark. The terminal cell is always marked.

The search keeps a list of cells to visit. Each step either marks a cell,
so fewer cells are unmarked, or shortens the list.
-/

namespace BranchingTime

namespace Manager

/-- The cells that the node in cell `i` points to. -/
def childCells (m : Manager) (i : Nat) : List Nat :=
  [(m.node i).low.index, (m.node i).high.index]

theorem count_false_set_lt {marks : Array Bool} {i : Nat} (h : i < marks.size)
    (hi : marks[i] = false) : (marks.set i true).count false < marks.count false := by
  have hpos : 0 < marks.count false :=
    Array.count_pos_iff.mpr (hi ▸ Array.getElem_mem h)
  rw [Array.count_set h, hi]
  exact Nat.sub_lt hpos Nat.one_pos

/-- Marks everything that can be reached from the cells to visit. -/
def markFrom (m : Manager) : List Nat → Array Bool → Array Bool
  | [], marks => marks
  | i :: todo, marks =>
    if h : i < marks.size then
      match hi : marks[i] with
      | true => markFrom m todo marks
      | false => markFrom m (m.childCells i ++ todo) (marks.set i true)
    else markFrom m todo marks
termination_by todo marks => (marks.count false, todo.length)
decreasing_by
  · exact Prod.Lex.right _ (by simp)
  · exact Prod.Lex.left _ _ (count_false_set_lt h hi)
  · exact Prod.Lex.right _ (by simp)

/-- The marks of the cells reachable from `roots`. -/
def reach (m : Manager) (roots : List Handle) : Array Bool :=
  let marks := (Array.replicate m.table.cells.size false).setIfInBounds Handle.one.index true
  m.markFrom (roots.map Handle.index) marks

/-- How many nodes the diagram of `f` has, the terminal node included. -/
def nodeCount (m : Manager) (f : Handle) : Nat := (m.reach [f]).count true

end Manager

namespace Diagram

/-- Frees every stored node that no root needs, and forgets all remembered
results. Returns how many nodes were freed. -/
def collectGarbage (roots : List Handle) : DiagramM Nat := do
  let before := (← get).numNodes
  let marks := (← get).reach roots
  let dropped ← modifyGet fun m =>
    let (dropped, table) := m.table.sweep fun i => marks.getD i false
    (dropped, { m with table, cache := m.cache.clear })
  record (.collected before (← get).numNodes dropped)
  return dropped

end Diagram

end BranchingTime
