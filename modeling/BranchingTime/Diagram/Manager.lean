import BranchingTime.Journal
import BranchingTime.Diagram.UniqueTable
import BranchingTime.Diagram.ResultCache

/-!
# The diagram manager

A manager owns every decision diagram: a unique table of nodes and a cache
of results. Variables are numbered from `1`; a node's variable is also its
level, and smaller variables stand nearer to the root. Edges may be
complemented, except that the high edge of a stored node never is; with
equal children never stored, a function has one handle only.

Operations run in `DiagramM`: they change the manager, and a fault leaves
it in the state it had reached.
-/

namespace BranchingTime

/-- A decision on a variable. -/
structure Node where
  var : Nat
  low : Handle
  high : Handle
  deriving DecidableEq, Repr

/-- The terminal node decides nothing and has no children. -/
instance : Inhabited Node where
  default := ⟨0, .ofIndex 0, .ofIndex 0⟩

instance : Digest Node where
  digest n := scramble (pairWords3 (UInt64.ofNat n.var) n.low.word n.high.word)

/-- The arguments of an if-then-else whose result is worth remembering. -/
structure IteKey where
  cond : Handle
  thenArg : Handle
  elseArg : Handle
  deriving DecidableEq, Repr

instance : Digest IteKey where
  digest k := scramble (pairWords3 k.cond.word k.thenArg.word k.elseArg.word)

/-- All diagrams over `numVars` variables, and what has been done to them. -/
structure Manager where
  numVars : Nat
  table : UniqueTable Node
  cache : ResultCache IteKey Handle
  journal : Journal

namespace Manager

/-- The unique table of a new manager has `2^16` buckets. -/
def initialTableBits : Nat := 16

/-- A manager whose only diagrams are the constants; the terminal node is
in cell `1`. -/
def new? (numVars cacheBits : Nat) : Except Fault Manager := do
  let cache ← ResultCache.new? cacheBits
  let table := UniqueTable.empty initialTableBits
  return { numVars, table := (table.alloc default).2, cache, journal := #[] }

/-- Opens a manager. Its journal goes on from the one kept so far. -/
def start (numVars cacheBits : Nat) : Logged Fault Manager := do
  record (.opening numVars cacheBits)
  let m ← MonadExcept.ofExcept (new? numVars cacheBits)
  return { m with journal := ← get }

/-- How many nodes are stored, the terminal node included. -/
def numNodes (m : Manager) : Nat := m.table.live

/-- The node stored in cell `i`. -/
def node (m : Manager) (i : Nat) : Node := (m.table.value? i).getD default

/-- The variable that `f` decides first; `0` for a constant. -/
def topVar (m : Manager) (f : Handle) : Nat := (m.node f.index).var

/-- What `f` becomes when its first variable is false. -/
def low (m : Manager) (f : Handle) : Handle :=
  (m.node f.index).low.complementIf f.isComplemented

/-- What `f` becomes when its first variable is true. -/
def high (m : Manager) (f : Handle) : Handle :=
  (m.node f.index).high.complementIf f.isComplemented

/-- What `f` becomes when `v` is false and when it is true, for a variable
`v` at or above the first variable of `f`. -/
def cofactors (m : Manager) (f : Handle) (v : Nat) : Handle × Handle :=
  if f.isTerminal || v < m.topVar f then (f, f) else (m.low f, m.high f)

/-- No path from a root to a constant is longer than this, whether the
nodes are ordered (then the variables bound it) or not (then the cells do). -/
def depthBound (m : Manager) : Nat := m.table.cells.size + m.numVars + 1

/-- The readable state of a manager. -/
def summary (m : Manager) : String :=
  "Bdd \x7b num_vars: " ++ toString m.numVars ++ ", size: " ++ toString m.table.size
    ++ ", real_size: " ++ toString m.table.live ++ " \x7d"

end Manager

/-- Operations on a manager. -/
abbrev DiagramM := EStateM Fault Manager

instance : MonadJournal DiagramM where
  record e := modify fun m => { m with journal := m.journal.push e }

namespace Manager

/-- Runs an operation; a fault keeps the state that was reached. -/
def run {α : Type} (m : Manager) (x : DiagramM α) : Except Fault α × Manager :=
  match x m with
  | .ok a m => (.ok a, m)
  | .error e m => (.error e, m)

end Manager

namespace Diagram

/-- Stores a node, and records when the table grew for it. -/
def store (n : Node) : DiagramM Handle := do
  let (i, grown?) ← modifyGet fun m =>
    let (i, grown?, table) := m.table.put n
    ((i, grown?), { m with table })
  grown?.forM record
  return .ofIndex i

/-- The diagram that decides `v` and goes on as `low` or `high`. A node
whose high edge would be complemented is stored as its complement. -/
def mkNode (v : Nat) (low high : Handle) : DiagramM Handle :=
  if v = 0 then throw .zeroVariable
  else if low = high then return low
  else if high.isComplemented then return -(← store ⟨v, -low, -high⟩)
  else store ⟨v, low, high⟩

/-- Fails unless `v` is a variable of the manager. -/
def checkVariable (v : Nat) : DiagramM Unit := do
  let n := (← get).numVars
  if v = 0 || n < v then throw (.outOfRange v n)

/-- The diagram of a variable. -/
def mkVar (v : Nat) : DiagramM Handle := do
  checkVariable v
  mkNode v .zero .one

/-- Puts a literal above a cube: `v` for a variable, `-v` for its negation. -/
def addLiteral (cube : Handle) (literal : Int) : DiagramM Handle :=
  if literal < 0 then mkNode literal.natAbs cube .zero else mkNode literal.natAbs .zero cube

/-- The conjunction of a set of literals, built from the lowest level up. -/
def cube (literals : List Int) : DiagramM Handle :=
  let sorted := literals.mergeSort fun a b => b.natAbs ≤ a.natAbs
  sorted.foldlM addLiteral .one

end Diagram

end BranchingTime
