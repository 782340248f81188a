import Std.Data.HashSet
import BranchingTime.Diagram.Reach
import BranchingTime.State.Encoding
import BranchingTime.Kripke.Step

/-!
# The transition system of a program

The program is run over concrete values from the start, where nothing is
known. A work-list holds the continuations that are still to be expanded,
last found first. Each expanded continuation contributes its state to
every atomic predicate that is true there, and one cube of transitions
from its state to the next. No continuation is expanded twice.

Garbage is collected when more nodes are stored than a threshold allows;
the threshold doubles when that frees less than half of it.
-/

namespace BranchingTime

/-- A condition on states that formulas refer to by number. -/
structure Predicate where
  id : Nat
  expr : Expr
  /-- The expanded states where the condition is true. -/
  states : Handle
  deriving DecidableEq, Repr

namespace Predicate

/-- A predicate that is true nowhere yet. -/
def compile (id : Nat) (text : String) (names : List String) : Except UnfoldError Predicate :=
  match Expr.compile text names with
  | .ok expr => .ok ⟨id, expr, .zero⟩
  | .error cause => .error (.predicate text cause)

/-- Compiles predicates in order, numbering them from `first` on. Returns
the first number that is not taken, also when a predicate is wrong. -/
def compileAll (names : List String) : Nat → List String → Nat × Except UnfoldError (List Predicate)
  | first, [] => (first, .ok [])
  | first, text :: texts =>
    match compile first text names with
    | .error e => (first + 1, .error e)
    | .ok p =>
      let (next, ps) := compileAll names (first + 1) texts
      (next, ps.map (p :: ·))

/-- The written form: number and condition. -/
def text (p : Predicate) : String := toString p.id ++ ": " ++ p.expr.text

/-- Is the condition known to be true? A condition that cannot be
evaluated, or that is no truth value, is not. -/
def holdsAt (p : Predicate) (binding : Binding) : Bool :=
  match p.expr.evaluate binding with
  | .ok (.bool true) => true
  | _ => false

end Predicate

/-- A transition system over encoded states. -/
structure Model where
  start : Handle
  transitions : Handle
  predicates : List Predicate
  encoding : Encoding
  deriving Repr

/-- Unfoldings that may fail for a reason in the program. -/
abbrev UnfoldM := ExceptT UnfoldError DiagramM

/-- What an unfolding works on. -/
structure Unfolding where
  table : ControlTable
  encoding : Encoding
  start : Handle

/-- How far an unfolding has come. -/
structure Progress where
  transitions : Handle
  predicates : List Predicate
  visited : Std.HashSet Continuation
  /-- Continuations to expand, next one first. -/
  worklist : List Continuation
  threshold : Nat
  expanded : Nat

namespace Progress

/-- Puts a continuation on the work-list unless it was found before. -/
def visit (p : Progress) (c : Continuation) : Progress :=
  if p.visited.contains c then p
  else { p with visited := p.visited.insert c, worklist := c :: p.worklist }

end Progress

namespace Unfolding

/-- Adds the state of `c` to the predicates that are true there. The state
is built when the first predicate needs it. -/
def label (t : Unfolding) (c : Continuation) :
    Option Handle → List Predicate → DiagramM (List Predicate)
  | _, [] => return []
  | built?, p :: ps => do
    if p.holdsAt c.binding then
      let state ← match built? with
        | some state => pure state
        | none => t.encoding.state c.pc c.binding .current
      let states ← Diagram.disj p.states state
      return { p with states } :: (← label t c (some state) ps)
    else
      return p :: (← label t c built? ps)

/-- Collects garbage when there is more than the threshold allows. -/
def tidy (t : Unfolding) (p : Progress) : DiagramM Progress := do
  if (← get).numNodes ≤ p.threshold then return p
  let _ ← Diagram.collectGarbage (t.start :: p.transitions :: p.predicates.map Predicate.states)
  if (← get).numNodes ≤ p.threshold / 2 then return p
  let threshold := 2 * p.threshold
  record (.thresholdRaised threshold)
  return { p with threshold }

/-- Expands one continuation. -/
def expand (t : Unfolding) (p : Progress) (c : Continuation) : UnfoldM Progress := do
  let predicates ← t.label c none p.predicates
  let next ← MonadExcept.ofExcept (t.table.step c)
  let edge ← t.encoding.edge c.pc c.binding next.pc next.binding
  let transitions ← Diagram.disj p.transitions edge
  let p := { p with transitions, predicates, expanded := p.expanded + 1 }
  t.tidy ((t.table.successors c next).foldl Progress.visit p)

/-- Expands continuations until none is left, at most `fuel` many. -/
def runWithin (t : Unfolding) : Nat → Progress → UnfoldM Progress
  | 0, _ => throwThe Fault .unsettled
  | fuel + 1, p =>
    match p.worklist with
    | [] => return p
    | c :: rest => do runWithin t fuel (← t.expand { p with worklist := rest } c)

/-- There are no more continuations than this: a counter, and a value or
nothing for every variable. -/
def continuationBound (e : Encoding) : Nat := 256 * Nat.pow 65537 e.names.length

end Unfolding

namespace Model

/-- The transition system of a table, labelled with predicates. A table that
starts with an `else` or with the end of a block would be one without
statements, too, but no program has such a table, so this is not tested. -/
def unfold (table : ControlTable) (encoding : Encoding) (threshold : Nat)
    (predicates : List Predicate) : UnfoldM Model := do
  if table.isEmpty then
    record .nothingToUnfold
    throw .emptyProgram
  let c := Continuation.start encoding.names.length
  let start ← encoding.state c.pc c.binding .current
  let t : Unfolding := ⟨table, encoding, start⟩
  let p : Progress := ⟨.zero, predicates, ∅, [], threshold, 0⟩
  let p ← t.runWithin (Unfolding.continuationBound encoding + 1) (p.visit c)
  record (.unfolded p.expanded ((← get).nodeCount p.transitions))
  return ⟨start, p.transitions, p.predicates, encoding⟩

end Model

end BranchingTime
