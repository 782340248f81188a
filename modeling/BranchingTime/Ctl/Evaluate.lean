import BranchingTime.Diagram.Quantifier
import BranchingTime.Ctl.Formula
import BranchingTime.Kripke.Model

/-!
# The states of a formula

The code of a formula is run on sets of states. `EX` is the image of the
transitions backwards; `AX` is its dual. The operators with a horizon are
fixpoints: the sets only grow or only shrink from one iteration to the
next, so there are no more iterations than states, and one to see that
nothing changes.
-/

namespace BranchingTime

namespace Model

/-- The states with a successor in `f`. -/
def ex (m : Model) (f : Handle) : DiagramM Handle := do
  if f = .zero then return f
  let shifted ← Diagram.rename (.ofList m.encoding.toNext) f
  Diagram.andExists (m.encoding.vars .next) m.transitions shifted

/-- The states all of whose successors are in `f`. -/
def ax (m : Model) (f : Handle) : DiagramM Handle := return -(← m.ex (-f))

end Model

namespace Diagram

/-- Iterates from `z`, after `count` iterations, until nothing changes; at
most `fuel` times more. -/
def fixpointWithin (step : Handle → DiagramM Handle) : Nat → Nat → Handle → DiagramM Handle
  | 0, _, _ => throw .unsettled
  | fuel + 1, count, z => do
    let z' ← step z
    if z' = z then
      record (.fixpointReached (count + 1))
      return z
    fixpointWithin step fuel (count + 1) z'

end Diagram

namespace Model

/-- The fixpoint of `step` that is reached from `z`. -/
def fixpoint (m : Model) (step : Handle → DiagramM Handle) (z : Handle) : DiagramM Handle :=
  Diagram.fixpointWithin step (Nat.pow 2 m.encoding.halfWidth + 1) 0 z

/-- The states of a unary operator. -/
def unary (m : Model) (op : Ctl.UnaryOp) (f : Handle) : DiagramM Handle :=
  match op with
  | .not => return -f
  | .ex => m.ex f
  | .ax => m.ax f
  | .ef => m.fixpoint (fun z => do Diagram.disj z (← m.ex z)) f
  | .af => m.fixpoint (fun z => do Diagram.disj z (← m.ax z)) f
  | .eg => m.fixpoint (fun z => do Diagram.conj z (← m.ex z)) f
  | .ag => m.fixpoint (fun z => do Diagram.conj z (← m.ax z)) f

/-- The states of a binary operator. -/
def binary (m : Model) (op : Ctl.BinaryOp) (f g : Handle) : DiagramM Handle :=
  match op with
  | .and => Diagram.conj f g
  | .or => Diagram.disj f g
  | .xor => Diagram.xor f g
  | .eu => m.fixpoint (fun z => do Diagram.disj g (← Diagram.conj f (← m.ex z))) g
  | .au => m.fixpoint (fun z => do Diagram.disj g (← Diagram.conj f (← m.ax z))) g

/-- Evaluations that may fail for a reason in the formula. -/
abbrev EvaluateM := ExceptT CtlError DiagramM

/-- Executes one instruction on a stack of sets of states. -/
def exec (m : Model) : List Handle → Ctl.Instr → EvaluateM (List Handle)
  | stack, .operand index =>
    match m.predicates[index]? with
    | some p => return p.states :: stack
    | none => throw (.operandOutOfRange index m.predicates.length)
  | f :: stack, .unary op => return (← m.unary op f) :: stack
  | [], .unary op => throw (.stackUnderflow op.keyword)
  | g :: f :: stack, .binary op => return (← m.binary op f g) :: stack
  | _, .binary op => throw (.stackUnderflow op.keyword)

/-- The states where a formula is true. -/
def evaluate (m : Model) (f : Ctl.Formula) : EvaluateM Handle := do
  match ← f.code.foldlM m.exec [] with
  | [states] => return states
  | stack => throw (.leftover stack.length)

end Model

end BranchingTime
