import BranchingTime.Program.ControlTable
import BranchingTime.Expr.Machine

/-!
# Steps of a program

A continuation is a program counter with what is known of the variables.
`ControlTable.step` is what one entry does to it, and
`ControlTable.successors` lists where the program can go on. A `read`
forgets the variable at once, and goes on with every 16-bit value; the end
of the program repeats itself.
-/

namespace BranchingTime

/-- Why a program has no transition system. -/
inductive UnfoldError where
  | emptyProgram
  /-- An expression has no value at an entry. -/
  | unresolved (pc : Nat) (text : String) (cause : EvalError)
  /-- A condition has an integer value. -/
  | notBoolean (text : String)
  /-- An assigned expression has a truth value. -/
  | notInteger (pc : Nat) (text : String)
  /-- An atomic predicate is no expression. -/
  | predicate (text : String) (cause : ExprError)
  deriving DecidableEq, Repr

namespace UnfoldError

def message : UnfoldError → String
  | emptyProgram => "empty program"
  | unresolved pc text cause => "cannot evaluate '" ++ text ++ s!"' at pc {pc}: " ++ cause.message
  | notBoolean text => s!"'{text}' is not a condition"
  | notInteger pc text => s!"'{text}' at pc {pc} is not an integer expression"
  | predicate text cause => "bad atomic predicate '" ++ text ++ "': " ++ cause.message

/-- The messages of the errors behind an error, nearest first. -/
def causes : UnfoldError → List String
  | unresolved _ _ cause => [cause.message]
  | predicate _ cause => [cause.message]
  | _ => []

end UnfoldError

/-- Where a program is, and what is known of its variables. -/
structure Continuation where
  pc : Nat
  binding : Binding
  deriving DecidableEq, Hashable, Repr

namespace Continuation

/-- The start of a program: nothing is known. -/
def start (numVars : Nat) : Continuation := ⟨0, List.replicate numVars none⟩

/-- Goes to another entry; what is known stays. -/
def goto (c : Continuation) (pc : Nat) : Continuation := { c with pc }

end Continuation

namespace Action

/-- The value of an expression at an entry. -/
def valueAt (pc : Nat) (e : Expr) (binding : Binding) : Except UnfoldError Value :=
  match e.evaluate binding with
  | .ok v => .ok v
  | .error cause => .error (.unresolved pc e.text cause)

/-- The truth value of a condition at an entry. -/
def condition (pc : Nat) (cond : Expr) (binding : Binding) : Except UnfoldError Bool := do
  match ← valueAt pc cond binding with
  | .bool b => return b
  | .int _ => throw (.notBoolean cond.text)

end Action

namespace Entry

/-- What an entry does to a continuation that stands at it. -/
def step (e : Entry) (c : Continuation) : Except UnfoldError Continuation :=
  match e.action with
  | .read var => return ⟨e.next, c.binding.set var none⟩
  | .assign var rhs => do
    match ← Action.valueAt c.pc rhs c.binding with
    | .int value => return ⟨e.next, c.binding.set var (some value)⟩
    | .bool _ => throw (.notInteger c.pc rhs.text)
  | .branch cond thenPc elsePc => do
    return c.goto (if ← Action.condition c.pc cond c.binding then thenPc else elsePc)
  | .loop cond bodyPc exitPc => do
    return c.goto (if ← Action.condition c.pc cond c.binding then bodyPc else exitPc)
  | .elseMark _ | .groupEnd .. => return c.goto e.next

end Entry

/-- All 16-bit values, in ascending order. -/
def allValues : List Int16 := (List.range 65536).map fun i => Int16.ofInt ((i : Nat) - 32768)

namespace ControlTable

/-- The step of the program at a continuation; the end stays where it is. -/
def step (t : ControlTable) (c : Continuation) : Except UnfoldError Continuation :=
  match t.entry? c.pc with
  | some e => e.step c
  | none => .ok c

/-- The continuations to go on with after the step from `c` to `next`. -/
def successors (t : ControlTable) (c next : Continuation) : List Continuation :=
  match t.entry? c.pc with
  | none => []
  | some e =>
    match e.action with
    | .read var => allValues.map fun v => { next with binding := next.binding.set var (some v) }
    | _ => [next]

end ControlTable

end BranchingTime
