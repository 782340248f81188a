import BranchingTime.Expr.Code

/-!
# Running code

The stack machine evaluates the code of an expression under a binding of
the variables. Integers are 16-bit and wrap around; quotients are cut off
toward zero; truth values are apart from integers, and both operands of
`&&` and `||` are always evaluated. A binding need not know every
variable: reading an unknown one is an error.
-/

namespace BranchingTime

/-- What an expression evaluates to. -/
inductive Value where
  | int (n : Int16)
  | bool (b : Bool)
  deriving DecidableEq, Repr

namespace Value

def text : Value → String
  | int n => toString n.toInt
  | bool b => if b then "true" else "false"

end Value

/-- What is known of each variable. -/
abbrev Binding := List (Option Int16)

/-- Why an expression has no value. -/
inductive EvalError where
  | unbound (name : String)
  | divisionByZero
  | stackUnderflow
  | typeMismatch (symbol : String)
  | leftover (count : Nat)
  deriving DecidableEq, Repr

namespace EvalError

def message : EvalError → String
  | unbound name => s!"variable '{name}' has no concrete value"
  | divisionByZero => "division by zero"
  | stackUnderflow => "not enough operands"
  | typeMismatch symbol => s!"operand of wrong type for '{symbol}'"
  | leftover count => s!"expression reduced to {count} values"

end EvalError

namespace Expr

/-- The value of a unary operator. -/
def UnaryOp.apply : UnaryOp → Value → Except EvalError Value
  | .neg, .int n => .ok (.int (-n))
  | .not, .bool b => .ok (.bool !b)
  | op, _ => .error (.typeMismatch op.symbol)

/-- The value of a binary operator. -/
def BinaryOp.apply : BinaryOp → Value → Value → Except EvalError Value
  | .add, .int a, .int b => .ok (.int (a + b))
  | .sub, .int a, .int b => .ok (.int (a - b))
  | .mul, .int a, .int b => .ok (.int (a * b))
  | .div, .int a, .int b => if b = 0 then .error .divisionByZero else .ok (.int (a / b))
  | .eq, .int a, .int b => .ok (.bool (a = b))
  | .ne, .int a, .int b => .ok (.bool (a ≠ b))
  | .lt, .int a, .int b => .ok (.bool (a < b))
  | .le, .int a, .int b => .ok (.bool (a ≤ b))
  | .gt, .int a, .int b => .ok (.bool (b < a))
  | .ge, .int a, .int b => .ok (.bool (b ≤ a))
  | .and, .bool a, .bool b => .ok (.bool (a && b))
  | .or, .bool a, .bool b => .ok (.bool (a || b))
  | op, _, _ => .error (.typeMismatch op.symbol)

/-- What is known of the variable at `index`. -/
def lookup (binding : Binding) (index : Nat) (name : String) : Except EvalError Value :=
  match binding[index]? with
  | some (some n) => .ok (.int n)
  | _ => .error (.unbound name)

/-- Executes one instruction on a stack of values. -/
def exec (binding : Binding) : List Value → Instr → Except EvalError (List Value)
  | stack, .num n => return .int n :: stack
  | stack, .var index name => return (← lookup binding index name) :: stack
  | x :: stack, .unary op => return (← op.apply x) :: stack
  | y :: x :: stack, .binary op => return (← op.apply x y) :: stack
  | _, _ => throw .stackUnderflow

/-- Runs code from an empty stack; one value has to be left. -/
def runCode (binding : Binding) (code : List Instr) : Except EvalError Value := do
  match ← code.foldlM (exec binding) [] with
  | [v] => return v
  | stack => throw (.leftover stack.length)

/-- The value of an expression under a binding. -/
def evaluate (e : Expr) (binding : Binding) : Except EvalError Value :=
  runCode binding e.code

end Expr

end BranchingTime
