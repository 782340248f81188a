/-!
# Operators

Operators of the expression language, by arity, with their precedence and
their written form. From loosest to tightest: `||`, then `&&`, the
comparisons, sums, products, and the two unary operators.
-/

namespace BranchingTime.Expr

inductive UnaryOp where
  | not | neg
  deriving DecidableEq, Repr

inductive BinaryOp where
  | or | and | eq | ne | lt | le | gt | ge | add | sub | mul | div
  deriving DecidableEq, Repr

namespace UnaryOp

/-- The written form. A sign is told apart from a difference. -/
def symbol : UnaryOp → String
  | not => "!"
  | neg => "U-"

/-- Unary operators bind tighter than all others. -/
def precedence (_ : UnaryOp) : Nat := 6

end UnaryOp

namespace BinaryOp

def symbol : BinaryOp → String
  | or => "||"
  | and => "&&"
  | eq => "=="
  | ne => "!="
  | lt => "<"
  | le => "<="
  | gt => ">"
  | ge => ">="
  | add => "+"
  | sub => "-"
  | mul => "*"
  | div => "/"

def precedence : BinaryOp → Nat
  | or => 1
  | and => 2
  | eq | ne | lt | le | gt | ge => 3
  | add | sub => 4
  | mul | div => 5

end BinaryOp

end BranchingTime.Expr
