import BranchingTime.Expr.Lexeme

/-!
# Compiling expressions

An expression is compiled to code for a stack machine: operands first, in
reading order, each operator after its operands. Compilation is a fold
over the lexemes. Pending operators and open parentheses wait on a stack;
a binary operator first releases the pending ones that bind at least as
tightly, so binary operators associate to the left.

Errors are found in reading order: the first lexeme that cannot go on from
what was read decides which error is reported.
-/

namespace BranchingTime

/-- Why a text is no expression. -/
inductive ExprError where
  | empty
  | invalidCharacter (c : Char)
  | unmatchedParenthesis
  /-- An operator or an operand is missing near a lexeme. -/
  | adjacent (near : String)
  | unknownIdentifier (name : String)
  /-- A numeral beyond the largest 16-bit integer. -/
  | badLiteral (text : String)
  deriving DecidableEq, Repr

namespace ExprError

def message : ExprError → String
  | empty => "empty expression"
  | invalidCharacter c => s!"invalid character '{c}'"
  | unmatchedParenthesis => "unmatched parenthesis"
  | adjacent near => s!"missing operator or operand near '{near}'"
  | unknownIdentifier name => s!"unknown identifier '{name}'"
  | badLiteral text => s!"integer literal '{text}' does not fit in 16 bits"

end ExprError

/-- An instruction of the stack machine. -/
inductive Instr where
  | num (value : Int16)
  /-- Pushes the variable at `index`; its name is kept for messages. -/
  | var (index : Nat) (name : String)
  | unary (op : Expr.UnaryOp)
  | binary (op : Expr.BinaryOp)
  deriving DecidableEq, Repr

namespace Instr

def text : Instr → String
  | num value => toString value.toInt
  | var _ name => name
  | unary op => op.symbol
  | binary op => op.symbol

end Instr

/-- An expression: what was written, and its code. -/
structure Expr where
  text : String
  code : List Instr
  deriving DecidableEq, Repr

namespace Expr

/-- What waits for its operands or for its closing parenthesis. -/
inductive Pending where
  | openParen
  | unary (op : UnaryOp)
  | binary (op : BinaryOp)
  deriving DecidableEq, Repr

/-- What can come next. -/
inductive Phase where
  /-- Nothing was read yet; an operand is expected. -/
  | start
  | operand
  | operator
  deriving DecidableEq, Repr

/-- Expressions and open ends that were read so far. -/
structure Reading where
  /-- The code so far, last instruction first. -/
  output : List Instr := []
  pending : List Pending := []
  phase : Phase := .start
  deriving DecidableEq, Repr

namespace Reading

/-- Does an operand have to come next? -/
def wantsOperand (r : Reading) : Bool := r.phase != .operator

/-- Fails near a lexeme unless an operand (or unless an operator) comes
next, as `operand` says. -/
def expect (r : Reading) (operand : Bool) (near : String) : Except ExprError Unit :=
  if r.wantsOperand = operand then .ok () else .error (.adjacent near)

/-- Moves pending operators to the output while `p` holds for their
precedence, up to the innermost open parenthesis. -/
def release (p : Nat → Bool) : List Instr → List Pending → List Instr × List Pending
  | output, .unary op :: rest =>
    if p op.precedence then release p (.unary op :: output) rest
    else (output, .unary op :: rest)
  | output, .binary op :: rest =>
    if p op.precedence then release p (.binary op :: output) rest
    else (output, .binary op :: rest)
  | output, pending => (output, pending)

/-- The instruction that a word stands for: a numeral pushes its value, any
other word has to be one of the names. -/
def operand (names : List String) (word : String) : Except ExprError Instr :=
  match word.toList with
  | c :: cs =>
    if c.isDigit then
      if Text.isNumeral (c :: cs) then
        if Text.numeralValue (c :: cs) ≤ 32767 then
          .ok (.num (.ofNat (Text.numeralValue (c :: cs))))
        else .error (.badLiteral word)
      else .error (.unknownIdentifier word)
    else
      match names.idxOf? word with
      | some i => .ok (.var i word)
      | none => .error (.unknownIdentifier word)
  | [] => .error (.unknownIdentifier word)

/-- Reads a unary operator. -/
def unary (r : Reading) (op : UnaryOp) : Except ExprError Reading := do
  r.expect true op.symbol
  return { r with pending := .unary op :: r.pending, phase := .operand }

/-- Reads a binary operator. -/
def binary (r : Reading) (op : BinaryOp) : Except ExprError Reading := do
  r.expect false op.symbol
  let (output, pending) := release (op.precedence ≤ ·) r.output r.pending
  return { output, pending := .binary op :: pending, phase := .operand }

/-- Reads a closing parenthesis. -/
def close (r : Reading) : Except ExprError Reading := do
  r.expect false ")"
  match release (fun _ => true) r.output r.pending with
  | (output, .openParen :: pending) => return { output, pending, phase := .operator }
  | _ => throw .unmatchedParenthesis

/-- Reads one lexeme. -/
def step (names : List String) (r : Reading) : Lexeme → Except ExprError Reading
  | .word text => do
    r.expect true text
    let instr ← operand names text
    return { r with output := instr :: r.output, phase := .operator }
  | .openParen => do
    r.expect true "("
    return { r with pending := .openParen :: r.pending, phase := .operand }
  | .closeParen => r.close
  | .minus => if r.wantsOperand then r.unary .neg else r.binary .sub
  | .bang => r.unary .not
  | .binary op => r.binary op
  | .invalid c => throw (.invalidCharacter c)

/-- The code of a complete reading. -/
def finish (r : Reading) : Except ExprError (List Instr) :=
  match r.phase with
  | .start => .error .empty
  | .operand => .error (.adjacent "end of expression")
  | .operator =>
    match release (fun _ => true) r.output r.pending with
    | (output, []) => .ok output.reverse
    | _ => .error .unmatchedParenthesis

end Reading

/-- The code of a sequence of lexemes over the given names. -/
def codeOfLexemes (names : List String) (lexemes : List Lexeme) :
    Except ExprError (List Instr) := do
  (← lexemes.foldlM (Reading.step names) {}).finish

/-- Compiles a text over the given names. -/
def compile (text : String) (names : List String) : Except ExprError Expr := do
  return { text, code := ← codeOfLexemes names (lex text.toList) }

end Expr

end BranchingTime
