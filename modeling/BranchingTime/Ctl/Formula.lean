import BranchingTime.Journal
import BranchingTime.Text.Word

/-!
# Formulas of branching time

Formulas are written with numbers for atomic predicates, the connectives
`NOT`, `AND`, `OR`, `XOR`, and the operators `AX`, `EX`, `AF`, `EF`, `AG`,
`EG`, `AU`, `EU` of branching time; letters may be small. From loosest to
tightest: `OR` and `XOR`, then `AND`, then `AU` and `EU`, then the unary
operators. Binary operators associate to the left.

A formula is compiled to code for a stack machine, operands before their
operators. Lexemes that touch where they must not, or that are no words of
the language, are errors; whether every operator finds its operands only
shows when the code is run.
-/

namespace BranchingTime

/-- Why a text is no formula, or a formula has no set of states. -/
inductive CtlError where
  | empty
  | invalidCharacter (c : Char)
  /-- Lexemes touch where they must not, or a number is too large. -/
  | malformed (near : String)
  | unmatchedParenthesis
  | unknownKeyword (word : String)
  | stackUnderflow (keyword : String)
  | operandOutOfRange (index count : Nat)
  | leftover (count : Nat)
  deriving DecidableEq, Repr

namespace CtlError

def message : CtlError → String
  | empty => "empty formula"
  | invalidCharacter c => s!"invalid character '{c}' in formula"
  | malformed near => s!"malformed formula near '{near}'"
  | unmatchedParenthesis => "unmatched parenthesis in formula"
  | unknownKeyword word => s!"unknown keyword '{word}'"
  | stackUnderflow keyword => s!"missing operand for {keyword}"
  | operandOutOfRange index count => s!"atomic predicate {index} does not exist (have {count})"
  | leftover count => s!"formula reduced to {count} values"

end CtlError

namespace Ctl

/-! ## Operators -/

inductive UnaryOp where
  | not | ax | ex | af | ef | ag | eg
  deriving DecidableEq, Repr

inductive BinaryOp where
  | and | or | xor | au | eu
  deriving DecidableEq, Repr

namespace UnaryOp

def keyword : UnaryOp → String
  | not => "NOT"
  | ax => "AX"
  | ex => "EX"
  | af => "AF"
  | ef => "EF"
  | ag => "AG"
  | eg => "EG"

/-- The name of the operator in listings of code. -/
def listed : UnaryOp → String
  | not => "Not"
  | op => op.keyword

/-- Unary operators bind tighter than all others. -/
def precedence (_ : UnaryOp) : Nat := 4

end UnaryOp

namespace BinaryOp

def keyword : BinaryOp → String
  | and => "AND"
  | or => "OR"
  | xor => "XOR"
  | au => "AU"
  | eu => "EU"

/-- The name of the operator in listings of code. -/
def listed : BinaryOp → String
  | and => "And"
  | or => "Or"
  | xor => "Xor"
  | op => op.keyword

def precedence : BinaryOp → Nat
  | or | xor => 1
  | and => 2
  | au | eu => 3

end BinaryOp

/-- An instruction of the stack machine. -/
inductive Instr where
  | operand (index : Nat)
  | unary (op : UnaryOp)
  | binary (op : BinaryOp)
  deriving DecidableEq, Repr

namespace Instr

def text : Instr → String
  | operand index => toString index
  | unary op => op.keyword
  | binary op => op.keyword

/-- The instruction in a listing of code. -/
def listed : Instr → String
  | operand index => s!"Operand({index})"
  | unary op => "Op(" ++ op.listed ++ ")"
  | binary op => "Op(" ++ op.listed ++ ")"

end Instr

/-- A formula: what was written, and its code. -/
structure Formula where
  text : String
  code : List Instr
  deriving DecidableEq, Repr

/-! ## Lexemes -/

/-- What a character of a formula is. -/
inductive CharClass where
  | letter | digit | space | openParen | closeParen
  deriving DecidableEq, Repr

namespace CharClass

/-- The class of a character; capital letters only. -/
def of? (c : Char) : Option CharClass :=
  if c.isUpper then some letter
  else if c.isDigit then some digit
  else if c = ' ' then some space
  else if c = '(' then some openParen
  else if c = ')' then some closeParen
  else none

/-- May a character of the second class not follow one of the first? -/
def clash : CharClass → CharClass → Bool
  | closeParen, letter | digit, letter => true
  | letter, digit => true
  | closeParen, openParen | digit, openParen => true
  | openParen, closeParen | letter, closeParen => true
  | _, _ => false

end CharClass

/-- A lexeme of a formula. The last two kinds end the text: they are where
reading has to stop. -/
inductive Lexeme where
  | word (text : List Char)
  | openParen
  | closeParen
  | invalid (c : Char)
  | malformed (near : List Char)
  deriving DecidableEq, Repr

/-- Ends a word: an empty word is no lexeme. -/
def endWord (word : List Char) (rest : List Lexeme) : List Lexeme :=
  if word.isEmpty then rest else .word word :: rest

/-- The lexemes of a text, after a character of class `prev?` and the
beginning `word` of a word. -/
def lexFrom (word : List Char) (prev? : Option CharClass) : List Char → List Lexeme
  | [] => endWord word []
  | c :: cs =>
    match CharClass.of? c with
    | none => [.invalid c]
    | some k =>
      if prev?.any (CharClass.clash · k) then [.malformed (word ++ [c])]
      else
        match k with
        | .letter | .digit => lexFrom (word ++ [c]) (some k) cs
        | .space => endWord word (lexFrom [] (some k) cs)
        | .openParen => endWord word (.openParen :: lexFrom [] (some k) cs)
        | .closeParen => endWord word (.closeParen :: lexFrom [] (some k) cs)

/-- The lexemes of a text, small letters taken as capital ones. -/
def lex (text : List Char) : List Lexeme := lexFrom [] none (text.map Char.toUpper)

/-! ## Compilation -/

/-- What waits for its operands or for its closing parenthesis. -/
inductive Pending where
  | openParen
  | unary (op : UnaryOp)
  | binary (op : BinaryOp)
  deriving DecidableEq, Repr

/-- The words of the language. -/
def keyword? : String → Option Pending
  | "NOT" => some (.unary .not)
  | "AND" => some (.binary .and)
  | "OR" => some (.binary .or)
  | "XOR" => some (.binary .xor)
  | "AX" => some (.unary .ax)
  | "EX" => some (.unary .ex)
  | "AF" => some (.unary .af)
  | "EF" => some (.unary .ef)
  | "AG" => some (.unary .ag)
  | "EG" => some (.unary .eg)
  | "AU" => some (.binary .au)
  | "EU" => some (.binary .eu)
  | _ => none

/-- What was read of a formula. -/
structure Reading where
  /-- The code so far, last instruction first. -/
  output : List Instr := []
  pending : List Pending := []
  deriving DecidableEq, Repr

namespace Reading

/-- Moves pending operators to the output while `p` holds for their
precedence, up to the innermost open parenthesis. -/
def release (p : Nat → Bool) : List Instr → List Pending → Reading
  | output, .unary op :: rest =>
    if p op.precedence then release p (.unary op :: output) rest
    else ⟨output, .unary op :: rest⟩
  | output, .binary op :: rest =>
    if p op.precedence then release p (.binary op :: output) rest
    else ⟨output, .binary op :: rest⟩
  | output, pending => ⟨output, pending⟩

/-- Puts an item on the stack. -/
def push (r : Reading) (item : Pending) : Reading :=
  { r with pending := item :: r.pending }

/-- Reads an operator. A binary one first releases what binds at least as
tightly. -/
def operator (r : Reading) : Pending → Reading
  | .binary op => (release (op.precedence ≤ ·) r.output r.pending).push (.binary op)
  | item => r.push item

/-- Releases a unary operator that waits for just what was closed. -/
def releaseUnary : Reading → Reading
  | ⟨output, .unary op :: pending⟩ => ⟨.unary op :: output, pending⟩
  | r => r

/-- The largest number of an atomic predicate. -/
def maxOperand : Nat := Nat.pow 2 64 - 1

/-- Reads a word: the number of a predicate, or a keyword. -/
def word (r : Reading) (text : List Char) : Except CtlError Reading :=
  if text.head?.any Char.isDigit then
    if Text.numeralValue text ≤ maxOperand then
      .ok { r with output := .operand (Text.numeralValue text) :: r.output }
    else .error (.malformed (String.ofList text))
  else
    match keyword? (String.ofList text) with
    | some item => .ok (r.operator item)
    | none => .error (.unknownKeyword (String.ofList text))

/-- Reads one lexeme. -/
def step (r : Reading) : Lexeme → Except CtlError Reading
  | .word text => r.word text
  | .openParen => .ok (r.push .openParen)
  | .closeParen =>
    match release (fun _ => true) r.output r.pending with
    | ⟨output, .openParen :: pending⟩ => .ok (releaseUnary ⟨output, pending⟩)
    | _ => .error .unmatchedParenthesis
  | .invalid c => .error (.invalidCharacter c)
  | .malformed near => .error (.malformed (String.ofList near))

/-- The code of a complete reading. -/
def finish (r : Reading) : Except CtlError (List Instr) :=
  match release (fun _ => true) r.output r.pending with
  | ⟨output, []⟩ => if output.isEmpty then .error .empty else .ok output.reverse
  | _ => .error .unmatchedParenthesis

end Reading

/-- The code of a sequence of lexemes. -/
def codeOfLexemes (lexemes : List Lexeme) : Except CtlError (List Instr) := do
  (← lexemes.foldlM Reading.step {}).finish

namespace Formula

/-- Compiles a text. -/
def compile (text : String) : Except CtlError Formula := do
  return { text, code := ← codeOfLexemes (lex text.toList) }

/-- The listing of a formula's code. -/
def listing (f : Formula) : String := "[" ++ ", ".intercalate (f.code.map Instr.listed) ++ "]"

/-- Like `compile`, and records the code. -/
def compileLogged (text : String) : Logged CtlError Formula := do
  let f ← MonadExcept.ofExcept (compile text)
  record (.formulaCompiled text f.listing)
  return f

end Formula

end Ctl

end BranchingTime
