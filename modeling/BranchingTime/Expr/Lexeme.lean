import BranchingTime.Text.Blank
import BranchingTime.Text.Word
import BranchingTime.Expr.Operator

/-!
# Lexemes of expressions

`lex` cuts a text into the longest lexemes it can, skipping blanks. It
never fails: a character that starts no lexeme is kept as `invalid`, so
that whoever reads the lexemes meets it in its place. Whether a `-` is a
sign or a difference is not decided here.
-/

namespace BranchingTime.Expr

inductive Lexeme where
  | word (text : String)
  | openParen
  | closeParen
  | minus
  | bang
  | binary (op : BinaryOp)
  | invalid (c : Char)
  deriving DecidableEq, Repr

/-- Operators written with two characters. -/
def pairOperator? : Char → Char → Option BinaryOp
  | '=', '=' => some .eq
  | '!', '=' => some .ne
  | '<', '=' => some .le
  | '>', '=' => some .ge
  | '&', '&' => some .and
  | '|', '|' => some .or
  | _, _ => none

/-- Lexemes written with one character that is no word character. -/
def singleLexeme : Char → Lexeme
  | '(' => .openParen
  | ')' => .closeParen
  | '<' => .binary .lt
  | '>' => .binary .gt
  | '+' => .binary .add
  | '*' => .binary .mul
  | '/' => .binary .div
  | '-' => .minus
  | '!' => .bang
  | c => .invalid c

/-- The lexemes of a text, in order. -/
def lex : List Char → List Lexeme
  | [] => []
  | c :: cs =>
    if Text.isBlank c then lex cs
    else if Text.isWordChar c then
      .word (String.ofList (c :: cs.takeWhile Text.isWordChar))
        :: lex (cs.dropWhile Text.isWordChar)
    else
      match cs with
      | [] => [singleLexeme c]
      | d :: rest =>
        match pairOperator? c d with
        | some op => .binary op :: lex rest
        | none => singleLexeme c :: lex (d :: rest)
termination_by cs => cs.length
decreasing_by
  · exact Nat.lt_succ_self _
  · exact Nat.lt_succ_of_le (List.dropWhile_suffix _).length_le
  · exact Nat.lt_succ_of_le (Nat.le_succ _)
  · exact Nat.lt_succ_self _

end BranchingTime.Expr
