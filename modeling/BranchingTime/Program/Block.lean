import BranchingTime.Program.Statement

/-!
# Structured programs

A `Block` is a sequence of statements in which `if` and `while` hold
blocks of their own. Variables are resolved to their positions and
expressions are compiled.

`Block.parse` reads a block from a list of statement texts. A header is
followed by a block in braces, empty statements apart; an `else` belongs
to the `if` whose block ends just before it. A header's own errors come
before those inside its block, and the shape of an `else` block is checked
before the contents of either block.
-/

namespace BranchingTime

/-- A sequence of statements, first statement outermost. -/
inductive Block where
  | done
  | read (var : Nat) (rest : Block)
  | assign (var : Nat) (rhs : Expr) (rest : Block)
  | ifThen (cond : Expr) (body rest : Block)
  | ifElse (cond : Expr) (thenBody elseBody rest : Block)
  | loop (cond : Expr) (body rest : Block)
  deriving DecidableEq, Repr

namespace Block

/-- Splits what follows an open brace at the brace that closes it; `depth`
inner braces are open. -/
def splitAtClose : Nat → List String → Option (List String × List String)
  | _, [] => none
  | depth, s :: rest =>
    if s = "\x7d" then
      match depth with
      | 0 => some ([], rest)
      | depth + 1 => (splitAtClose depth rest).map fun p => (s :: p.1, p.2)
    else
      let depth := if s = "\x7b" then depth + 1 else depth
      (splitAtClose depth rest).map fun p => (s :: p.1, p.2)

/-- The statements of the block that follows a header, and those after it. -/
def splitBlock (header : String) (following : List String) :
    Except ProgramError (List String × List String) :=
  match following.dropWhile (· = "") with
  | [] => .error (.missingBrace header)
  | s :: rest =>
    if s = "\x7b" then
      match splitAtClose 0 rest with
      | some p => .ok p
      | none => .error (.unclosedBlock header)
    else .error (.missingBrace header)

/-- What follows an `else`, if that is the next statement. -/
def afterElse? (following : List String) : Option (List String) :=
  match following.dropWhile (· = "") with
  | [] => none
  | s :: rest => if s = "else" then some rest else none

/-- The position of a declared variable. -/
def resolve (names : List String) (name : String) : Except ProgramError Nat :=
  match names.idxOf? name with
  | some i => .ok i
  | none => .error (.undeclaredVariable name)

/-- Compiles an expression of a program. -/
def compileExpr (names : List String) (text : String) : Except ProgramError Expr :=
  match Expr.compile text names with
  | .ok e => .ok e
  | .error (.unknownIdentifier _) => .error (.unknownIdentifier text)
  | .error cause => .error (.expr text cause)

theorem length_splitAtClose {depth : Nat} {l : List String} {p : List String × List String}
    (h : splitAtClose depth l = some p) : p.1.length + p.2.length < l.length := by
  induction l generalizing depth p with
  | nil => simp [splitAtClose] at h
  | cons s rest ih =>
    have step {d : Nat} (h : (splitAtClose d rest).map (fun q => (s :: q.1, q.2)) = some p) :
        p.1.length + p.2.length < (s :: rest).length := by
      obtain ⟨q, hq, rfl⟩ := Option.map_eq_some_iff.mp h
      have := ih hq
      simp only [List.length_cons]
      omega
    unfold splitAtClose at h
    split at h
    · cases depth with
      | zero =>
        obtain rfl := Option.some.inj h
        simp
      | succ d => exact step h
    · exact step h

theorem length_splitBlock {header : String} {l : List String} {p : List String × List String}
    (h : splitBlock header l = .ok p) : p.1.length + p.2.length < l.length := by
  have hdrop : (l.dropWhile (· = "")).length ≤ l.length := (List.dropWhile_suffix _).length_le
  unfold splitBlock at h
  split at h
  · cases h
  · next s rest hs =>
    rw [hs, List.length_cons] at hdrop
    split at h
    · split at h
      · next q hq =>
        cases h
        have := length_splitAtClose hq
        omega
      · cases h
    · cases h

theorem length_afterElse? {l rest : List String} (h : afterElse? l = some rest) :
    rest.length < l.length := by
  have hdrop : (l.dropWhile (· = "")).length ≤ l.length := (List.dropWhile_suffix _).length_le
  unfold afterElse? at h
  split at h
  · cases h
  · next s r hs =>
    rw [hs, List.length_cons] at hdrop
    split at h
    · cases h
      omega
    · cases h

/-- Reads a sequence of statements over the declared names. -/
def parse (names : List String) : List String → Except ProgramError Block
  | [] => .ok .done
  | s :: following => do
    match ← Statement.classify s with
    | .ignored => parse names following
    | .read name =>
      let var ← resolve names name
      return .read var (← parse names following)
    | .assign name rhs =>
      let var ← resolve names name
      let rhs ← compileExpr names rhs
      return .assign var rhs (← parse names following)
    | .ifHeader cond =>
      let cond ← compileExpr names cond
      match h : splitBlock s following with
      | .error e => throw e
      | .ok (thenPart, after) =>
        have : thenPart.length + after.length < following.length := length_splitBlock h
        match he : afterElse? after with
        | none =>
          let body ← parse names thenPart
          return .ifThen cond body (← parse names after)
        | some rest =>
          have : rest.length < after.length := length_afterElse? he
          match hb : splitBlock "else" rest with
          | .error e => throw e
          | .ok (elsePart, after) =>
            have : elsePart.length + after.length < rest.length := length_splitBlock hb
            let thenBody ← parse names thenPart
            let elseBody ← parse names elsePart
            return .ifElse cond thenBody elseBody (← parse names after)
    | .whileHeader cond =>
      let cond ← compileExpr names cond
      match h : splitBlock s following with
      | .error e => throw e
      | .ok (bodyPart, after) =>
        have : bodyPart.length + after.length < following.length := length_splitBlock h
        let body ← parse names bodyPart
        return .loop cond body (← parse names after)
    | .openBrace => throw .unexpectedOpenBrace
    | .closeBrace => throw .unexpectedCloseBrace
    | .elseHeader => throw .elseWithoutIf
termination_by l => l.length
decreasing_by all_goals simp only [List.length_cons]; omega

end Block

end BranchingTime
