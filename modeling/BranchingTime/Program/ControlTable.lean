import BranchingTime.Program.Block
import BranchingTime.Program.Source

/-!
# Control-flow tables

A structured program is laid out as a table of entries addressed by the
program counter; every counter outside the table is the end of the
program. Structured statements reserve entries of their own:

```text
if (c) { T } else { E }      while (c) { B }

p      IF c; ELSE q          p      WHILE c; ELSE r+1
...    T                     ...    B
q-1    IF p ENDS  -> r+1     r      WHILE p ENDS  -> p
q      ELSE p
...    E
r      ELSE p ENDS
```

Every entry also says what is known about each variable before and after
it; where two ways meet, what they do not agree on is only known to be
fixed.
-/

namespace BranchingTime

/-- What is known about a variable. -/
inductive Descriptor where
  | undefined
  /-- It was read. -/
  | defined
  /-- It has some value. -/
  | fixed
  /-- It was last assigned this expression. -/
  | expr (text : String)
  deriving DecidableEq, Repr

namespace Descriptor

def text : Descriptor → String
  | undefined => "UNDEFINED"
  | defined => "DEFINED"
  | fixed => "FIXED"
  | expr text => text

/-- What is known where two ways meet. -/
def meet (a b : Descriptor) : Descriptor := if a = b then a else fixed

/-- What is known of all variables where two ways meet. -/
def meetAll (xs ys : List Descriptor) : List Descriptor := List.zipWith meet xs ys

end Descriptor

/-- The blocks that end with an entry of their own. -/
inductive Group where
  | thenPart | elsePart | loopBody
  deriving DecidableEq, Repr

namespace Group

def text : Group → String
  | thenPart => "IF"
  | elsePart => "ELSE"
  | loopBody => "WHILE"

end Group

/-- What happens at an entry. -/
inductive Action where
  | read (var : Nat)
  | assign (var : Nat) (rhs : Expr)
  | branch (cond : Expr) (thenPc elsePc : Nat)
  | loop (cond : Expr) (bodyPc exitPc : Nat)
  /-- The `else` of the `if` at `header`. -/
  | elseMark (header : Nat)
  /-- The end of a block of the statement at `header`. -/
  | groupEnd (header : Nat) (group : Group)
  deriving DecidableEq, Repr

namespace Action

def text : Action → String
  | read var => s!"READ {var}"
  | assign var _ => s!"ASSIGN {var}"
  | branch cond _ elsePc => "IF " ++ cond.text ++ s!"; ELSE {elsePc}"
  | loop cond _ exitPc => "WHILE " ++ cond.text ++ s!"; ELSE {exitPc}"
  | elseMark header => s!"ELSE {header}"
  | groupEnd header group => group.text ++ s!" {header} ENDS"

end Action

/-- A row of a control-flow table. -/
structure Entry where
  pc : Nat
  entering : List Descriptor
  leaving : List Descriptor
  next : Nat
  action : Action
  deriving DecidableEq, Repr

namespace Entry

/-- The written form of what is known of all variables. -/
def listing (ds : List Descriptor) : String := ", ".intercalate (ds.map Descriptor.text)

def text (e : Entry) : String :=
  listing e.entering ++ " | " ++ listing e.leaving ++ s!" | {e.pc} -> {e.next} | " ++ e.action.text

end Entry

namespace Block

/-- How many entries a block takes. -/
def size : Block → Nat
  | done => 0
  | read _ rest => 1 + rest.size
  | assign _ _ rest => 1 + rest.size
  | ifThen _ body rest => 2 + body.size + rest.size
  | ifElse _ thenBody elseBody rest => 4 + thenBody.size + elseBody.size + rest.size
  | loop _ body rest => 2 + body.size + rest.size

/-- What is known after a block, given what is known before it. -/
def leaving (known : List Descriptor) : Block → List Descriptor
  | done => known
  | read var rest => rest.leaving (known.set var .defined)
  | assign var rhs rest => rest.leaving (known.set var (.expr rhs.text))
  | ifThen _ body rest => rest.leaving (Descriptor.meetAll known (body.leaving known))
  | ifElse _ thenBody elseBody rest =>
    rest.leaving (Descriptor.meetAll (thenBody.leaving known) (elseBody.leaving known))
  | loop _ body rest => rest.leaving (Descriptor.meetAll known (body.leaving known))

/-- The entries of a block that starts at `pc`. -/
def layout (pc : Nat) (known : List Descriptor) : Block → List Entry
  | done => []
  | read var rest =>
    let after := known.set var .defined
    ⟨pc, known, after, pc + 1, .read var⟩ :: rest.layout (pc + 1) after
  | assign var rhs rest =>
    let after := known.set var (.expr rhs.text)
    ⟨pc, known, after, pc + 1, .assign var rhs⟩ :: rest.layout (pc + 1) after
  | ifThen cond body rest =>
    let out := body.leaving known
    let after := Descriptor.meetAll known out
    let last := pc + 1 + body.size
    ⟨pc, known, known, pc + 1, .branch cond (pc + 1) (last + 1)⟩
      :: body.layout (pc + 1) known
      ++ ⟨last, out, after, last + 1, .groupEnd pc .thenPart⟩
      :: rest.layout (last + 1) after
  | ifElse cond thenBody elseBody rest =>
    let thenOut := thenBody.leaving known
    let elseOut := elseBody.leaving known
    let after := Descriptor.meetAll thenOut elseOut
    let thenLast := pc + 1 + thenBody.size
    let elsePc := thenLast + 1
    let elseLast := elsePc + 1 + elseBody.size
    ⟨pc, known, known, pc + 1, .branch cond (pc + 1) elsePc⟩
      :: thenBody.layout (pc + 1) known
      ++ ⟨thenLast, thenOut, after, elseLast + 1, .groupEnd pc .thenPart⟩
      :: ⟨elsePc, known, known, elsePc + 1, .elseMark pc⟩
      :: elseBody.layout (elsePc + 1) known
      ++ ⟨elseLast, elseOut, after, elseLast + 1, .groupEnd pc .elsePart⟩
      :: rest.layout (elseLast + 1) after
  | loop cond body rest =>
    let out := body.leaving known
    let after := Descriptor.meetAll known out
    let last := pc + 1 + body.size
    ⟨pc, known, known, pc + 1, .loop cond (pc + 1) (last + 1)⟩
      :: body.layout (pc + 1) known
      ++ ⟨last, out, after, pc, .groupEnd pc .loopBody⟩
      :: rest.layout (last + 1) after

end Block

/-- The entries of a program, by program counter. -/
structure ControlTable where
  entries : List Entry
  deriving DecidableEq, Repr

namespace ControlTable

/-- The counter has 8 bits, and one of its values is the end of the program. -/
def maxEntries : Nat := 255

/-- The table of a block over some number of variables. -/
def ofBlock (numVars : Nat) (block : Block) : ControlTable where
  entries := block.layout 0 (List.replicate numVars .undefined)

/-- How many entries the table has. -/
def size (t : ControlTable) : Nat := t.entries.length

/-- Does the program do nothing? -/
def isEmpty (t : ControlTable) : Bool := t.entries.isEmpty

/-- The entry at `pc`; there is none at the end of the program. -/
def entry? (t : ControlTable) (pc : Nat) : Option Entry := t.entries[pc]?

/-- Lays a block out, unless it has more entries than the counter has values. -/
def ofBlock? (numVars : Nat) (block : Block) : Except ProgramError ControlTable :=
  if block.size ≤ maxEntries then .ok (ofBlock numVars block)
  else .error (.tooManyStatements block.size)

/-- The table of a list of statements over the declared names. -/
def build (names statements : List String) : Except ProgramError ControlTable := do
  ofBlock? names.length (← Block.parse names statements)

/-- Like `build`, and records the outcome. -/
def buildLogged (names statements : List String) : Logged ProgramError ControlTable := do
  match Block.parse names statements with
  | .error e =>
    record (.tableFailed e.message)
    throw e
  | .ok block =>
    let table ← MonadExcept.ofExcept (ofBlock? names.length block)
    record (.tableBuilt table.size)
    return table

/-- The written form of a table: a line for every entry. -/
def text (t : ControlTable) : String :=
  String.join (t.entries.map fun e => e.text ++ "\n")

end ControlTable

end BranchingTime
