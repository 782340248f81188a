import BranchingTime.Session
import BranchingTime.Text.Piece
import BranchingTime.Text.Word

/-!
# The command line

`check FILE -p COND ... -f CTL` verifies a program and prints the verdict,
and then counterexamples if the property does not hold. Options:

* `-p`, `--predicate`: an atomic predicate; may be repeated
* `-f`, `--formula`: the formula
* `--examples`: how many counterexamples to show, `-1` for as many as allowed
* `--cache-bits`: size of the result cache, `0` to `31`
* `--gc-threshold`: number of nodes that starts a garbage collection
* `--log-level`: what to report; also before `check`

An option takes the rest of its argument or the next argument as its
value. Arguments after `--` are no options. `parse` turns arguments into an
`Invocation`, and `run` computes what it prints; reading files and writing
is left to the caller.
-/

namespace BranchingTime.CommandLine

open Text

/-- Options that take a value. -/
inductive Flag where
  | predicate | formula | examples | cacheBits | gcThreshold | logLevel
  deriving DecidableEq, Repr

namespace Flag

/-- The option with a long name. -/
def ofLong? : String → Option Flag
  | "predicate" => some predicate
  | "formula" => some formula
  | "examples" => some examples
  | "cache-bits" => some cacheBits
  | "gc-threshold" => some gcThreshold
  | "log-level" => some logLevel
  | _ => none

/-- The option with a short name. -/
def ofShort? : Char → Option Flag
  | 'p' => some predicate
  | 'f' => some formula
  | _ => none

end Flag

/-- What an argument is by its form. -/
inductive Argument where
  | escape
  /-- `--name` or `--name=value`. -/
  | long (name : String) (value? : Option String)
  /-- `-c`, with what follows the letter. -/
  | short (c : Char) (attached : List Char)
  | plain
  deriving DecidableEq, Repr

/-- The form of an argument. A single dash is no option. -/
def Argument.of (arg : String) : Argument :=
  match arg.toList with
  | ['-', '-'] => escape
  | '-' :: '-' :: cs =>
    match splitFirst? '=' cs with
    | some (name, value) => long (String.ofList name) (some (String.ofList value))
    | none => long (String.ofList cs) none
  | '-' :: c :: cs => short c cs
  | _ => plain

/-- The value that follows a short option in the same argument. -/
def attachedValue? : List Char → Option String
  | [] => none
  | '=' :: cs => some (String.ofList cs)
  | cs => some (String.ofList cs)

/-- Can an argument be the value of the option before it? Only the number
of examples may be negative. -/
def isValue (flag : Flag) (arg : String) : Bool :=
  match Argument.of arg with
  | .plain => true
  | .short c cs => flag = .examples && isNumeral (c :: cs)
  | _ => false

/-- Options with their values, in order, and the other arguments. -/
structure Arguments where
  options : List (Flag × String)
  plain : List String
  deriving DecidableEq, Repr

/-- Splits the value of an option off the arguments after it. -/
def takeValue? (flag : Flag) (attached? : Option String) (args : List String) :
    Option (String × List String) :=
  match attached?, args with
  | some value, args => some (value, args)
  | none, value :: args => if isValue flag value then some (value, args) else none
  | none, [] => none

/-- The option that an argument starts, with the value attached to it. -/
def option? : Argument → Option (Flag × Option String)
  | .long name value? => (Flag.ofLong? name).map (·, value?)
  | .short c attached => (Flag.ofShort? c).map (·, attachedValue? attached)
  | _ => none

theorem length_takeValue? {flag : Flag} {attached? : Option String} {args rest : List String}
    {value : String} (h : takeValue? flag attached? args = some (value, rest)) :
    rest.length ≤ args.length := by
  unfold takeValue? at h
  split at h
  · cases h; exact Nat.le_refl _
  · split at h
    · cases h; simp
    · cases h
  · cases h

/-- Sorts the arguments after `check`. -/
def sortArguments : List String → Option Arguments
  | [] => some ⟨[], []⟩
  | arg :: args =>
    match Argument.of arg with
    | .escape => some ⟨[], args⟩
    | .plain => (sortArguments args).map fun a => { a with plain := arg :: a.plain }
    | form =>
      match option? form with
      | none => none
      | some (flag, attached?) =>
        match h : takeValue? flag attached? args with
        | none => none
        | some (value, rest) =>
          have := length_takeValue? h
          (sortArguments rest).map fun a => { a with options := (flag, value) :: a.options }
termination_by args => args.length

/-- Splits the arguments at `check`. Only the level of reports may be given
before it. -/
def splitCommand : List String → Option (List (Flag × String) × List String)
  | [] => none
  | arg :: args =>
    match Argument.of arg with
    | .plain => if arg = "check" then some ([], args) else none
    | form =>
      match option? form with
      | some (.logLevel, attached?) =>
        match h : takeValue? .logLevel attached? args with
        | none => none
        | some (value, rest) =>
          have := length_takeValue? h
          (splitCommand rest).map fun (options, args) => ((.logLevel, value) :: options, args)
      | _ => none
termination_by args => args.length

/-! ## Values -/

/-- Reads digits, after an optional plus sign. -/
def readNat? (text : String) : Option Nat :=
  let digits := match text.toList with
    | '+' :: cs => cs
    | cs => cs
  if isNumeral digits then some (numeralValue digits) else none

/-- Reads digits, after an optional sign. -/
def readInt? (text : String) : Option Int :=
  match text.toList with
  | '-' :: cs => if isNumeral cs then some (-(numeralValue cs : Nat)) else none
  | _ => (readNat? text).map Int.ofNat

/-- Reads an integer within bounds. -/
def readWithin? (least greatest : Int) (text : String) : Option Int := do
  let n ← readInt? text
  if least ≤ n ∧ n ≤ greatest then some n else none

/-- What to report: nothing, or events up to a level of detail. -/
inductive Detail where
  | off | error | warn | info | debug | trace
  deriving DecidableEq, Repr

namespace Detail

def ofName? (name : String) : Option Detail :=
  match String.ofList (name.toList.map Char.toLower) with
  | "off" => some off
  | "error" => some error
  | "warn" => some warn
  | "info" => some info
  | "debug" => some debug
  | "trace" => some trace
  | _ => none

/-- The least severe level that is reported. -/
def level? : Detail → Option Level
  | off => none
  | error => some .error
  | warn => some .warn
  | info => some .info
  | debug | trace => some .debug

end Detail

/-- A request to check a program. -/
structure Invocation where
  path : String
  predicates : List String
  formula : String
  examples : Int
  settings : Settings
  detail : Detail
  deriving Repr

/-- The values given for an option, in order. -/
def valuesOf (flag : Flag) (options : List (Flag × String)) : List String :=
  options.filterMap fun (f, value) => if f = flag then some value else none

/-- The value of an option that may be given once, read by `read?`. -/
def single? {α : Type} (read? : String → Option α) (default : Option α) :
    List String → Option α
  | [] => default
  | [value] => read? value
  | _ => none

/-- The request that the arguments make; `none` if they are misused. -/
def parse (args : List String) : Option Invocation := do
  let (outer, args) ← splitCommand args
  let arguments ← sortArguments args
  let values flag := valuesOf flag arguments.options
  let [path] := arguments.plain | none
  if path.isEmpty then none
  let formula ← single? some none (values .formula)
  let examples ← single? (readWithin? (-2147483648) 2147483647) (some 10) (values .examples)
  let cacheBits ← single? (readWithin? 0 31) (some 20) (values .cacheBits)
  let gcThreshold ← single? (fun text => do
      let n ← readNat? text
      if n < Nat.pow 2 64 then some n else none)
    (some 1048576) (values .gcThreshold)
  let outerDetail ← single? Detail.ofName? (some .info) (valuesOf .logLevel outer)
  let detail ← single? Detail.ofName? (some outerDetail) (values .logLevel)
  return {
    path, predicates := values .predicate, formula, examples,
    settings := { cacheBits := cacheBits.toNat, gcThreshold }, detail }

/-! ## Running -/

/-- What a run prints, what it reports, and its exit code. -/
structure Report where
  output : List String
  events : Journal
  exitCode : UInt32

namespace Report

/-- The arguments were misused. -/
def usage : Report := ⟨[], #[], 2⟩

/-- The program could not be read. -/
def unreadable : Report := ⟨[], #[], 1⟩

/-- The printed text. -/
def text (r : Report) : String := String.join (r.output.map (· ++ "\n"))

end Report

/-- Checks a program whose text was read. -/
def check (i : Invocation) (program : String) : Report :=
  match Session.verify program i.predicates i.formula (.new i.settings) with
  | .error _ s => ⟨[], s.journal, 1⟩
  | .ok verdict s =>
    if verdict = .notHolds then
      match Session.counterexamples i.examples s with
      | .ok found s => ⟨verdict.text :: found.map ("  " ++ ·), s.journal, 0⟩
      | .error _ s => ⟨[verdict.text], s.journal, 1⟩
    else ⟨[verdict.text], s.journal, 0⟩

/-- Runs a request; `read` gives the text of the program, if it has one. -/
def run {m : Type → Type} [Monad m] (args : List String) (read : String → m (Option String)) :
    m Report := do
  match parse args with
  | none => return .usage
  | some i =>
    match ← read i.path with
    | none => return .unreadable
    | some program => return check i program

end BranchingTime.CommandLine
