import BranchingTime.Diagram.Count
import BranchingTime.Program.Source
import BranchingTime.Verdict

/-!
# Sessions

A session verifies one program after another. Each verification opens a
manager of the right size and goes all the way from the texts to a
verdict; the session keeps the last manager and the last outcome, so that
counterexamples can be asked for afterwards. Numbers of atomic predicates
are given out once per session.
-/

namespace BranchingTime

/-- Limits and sizes of a session. -/
structure Settings where
  cacheBits : Nat := 20
  gcThreshold : Nat := 1048576
  maxExamples : Nat := defaultMaxExamples
  deriving DecidableEq, Repr

/-- Why a verification gave no verdict. -/
inductive SessionError where
  | program (cause : ProgramError)
  | unfold (cause : UnfoldError)
  | ctl (cause : CtlError)
  | verify (cause : VerifyError)
  deriving DecidableEq, Repr

namespace SessionError

def message : SessionError → String
  | program cause => "Program error: " ++ cause.message
  | unfold cause => "Translation error: " ++ cause.message
  | ctl cause => "Formula error: " ++ cause.message
  | verify cause => "Verification error: " ++ cause.message

/-- The messages of the errors behind an error, nearest first. -/
def causes : SessionError → List String
  | program cause => cause.message :: cause.causes
  | unfold cause => cause.message :: cause.causes
  | ctl cause => [cause.message]
  | verify cause => [cause.message]

end SessionError

/-- An error in the texts, or a broken contract. -/
inductive Failure where
  | error (e : SessionError)
  | fault (e : Fault)
  deriving DecidableEq, Repr

structure Session where
  settings : Settings
  /-- The next atomic predicate gets this number. -/
  nextId : Nat
  /-- The manager of the last verification that opened one. -/
  manager? : Option Manager
  verifier : Verifier
  journal : Journal

/-- A verification at work. -/
abbrev SessionM := EStateM Failure Session

instance : MonadJournal SessionM where
  record e := modify fun s => { s with journal := s.journal.push e }

namespace Session

/-- A session that has verified nothing. -/
def new (settings : Settings) : Session where
  settings := settings
  nextId := 0
  manager? := none
  verifier := .new settings.maxExamples
  journal := #[]

def verdict? (s : Session) : Option Verdict := s.verifier.verdict?

/-- Runs a stage that keeps a journal. -/
def stage {ε α : Type} (failure : ε → Failure) (x : Logged ε α) : SessionM α := fun s =>
  match x s.journal with
  | .ok a journal => .ok a { s with journal }
  | .error e journal => .error (failure e) { s with journal }

/-- Runs a stage on a manager, and keeps the manager. -/
def onManager {α : Type} (m : Manager) (x : ExceptT SessionError DiagramM α) : SessionM α :=
  fun s =>
    match m.run x.run with
    | (.ok (.ok a), m) => .ok a { s with manager? := some m, journal := m.journal }
    | (.ok (.error e), m) => .error (.error e) { s with manager? := some m, journal := m.journal }
    | (.error e, m) => .error (.fault e) { s with manager? := some m, journal := m.journal }

/-- Notes that there is nothing to check. -/
def recordEmpty : SessionM Verdict := do
  let (verdict, verifier) ← (← get).verifier.recordEmpty
  modify fun s => { s with verifier }
  return verdict

/-- From a control-flow table to the outcome of a formula. -/
def investigate (table : ControlTable) (encoding : Encoding) (threshold : Nat)
    (predicates : Except UnfoldError (List Predicate)) (formula : Ctl.Formula) :
    ExceptT SessionError DiagramM Outcome := do
  let predicates ← ExceptT.adapt .unfold (MonadExcept.ofExcept predicates)
  let model ← ExceptT.adapt .unfold (Model.unfold table encoding threshold predicates)
  record (.transitionsBuilt ((← get).nodeCount model.transitions))
  let property ← ExceptT.adapt .ctl (model.evaluate formula)
  let outcome ← model.check property
  if let some witness := outcome.witness? then
    record (.violations (← Diagram.satCount witness encoding.halfWidth))
  record (.cacheUse (← get).cache.hits (← get).cache.misses)
  return outcome

/-- All of a verification but the report of its failure. -/
def run (program : String) (conditions : List String) (formula : String) : SessionM Verdict := do
  modify fun s => { s with verifier := .new s.settings.maxExamples }
  let program ← stage (.error ∘ .program) (Program.parseLogged program)
  let formula ← stage (.error ∘ .ctl) (Ctl.Formula.compileLogged formula)
  if program.names.isEmpty || conditions.isEmpty then return ← recordEmpty
  let table ← stage (.error ∘ .program)
    (ControlTable.buildLogged program.names program.statements)
  record (.tableShape table.size program.names.length)
  record (.tableListing table.text)
  if table.isEmpty then return ← recordEmpty
  let encoding : Encoding := ⟨program.names⟩
  let settings := (← get).settings
  let manager ← stage .fault (Manager.start encoding.numVars settings.cacheBits)
  let (nextId, predicates) :=
    Predicate.compileAll program.names (← get).nextId conditions
  modify fun s => { s with nextId }
  let outcome ← onManager manager
    (investigate table encoding settings.gcThreshold predicates formula)
  modify fun s => { s with verifier := { s.verifier with outcome? := some outcome } }
  return outcome.verdict

/-- Verifies a formula over conditions of a program. A failure that lies in
the texts is recorded. -/
def verify (program : String) (conditions : List String) (formula : String) : SessionM Verdict :=
  fun s =>
    match run program conditions formula s with
    | .error (.error e) s =>
      .error (.error e) { s with journal := s.journal.push (.sessionFailed e.message) }
    | result => result

/-- Up to `n` counterexamples of the last verdict, `-1` for as many as
allowed. -/
def counterexamples (n : Int) : SessionM (List String) := do
  match (← get).manager? with
  | some manager => stage (.error ∘ .verify) ((← get).verifier.counterexamples manager n)
  | none =>
    match exampleLimit n (← get).settings.maxExamples with
    | .ok _ => throw (.error (.verify .noVerdict))
    | .error e => throw (.error (.verify e))

end Session

end BranchingTime
