import BranchingTime.Ctl.Evaluate
import BranchingTime.Diagram.Path
import BranchingTime.Example.Decode

/-!
# Verdicts

A property holds of a model when it contains all start states. Otherwise
the start states outside the property are the witness, and
counterexamples are read off the witness.
-/

namespace BranchingTime

inductive Verdict where
  | holds
  | notHolds
  /-- There was nothing to check. -/
  | empty
  deriving DecidableEq, Repr

namespace Verdict

def text : Verdict → String
  | holds => "Property holds"
  | notHolds => "Property does not hold"
  | empty => "The model or property is empty"

end Verdict

/-- What the last verification found. -/
inductive Outcome where
  | empty
  | checked (verdict : Verdict) (witness : Handle) (encoding : Encoding)
  deriving Repr

namespace Outcome

def verdict : Outcome → Verdict
  | empty => .empty
  | checked verdict .. => verdict

def witness? : Outcome → Option Handle
  | empty => none
  | checked _ witness _ => some witness

end Outcome

/-- The last verification, and how many counterexamples it shows at most. -/
structure Verifier where
  maxExamples : Nat
  outcome? : Option Outcome
  deriving Repr

/-- How many counterexamples are shown at most, unless set otherwise. -/
def defaultMaxExamples : Nat := 1000

/-- How many examples to show when `n` are asked for: `-1` asks for as many
as allowed. -/
def exampleLimit (n : Int) (cap : Nat) : Except VerifyError Nat :=
  if n = -1 then .ok cap
  else if 1 ≤ n then .ok (min n.toNat cap)
  else .error (.invalidExampleCount n)

namespace Model

/-- Compares the start states of a model with a property. -/
def check (m : Model) (property : Handle) : DiagramM Outcome := do
  let union ← Diagram.disj m.start property
  let witness ← Diagram.xor union property
  let verdict := if union = property then Verdict.holds else .notHolds
  record (.verdictReached verdict.text)
  return .checked verdict witness m.encoding

end Model

namespace Verifier

/-- A verifier that has verified nothing. -/
def new (maxExamples : Nat) : Verifier := ⟨maxExamples, none⟩

def verdict? (v : Verifier) : Option Verdict := v.outcome?.map Outcome.verdict

def witness? (v : Verifier) : Option Handle := v.outcome?.bind Outcome.witness?

/-- Checks a property of a model. -/
def verify (v : Verifier) (model : Model) (property : Handle) : DiagramM (Verdict × Verifier) := do
  let outcome ← model.check property
  return (outcome.verdict, { v with outcome? := some outcome })

/-- Notes that there is nothing to check. -/
def recordEmpty {m : Type → Type} [Monad m] [MonadJournal m] (v : Verifier) :
    m (Verdict × Verifier) := do
  record (.verdictReached Verdict.empty.text)
  return (.empty, { v with outcome? := some .empty })

/-- Up to `n` counterexamples of the last verification, `-1` for as many as
allowed. The witness is a diagram of the given manager. -/
def counterexamples (v : Verifier) (manager : Manager) (n : Int) :
    Logged VerifyError (List String) := do
  let limit ← MonadExcept.ofExcept (exampleLimit n v.maxExamples)
  match v.outcome? with
  | some (.checked _ witness encoding) =>
    if witness = .zero then return []
    let text := manager.cubesText (some limit) witness
    record (.witnessCubes text)
    encoding.decodeLogged text limit
  | _ => throw .noVerdict

end Verifier

end BranchingTime
