/-!
# Faults

A fault is a broken contract between a diagram manager and its caller: a
variable outside the manager's range, a size outside its limits, a cell
that does not exist. Faults are not part of any verification result; a
fault leaves the manager as it was when the fault was noticed.

Some contracts hold whatever the caller does, and are relied on without a
test. Their faults are named here, too, for those who make the tests.
-/

namespace BranchingTime

/-- Broken contracts of the diagram manager, its tables and their users. -/
inductive Fault where
  /-- Variable `v` is not one of `1..=numVars`. -/
  | outOfRange (v numVars : Nat)
  /-- Variable `0` does not exist. -/
  | zeroVariable
  /-- A counted diagram depends on variable `v`, beyond the `n` counted ones. -/
  | beyond (v n : Nat)
  /-- A result cache of more than `2^31` slots was asked for. -/
  | cacheBits (bits : Nat)
  /-- A unique table of more than `2^31` buckets was asked for. -/
  | tableBits
  /-- There is no such cell, bit, statement, character or predicate, or more
  is taken away than there is. -/
  | outOfBounds
  /-- A counted node is not above its children. -/
  | disordered
  /-- Children were followed for longer than any diagram is deep. -/
  | bottomless
  /-- An iteration went on for longer than there are states. -/
  | unsettled
  /-- The arena of a table has no room for another cell. -/
  | full
  /-- A number does not fit in a signed word of 32 bits. -/
  | overflow
  /-- A case that cannot arise did arise. -/
  | unreachable
  deriving DecidableEq, Repr

namespace Fault

/-- The wording of a fault, for those that have one. -/
def message? : Fault → Option String
  | outOfRange v n => some s!"Variable {v} is out of range 1..={n}"
  | zeroVariable => some "Variable index should not be zero"
  | beyond v n => some s!"Variable {v} is beyond {n}"
  | cacheBits bits => some s!"Cache bits must be in range 0..=31, got {bits}"
  | tableBits => some "Storage bits should be in the range 0..=31"
  | full => some "Storage is full"
  | outOfBounds | disordered | bottomless | unsettled | overflow | unreachable => none

end Fault

end BranchingTime
