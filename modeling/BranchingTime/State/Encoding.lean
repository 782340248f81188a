import BranchingTime.Diagram.Substitution
import BranchingTime.Expr.Machine

/-!
# The bits of a state

A state is the program counter followed by the declared variables, each
written most significant bit first: 8 bits for the counter, 16 for a
variable. The layout is doubled. Bit `i` of the current half is diagram
variable `i + 1`; bit `i` of the next half is diagram variable
`i + 1 + W`, where `W` is the width of a half.

Variables and literals are numbers without a bound here. They fit in signed
words of 32 bits as long as `2 * W < 2 ^ 31`, that is, for programs of at
most `67108863` variables.
-/

namespace BranchingTime

/-- Current state or next state. -/
inductive Half where
  | current | next
  deriving DecidableEq, Repr

/-- A range of bits with a name. -/
structure Field where
  name : String
  offset : Nat
  width : Nat
  deriving DecidableEq, Repr

/-- The layout of states over the declared variables. -/
structure Encoding where
  names : List String
  deriving DecidableEq, Repr

namespace Encoding

/-- Bits of the program counter. -/
def counterWidth : Nat := 8

/-- Bits of a variable. -/
def variableWidth : Nat := 16

def counterField : Field := ⟨"pc", 0, counterWidth⟩

def variableFields (e : Encoding) : List Field :=
  e.names.mapIdx fun i name => ⟨name, counterWidth + variableWidth * i, variableWidth⟩

def fields (e : Encoding) : List Field := counterField :: e.variableFields

/-- How many bits a state has. -/
def halfWidth (e : Encoding) : Nat := counterWidth + variableWidth * e.names.length

/-- How many diagram variables two states take. -/
def numVars (e : Encoding) : Nat := 2 * e.halfWidth

/-- The diagram variable of the first bit of a half. -/
def base (e : Encoding) : Half → Nat
  | .current => 1
  | .next => 1 + e.halfWidth

/-- The diagram variables of a half. -/
def vars (e : Encoding) (half : Half) : List Nat :=
  (List.range e.halfWidth).map (e.base half + ·)

/-- The next variable of each current one. -/
def toNext (e : Encoding) : List (Nat × Nat) :=
  (e.vars .current).map fun v => (v, v + e.halfWidth)

/-- The lowest `width` bits of a number, most significant first. -/
def bitsOf (width value : Nat) : List Bool :=
  (List.range width).map fun i => value.testBit (width - 1 - i)

/-- The bits of a 16-bit integer, sign bit first. -/
def wordBits (value : Int16) : List Bool := bitsOf variableWidth value.toBitVec.toNat

/-- The literals that give the variables from `first` on the given bits. -/
def literalsFrom (first : Nat) (bits : List Bool) : List Int :=
  bits.mapIdx fun i b => if b then (first + i : Nat) else -((first + i : Nat) : Int)

/-- The literals of the known variables of a half. -/
def bindingLiterals (e : Encoding) (binding : Binding) (half : Half) : List Int :=
  (List.zip e.variableFields binding).flatMap fun (field, value?) =>
    match value? with
    | some value => literalsFrom (e.base half + field.offset) (wordBits value)
    | none => []

/-- The literals of a state: the counter, and the variables that are known. -/
def stateLiterals (e : Encoding) (pc : Nat) (binding : Binding) (half : Half) : List Int :=
  literalsFrom (e.base half) (bitsOf counterWidth pc) ++ e.bindingLiterals binding half

/-- All states with a given counter and the given known values. -/
def state (e : Encoding) (pc : Nat) (binding : Binding) (half : Half) : DiagramM Handle :=
  Diagram.cube (e.stateLiterals pc binding half)

/-- All pairs of a current and a next state with the given known values. -/
def edge (e : Encoding) (pc : Nat) (source : Binding) (nextPc : Nat) (target : Binding) :
    DiagramM Handle :=
  Diagram.cube (e.stateLiterals pc source .current ++ e.stateLiterals nextPc target .next)

end Encoding

end BranchingTime
