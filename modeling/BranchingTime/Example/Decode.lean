import BranchingTime.Example.Cube
import BranchingTime.State.Encoding

/-!
# Examples

Cubes of states are shown as examples: lines of `name=value` pairs for the
declared variables. The free bits of a cube are counted through, the
rightmost bit fastest, until enough examples are found; a cube without any
known bit is one example, with a star for every value. The program counter
is not shown.
-/

namespace BranchingTime

/-- Why there are no counterexamples to show. -/
inductive VerifyError where
  | noVerdict
  | invalidExampleCount (n : Int)
  | decode (cause : CubeError)
  deriving DecidableEq, Repr

namespace VerifyError

def message : VerifyError → String
  | noVerdict => "there was no verification, but counterexamples have been requested"
  | invalidExampleCount n => s!"invalid number of examples {n} (expected -1 or 1..=1000)"
  | decode cause => "malformed cube serialization: " ++ cause.message

end VerifyError

namespace Cube

/-- Gives the free bits, last one first, the binary digits of `k`, lowest
one first. Takes and returns the bits in reverse order. -/
def fillReversed : Cube → Nat → List Bool
  | [], _ => []
  | some b :: rest, k => b :: fillReversed rest k
  | none :: rest, k => (k % 2 == 1) :: fillReversed rest (k / 2)

/-- The `k`-th state of a cube. -/
def fill (cube : Cube) (k : Nat) : List Bool := (fillReversed cube.reverse k).reverse

/-- How many states a cube has. -/
def stateCount (cube : Cube) : Nat := Nat.pow 2 (cube.count none)

/-- The first `limit` states of a cube, in counting order. -/
def states (cube : Cube) (limit : Nat) : List (List Bool) :=
  (List.range (min cube.stateCount limit)).map cube.fill

end Cube

namespace Encoding

/-- The number that bits are, most significant one first. -/
def ofBits (bits : List Bool) : Nat := bits.foldl (fun n b => 2 * n + b.toNat) 0

/-- The value of a variable in a state. -/
def fieldValue (field : Field) (bits : List Bool) : Int16 :=
  .ofNat (ofBits ((bits.drop field.offset).take field.width))

/-- The example that a state is. -/
def render (e : Encoding) (bits : List Bool) : String :=
  ", ".intercalate (e.variableFields.map fun field =>
    field.name ++ "=" ++ toString (fieldValue field bits).toInt)

/-- The example that a list of bits is, if it has all the bits of every
variable. -/
def render? (e : Encoding) (bits : List Bool) : Option String :=
  if e.variableFields.all fun field => field.offset + field.width ≤ bits.length then
    some (e.render bits)
  else none

/-- The example where nothing is known. -/
def renderFree (e : Encoding) : String :=
  ", ".intercalate (e.variableFields.map fun field => field.name ++ "=*")

/-- The first `limit` examples of a cube. -/
def cubeExamples (e : Encoding) (cube : Cube) (limit : Nat) : List String :=
  if cube.all Option.isNone then [e.renderFree] else (cube.states limit).map e.render

/-- The first `limit` examples of a sequence of cubes. -/
def examples (e : Encoding) : Nat → List Cube → List String
  | _, [] => []
  | limit, cube :: cubes =>
    if limit = 0 then []
    else
      let found := e.cubeExamples cube limit
      found ++ examples e (limit - found.length) cubes

/-- The first `limit` examples of the cubes in a text. -/
def decode (e : Encoding) (text : String) (limit : Nat) : Except VerifyError (List String) :=
  match readCubes e.halfWidth text with
  | .ok cubes => .ok (e.examples limit cubes)
  | .error cause => .error (.decode cause)

/-- Like `decode`, and records how much was decoded. -/
def decodeLogged (e : Encoding) (text : String) (limit : Nat) : Logged VerifyError (List String) :=
  match readCubes e.halfWidth text with
  | .error cause => throw (.decode cause)
  | .ok cubes => do
    let found := e.examples limit cubes
    record (.decoded found.length cubes.length)
    return found

end Encoding

end BranchingTime
