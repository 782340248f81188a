import BranchingTime.Text.Word

/-!
# Reading cubes

A cube gives some of the bits of a state and leaves the others free. Its
written form is `<i:b, ...>`, with bit indices in ascending order; spaces
may stand around the literals. `readCubes` reads a sequence of cubes over
a given number of bits.

Every step of the reader returns what is left of the text together with
the fact that it is shorter.
-/

namespace BranchingTime

/-- The known bits of a state. -/
abbrev Cube := List (Option Bool)

/-- Why a text is no sequence of cubes. Where a character was found, it is
given; otherwise the text had ended. -/
inductive CubeError where
  | expected (c : Char) (found? : Option Char)
  | expectedIndex (found? : Option Char)
  | indexTooLarge (digits : String)
  | indexOutside (index width : Nat)
  | indexNotIncreasing (index : Nat)
  | expectedBit (found? : Option Char)
  deriving DecidableEq, Repr

namespace CubeError

def message : CubeError → String
  | expected c (some d) => s!"expected '{c}', found '{d}'"
  | expected c none => s!"expected '{c}', found end of input"
  | expectedIndex (some d) => s!"expected bit index, found '{d}'"
  | expectedIndex none => "expected bit index, found end of input"
  | indexTooLarge digits => s!"bit index {digits} is too large"
  | indexOutside index width => s!"bit index {index} outside of {width} bits"
  | indexNotIncreasing index => s!"bit index {index} is not increasing"
  | expectedBit (some d) => s!"bit value must be 0 or 1, found '{d}'"
  | expectedBit none => "expected bit value, found end of input"

end CubeError

namespace Cube

/-- The cube of `width` bits that are all free. -/
def free (width : Nat) : Cube := List.replicate width none

/-- The written form of the bits, with a star for a free one. -/
def text (cube : Cube) : String :=
  String.ofList (cube.map fun
    | some true => '1'
    | some false => '0'
    | none => '*')

/-- What is left of a text after something was read. -/
abbrev Rest (cs : List Char) := { rest : List Char // rest.length < cs.length }

/-- Skips spaces. -/
def skipSpaces (cs : List Char) : List Char := cs.dropWhile (· = ' ')

theorem length_skipSpaces (cs : List Char) : (skipSpaces cs).length ≤ cs.length :=
  (List.dropWhile_suffix _).length_le

theorem length_lt_of_skipSpaces {cs rest : List Char} {c : Char}
    (h : skipSpaces cs = c :: rest) : rest.length < cs.length := by
  have hle := length_skipSpaces cs
  rw [h, List.length_cons] at hle
  exact hle

/-- Reads a given character. -/
def readChar (c : Char) : (cs : List Char) → Except CubeError (Rest cs)
  | [] => .error (.expected c none)
  | d :: rest => if d = c then .ok ⟨rest, by simp⟩ else .error (.expected c (some d))

/-- The largest bit index that can be read. -/
def maxIndex : Nat := Nat.pow 2 64 - 1

/-- Reads a bit index. -/
def readIndex (cs : List Char) : Except CubeError (Nat × Rest cs) :=
  match cs with
  | [] => .error (.expectedIndex none)
  | c :: rest =>
    if c.isDigit then
      let digits := c :: rest.takeWhile Char.isDigit
      if Text.numeralValue digits ≤ maxIndex then
        .ok (Text.numeralValue digits, ⟨rest.dropWhile Char.isDigit,
          Nat.lt_succ_of_le (List.dropWhile_suffix _).length_le⟩)
      else .error (.indexTooLarge (String.ofList digits))
    else .error (.expectedIndex (some c))

/-- Reads a bit. -/
def readBit : (cs : List Char) → Except CubeError (Bool × Rest cs)
  | [] => .error (.expectedBit none)
  | c :: rest =>
    if c = '0' then .ok (false, ⟨rest, by simp⟩)
    else if c = '1' then .ok (true, ⟨rest, by simp⟩)
    else .error (.expectedBit (some c))

/-- Reads the comma before a literal that is not the first. -/
def readComma (last? : Option Nat) (cs : List Char) :
    Except CubeError { rest : List Char // rest.length ≤ cs.length } :=
  match last? with
  | none => .ok ⟨cs, Nat.le_refl _⟩
  | some _ => do
    let ⟨rest, h⟩ ← readChar ',' cs
    return ⟨skipSpaces rest, Nat.le_trans (length_skipSpaces rest) (Nat.le_of_lt h)⟩

/-- Checks that a bit index is below the width and above the last one. -/
def checkIndex (width : Nat) (last? : Option Nat) (index : Nat) : Except CubeError Unit :=
  if width ≤ index then .error (.indexOutside index width)
  else if last?.any (index ≤ ·) then .error (.indexNotIncreasing index)
  else .ok ()

/-- Reads the literals of a cube, and its end. -/
def readLiterals (width : Nat) (last? : Option Nat) (cube : Cube) (cs : List Char) :
    Except CubeError (Cube × Rest cs) := do
  match hs : skipSpaces cs with
  | '>' :: rest =>
    return (cube, ⟨rest, length_lt_of_skipSpaces hs⟩)
  | text =>
    let ⟨text, h₀⟩ ← readComma last? text
    let (index, ⟨text, h₁⟩) ← readIndex text
    checkIndex width last? index
    let ⟨text, h₂⟩ ← readChar ':' text
    let (bit, ⟨text, h₃⟩) ← readBit text
    have hlen : text.length < cs.length := by
      have := length_skipSpaces cs
      rw [hs] at this
      omega
    let (cube, ⟨text, h₄⟩) ← readLiterals width (some index) (cube.set index (some bit)) text
    return (cube, ⟨text, by omega⟩)
termination_by cs.length

/-- Reads cubes until the text ends. -/
def readAll (width : Nat) (cs : List Char) : Except CubeError (List Cube) := do
  match hs : skipSpaces cs with
  | [] => return []
  | c :: rest =>
    let ⟨text, h₁⟩ ← readChar '<' (c :: rest)
    let (cube, ⟨text, h₂⟩) ← readLiterals width none (free width) text
    have : text.length < cs.length := by
      have := length_skipSpaces cs
      rw [hs] at this
      omega
    return cube :: (← readAll width text)
termination_by cs.length

end Cube

/-- Reads a sequence of cubes over `width` bits. -/
def readCubes (width : Nat) (text : String) : Except CubeError (List Cube) :=
  Cube.readAll width text.toList

end BranchingTime
