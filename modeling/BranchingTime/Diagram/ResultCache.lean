import BranchingTime.Hashing
import BranchingTime.Diagram.Fault

/-!
# The result cache

A cache with one slot per digest class: inserting a key overwrites
whatever its slot held, so the cache forgets, but it stores whole keys and
therefore never answers for a key with another key's result. It counts its
hits and misses; clearing it keeps the counts.
-/

namespace BranchingTime

/-- A lossy map from keys to results, with its counts of hits and misses. -/
structure ResultCache (κ ν : Type) where
  slots : Array (Option (κ × ν))
  hits : Nat
  misses : Nat

namespace ResultCache

variable {κ ν : Type}

/-- The empty cache of `2^bits` slots. -/
def empty (bits : Nat) : ResultCache κ ν where
  slots := Array.replicate (Nat.pow 2 bits) none
  hits := 0
  misses := 0

/-- An empty cache, unless it would have more than `2^31` slots. -/
def new? (bits : Nat) : Except Fault (ResultCache κ ν) :=
  if bits ≤ 31 then .ok (empty bits) else .error (.cacheBits bits)

/-- How many results the cache can hold. -/
def capacity (c : ResultCache κ ν) : Nat := c.slots.size

/-- Forgets every result. -/
def clear (c : ResultCache κ ν) : ResultCache κ ν :=
  let n := c.slots.size
  { c with slots := Array.replicate n none }

variable [Digest κ]

/-- Stores a result, overwriting what the key's slot held. -/
def insert (c : ResultCache κ ν) (key : κ) (value : ν) : ResultCache κ ν :=
  let i := slotOf c.slots.size key
  { c with slots := c.slots.setIfInBounds i (some (key, value)) }

variable [DecidableEq κ]

/-- The stored result of a key, if its slot still holds it. -/
def find? (c : ResultCache κ ν) (key : κ) : Option ν :=
  match c.slots.getD (slotOf c.slots.size key) none with
  | some (k, v) => if k = key then some v else none
  | none => none

/-- Looks a key up and counts the hit or the miss. -/
def lookup (c : ResultCache κ ν) (key : κ) : Option ν × ResultCache κ ν :=
  match c.find? key with
  | some v => (some v, { c with hits := c.hits + 1 })
  | none => (none, { c with misses := c.misses + 1 })

end ResultCache

end BranchingTime
