/-!
# Digests of tuples of words

A digest is a 64-bit word computed from a key: it chooses the bucket of a
unique table and the slot of a result cache. Tuples are first folded into
one word by a pairing function (`pairWords`, injective on words below
`2^32`), and the word is then scrambled so that its low bits depend on
all bits of the key.

Tables and caches are generic in the class `Digest`; nothing about their
contents depends on which digest is chosen, only how often a cache
forgets.
-/

namespace BranchingTime

/-- Folds two words into one, shell by shell: all pairs with maximum `n`
come after all pairs with a smaller maximum. Arithmetic is modulo `2^64`. -/
def pairWords (a b : UInt64) : UInt64 :=
  if a < b then b * b + a else a * a + a + b

/-- Folds three words into one, the first two first. -/
def pairWords3 (a b c : UInt64) : UInt64 :=
  pairWords (pairWords a b) c

/-- One round of scrambling: mix the high bits in, then multiply. -/
def scrambleRound (shift factor z : UInt64) : UInt64 :=
  (z ^^^ (z >>> shift)) * factor

/-- Spreads every bit of a word over the whole word. -/
def scramble (x : UInt64) : UInt64 :=
  let z := scrambleRound 27 0x94d049bb133111eb (scrambleRound 30 0xbf58476d1ce4e5b9 x)
  z ^^^ (z >>> 31)

/-- Keys that have a digest. -/
class Digest (α : Type) where
  digest : α → UInt64

export Digest (digest)

instance : Digest (UInt64 × UInt64) where
  digest p := scramble (pairWords p.1 p.2)

instance : Digest (UInt64 × UInt64 × UInt64) where
  digest t := scramble (pairWords3 t.1 t.2.1 t.2.2)

/-- The slot of a key among `size` slots. -/
def slotOf {α : Type} [Digest α] (size : Nat) (key : α) : Nat :=
  (digest key).toNat % size

theorem slotOf_lt {α : Type} [Digest α] {size : Nat} (h : 0 < size) (key : α) :
    slotOf size key < size :=
  Nat.mod_lt _ h

end BranchingTime
