/-!
# Handles

A handle names a diagram: the index of a cell of the unique table, with a
sign that says whether the named function is the stored one or its
complement. Complementation is therefore free, and a function and its
complement share one cell.

Index `0` is never handed out by a table; it only stands as the missing
child of the terminal node, and its complement is itself.
-/

namespace BranchingTime

/-- A signed cell index. -/
structure Handle where
  code : Int
  deriving DecidableEq, Hashable, Repr, Inhabited

namespace Handle

/-- The handle of the function stored in cell `i`. -/
def ofIndex (i : Nat) : Handle := ⟨i⟩

/-- The cell that a handle points to. -/
def index (f : Handle) : Nat := f.code.natAbs

/-- Does the handle name the complement of the stored function? -/
def isComplemented (f : Handle) : Bool := f.code < 0

/-- The handle of the complement. -/
def complement (f : Handle) : Handle := ⟨-f.code⟩

instance : Neg Handle where
  neg := complement

/-- Complements a handle when `b` holds. -/
def complementIf (b : Bool) (f : Handle) : Handle := if b then -f else f

/-- The constant true function: the terminal cell. -/
def one : Handle := ofIndex 1

/-- The constant false function: the complement of the terminal cell. -/
def zero : Handle := -one

/-- Both constants live in the terminal cell. -/
def isTerminal (f : Handle) : Bool := f.index == one.index

/-- A word that identifies the handle: twice the index, plus one for a
complemented handle. -/
def word (f : Handle) : UInt64 :=
  UInt64.ofNat (2 * f.index + f.isComplemented.toNat)

/-- Handles are ordered by their signed index. -/
def le (f g : Handle) : Bool := f.code ≤ g.code

/-- The written form: `@5`, complemented `~@5`. -/
protected def toString (f : Handle) : String :=
  (if f.isComplemented then "~@" else "@") ++ toString f.index

instance : ToString Handle where
  toString := Handle.toString

theorem ext_code {f g : Handle} (h : f.code = g.code) : f = g := by
  cases f; cases g; simp_all

@[simp] theorem code_neg (f : Handle) : (-f).code = -f.code := rfl

@[simp] theorem neg_neg (f : Handle) : - -f = f := ext_code (by simp)

@[simp] theorem index_neg (f : Handle) : (-f).index = f.index := by
  simp [index]

@[simp] theorem index_ofIndex (i : Nat) : (ofIndex i).index = i := by
  simp [index, ofIndex]

end Handle

end BranchingTime
