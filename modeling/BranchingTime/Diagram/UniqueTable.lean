import BranchingTime.Hashing
import BranchingTime.Journal
import BranchingTime.Diagram.Fault

/-!
# The unique table

An arena of cells with a hash index, so that equal values get equal cell
numbers. `put` finds the cell of a value or takes a new one; `alloc` takes
a cell that the index does not know, so it is never found and never
swept; `sweep` frees the indexed cells that are not to be kept.

Cell numbers are part of the contract: cells are numbered from `1` in the
order they are first taken, and freed cells are taken again last freed
first. Cell `0` is a sentinel that is never handed out. That the arena never
gets full is assumed (`maxCells`).

The index is an array of buckets. A bucket is the first cell of a chain,
newest first, of the shared cells whose digest selects it; each cell links
to the next one, and a link to the sentinel ends the chain. The number of
buckets doubles when there would be more than two taken cells to a bucket.
-/

namespace BranchingTime

/-- What a cell is used for. -/
inductive Use where
  /-- Freed, and waiting to be taken again. -/
  | free
  /-- Taken, but unknown to the index. -/
  | held
  /-- Taken and indexed. -/
  | shared
  deriving DecidableEq, Repr

/-- A cell of the arena. A freed cell keeps its last value until it is
taken again. -/
structure Cell (α : Type) where
  value : α
  use : Use
  deriving Repr

/-- An arena of cells with a hash index over its shared cells. -/
structure UniqueTable (α : Type) where
  cells : Array (Cell α)
  /-- For each cell the next one in its chain, or `0` at the end. -/
  links : Array Nat
  /-- The first cell of each chain, or `0` if it has none. -/
  buckets : Array Nat
  /-- Freed cells, last freed first. -/
  spare : List Nat
  /-- How many cells are taken, the sentinel apart. -/
  live : Nat

namespace UniqueTable

variable {α : Type}

/-- The table with `2^bits` buckets that holds the sentinel only. -/
def empty [Inhabited α] (bits : Nat) : UniqueTable α where
  cells := #[⟨default, .held⟩]
  links := #[0]
  buckets := Array.replicate (Nat.pow 2 bits) 0
  spare := []
  live := 0

/-- An empty table, unless it would have more than `2^31` buckets. -/
def new? [Inhabited α] (bits : Nat) : Except Fault (UniqueTable α) :=
  if bits ≤ 31 then .ok (empty bits) else .error .tableBits

/-- How many cells the arena has, free or taken, the sentinel apart. -/
def size (t : UniqueTable α) : Nat := t.cells.size - 1

/-- The value in cell `i`; the sentinel holds none. -/
def value? (t : UniqueTable α) (i : Nat) : Option α :=
  if i = 0 then none else t.cells[i]?.map Cell.value

/-- Is cell `i` taken? -/
def isTaken? (t : UniqueTable α) (i : Nat) : Option Bool :=
  t.cells[i]?.map fun c => c.use != .free

/-- The indexed cells, in ascending order. -/
def sharedCells (t : UniqueTable α) : List Nat :=
  t.cells.toList.zipIdx.filterMap fun (c, i) => if c.use = .shared then some i else none

/-- Asks of some cells, one after the other, whether they are to be kept.
Returns the others, the last of them first. -/
def rejected {m : Type → Type} [Monad m] (keep : Nat → m Bool) (cells : List Nat) : m (List Nat) :=
  cells.foldlM (fun others i => do return if ← keep i then others else i :: others) []

/-- No arena has more cells than this, the sentinel included: handles are
signed words of 32 bits. -/
def maxCells : Nat := Nat.pow 2 31

/-- Takes a cell for `a`: the one freed last, or a new one at the end. It
is in no chain yet. A new cell is taken on the assumption that the arena has
less than `maxCells` cells; whether it has is not tested here. -/
def take (t : UniqueTable α) (a : α) (use : Use) : Nat × UniqueTable α :=
  match t.spare with
  | i :: rest =>
    (i, { t with
      cells := t.cells.setIfInBounds i ⟨a, use⟩
      links := t.links.setIfInBounds i 0
      spare := rest
      live := t.live + 1 })
  | [] =>
    let i := t.cells.size
    (i, { t with
      cells := t.cells.push ⟨a, use⟩
      links := t.links.push 0
      live := t.live + 1 })

/-- Takes a cell that the index does not know. -/
def alloc (t : UniqueTable α) (a : α) : Nat × UniqueTable α :=
  t.take a .held

/-- Frees some cells, to be taken again in the order given. They have to be
taken out of the index, too. -/
def release (t : UniqueTable α) (doomed : List Nat) : UniqueTable α :=
  let count := doomed.length
  { t with
    cells := doomed.foldl (fun cells i => cells.modify i fun c => { c with use := .free }) t.cells
    links := doomed.foldl (fun links i => links.setIfInBounds i 0) t.links
    spare := doomed ++ t.spare
    live := t.live - count }

variable [Digest α]

/-- Puts cell `i`, holding `a`, at the head of its chain. -/
def chain (t : UniqueTable α) (i : Nat) (a : α) : UniqueTable α :=
  let b := slotOf t.buckets.size a
  let head := t.buckets.getD b 0
  { t with links := t.links.setIfInBounds i head, buckets := t.buckets.setIfInBounds b i }

/-- Chains a cell, given with its number, if it is shared. -/
def chainShared (t : UniqueTable α) (cell : Cell α × Nat) : UniqueTable α :=
  if cell.1.use = .shared then t.chain cell.2 cell.1.value else t

/-- Indexes the shared cells anew, in ascending order, by `n` buckets. -/
def relink (t : UniqueTable α) (n : Nat) : UniqueTable α :=
  t.cells.toList.zipIdx.foldl chainShared { t with buckets := Array.replicate n 0 }

/-- Are there more than two taken cells to a bucket? -/
def isCrowded (t : UniqueTable α) : Bool := 2 * t.buckets.size < t.live

/-- Doubles the number of buckets. -/
def grow (t : UniqueTable α) : UniqueTable α :=
  let n := t.buckets.size
  t.relink (2 * n)

/-- Asks of each shared cell, in ascending order, whether it is to be kept,
and frees the others. Returns how many were freed. -/
def sweepM {m : Type → Type} [Monad m] (t : UniqueTable α) (keep : Nat → m Bool) :
    m (Nat × UniqueTable α) := do
  let doomed ← rejected keep t.sharedCells
  let n := t.buckets.size
  return (doomed.length, (t.release doomed).relink n)

/-- Frees the shared cells that are not to be kept, in ascending order.
Returns how many were freed. -/
def sweep (t : UniqueTable α) (keep : Nat → Bool) : Nat × UniqueTable α :=
  Id.run (t.sweepM fun i => pure (keep i))

variable [DecidableEq α]

/-- The first cell that holds `a`, of at most `n` cells of a chain from cell
`i` on. -/
def findFrom (t : UniqueTable α) (a : α) : Nat → Nat → Option Nat
  | 0, _ => none
  | n + 1, i =>
    if i = 0 then none
    else if t.value? i = some a then some i
    else t.findFrom a n (t.links.getD i 0)

/-- The shared cell that holds `a`. No chain is longer than the arena. -/
def find? (t : UniqueTable α) (a : α) : Option Nat :=
  t.findFrom a t.cells.size (t.buckets.getD (slotOf t.buckets.size a) 0)

/-- The cell of `a`: the one that holds it already, or a newly taken one.
Reports when the table grew. -/
def put (t : UniqueTable α) (a : α) : Nat × Option Event × UniqueTable α :=
  match t.find? a with
  | some i => (i, none, t)
  | none =>
    let (i, t) := t.take a .shared
    let t := t.chain i a
    if t.isCrowded then
      let t := t.grow
      (i, some (.tableGrown t.buckets.size), t)
    else (i, none, t)

end UniqueTable

end BranchingTime
