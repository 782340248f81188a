import BranchingTime.Diagram.Manager

/-!
# Walking along the paths

A cursor hands out the paths of a diagram one at a time. It stands at the end
of a way down from the root, and remembers for every node on the way which
branch comes next, and the literals decided so far. Taking a branch adds a
node and a literal; leaving a node takes both back, but for the root, to which
no literal led.

A path is the list of the literals decided on it, in order: `v` for a variable
taken as true and `-v` for one taken as false.

`PathCursor.turn` is one move. `PathCursor.next` moves until a path is found
or the walk has ended.
-/

namespace BranchingTime

/-- A conjunction of literals. -/
abbrev Literals := List Int

/-- Which branch of a node comes next. -/
inductive Branch where
  | high | low | done
  deriving DecidableEq, Repr

/-- A node on the way down. -/
structure Frame where
  node : Handle
  branch : Branch
  deriving DecidableEq, Repr

/-- A walk along the paths of a diagram: the way down, and the literals decided
on it, both last one first. -/
structure PathCursor where
  stack : List Frame
  trail : Literals
  deriving DecidableEq, Repr

namespace PathCursor

/-- The walk along the paths of `f`, before its first move. -/
def start (f : Handle) : PathCursor := ⟨[⟨f, .high⟩], []⟩

/-- Leaves the last node, and takes back the literal that led to it. -/
def backtrack : PathCursor → PathCursor
  | ⟨[], trail⟩ => ⟨[], trail⟩
  | ⟨_ :: below, trail⟩ => ⟨below, if below.isEmpty then trail else trail.tail⟩

/-- What a move of a cursor comes to. -/
inductive Turn where
  /-- The walk has ended. -/
  | ended
  /-- A path was found. -/
  | found (path : Literals) (next : PathCursor)
  /-- The cursor stands elsewhere. -/
  | moved (next : PathCursor)
  deriving DecidableEq, Repr

/-- One move: a constant is left, a node is entered by its next branch, and
left after the last one. -/
def turn (m : Manager) : PathCursor → Turn
  | ⟨[], _⟩ => .ended
  | c@⟨⟨f, branch⟩ :: below, trail⟩ =>
    if f = .one then .found trail.reverse c.backtrack
    else if f = .zero then .moved c.backtrack
    else
      let v : Int := m.topVar f
      match branch with
      | .high => .moved ⟨⟨m.high f, .high⟩ :: ⟨f, .low⟩ :: below, v :: trail⟩
      | .low => .moved ⟨⟨m.low f, .high⟩ :: ⟨f, .done⟩ :: below, -v :: trail⟩
      | .done => .moved c.backtrack

/-! ## Walks end -/

/-- How many moves it takes at most to be done with a node, where ways go down
`depth` more levels at most. -/
def movesBelow : Nat → Nat
  | 0 => 1
  | depth + 1 => 2 * movesBelow depth + 3

/-- How many moves a node is still good for. -/
def movesAt (depth : Nat) : Branch → Nat
  | .high => movesBelow depth
  | .low => movesBelow (depth - 1) + 2
  | .done => 1

/-- How many moves are left at most, if no way goes down more than `depth`
levels. -/
def movesLeft (depth : Nat) : List Frame → Nat
  | [] => 0
  | frame :: below => movesAt (depth - below.length) frame.branch + movesLeft depth below

theorem movesAt_pos (depth : Nat) (branch : Branch) : 0 < movesAt depth branch := by
  cases branch with
  | high => cases depth <;> simp [movesAt, movesBelow]
  | low => simp [movesAt]
  | done => simp [movesAt]

theorem movesLeft_backtrack {depth : Nat} {frame : Frame} {below : List Frame}
    {trail : Literals} :
    movesLeft depth (backtrack ⟨frame :: below, trail⟩).stack
      < movesLeft depth (frame :: below) := by
  have := movesAt_pos (depth - below.length) frame.branch
  simp only [backtrack, movesLeft]
  omega

theorem movesLeft_push {depth : Nat} {f child : Handle} {below : List Frame}
    {branch after : Branch} (hdepth : below.length < depth)
    (hbranch : branch = .high ∧ after = .low ∨ branch = .low ∧ after = .done) :
    movesLeft depth (⟨child, .high⟩ :: ⟨f, after⟩ :: below)
      < movesLeft depth (⟨f, branch⟩ :: below) := by
  obtain ⟨d, hd⟩ : ∃ d, depth - below.length = d + 1 := ⟨depth - below.length - 1, by omega⟩
  have hd' : depth - (below.length + 1) = d := by omega
  rcases hbranch with ⟨rfl, rfl⟩ | ⟨rfl, rfl⟩ <;>
    simp only [movesLeft, movesAt, movesBelow, List.length_cons, hd, hd', Nat.add_sub_cancel] <;>
    omega

/-- Where the cursor stands after a move. -/
def Turn.next? : Turn → Option PathCursor
  | .ended => none
  | .found _ next => some next
  | .moved next => some next

/-- A move on a way that is not too long leaves fewer moves. -/
theorem movesLeft_turn {m : Manager} {c next : PathCursor} {depth : Nat}
    (hdepth : c.stack.length ≤ depth) (h : (c.turn m).next? = some next) :
    movesLeft depth next.stack < movesLeft depth c.stack := by
  obtain ⟨stack, trail⟩ := c
  cases stack with
  | nil => simp [turn, Turn.next?] at h
  | cons frame below =>
      obtain ⟨f, branch⟩ := frame
      have hlt : below.length < depth := hdepth
      rw [turn] at h
      split at h
      · obtain rfl := Option.some.inj h
        exact movesLeft_backtrack
      split at h
      · obtain rfl := Option.some.inj h
        exact movesLeft_backtrack
      cases branch with
      | high =>
          obtain rfl := Option.some.inj h
          exact movesLeft_push hlt (Or.inl ⟨rfl, rfl⟩)
      | low =>
          obtain rfl := Option.some.inj h
          exact movesLeft_push hlt (Or.inr ⟨rfl, rfl⟩)
      | done =>
          obtain rfl := Option.some.inj h
          exact movesLeft_backtrack

/-- Moves until a path is found, or there is none left. A way that is longer
than any way through different nodes goes in circles; it is given up. -/
def next (m : Manager) (c : PathCursor) : Option (Literals × PathCursor) :=
  if _hdepth : c.stack.length ≤ m.depthBound then
    match _hturn : c.turn m with
    | .ended => none
    | .found path c' => some (path, c')
    | .moved c' => next m c'
  else none
termination_by movesLeft m.depthBound c.stack
decreasing_by exact movesLeft_turn _hdepth (by rw [_hturn]; rfl)

theorem movesLeft_next {m : Manager} {c c' : PathCursor} {path : Literals}
    (h : c.next m = some (path, c')) :
    movesLeft m.depthBound c'.stack < movesLeft m.depthBound c.stack := by
  fun_induction next m c with
  | case1 => cases h
  | case2 c hdepth path next hturn =>
      obtain ⟨rfl, rfl⟩ := Prod.mk.inj (Option.some.inj h)
      exact movesLeft_turn hdepth (by rw [hturn]; rfl)
  | case3 c hdepth next hturn ih =>
      exact Nat.lt_trans (ih h) (movesLeft_turn hdepth (by rw [hturn]; rfl))
  | case4 => cases h

/-- All paths that the cursor still hands out. -/
def toList (m : Manager) (c : PathCursor) : List Literals :=
  match _hnext : c.next m with
  | none => []
  | some (path, c') => path :: toList m c'
termination_by movesLeft m.depthBound c.stack
decreasing_by exact movesLeft_next _hnext

/-- The first `count` paths that the cursor still hands out. -/
def take (m : Manager) : Nat → PathCursor → List Literals
  | 0, _ => []
  | count + 1, c =>
    match c.next m with
    | none => []
    | some (path, c') => path :: take m count c'

end PathCursor

end BranchingTime
