import BranchingTime.Proofs.PathCubes

/-!
# The cursor hands out all paths

A cursor on its way through a diagram has some paths before it: those of the
branches that its nodes have left, each behind the literals that lead to the
node (`PathCursor.pending`). No move changes them, except that a path which is
found is the first of them (`turn_keeps`). At the start they are the paths of
the diagram, and at the end there are none. So the paths that are handed out
are those of the diagram, in their order (`Reduced.paths?_eq`).

Every node on the way stands at a lower level than the one before it, so a way
has no more nodes than there are levels, and the walk ends by itself: it has no
need of the bound on its depth (`enumerates`).
-/

namespace BranchingTime

open Manager

namespace PathCursor

variable {m : Manager} {f : Handle} {c : PathCursor} {frame : Frame} {below stack : List Frame}
  {trail : Literals} {ceiling : Nat}

/-! ## Ways down -/

/-- Nodes on a way down, last one first: they are diagrams of the manager, and
each stands above the one before it, the last one above the ceiling. Only nodes
that decide a variable were entered. -/
def Descends (m : Manager) : Nat → List Frame → Prop
  | _, [] => True
  | ceiling, frame :: below => m.level frame.node < ceiling ∧ m.Valid frame.node
      ∧ (frame.branch ≠ .high → frame.node.isTerminal = false)
      ∧ Descends m (m.level frame.node) below

/-- A way has no more nodes than there are levels. -/
theorem Descends.length_lt (hr : m.Reduced) (h : Descends m ceiling stack) (hpos : 0 < ceiling) :
    stack.length < ceiling := by
  induction stack generalizing ceiling with
  | nil => exact hpos
  | cons frame below ih =>
      obtain ⟨hlevel, hvalid, -, hbelow⟩ := h
      have := ih hbelow (hr.level_pos hvalid)
      rw [List.length_cons]
      omega

theorem Descends.mono {ceiling' : Nat} (h : Descends m ceiling stack) (hle : ceiling ≤ ceiling') :
    Descends m ceiling' stack := by
  cases stack with
  | nil => trivial
  | cons frame below => exact ⟨Nat.lt_of_lt_of_le h.1 hle, h.2⟩

/-- The cursor stands at the end of a way down. -/
def Sound (m : Manager) (c : PathCursor) : Prop := Descends m (m.numVars + 2) c.stack

theorem sound_start (hr : m.Reduced) (h : m.Valid f) : (start f).Sound m := by
  have hlevel := hr.level_le h
  exact ⟨Nat.lt_succ_of_le hlevel, h, fun hne => absurd rfl hne, trivial⟩

theorem Sound.length_le (hr : m.Reduced) (h : c.Sound m) : c.stack.length ≤ m.depthBound := by
  have := h.length_lt hr (by omega)
  rw [depthBound]
  omega

theorem Sound.backtrack (h : Sound m ⟨frame :: below, trail⟩) :
    Sound m (backtrack ⟨frame :: below, trail⟩) :=
  h.2.2.2.mono (Nat.le_of_lt h.1)

/-- Taking a branch leads one level further down. -/
theorem Sound.push {branch after : Branch} {child : Handle} {trail' : Literals} (hr : m.Reduced)
    (h : Sound m ⟨⟨f, branch⟩ :: below, trail⟩) (hf : f.isTerminal = false)
    (hchild : m.Valid child) (hlevel : m.level f < m.level child) :
    Sound m ⟨⟨child, .high⟩ :: ⟨f, after⟩ :: below, trail'⟩ := by
  obtain ⟨-, hvalid, -, hbelow⟩ := h
  have := hr.level_le hchild
  exact ⟨Nat.lt_succ_of_le this, hchild, fun hne => absurd rfl hne, hlevel, hvalid, fun _ => hf,
    hbelow⟩

/-! ## The paths before a cursor -/

/-- The paths that go on by the branches that a node has left. -/
def pendingAt (m : Manager) : Frame → List Literals
  | ⟨f, .high⟩ => m.paths f
  | ⟨f, .low⟩ => (m.paths (m.low f)).map (-(m.level f : Int) :: ·)
  | ⟨_, .done⟩ => []

/-- The paths by the branches that are left on a way, the last node first. The
first literals of the trail lead to the node. -/
def pendingFrom (m : Manager) : List Frame → Literals → List Literals
  | [], _ => []
  | frame :: below, trail =>
    (pendingAt m frame).map (trail.reverse ++ ·) ++ pendingFrom m below trail.tail

/-- The paths that a cursor has before it. -/
def pending (m : Manager) (c : PathCursor) : List Literals := pendingFrom m c.stack c.trail

theorem pending_start (f : Handle) : (start f).pending m = m.paths f := by
  simp [pending, start, pendingFrom, pendingAt]

theorem pending_backtrack (frame : Frame) (below : List Frame) (trail : Literals) :
    (backtrack ⟨frame :: below, trail⟩).pending m = pendingFrom m below trail.tail := by
  cases below <;> rfl

/-- Taking the high branch leaves the low one for later. -/
theorem pending_high (hr : m.Reduced) (h : m.Valid f) (hf : f.isTerminal = false) :
    pending m ⟨⟨f, .high⟩ :: below, trail⟩
      = pending m ⟨⟨m.high f, .high⟩ :: ⟨f, .low⟩ :: below, (m.level f : Int) :: trail⟩ := by
  simp only [pending, pendingFrom, pendingAt, hr.paths_node h hf, List.map_append, List.map_map,
    List.append_assoc, List.tail_cons, List.reverse_cons]
  rfl

/-- Taking the low branch leaves none. -/
theorem pending_low :
    pending m ⟨⟨f, .low⟩ :: below, trail⟩
      = pending m ⟨⟨m.low f, .high⟩ :: ⟨f, .done⟩ :: below, -(m.level f : Int) :: trail⟩ := by
  simp only [pending, pendingFrom, pendingAt, List.map_map, List.map_nil, List.nil_append,
    List.append_assoc, List.tail_cons, List.reverse_cons]
  rfl

/-! ## One move, and all of them -/

/-- What a move keeps: the paths before the cursor, but for a path that is
found, and that the cursor is on a way down. -/
def Keeps (m : Manager) (c : PathCursor) : Turn → Prop
  | .ended => c.pending m = []
  | .found path next => c.pending m = path :: next.pending m ∧ next.Sound m
  | .moved next => c.pending m = next.pending m ∧ next.Sound m

theorem turn_keeps (hr : m.Reduced) (h : c.Sound m) : Keeps m c (c.turn m) := by
  obtain ⟨stack, trail⟩ := c
  cases stack with
  | nil => exact rfl
  | cons frame below =>
      obtain ⟨f, branch⟩ := frame
      have hvalid : m.Valid f := h.2.1
      -- constants are left before a branch of them is taken
      have hhigh : f.isTerminal = true → branch = .high := by
        intro ht
        by_contra hne
        exact absurd ht (Bool.eq_false_iff.mp (h.2.2.1 hne))
      rw [turn]
      split
      · next hone =>
          subst hone
          obtain rfl := hhigh rfl
          refine ⟨?_, h.backtrack⟩
          rw [pending_backtrack, pending, pendingFrom, pendingAt, paths_one]
          simp
      next hone =>
      split
      · next hzero =>
          subst hzero
          obtain rfl := hhigh rfl
          refine ⟨?_, h.backtrack⟩
          rw [pending_backtrack, pending, pendingFrom, pendingAt, paths_zero]
          simp
      next hzero =>
      have hf : f.isTerminal = false := Handle.isTerminal_eq_false hone hzero
      have htop : m.topVar f = m.level f := by simp [level, hf]
      simp only [htop]
      cases branch with
      | high =>
          exact ⟨pending_high hr hvalid hf, h.push hr hf (hr.high_valid hvalid hf)
            (hr.level_lt_high hvalid hf)⟩
      | low =>
          exact ⟨pending_low, h.push hr hf (hr.low_valid hvalid hf) (hr.level_lt_low hvalid hf)⟩
      | done => exact ⟨(pending_backtrack ..).symm, h.backtrack⟩

/-- From `c`, the walk finds the paths in the list, one after the other, and
ends, however long the way. -/
inductive Enumerates (m : Manager) : PathCursor → List Literals → Prop
  | ended {c : PathCursor} (h : c.turn m = .ended) : Enumerates m c []
  | found {c next : PathCursor} {path : Literals} {paths : List Literals}
      (h : c.turn m = .found path next) (rest : Enumerates m next paths) :
      Enumerates m c (path :: paths)
  | moved {c next : PathCursor} {paths : List Literals} (h : c.turn m = .moved next)
      (rest : Enumerates m next paths) : Enumerates m c paths

theorem enumerates (hr : m.Reduced) (h : c.Sound m) : Enumerates m c (c.pending m) := by
  -- by induction on the moves that are left at most
  induction hmoves : movesLeft m.depthBound c.stack using Nat.strongRecOn generalizing c with
  | ind k ih =>
      subst hmoves
      have hfewer {next : PathCursor} (hnext : (c.turn m).next? = some next) :=
        movesLeft_turn (h.length_le hr) hnext
      have hkeeps := turn_keeps hr h
      cases hturn : c.turn m with
      | ended =>
          rw [hturn] at hkeeps
          rw [show c.pending m = [] from hkeeps]
          exact .ended hturn
      | found path next =>
          rw [hturn] at hkeeps hfewer
          rw [hkeeps.1]
          exact .found hturn (ih _ (hfewer rfl) hkeeps.2 rfl)
      | moved next =>
          rw [hturn] at hkeeps hfewer
          rw [hkeeps.1]
          exact .moved hturn (ih _ (hfewer rfl) hkeeps.2 rfl)

/-- What comes out of looking for the next path. -/
theorem next_keeps (hr : m.Reduced) (h : c.Sound m) :
    (c.next m = none ∧ c.pending m = [])
      ∨ ∃ path c', c.next m = some (path, c') ∧ c.pending m = path :: c'.pending m
        ∧ c'.Sound m := by
  fun_induction next m c with
  | case1 c _ hturn =>
      have hkeeps := turn_keeps hr h
      rw [hturn] at hkeeps
      exact Or.inl ⟨rfl, hkeeps⟩
  | case2 c _ path c' hturn =>
      have hkeeps := turn_keeps hr h
      rw [hturn] at hkeeps
      exact Or.inr ⟨path, c', rfl, hkeeps⟩
  | case3 c _ c' hturn ih =>
      have hkeeps := turn_keeps hr h
      rw [hturn] at hkeeps
      rw [hkeeps.1]
      exact ih hkeeps.2
  | case4 c hdeep => exact absurd (h.length_le hr) hdeep

theorem toList_eq_pending (hr : m.Reduced) (h : c.Sound m) : c.toList m = c.pending m := by
  fun_induction toList m c with
  | case1 c hnext =>
      rcases next_keeps hr h with ⟨-, hnil⟩ | ⟨path, c', hsome, -⟩
      · exact hnil.symm
      · cases hnext.symm.trans hsome
  | case2 c path c' hnext ih =>
      rcases next_keeps hr h with ⟨hnone, -⟩ | ⟨path', c'', hsome, hpending, hsound⟩
      · cases hnext.symm.trans hnone
      · obtain ⟨rfl, rfl⟩ := Prod.mk.inj (Option.some.inj (hnext.symm.trans hsome))
        rw [hpending, ih hsound]

theorem take_eq_pending (hr : m.Reduced) (h : c.Sound m) (count : Nat) :
    c.take m count = (c.pending m).take count := by
  induction count generalizing c with
  | zero => rfl
  | succ count ih =>
      rw [take]
      rcases next_keeps hr h with ⟨hnone, hnil⟩ | ⟨path, c', hsome, hpending, hsound⟩
      · rw [hnone, hnil]
        rfl
      · rw [hsome, hpending, List.take_succ_cons, ← ih hsound]

end PathCursor

namespace Manager

variable {m : Manager} {f : Handle}

/-- The paths handed out are the paths of the diagram: all of them, or the first
ones up to the limit. -/
theorem Reduced.paths?_eq (hr : m.Reduced) (h : m.Valid f) (limit? : Option Nat) :
    m.paths? limit? f = limit?.elim (m.paths f) (m.paths f).take := by
  have hsound := PathCursor.sound_start hr h
  have hpending := PathCursor.pending_start (m := m) f
  cases limit? with
  | none => exact (PathCursor.toList_eq_pending hr hsound).trans hpending
  | some count =>
      rw [paths?, PathCursor.take_eq_pending hr hsound, hpending]
      rfl

/-- The paths of a diagram go on from its true branch first. Its children are
complemented with it. -/
theorem Reduced.paths_eq_ite (hr : m.Reduced) (h : m.Valid f) :
    m.paths f = if f = .one then [[]] else if f = .zero then [] else
      (m.paths (m.high f)).map ((m.topVar f : Int) :: ·)
        ++ (m.paths (m.low f)).map (-(m.topVar f : Int) :: ·) := by
  by_cases hone : f = .one
  · rw [if_pos hone, hone, paths_one]
  by_cases hzero : f = .zero
  · rw [if_neg hone, if_pos hzero, hzero, paths_zero]
  have hf := Handle.isTerminal_eq_false hone hzero
  have htop : m.topVar f = m.level f := by simp [level, hf]
  rw [if_neg hone, if_neg hzero, htop, hr.paths_node h hf]

/-- The cursor comes to an end, and what it hands out is a disjoint cover of the
diagram by cubes, listed depth first with the true branch first. -/
theorem WellFormed.paths_exact (hm : m.WellFormed) (h : m.Valid f) :
    PathCursor.Enumerates m (.start f) (m.paths f)
      ∧ (∀ limit?, m.paths? limit? f = limit?.elim (m.paths f) (m.paths f).take)
      ∧ (∀ g, m.Valid g → m.paths g = if g = .one then [[]] else if g = .zero then [] else
          (m.paths (m.high g)).map ((m.topVar g : Int) :: ·)
            ++ (m.paths (m.low g)).map (-(m.topVar g : Int) :: ·))
      ∧ (∀ p ∈ m.paths f, (p.map Int.natAbs).Pairwise (· < ·) ∧ ∀ l ∈ p, l ≠ 0)
      ∧ (m.paths f).Pairwise Opposed
      ∧ (∀ a, m.eval f a = true ↔ ∃ p ∈ m.paths f, a.Meets p)
      ∧ ∀ a, m.eval f a = true → ∃! p, p ∈ m.paths f ∧ a.Meets p := by
  have hr := hm.toReduced
  refine ⟨?_, hr.paths?_eq h, fun g hg => hr.paths_eq_ite hg, ?_, hr.paths_opposed h,
    hr.eval_iff_meets h, ?_⟩
  · have hends := PathCursor.enumerates hr (PathCursor.sound_start hr h)
    rwa [PathCursor.pending_start] at hends
  · intro p hp
    obtain ⟨hsorted, hle⟩ := hr.path_ascending h hp
    have hpos := hr.level_pos h
    exact ⟨hsorted, fun l hl => by have := hle l hl; omega⟩
  · intro a heval
    obtain ⟨p, hp, hmeets⟩ := (hr.eval_iff_meets h a).mp heval
    exact ⟨p, ⟨hp, hmeets⟩, fun q hq => hr.eq_of_meets h hq.1 hp hq.2 hmeets⟩

/-! ## Two variables that differ -/

/-- The nodes of a manager for two variables: cell `2` stores the second
variable, and cell `3` says that both have the same value. -/
def parityCells : Array (Cell Node) :=
  #[⟨default, .held⟩, ⟨default, .held⟩, ⟨⟨2, .zero, .one⟩, .shared⟩,
    ⟨⟨1, -.ofIndex 2, .ofIndex 2⟩, .shared⟩]

/-- The manager of these nodes. Its one bucket has the chain from cell `3` to
cell `2`. -/
def parityManager : Manager where
  numVars := 2
  table := ⟨parityCells, #[0, 0, 0, 2], #[3], [], 3⟩
  cache := .empty 0
  journal := #[]

theorem stores_parityManager {i : Nat} {n : Node} (h : parityManager.Stores i n) :
    i = 2 ∧ n = ⟨2, .zero, .one⟩ ∨ i = 3 ∧ n = ⟨1, -.ofIndex 2, .ofIndex 2⟩ := by
  rcases i with _ | _ | _ | _ | i
  · cases h
  · cases h
  · cases h
    exact Or.inl ⟨rfl, rfl⟩
  · cases h
    exact Or.inr ⟨rfl, rfl⟩
  · cases h

theorem wellFormed_parityManager : parityManager.WellFormed where
  table := by
    refine ⟨⟨rfl, ?_, ?_, .nil, ⟨default, rfl⟩, rfl⟩, Nat.one_pos, ?_⟩
    · intro i j a hi hj
      rcases stores_parityManager hi with ⟨rfl, rfl⟩ | ⟨rfl, rfl⟩ <;>
        rcases stores_parityManager hj with ⟨rfl, heq⟩ | ⟨rfl, heq⟩ <;> first | rfl | cases heq
    · intro i
      rcases i with _ | _ | _ | _ | i <;> simp [parityManager, parityCells]
    · intro b hb
      obtain rfl : b = 0 := Nat.lt_one_iff.mp hb
      have hslot : ∀ n : Node, slotOf 1 n = 0 := fun n =>
        Nat.lt_one_iff.mp (slotOf_lt Nat.one_pos n)
      have hthree : UniqueTable.Linked #[0, 0, 0, 2] 3 [3, 2] :=
        .cons (by decide) rfl (.cons (by decide) rfl .nil)
      refine ⟨[3, 2], hthree, by decide, fun i => ?_⟩
      simp only [List.mem_cons, List.not_mem_nil, or_false]
      constructor
      · rintro (rfl | rfl)
        · exact ⟨_, rfl, hslot _⟩
        · exact ⟨_, rfl, hslot _⟩
      · rintro ⟨n, hn, -⟩
        rcases stores_parityManager hn with ⟨rfl, -⟩ | ⟨rfl, -⟩
        · exact .inr rfl
        · exact .inl rfl
  terminal := rfl
  proper := by
    intro i n h
    have hsecond : parityManager.Stores 2 ⟨2, .zero, .one⟩ := rfl
    rcases stores_parityManager h with ⟨rfl, rfl⟩ | ⟨rfl, rfl⟩
    · exact ⟨by decide, by decide, by decide, rfl, .inl rfl, .inl rfl, by decide, by decide⟩
    · exact ⟨by decide, by decide, by decide, rfl, .inr ⟨_, hsecond⟩, .inr ⟨_, hsecond⟩,
        by decide, by decide⟩
  cache := by
    intro k r h
    simp [parityManager, ResultCache.empty] at h

/-- The handle that says that the two variables differ: its edges are
complemented on the way down. -/
theorem WellFormed.paths_exact_parity :
    parityManager.WellFormed ∧ parityManager.Valid (-.ofIndex 3)
      ∧ PathCursor.Enumerates parityManager (.start (-.ofIndex 3)) [[1, -2], [-1, 2]]
      ∧ parityManager.paths? none (-.ofIndex 3) = [[1, -2], [-1, 2]]
      ∧ parityManager.paths? (some 1) (-.ofIndex 3) = [[1, -2]]
      ∧ [[1, -2], [-1, 2]].Pairwise Opposed := by
  have hvalid : parityManager.Valid (-.ofIndex 3) := Or.inr ⟨_, rfl⟩
  have hpaths : parityManager.paths (-.ofIndex 3) = [[1, -2], [-1, 2]] := by decide
  obtain ⟨hends, hlimit, -, -, hopposed, -⟩ := paths_exact wellFormed_parityManager hvalid
  rw [hpaths] at hends hopposed
  refine ⟨wellFormed_parityManager, hvalid, hends, ?_, ?_, hopposed⟩
  · rw [hlimit, hpaths]
    rfl
  · rw [hlimit, hpaths]
    rfl

end Manager
end BranchingTime
