import BranchingTime.Diagram.Count
import BranchingTime.Proofs.GuardedTable
import BranchingTime.Proofs.PathCubes
import BranchingTime.Proofs.Replay

/-!
# Reading diagrams with guards

A manager answers for cells that it does not store as if they held the
terminal node, and goes on. Here every read of a node is checked, and so is
what the readers rely on: cofactors are taken at the first variable of a
diagram or above it, marks are set on cells that exist, the levels that are
subtracted are in order, and the descent ends.

Whatever is read off a diagram of a grounded manager passes these checks.
-/

namespace BranchingTime.Guarded

/-! ## Definitions -/

/-- The node stored in cell `i`. -/
def node (m : Manager) (i : Nat) : Except Fault Node := value m.table i

/-- The variable that `f` decides first. -/
def topVar (m : Manager) (f : Handle) : Except Fault Nat := return (← node m f.index).var

/-- What `f` becomes when its first variable is false. -/
def low (m : Manager) (f : Handle) : Except Fault Handle :=
  return (← node m f.index).low.complementIf f.isComplemented

/-- What `f` becomes when its first variable is true. -/
def high (m : Manager) (f : Handle) : Except Fault Handle :=
  return (← node m f.index).high.complementIf f.isComplemented

/-- What `f` becomes when `v` is false and when it is true. No variable above
`v` may be decided. -/
def cofactors (m : Manager) (f : Handle) (v : Nat) : Except Fault (Handle × Handle) := do
  if f.isTerminal then return (f, f)
  let w ← topVar m f
  if v < w then return (f, f)
  ensure (v = w) .disordered
  return (← low m f, ← high m f)

/-- The first variable that one of the arguments decides. -/
def keyVar (m : Manager) (key : IteKey) : Except Fault Nat := do
  ([key.thenArg, key.elseArg].filter fun x => !x.isTerminal).foldlM
    (fun v x => return min v (← topVar m x)) (← topVar m key.cond)

/-- The two calls that a call is split into. -/
def split (m : Manager) (key : IteKey) (v : Nat) : Except Fault (IteKey × IteKey) := do
  let (f0, f1) ← cofactors m key.cond v
  let (g0, g1) ← cofactors m key.thenArg v
  let (h0, h1) ← cofactors m key.elseArg v
  return (⟨f0, g0, h0⟩, ⟨f1, g1, h1⟩)

/-- Marks everything that can be reached from the cells to visit. -/
def markFrom (m : Manager) : List Nat → Array Bool → Except Fault (Array Bool)
  | [], marks => .ok marks
  | i :: todo, marks =>
    if h : i < marks.size then
      match hi : marks[i] with
      | true => markFrom m todo marks
      | false =>
        match node m i with
        | .ok n => markFrom m ([n.low.index, n.high.index] ++ todo) (marks.set i true)
        | .error fault => .error fault
    else .error .outOfBounds
termination_by todo marks => (marks.count false, todo.length)
decreasing_by
  · exact Prod.Lex.right _ (by simp)
  · exact Prod.Lex.left _ _ (Manager.count_false_set_lt h hi)

/-- The marks of the cells reachable from `roots`. -/
def reach (m : Manager) (roots : List Handle) : Except Fault (Array Bool) := do
  ensure (Handle.one.index < m.table.cells.size) .outOfBounds
  markFrom m (roots.map Handle.index)
    ((Array.replicate m.table.cells.size false).setIfInBounds Handle.one.index true)

/-- How many nodes the diagram of `f` has. -/
def nodeCount (m : Manager) (f : Handle) : Except Fault Nat := return (← reach m [f]).count true

/-- The level of `f`. -/
def level (m : Manager) (f : Handle) : Except Fault Nat :=
  if f.isTerminal then return m.numVars + 1 else topVar m f

/-- How many counted variables lie between a node at level `v` and its
child `f`. -/
def skipped (m : Manager) (n v : Nat) (f : Handle) : Except Fault Nat := do
  let l := min (← level m f) (n + 1)
  ensure (v < l) .disordered
  return l - v - 1

/-- Counts the assignments of the variables from the level of `f` on. -/
def countWithin (m : Manager) (n : Nat) : Nat → Handle → Manager.CountM Nat
  | 0, _ => throw .bottomless
  | depth + 1, f => do
    if f = .zero then return 0
    if f = .one then return 1
    match (← get)[f]? with
    | some c => return c
    | none =>
      let v ← topVar m f
      if n < v then throw (.beyond v n)
      let c0 ← countWithin m n depth (← low m f)
      let s0 ← skipped m n v (← low m f)
      let c1 ← countWithin m n depth (← high m f)
      let s1 ← skipped m n v (← high m f)
      let c := c0 * Nat.pow 2 s0 + c1 * Nat.pow 2 s1
      modify (·.insert f c)
      return c

/-- The number of assignments of `n` variables that make `f` true. -/
def satCount (m : Manager) (f : Handle) (n : Nat) : Except Fault Nat := do
  let (c, _) ← countWithin m n m.depthBound f ∅
  let l := min (← level m f) (n + 1)
  ensure (1 ≤ l) .disordered
  return c * Nat.pow 2 (l - 1)

/-- The first `count` paths of `f`. The descent has to end. -/
def pathsUpToWithin (m : Manager) : Nat → Nat → Handle → Except Fault (List Literals)
  | 0, _, _ => throw .bottomless
  | depth + 1, count, f => do
    if count = 0 then return []
    if f = .one then return [[]]
    if f = .zero then return []
    let v : Int := (← topVar m f : Nat)
    let taken := (← pathsUpToWithin m depth count (← high m f)).map (v :: ·)
    ensure (taken.length ≤ count) .outOfBounds
    return taken ++ (← pathsUpToWithin m depth (count - taken.length) (← low m f)).map (-v :: ·)

/-- The written form of a literal: there is a bit below its variable. -/
def literalText (literal : Int) : Except Fault String := do
  ensure (1 ≤ literal.natAbs) .zeroVariable
  return BranchingTime.literalText literal

/-- The written form of a cube. -/
def cubeText (cube : Literals) : Except Fault String := do
  return "<" ++ ", ".intercalate (← cube.mapM literalText) ++ ">"

/-- The text of the first `limit` cubes of `f`. -/
def cubesText (m : Manager) (limit : Nat) (f : Handle) : Except Fault String := do
  return String.join (← (← pathsUpToWithin m m.depthBound limit f).mapM cubeText)

/-! ## No check fails -/

variable {m : Manager} {f : Handle} {k : IteKey} {v d n : Nat}

/-- A node that a diagram stands on is there. -/
theorem node_eq (hm : m.Grounded) (hf : m.Valid f) : node m f.index = .ok (m.node f.index) := by
  have hread : ∃ a, m.table.value? f.index = some a := by
    rcases hf with h1 | ⟨a, ha⟩
    · exact ⟨default, by simp [UniqueTable.value?, h1, hm.terminal]⟩
    · have h0 : f.index ≠ 0 := by
        intro h0
        exact hm.table.not_holds_zero (h0 ▸ ha)
      have ha' : m.table.cells[f.index]? = some ⟨a, .shared⟩ := ha
      exact ⟨a, by simp [UniqueTable.value?, h0, ha']⟩
  obtain ⟨a, ha⟩ := hread
  rw [node, value_eq ha, Manager.node, ha]
  rfl

theorem topVar_eq (hm : m.Grounded) (hf : m.Valid f) : topVar m f = .ok (m.topVar f) := by
  rw [topVar, node_eq hm hf]
  rfl

theorem low_eq (hm : m.Grounded) (hf : m.Valid f) : low m f = .ok (m.low f) := by
  rw [low, node_eq hm hf]
  rfl

theorem high_eq (hm : m.Grounded) (hf : m.Valid f) : high m f = .ok (m.high f) := by
  rw [high, node_eq hm hf]
  rfl

theorem cofactors_eq (hm : m.Grounded) (hf : m.Valid f)
    (hv : f.isTerminal = false → v ≤ m.topVar f) : cofactors m f v = .ok (m.cofactors f v) := by
  unfold cofactors
  cases ht : f.isTerminal with
  | true =>
      rw [Manager.cofactors_of_lt (.inl ht)]
      rfl
  | false =>
      simp only [Bool.false_eq_true, if_false, topVar_eq hm hf, ok_bind]
      by_cases hlt : v < m.topVar f
      · rw [if_pos hlt, Manager.cofactors_of_lt (.inr hlt)]
        rfl
      · rw [if_neg hlt, Manager.cofactors_of_ge ht hlt]
        have heq : v = m.topVar f := Nat.le_antisymm (hv ht) (Nat.not_lt.mp hlt)
        rw [ensure_bind heq, low_eq hm hf, high_eq hm hf]
        rfl

/-- The arguments of a call are diagrams. -/
structure KeyValid (m : Manager) (k : IteKey) : Prop where
  cond : m.Valid k.cond
  thenArg : m.Valid k.thenArg
  elseArg : m.Valid k.elseArg

theorem keyVar_eq (hm : m.Grounded) (hk : KeyValid m k) : keyVar m k = .ok (m.keyVar k) := by
  have hfold : ∀ l : List Handle, (∀ x ∈ l, m.Valid x) → ∀ v,
      l.foldlM (fun v x => do return min v (← topVar m x)) v
        = Except.ok (l.foldl (fun v x => min v (m.topVar x)) v) := by
    intro l hl
    induction l with
    | nil => exact fun v => rfl
    | cons x l ih =>
        obtain ⟨hx, hl⟩ := List.forall_mem_cons.mp hl
        intro v
        rw [List.foldlM_cons, List.foldl_cons, topVar_eq hm hx]
        exact ih hl _
  rw [keyVar, topVar_eq hm hk.cond]
  refine hfold _ (fun x hx => ?_) _
  rcases List.mem_pair.mp (List.mem_of_mem_filter hx) with rfl | rfl
  · exact hk.thenArg
  · exact hk.elseArg

/-- No argument decides a variable above the splitting variable. -/
theorem keyVar_le (m : Manager) (k : IteKey) : m.keyVar k ≤ m.topVar k.cond
    ∧ (k.thenArg.isTerminal = false → m.keyVar k ≤ m.topVar k.thenArg)
    ∧ (k.elseArg.isTerminal = false → m.keyVar k ≤ m.topVar k.elseArg) := by
  unfold Manager.keyVar
  cases htt : k.thenArg.isTerminal <;> cases hte : k.elseArg.isTerminal <;>
    simp [List.filter, htt, hte]

theorem split_eq (hm : m.Grounded) (hk : KeyValid m k) :
    split m k (m.keyVar k) = .ok (m.split k (m.keyVar k)) := by
  obtain ⟨hcond, hthen, helse⟩ := keyVar_le m k
  rw [split, cofactors_eq hm hk.cond fun _ => hcond, cofactors_eq hm hk.thenArg hthen,
    cofactors_eq hm hk.elseArg helse]
  rfl

/-! ## Marks -/

/-- A search visits cells of diagrams only: the marks are those of the arena,
and the terminal, which has no children, is marked. -/
structure Searches (m : Manager) (todo : List Nat) (marks : Array Bool) : Prop where
  size_eq : marks.size = m.table.cells.size
  terminal : marks[1]? = some true
  todo : ∀ i ∈ todo, m.Valid (.ofIndex i)

theorem Searches.visit {i : Nat} {todo : List Nat} {marks : Array Bool} (hm : m.Grounded)
    (h : Searches m (i :: todo) marks) (hi : i < marks.size) (hmark : marks[i] = false) :
    Searches m (m.childCells i ++ todo) (marks.set i true) := by
  obtain ⟨hvalid, htodo⟩ := List.forall_mem_cons.mp h.todo
  have h1 : i ≠ 1 := by
    rintro rfl
    have hterminal := h.terminal
    rw [Array.getElem?_eq_getElem hi, hmark] at hterminal
    cases hterminal
  have hterm : (Handle.ofIndex i).isTerminal = false := by
    simpa [Handle.isTerminal, Handle.one] using h1
  obtain ⟨hlow, hhigh⟩ := hm.node_valid hvalid hterm
  rw [Handle.index_ofIndex] at hlow hhigh
  have hindex : ∀ {f : Handle}, m.Valid f → m.Valid (.ofIndex f.index) := fun {f} hf => by
    rwa [Manager.Valid, Handle.index_ofIndex]
  refine ⟨by rw [Array.size_set, h.size_eq], ?_, fun j hj => ?_⟩
  · rw [Array.getElem?_set_ne hi h1, h.terminal]
  · rcases List.mem_append.mp hj with hj | hj
    · rcases List.mem_pair.mp hj with rfl | rfl
      · exact hindex hlow
      · exact hindex hhigh
    · exact htodo j hj

theorem markFrom_eq (hm : m.Grounded) (todo : List Nat) (marks : Array Bool)
    (h : Searches m todo marks) : markFrom m todo marks = .ok (m.markFrom todo marks) := by
  fun_induction Manager.markFrom m todo marks with
  | case1 => rw [markFrom]
  | case2 i todo marks hi hmark ih =>
      rw [markFrom, dif_pos hi]
      split
      · exact ih ⟨h.size_eq, h.terminal, (List.forall_mem_cons.mp h.todo).2⟩
      · simp_all
  | case3 i todo marks hi hmark ih =>
      have hnode := node_eq hm (h.todo i List.mem_cons_self)
      rw [Handle.index_ofIndex] at hnode
      rw [markFrom, dif_pos hi]
      split
      · simp_all
      · rw [hnode]
        exact ih (h.visit hm hi hmark)
  | case4 i todo marks hi ih =>
      -- the cell of a diagram is one of the arena
      have hlt : i < m.table.cells.size := by
        rcases h.todo i List.mem_cons_self with h1 | ⟨n, hn⟩
        · rw [Handle.index_ofIndex] at h1
          exact h1 ▸ (Array.getElem?_eq_some_iff.mp hm.terminal).1
        · rw [Handle.index_ofIndex] at hn
          exact hn.lt_size
      exact absurd (h.size_eq ▸ hlt) hi

theorem reach_eq {roots : List Handle} (hm : m.Grounded) (h : ∀ f ∈ roots, m.Valid f) :
    reach m roots = .ok (m.reach roots) := by
  have hone : Handle.one.index < m.table.cells.size :=
    (Array.getElem?_eq_some_iff.mp hm.terminal).1
  rw [reach, ensure_bind hone]
  refine markFrom_eq hm _ _ ⟨by simp, ?_, fun i hi => ?_⟩
  · exact Array.getElem?_setIfInBounds_self_of_lt (by simpa using hone)
  · obtain ⟨f, hf, rfl⟩ := List.mem_map.mp hi
    rw [Manager.Valid, Handle.index_ofIndex]
    exact h f hf

theorem nodeCount_eq (hm : m.Grounded) (hf : m.Valid f) :
    nodeCount m f = .ok (m.nodeCount f) := by
  rw [nodeCount, reach_eq hm (by simpa using hf)]
  rfl

/-! ## Counts -/

theorem level_eq (hm : m.Grounded) (hf : m.Valid f) : level m f = .ok (m.level f) := by
  unfold level Manager.level
  split
  · rfl
  · exact topVar_eq hm hf

theorem skipped_eq (hm : m.Grounded) (hf : m.Valid f) : skipped m n v f = m.skipped n v f := by
  unfold skipped Manager.skipped
  rw [level_eq hm hf, ok_bind]
  dsimp only
  split
  · next h => rw [ensure_bind h]; rfl
  · next h => rw [ensure, if_neg h]; rfl

theorem countWithin_eq (hm : m.Grounded) (depth : Nat) (hf : m.Valid f) :
    countWithin m n depth f = m.countWithin n depth f := by
  induction depth generalizing f with
  | zero => rfl
  | succ depth ih =>
      rw [countWithin, Manager.countWithin]
      split
      · rfl
      next hzero =>
      split
      · rfl
      next hone =>
      have hterm : f.isTerminal = false := Handle.isTerminal_eq_false hone hzero
      obtain ⟨hlow, hhigh⟩ := hm.children_valid hf hterm
      have hlift : ∀ {α : Type} (a : α),
          (liftM (Except.ok a : Except Fault α) : Manager.CountM α) = pure a := fun _ => rfl
      refine bind_congr fun memo => ?_
      cases memo[f]? with
      | some c => rfl
      | none =>
          simp only [topVar_eq hm hf, low_eq hm hf, high_eq hm hf, hlift, pure_bind, ih hlow,
            ih hhigh, skipped_eq hm hlow, skipped_eq hm hhigh]

/-- Levels are positive, so that the level of the root can be made up for. -/
theorem satCount_eq (hm : m.Grounded) (hf : m.Valid f) (hpos : 1 ≤ m.level f) :
    satCount m f n = m.satCount f n := by
  unfold satCount Manager.satCount
  rw [countWithin_eq hm _ hf]
  refine bind_congr fun p => ?_
  obtain ⟨c, memo⟩ := p
  dsimp only
  rw [level_eq hm hf, ok_bind, ensure_bind (by omega)]

/-! ## Paths -/

theorem pathsUpToWithin_eq {depth : Nat} (hm : m.Grounded) (hf : m.Within d f) (hd : d < depth)
    (count : Nat) : pathsUpToWithin m depth count f = .ok (m.pathsUpToWithin depth count f) := by
  induction depth generalizing d f count with
  | zero => exact absurd hd (Nat.not_lt_zero _)
  | succ depth ih =>
      rw [pathsUpToWithin, Manager.pathsUpToWithin]
      split
      · rfl
      next hcount =>
      split
      · rfl
      next hone =>
      split
      · rfl
      next hzero =>
      have hterm : f.isTerminal = false := Handle.isTerminal_eq_false hone hzero
      have hvalid := hf.valid
      cases hf with
      | terminal h1 =>
          rw [Handle.isTerminal_iff.mpr h1] at hterm
          cases hterm
      | @node d _ a hn hlow hhigh =>
          have hnode := hn.node_eq hm.table
          have hlow' : m.Within d (m.low f) := hlow.of_index_eq (by
            rw [Manager.low, hnode, Handle.complementIf]
            split <;> simp)
          have hhigh' : m.Within d (m.high f) := hhigh.of_index_eq (by
            rw [Manager.high, hnode, Handle.complementIf]
            split <;> simp)
          simp only [topVar_eq hm hvalid, low_eq hm hvalid, high_eq hm hvalid, ok_bind,
            ih hhigh' (by omega), ih hlow' (by omega)]
          refine ensure_bind ?_ _ _
          rw [List.length_map, Manager.pathsUpToWithin_eq_take]
          exact List.length_take_le ..

/-- The paths of a diagram are about variables, and these are numbered from
`1`. -/
theorem cubesText_eq (hm : m.Grounded) (hr : m.Reduced) (hf : m.Valid f) (limit : Nat) :
    cubesText m limit f = .ok (m.cubesText (some limit) f) := by
  have hpaths := pathsUpToWithin_eq hm (hm.within hf)
    (show m.table.cells.size < m.depthBound by rw [Manager.depthBound]; omega) limit
  have hcube : ∀ p ∈ m.pathsUpTo limit f, cubeText p = .ok (BranchingTime.cubeText p) := by
    intro p hp
    rw [Manager.pathsUpTo_eq_take] at hp
    have hle := (hr.path_ascending hf (List.mem_of_mem_take hp)).2
    have hpos := hr.level_pos hf
    have hliteral : ∀ l ∈ p, literalText l = .ok (BranchingTime.literalText l) :=
      fun l hl => ensure_bind (Nat.le_trans hpos (hle l hl)) _ _
    rw [cubeText, mapM_eq_map hliteral]
    rfl
  rw [cubesText, hpaths, ok_bind]
  show ((m.pathsUpTo limit f).mapM cubeText >>= fun cubes => pure (String.join cubes)) = _
  rw [mapM_eq_map hcube]
  rfl

end BranchingTime.Guarded
