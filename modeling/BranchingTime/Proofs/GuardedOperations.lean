import BranchingTime.Proofs.GuardedDiagram
import BranchingTime.Proofs.Lockstep
import BranchingTime.Proofs.QuantifierDenotation

/-!
# Operations on diagrams with guards

The operations that change a manager, with all their reads and writes
checked. `Same` says that a guarded operation ends as the plain one does, in
the same state, as long as the arena is not full; as a failed check is a fault,
no check fails then. Every operation does, from any coherent manager with a
cache that has a slot, and on any diagrams of it.
-/

namespace BranchingTime.Guarded

open Diagram Manager

/-! ## Definitions -/

/-- Reads something off the manager. -/
def reads {α : Type} (read : Manager → Except Fault α) : DiagramM α := do
  MonadExcept.ofExcept (read (← get))

/-- Stores a node, and records when the table grew for it. -/
def store (n : Node) : DiagramM Handle := do
  let (i, grown?, table) ← reads fun m => put m.table n
  modify fun m => { m with table }
  grown?.forM record
  return .ofIndex i

/-- The diagram that decides `v` and goes on as `low` or `high`. -/
def mkNode (v : Nat) (low high : Handle) : DiagramM Handle :=
  if v = 0 then throw .zeroVariable
  else if low = high then return low
  else if high.isComplemented then return -(← store ⟨v, -low, -high⟩)
  else store ⟨v, low, high⟩

/-- The diagram of a variable. -/
def mkVar (v : Nat) : DiagramM Handle := do
  checkVariable v
  mkNode v .zero .one

/-- Puts a literal above a cube. The literal has to be about a variable of the
manager. -/
def addLiteral (cube : Handle) (literal : Int) : DiagramM Handle := do
  reads fun m => ensure (1 ≤ literal.natAbs ∧ literal.natAbs ≤ m.numVars)
    (.outOfRange literal.natAbs m.numVars)
  if literal < 0 then mkNode literal.natAbs cube .zero else mkNode literal.natAbs .zero cube

/-- The conjunction of a set of literals. -/
def cube (literals : List Int) : DiagramM Handle :=
  let sorted := literals.mergeSort fun a b => b.natAbs ≤ a.natAbs
  sorted.foldlM addLiteral .one

/-- Looks a normal form up in the result cache. -/
def cached? (key : IteKey) : DiagramM (Option Handle) := do
  let (r?, cache) ← reads fun m => lookup m.cache key
  modify fun m => { m with cache }
  return r?

/-- Remembers the result of a normal form. -/
def remember (key : IteKey) (r : Handle) : DiagramM Unit := do
  let cache ← reads fun m => insert m.cache key r
  modify fun m => { m with cache }

/-- If-then-else, splitting at most `depth` times in a row. -/
def iteWithin : Nat → Handle → Handle → Handle → DiagramM Handle
  | 0, _, _, _ => throw .bottomless
  | depth + 1, f, g, h =>
    match IteForm.of f g h with
    | .known r => return r
    | .residual key complemented => do
      match ← cached? key with
      | some r => return r.complementIf complemented
      | none =>
        let v ← reads (keyVar · key)
        let (k0, k1) ← reads (split · key v)
        let e ← iteWithin depth k0.cond k0.thenArg k0.elseArg
        let t ← iteWithin depth k1.cond k1.thenArg k1.elseArg
        let r ← mkNode v e t
        remember key r
        return r.complementIf complemented

/-- If `f` then `g` else `h`. -/
def ite (f g h : Handle) : DiagramM Handle := do
  iteWithin (3 * (← get).depthBound) f g h

def conj (f g : Handle) : DiagramM Handle := ite f g .zero

def disj (f g : Handle) : DiagramM Handle := ite f .one g

def xor (f g : Handle) : DiagramM Handle := ite f (-g) g

/-- There are marks for the variables of a manager only. -/
def checkMark (v : Nat) (m : Manager) : Except Fault Unit := ensure (v ≤ m.numVars) .outOfBounds

/-- Quantifies `f`, descending at most `depth` levels. -/
def existsWithin (b : Bound) : Nat → Handle → QuantifyM Handle
  | 0, _ => throw .bottomless
  | depth + 1, f => do
    if f.isTerminal then return f
    let v ← reads (topVar · f)
    if b.last < v then return f
    match (← get)[f]? with
    | some r => return r
    | none =>
      let f0 ← reads (low · f)
      let f1 ← reads (high · f)
      let e ← existsWithin b depth f0
      reads (checkMark v)
      let r ←
        if b.contains v && e = .one then
          pure .one
        else do
          let t ← existsWithin b depth f1
          if b.contains v then disj e t else mkNode v e t
      modify (·.insert f r)
      return r

/-- Quantifies the conjunction of `f` and `g`, descending at most `depth`
levels. -/
def andExistsWithin (b : Bound) : Nat → Handle → Handle → ConjoinM Handle
  | 0, _, _ => throw .bottomless
  | depth + 1, f, g => do
    if f = .zero || g = .zero || f = -g then return .zero
    if f = .one || f = g then return ← existsWithin b (depth + 1) g
    if g = .one then return ← existsWithin b (depth + 1) f
    match (← get)[pairKey f g]? with
    | some r => return r
    | none =>
      let v := min (← reads (topVar · f)) (← reads (topVar · g))
      let (f0, f1) ← reads (cofactors · f v)
      let (g0, g1) ← reads (cofactors · g v)
      let r ←
        if b.last < v then
          (conj f g : DiagramM Handle)
        else do
          reads (checkMark v)
          let e ← andExistsWithin b depth f0 g0
          if b.contains v && e = .one then
            pure .one
          else do
            let t ← andExistsWithin b depth f1 g1
            if b.contains v then (disj e t : DiagramM Handle) else (mkNode v e t : DiagramM Handle)
      modify (·.insert (pairKey f g) r)
      return r

/-- Are `f` and `g` both true for some values of `vars`? -/
def andExists (vars : List Nat) (f g : Handle) : DiagramM Handle := do
  record (.conjoining f g vars.length)
  vars.forM checkVariable
  let depth := 2 * (← get).depthBound
  return (← (andExistsWithin (.ofList vars) depth f g ∅) ∅).1.1

/-- Renames the variables of `f`, descending at most `depth` levels. -/
def renameWithin (map : VarMap) : Nat → Handle → RenameM Handle
  | 0, _ => throw .bottomless
  | depth + 1, f => do
    if f.isTerminal then return f
    match (← get)[f.index]? with
    | some r => return r.complementIf f.isComplemented
    | none =>
      let n ← reads (node · f.index)
      let e ← renameWithin map depth n.low
      let t ← renameWithin map depth n.high
      let x ← mkVar (map.getD n.var n.var)
      let r ← ite x t e
      modify (·.insert f.index r)
      return r.complementIf f.isComplemented

/-- Renames the variables of `f`. -/
def rename (map : VarMap) (f : Handle) : DiagramM Handle := do
  record (.substituting f map.size)
  let depth := (← get).depthBound
  return (← renameWithin map depth f ∅).1

/-- Frees every stored node that no root needs, and forgets all remembered
results. -/
def collectGarbage (roots : List Handle) : DiagramM Nat := do
  let before := (← get).numNodes
  let marks ← reads (reach · roots)
  let (dropped, table) ← reads fun m => sweep m.table fun i => marks.getD i false
  modify fun m => { m with table, cache := m.cache.clear }
  record (.collected before (← get).numNodes dropped)
  return dropped

/-! ## Ending in the same way -/

/-- An operation ended because the arena is full. -/
def RanOut {α : Type} (r : EStateM.Result Fault Manager α) : Prop :=
  ∃ n, r = .error .full n ∧ UniqueTable.maxCells ≤ n.table.cells.size

/-- From `m`, the operation `y` ends as `x` does, or because the arena is full.
The cache keeps its size if `x` returns. -/
structure Same {α : Type} (x y : DiagramM α) (m : Manager) : Prop where
  run_eq : y m = x m ∨ RanOut (y m)
  slots : Ends x m (fun _ n => n.cache.slots.size = m.cache.slots.size) fun _ _ => True

section Rules

variable {α β σ τ : Type} {x y : DiagramM α} {m : Manager}

theorem same_of_slots
    (h : Ends x m (fun _ n => n.cache.slots.size = m.cache.slots.size) fun _ _ => True) :
    Same x x m :=
  ⟨.inl rfl, h⟩

theorem same_pure {a : α} : Same (pure a) (pure a) m := same_of_slots (ends_pure.mpr rfl)

theorem same_throw {e : Fault} : Same (throw e : DiagramM α) (throw e) m :=
  same_of_slots (ends_throw.mpr trivial)

theorem same_record (e : Event) : Same (record e) (record e) m :=
  same_of_slots (ends_record.mpr rfl)

theorem RanOut.bind {g : α → DiagramM β} (h : RanOut (y m)) : RanOut ((y >>= g) m) := by
  obtain ⟨n, hy, hn⟩ := h
  exact ⟨n, bind_of_error hy, hn⟩

/-- After operations that end in the same way, what is known of one of them
may be used. -/
theorem same_bind {f g : α → DiagramM β} {Q : α → Manager → Prop} {E : Fault → Manager → Prop}
    (h : Same x y m) (hx : Ends x m Q E)
    (hgo : ∀ a n, Q a n → n.cache.slots.size = m.cache.slots.size → Same (f a) (g a) n) :
    Same (x >>= f) (y >>= g) m := by
  have hslots := h.slots
  cases hrun : x m with
  | ok a n =>
      have hn := hslots.of_ok hrun
      obtain ⟨heq, hend⟩ := hgo a n (hx.of_ok hrun) hn
      refine ⟨?_, ends_bind.mpr ?_⟩
      · rcases h.run_eq with hsame | hfull
        · rw [bind_of_ok hrun, bind_of_ok (hsame.trans hrun)]
          exact heq
        · exact .inr hfull.bind
      · refine ends_self.mono (fun b o hb => ?_) fun _ _ _ => trivial
        cases hrun.symm.trans hb
        exact hend.imp fun _ _ hk => hk.trans hn
  | error e n =>
      refine ⟨?_, ends_bind.mpr ?_⟩
      · rcases h.run_eq with hsame | hfull
        · rw [bind_of_error hrun, bind_of_error (hsame.trans hrun)]
          exact .inl rfl
        · exact .inr hfull.bind
      · refine ends_self.mono (fun b o hb => ?_) fun _ _ _ => trivial
        cases hrun.symm.trans hb

theorem same_get {f g : Manager → DiagramM β} (h : Same (f m) (g m) m) :
    Same (get >>= f) (get >>= g) m :=
  ⟨h.run_eq, ends_bind.mpr (ends_get.mpr h.slots)⟩

/-- A read that passes its checks. -/
theorem reads_of_ok {read : Manager → Except Fault α} {a : α} (h : read m = .ok a) :
    reads read m = .ok a m := by
  show (MonadExcept.ofExcept (read m) : DiagramM α) m = _
  rw [h]
  rfl

theorem same_reads {f : Manager → DiagramM β} {g : α → DiagramM β}
    {read : Manager → Except Fault α} {a : α} (hread : read m = .ok a)
    (h : Same (f m) (g a) m) : Same (get >>= f) (reads read >>= g) m := by
  refine ⟨?_, ends_bind.mpr (ends_get.mpr h.slots)⟩
  rw [bind_of_ok (reads_of_ok hread)]
  exact h.run_eq

/-- A check that the plain operation does not make. -/
theorem same_check {z : DiagramM β} {g : α → DiagramM β} {read : Manager → Except Fault α} {a : α}
    (hread : read m = .ok a) (h : Same z (g a) m) : Same z (reads read >>= g) m := by
  refine ⟨?_, h.slots⟩
  rw [bind_of_ok (reads_of_ok hread)]
  exact h.run_eq

theorem ends_reads {read : Manager → Except Fault α} {a : α} (h : read m = .ok a)
    {Q : α → Manager → Prop} {E : Fault → Manager → Prop} :
    Ends (reads read) m Q E ↔ Q a m := by
  unfold reads
  simp only [ends_bind, ends_get, ends_ofExcept, h]

/-- Operations that are known to return the same. -/
theorem same_of_returns {a : α} {n : Manager} (hx : Returns x m fun b o => b = a ∧ o = n)
    (hy : Returns y m fun b o => b = a ∧ o = n)
    (hslots : n.cache.slots.size = m.cache.slots.size) : Same x y m := by
  obtain ⟨_, _, hrunx, rfl, rfl⟩ := hx.exists_ok
  obtain ⟨_, _, hruny, rfl, rfl⟩ := hy.exists_ok
  exact ⟨.inl (hruny.trans hrunx.symm), hx.ends fun _ _ ho => ho.2 ▸ hslots⟩

theorem same_run_reads {f : Manager × σ → DiagramM β} {g : α × σ → DiagramM β} {memo : σ}
    {read : Manager → Except Fault α} {a : α} (hread : read m = .ok a)
    (h : Same (f (m, memo)) (g (a, memo)) m) :
    Same (StateT.run (MonadStateOf.get : StateT σ DiagramM Manager) memo >>= f)
      (StateT.run (liftM (reads read) : StateT σ DiagramM α) memo >>= g) m := by
  show Same (get >>= fun n => f (n, memo)) ((reads read >>= fun a => pure (a, memo)) >>= g) m
  simp only [bind_assoc, pure_bind]
  exact same_reads hread h

theorem same_run_check {z : DiagramM β} {g : α × σ → DiagramM β} {memo : σ}
    {read : Manager → Except Fault α} {a : α} (hread : read m = .ok a)
    (h : Same z (g (a, memo)) m) :
    Same z (StateT.run (liftM (reads read) : StateT σ DiagramM α) memo >>= g) m := by
  show Same z ((reads read >>= fun a => pure (a, memo)) >>= g) m
  simp only [bind_assoc, pure_bind]
  exact same_check hread h

theorem same_run_lift {f g : α × σ → DiagramM β} {memo : σ} {Q : α → Manager → Prop}
    {E : Fault → Manager → Prop} (h : Same x y m) (hx : Ends x m Q E)
    (hgo : ∀ a n, Q a n → n.cache.slots.size = m.cache.slots.size →
      Same (f (a, memo)) (g (a, memo)) n) :
    Same (StateT.run (liftM x : StateT σ DiagramM α) memo >>= f)
      (StateT.run (liftM y : StateT σ DiagramM α) memo >>= g) m := by
  show Same ((x >>= fun a => pure (a, memo)) >>= f) ((y >>= fun a => pure (a, memo)) >>= g) m
  simp only [bind_assoc, pure_bind]
  exact same_bind h hx hgo

theorem same_run_run_reads {f : (Manager × σ) × τ → DiagramM β} {g : (α × σ) × τ → DiagramM β}
    {memo : σ} {memo' : τ} {read : Manager → Except Fault α} {a : α} (hread : read m = .ok a)
    (h : Same (f ((m, memo), memo')) (g ((a, memo), memo')) m) :
    Same (StateT.run (StateT.run
        (MonadStateOf.get : StateT σ (StateT τ DiagramM) Manager) memo) memo' >>= f)
      (StateT.run (StateT.run
        (liftM (reads read) : StateT σ (StateT τ DiagramM) α) memo) memo' >>= g) m := by
  show Same (get >>= fun n => f ((n, memo), memo'))
    (((reads read >>= fun a => pure (a, memo')) >>= fun p => pure ((p.1, memo), p.2)) >>= g) m
  simp only [bind_assoc, pure_bind]
  exact same_reads hread h

theorem same_run_run_check {z : DiagramM β} {g : (α × σ) × τ → DiagramM β} {memo : σ} {memo' : τ}
    {read : Manager → Except Fault α} {a : α} (hread : read m = .ok a)
    (h : Same z (g ((a, memo), memo')) m) :
    Same z (StateT.run (StateT.run
      (liftM (reads read) : StateT σ (StateT τ DiagramM) α) memo) memo' >>= g) m := by
  show Same z
    (((reads read >>= fun a => pure (a, memo')) >>= fun p => pure ((p.1, memo), p.2)) >>= g) m
  simp only [bind_assoc, pure_bind]
  exact same_check hread h

theorem same_run_run_lift {f g : (α × σ) × τ → DiagramM β} {memo : σ} {memo' : τ}
    {Q : α → Manager → Prop} {E : Fault → Manager → Prop} (h : Same x y m) (hx : Ends x m Q E)
    (hgo : ∀ a n, Q a n → n.cache.slots.size = m.cache.slots.size →
      Same (f ((a, memo), memo')) (g ((a, memo), memo')) n) :
    Same (StateT.run (StateT.run (liftM x : StateT σ (StateT τ DiagramM) α) memo) memo' >>= f)
      (StateT.run (StateT.run (liftM y : StateT σ (StateT τ DiagramM) α) memo) memo' >>= g) m := by
  show Same (((x >>= fun a => pure (a, memo')) >>= fun p => pure ((p.1, memo), p.2)) >>= f)
    (((y >>= fun a => pure (a, memo')) >>= fun p => pure ((p.1, memo), p.2)) >>= g) m
  simp only [bind_assoc, pure_bind]
  exact same_bind h hx hgo

/-- What an operation does side by side with itself, it does alone. -/
theorem ends_of_together {Q : α → Manager → Manager → Prop} (h : Together x x m m Q) :
    Ends x m (fun a n => Q a n n) fun _ n => m.Extends n ∧ n.Coherent := by
  rcases h.cases with ⟨a, n, n', hx, hx', hQ⟩ | ⟨e, n, n', hx, hx', hext, ht⟩
  · refine ends_self.mono (fun b o hb => ?_) fun e o he => ?_
    · cases hx.symm.trans hx'
      cases hx.symm.trans hb
      exact hQ
    · cases hx.symm.trans he
  · refine ends_self.mono (fun b o hb => ?_) fun e o he => ?_
    · cases hx.symm.trans hb
    · cases hx.symm.trans he
      exact ⟨hext, ht.left⟩

end Rules

/-- A coherent manager whose cache has a slot. -/
structure Sound (m : Manager) : Prop extends m.Coherent where
  slots : 0 < m.cache.slots.size

variable {m n : Manager} {f g h r : Handle} {k q : IteKey} {v d depth : Nat}

theorem Sound.twins (hm : Sound m) : Twins m m := ⟨.refl m, hm.toCoherent, hm.toCoherent⟩

/-- An operation that keeps a manager coherent keeps it sound. -/
theorem Sound.of_agree (hm : Sound m) (ha : m.Agree r n n)
    (hslots : n.cache.slots.size = m.cache.slots.size) : Sound n :=
  ⟨ha.twins.left, hslots ▸ hm.slots⟩

theorem KeyValid.of_within (h : m.KeyWithin d k) : KeyValid m k := by
  obtain ⟨a, b, c, ⟨ha, hb, hc⟩, -⟩ := h
  exact ⟨ha.valid, hb.valid, hc.valid⟩

/-! ## Nodes and connectives -/

theorem same_store (ht : m.table.Invariant) (n : Node) :
    Same (Diagram.store n) (store n) m := by
  obtain ⟨⟨i, grown?, t⟩, hplain⟩ : ∃ p, m.table.put n = p := ⟨_, rfl⟩
  have hreturns := returns_store_put hplain
  rcases put_eq ht n with hput | ⟨hput, hfull⟩
  · rw [hplain] at hput
    refine same_of_returns hreturns ?_ rfl
    unfold store
    refine ends_bind.mpr ((ends_reads hput).mpr ?_)
    cases grown? with
    | none => simp only [Option.forM, ends_bind, ends_modify, ends_pure, Option.elim, and_self]
    | some e =>
        simp only [Option.forM, ends_bind, ends_modify, ends_record, ends_pure, Option.elim,
          and_self]
  · refine ⟨.inr (RanOut.bind ⟨m, ?_, hfull⟩), hreturns.ends fun _ _ ho => by rw [ho.2]⟩
    show (MonadExcept.ofExcept (put m.table n) : DiagramM _) m = _
    rw [hput]
    rfl

theorem same_mkNode (ht : m.table.Invariant) (v : Nat) (low high : Handle) :
    Same (Diagram.mkNode v low high) (mkNode v low high) m := by
  unfold Diagram.mkNode mkNode
  split
  · exact same_throw
  split
  · exact same_pure
  split
  · exact same_bind (same_store ht _) ends_true fun _ _ _ _ => same_pure
  · exact same_store ht _

theorem same_cached? (hslots : 0 < m.cache.slots.size) (k : IteKey) :
    Same (Diagram.cached? k) (cached? k) m := by
  have hlookup := lookup_eq hslots k
  obtain ⟨⟨r?, c⟩, hplain⟩ : ∃ p, m.cache.lookup k = p := ⟨_, rfl⟩
  rw [hplain] at hlookup
  have hsize := congrArg Array.size (ResultCache.lookup_spec hplain).1
  refine same_of_returns (a := r?) (n := { m with cache := c }) ?_ ?_ hsize
  · unfold Diagram.cached?
    refine ends_modifyGet.mpr fun r m' hm' => ?_
    generalize m.cache.lookup k = p at hplain hm'
    subst hplain
    obtain ⟨rfl, rfl⟩ := Prod.mk.inj hm'
    exact ⟨rfl, rfl⟩
  · unfold cached?
    refine ends_bind.mpr ((ends_reads hlookup).mpr ?_)
    simp only [ends_bind, ends_modify, ends_pure, and_self]

theorem same_remember (hslots : 0 < m.cache.slots.size) (k : IteKey) (r : Handle) :
    Same (Diagram.remember k r) (remember k r) m := by
  have hinsert := insert_eq hslots k r
  have hsize : (m.cache.insert k r).slots.size = m.cache.slots.size := by
    simp [ResultCache.insert]
  generalize hcache : m.cache.insert k r = cache at hinsert hsize
  refine same_of_returns (a := ()) (n := { m with cache }) ?_ ?_ hsize
  · unfold Diagram.remember
    refine ends_modify.mpr ⟨rfl, ?_⟩
    rw [hcache]
  · unfold remember
    exact ends_bind.mpr ((ends_reads hinsert).mpr (ends_modify.mpr ⟨rfl, rfl⟩))

/-- If-then-elses of at most `depth` splits in a row pass all checks. -/
theorem same_iteWithin (depth : Nat) : ∀ {m : Manager} {q : IteKey} {d : Nat}, Sound m →
    m.KeyWithin d q → d < depth → Same (Diagram.iteWithin depth q.cond q.thenArg q.elseArg)
      (iteWithin depth q.cond q.thenArg q.elseArg) m := by
  induction depth with
  | zero => exact fun _ _ hd => absurd hd (Nat.not_lt_zero _)
  | succ depth ih =>
      intro m q d hm hq hd
      rw [Diagram.iteWithin, iteWithin]
      cases hform : IteForm.of q.cond q.thenArg q.elseArg with
      | known r => exact same_pure
      | residual k x =>
          obtain ⟨hk, hc⟩ := hq.form.2 k x hform
          refine same_bind (same_cached? hm.slots k) (returns_cached?_coherent hm.toCoherent k) ?_
          rintro r? m1 ⟨⟨htwin, hcoherent⟩, -⟩ hslots
          have hm1 : Sound m1 := ⟨hcoherent, hslots ▸ hm.slots⟩
          cases r? with
          | some r => exact same_pure
          | none =>
              have hk1 := hk.of_extends htwin.extends_
              have hvalid := KeyValid.of_within hk1
              obtain ⟨d', hlt, h0, h1⟩ := hk1.split hm1.table hc
              refine same_reads (keyVar_eq hm1.toGrounded hvalid)
                (same_reads (split_eq hm1.toGrounded hvalid) ?_)
              refine same_bind (ih hm1 h0 (by omega))
                (ends_of_together (together_iteWithin depth hm1.twins h0 (by omega))) ?_
              rintro e m2 ⟨ha2, -⟩ hslots2
              have hm2 := hm1.of_agree ha2 hslots2
              have h1' := h1.of_extends ha2.extends_
              refine same_bind (ih hm2 h1' (by omega))
                (ends_of_together (together_iteWithin depth hm2.twins h1' (by omega))) ?_
              rintro t m3 ⟨ha3, -⟩ hslots3
              have hm3 := hm2.of_agree ha3 hslots3
              refine same_bind (same_mkNode hm3.table _ e t) ends_true fun r m4 _ hslots4 => ?_
              have hpos : 0 < m4.cache.slots.size := hslots4 ▸ hm3.slots
              exact same_bind (same_remember hpos k r) ends_true fun _ _ _ _ => same_pure

theorem same_ite (hm : Sound m) (hf : m.Valid f) (hg : m.Valid g) (hh : m.Valid h) :
    Same (Diagram.ite f g h) (ite f g h) m := by
  have hwithin := fun {x : Handle} (hx : m.Valid x) => hm.within hx
  have hq : m.KeyWithin (3 * m.table.cells.size) ⟨f, g, h⟩ :=
    ⟨_, _, _, ⟨hwithin hf, hwithin hg, hwithin hh⟩, by omega⟩
  refine same_get (same_iteWithin _ hm hq ?_)
  unfold depthBound
  omega

/-! ## Variables and cubes -/

theorem same_checkVariable (m : Manager) (v : Nat) :
    Same (checkVariable v) (checkVariable v) m := by
  refine same_of_slots (ends_checkVariable.mpr ?_)
  split
  · rfl
  · trivial

theorem same_forM_checkVariable (m : Manager) (vars : List Nat) :
    Same (vars.forM checkVariable) (vars.forM checkVariable) m :=
  same_of_slots ((ends_forM_checkVariable vars m).mono (fun _ _ hn => by rw [hn.1])
    fun _ _ _ => trivial)

theorem same_mkVar (ht : m.table.Invariant) (v : Nat) :
    Same (Diagram.mkVar v) (mkVar v) m := by
  refine same_bind (same_checkVariable m v) (Q := fun _ n => n = m) (E := fun _ _ => True)
    (ends_checkVariable.mpr ?_) ?_
  · split
    · rfl
    · trivial
  · rintro - _ rfl -
    exact same_mkNode ht v .zero .one

theorem same_addLiteral {l : Int} (ht : m.table.Invariant)
    (hl : 1 ≤ l.natAbs ∧ l.natAbs ≤ m.numVars) (f : Handle) :
    Same (Diagram.addLiteral f l) (addLiteral f l) m := by
  refine same_check (ensure_eq hl _) ?_
  unfold Diagram.addLiteral
  split
  · exact same_mkNode ht _ _ _
  · exact same_mkNode ht _ _ _

theorem same_foldlM_addLiteral {literals : List Int} (hm : Sound m) (hf : m.Valid f)
    (hl : ∀ l ∈ literals, 1 ≤ l.natAbs ∧ l.natAbs ≤ m.numVars) :
    Same (literals.foldlM Diagram.addLiteral f) (literals.foldlM addLiteral f) m := by
  induction literals generalizing m f with
  | nil => exact same_pure
  | cons l literals ih =>
      obtain ⟨hl, hrest⟩ := List.forall_mem_cons.mp hl
      rw [List.foldlM_cons, List.foldlM_cons]
      refine same_bind (same_addLiteral hm.table hl f)
        (ends_of_together (together_addLiteral hm.twins hf l)) fun r n ha hslots => ?_
      refine ih (hm.of_agree ha hslots) ha.valid ?_
      rw [ha.extends_.numVars_eq]
      exact hrest

theorem same_cube {literals : List Int} (hm : Sound m)
    (hl : ∀ l ∈ literals, 1 ≤ l.natAbs ∧ l.natAbs ≤ m.numVars) :
    Same (Diagram.cube literals) (cube literals) m :=
  same_foldlM_addLiteral hm m.valid_one fun l hmem => hl l (List.mem_mergeSort.mp hmem)

/-! ## Operations with memos -/

theorem same_existsWithin (b : Bound) (depth : Nat) {m : Manager} {f : Handle}
    {memo : Std.HashMap Handle Handle} (hm : Sound m) (hb : b.last ≤ m.numVars) (hf : m.Valid f)
    (hmemo : MemoValid m memo) :
    Same (StateT.run (Diagram.existsWithin b depth f) memo)
      (StateT.run (existsWithin b depth f) memo) m := by
  induction depth generalizing m f memo with
  | zero => exact same_throw
  | succ depth ih =>
      rw [Diagram.existsWithin, existsWithin]
      cases hterm : f.isTerminal with
      | true => exact same_pure
      | false =>
          obtain ⟨hlow, hhigh⟩ := hm.children_valid hf hterm
          simp only [Bool.false_eq_true, if_false, getThe, StateT.run_bind]
          refine same_run_reads (topVar_eq hm.toGrounded hf) ?_
          by_cases hlast : b.last < m.topVar f
          · simp only [if_pos hlast]
            exact same_pure
          simp only [if_neg hlast, StateT.run_bind, StateT.run_get, pure_bind]
          cases hfound : memo[f]? with
          | some r => exact same_pure
          | none =>
              simp only [StateT.run_bind]
              refine same_run_reads (low_eq hm.toGrounded hf)
                (same_run_reads (high_eq hm.toGrounded hf) ?_)
              refine same_bind (ih hm hb hlow hmemo)
                (ends_of_together (together_existsWithin b depth hm.twins hlow hmemo)) ?_
              rintro ⟨e, memo1⟩ m1 ⟨ha1, hmemo1⟩ hslots1
              have hm1 := hm.of_agree ha1 hslots1
              have hb1 : b.last ≤ m1.numVars := by rwa [ha1.extends_.numVars_eq]
              refine same_run_check (ensure_eq (by omega) _) ?_
              by_cases hone : (b.contains (m.topVar f) && e = .one) = true
              · simp only [if_pos hone]
                exact same_pure
              simp only [if_neg hone, StateT.run_bind]
              have hhigh1 := ha1.extends_.valid hhigh
              refine same_bind (ih hm1 hb1 hhigh1 hmemo1)
                (ends_of_together (together_existsWithin b depth hm1.twins hhigh1 hmemo1)) ?_
              rintro ⟨t, memo2⟩ m2 ⟨ha2, hmemo2⟩ hslots2
              have hm2 := hm1.of_agree ha2 hslots2
              have he := ha2.extends_.valid ha1.valid
              by_cases hmem : b.contains (m.topVar f) = true
              · simp only [if_pos hmem]
                exact same_run_lift (same_ite hm2 he m2.valid_one ha2.valid) ends_true
                  fun _ _ _ _ => same_pure
              · simp only [if_neg hmem]
                exact same_run_lift (same_mkNode hm2.table _ e t) ends_true
                  fun _ _ _ _ => same_pure

/-- A conjunction of which one side is left is quantified alone. -/
theorem same_existsWithin_alone (b : Bound) (depth : Nat)
    {pairs : Std.HashMap (Handle × Handle) Handle} {memo : Std.HashMap Handle Handle}
    (hm : Sound m) (hb : b.last ≤ m.numVars) (hf : m.Valid f) (hmemo : MemoValid m memo) :
    Same (StateT.run (StateT.run
        (liftM (Diagram.existsWithin b depth f) : ConjoinM Handle) pairs) memo)
      (StateT.run (StateT.run
        (liftM (existsWithin b depth f) : ConjoinM Handle) pairs) memo) m := by
  show Same (Diagram.existsWithin b depth f memo >>= fun p => pure ((p.1, pairs), p.2))
    (existsWithin b depth f memo >>= fun p => pure ((p.1, pairs), p.2)) m
  exact same_bind (same_existsWithin b depth hm hb hf hmemo) ends_true fun _ _ _ _ => same_pure

theorem same_andExistsWithin (b : Bound) (depth : Nat) {m : Manager} {f g : Handle}
    {pairs : Std.HashMap (Handle × Handle) Handle} {memo : Std.HashMap Handle Handle}
    (hm : Sound m) (hb : b.last ≤ m.numVars) (hf : m.Valid f) (hg : m.Valid g)
    (hpairs : MemoValid m pairs) (hmemo : MemoValid m memo) :
    Same (StateT.run (StateT.run (Diagram.andExistsWithin b depth f g) pairs) memo)
      (StateT.run (StateT.run (andExistsWithin b depth f g) pairs) memo) m := by
  induction depth generalizing m f g pairs memo with
  | zero => exact same_throw
  | succ depth ih =>
      rw [Diagram.andExistsWithin, andExistsWithin]
      by_cases hzero : (f = .zero || g = .zero || f = -g) = true
      · simp only [if_pos hzero]
        exact same_pure
      simp only [if_neg hzero]
      by_cases hone : (f = .one || f = g) = true
      · simp only [if_pos hone]
        exact same_existsWithin_alone b _ hm hb hg hmemo
      simp only [if_neg hone]
      by_cases hone' : g = .one
      · simp only [if_pos hone']
        exact same_existsWithin_alone b _ hm hb hf hmemo
      simp only [if_neg hone', StateT.run_bind, StateT.run_get, pure_bind, getThe]
      cases hfound : pairs[pairKey f g]? with
      | some r => exact same_pure
      | none =>
          simp only [StateT.run_bind]
          refine same_run_run_reads (topVar_eq hm.toGrounded hf)
            (same_run_run_reads (topVar_eq hm.toGrounded hg) ?_)
          have hvf : min (m.topVar f) (m.topVar g) ≤ m.topVar f := Nat.min_le_left ..
          have hvg : min (m.topVar f) (m.topVar g) ≤ m.topVar g := Nat.min_le_right ..
          generalize min (m.topVar f) (m.topVar g) = v at hvf hvg
          refine same_run_run_reads (cofactors_eq hm.toGrounded hf fun _ => hvf)
            (same_run_run_reads (cofactors_eq hm.toGrounded hg fun _ => hvg) ?_)
          obtain ⟨hf0, hf1⟩ := hm.cofactors_valid hf v
          obtain ⟨hg0, hg1⟩ := hm.cofactors_valid hg v
          by_cases hlast : b.last < v
          · simp only [if_pos hlast]
            exact same_run_run_lift (same_ite hm hf hg m.valid_zero) ends_true
              fun _ _ _ _ => same_pure
          simp only [if_neg hlast, StateT.run_bind]
          refine same_run_run_check (ensure_eq (by omega) _) ?_
          refine same_bind (ih hm hb hf0 hg0 hpairs hmemo) (ends_of_together
            (together_andExistsWithin b depth hm.twins hf0 hg0 hpairs hmemo)) ?_
          rintro ⟨⟨e, pairs1⟩, memo1⟩ m1 ⟨ha1, hpairs1, hmemo1⟩ hslots1
          have hm1 := hm.of_agree ha1 hslots1
          have hb1 : b.last ≤ m1.numVars := by rwa [ha1.extends_.numVars_eq]
          by_cases honly : (b.contains v && e = .one) = true
          · simp only [if_pos honly]
            exact same_pure
          simp only [if_neg honly, StateT.run_bind]
          have hf1' := ha1.extends_.valid hf1
          have hg1' := ha1.extends_.valid hg1
          refine same_bind (ih hm1 hb1 hf1' hg1' hpairs1 hmemo1) (ends_of_together
            (together_andExistsWithin b depth hm1.twins hf1' hg1' hpairs1 hmemo1)) ?_
          rintro ⟨⟨t, pairs2⟩, memo2⟩ m2 ⟨ha2, -, -⟩ hslots2
          have hm2 := hm1.of_agree ha2 hslots2
          have he := ha2.extends_.valid ha1.valid
          by_cases hmem : b.contains v = true
          · simp only [if_pos hmem]
            exact same_run_run_lift (same_ite hm2 he m2.valid_one ha2.valid) ends_true
              fun _ _ _ _ => same_pure
          · simp only [if_neg hmem]
            exact same_run_run_lift (same_mkNode hm2.table _ e t) ends_true
              fun _ _ _ _ => same_pure

theorem last_ofList_le {vars : List Nat} {n : Nat} (h : ∀ v ∈ vars, v ≤ n) :
    (Bound.ofList vars).last ≤ n := by
  have hfold : ∀ a ≤ n, vars.foldl max a ≤ n := by
    induction vars with
    | nil => exact fun a ha => ha
    | cons v vars ih =>
        obtain ⟨hv, hvars⟩ := List.forall_mem_cons.mp h
        exact fun a ha => ih hvars (max a v) (Nat.max_le.mpr ⟨ha, hv⟩)
  exact hfold 0 (Nat.zero_le n)

theorem returns_record_sound (hm : Sound m) (e : Event) :
    Returns (record e : DiagramM Unit) m fun _ n => Sound n ∧ m.Extends n := by
  obtain ⟨hext, ht⟩ := ends_record.mp (ends_of_together (together_record hm.twins e))
  exact ends_record.mpr ⟨⟨ht.left, hm.slots⟩, hext⟩

theorem same_andExists (vars : List Nat) (hm : Sound m) (hf : m.Valid f) (hg : m.Valid g) :
    Same (Diagram.andExists vars f g) (andExists vars f g) m := by
  unfold Diagram.andExists andExists
  refine same_bind (same_record _) (returns_record_sound hm _) ?_
  rintro - m1 ⟨hm1, hext⟩ -
  refine same_bind (same_forM_checkVariable m1 vars) (ends_forM_checkVariable vars m1) ?_
  rintro - m1 ⟨rfl, hvars⟩ -
  have hwithin := same_andExistsWithin (.ofList vars) (2 * m1.depthBound) hm1
    (last_ofList_le fun v hv => (hvars v hv).2) (hext.valid hf) (hext.valid hg) .empty .empty
  exact same_get (same_bind hwithin ends_true fun _ _ _ _ => same_pure)

theorem same_renameWithin (map : VarMap) (depth : Nat) {m : Manager} {f : Handle}
    {memo : Std.HashMap Nat Handle} (hm : Sound m) (hf : m.Valid f) (hmemo : MemoValid m memo) :
    Same (StateT.run (Diagram.renameWithin map depth f) memo)
      (StateT.run (renameWithin map depth f) memo) m := by
  induction depth generalizing m f memo with
  | zero => exact same_throw
  | succ depth ih =>
      rw [Diagram.renameWithin, renameWithin]
      cases hterm : f.isTerminal with
      | true => exact same_pure
      | false =>
          simp only [Bool.false_eq_true, if_false, StateT.run_bind, StateT.run_get, pure_bind]
          cases hfound : memo[f.index]? with
          | some r => exact same_pure
          | none =>
              obtain ⟨hlow, hhigh⟩ := hm.node_valid hf hterm
              simp only [getThe, StateT.run_bind]
              refine same_run_reads (node_eq hm.toGrounded hf) ?_
              refine same_bind (ih hm hlow hmemo)
                (ends_of_together (together_renameWithin map depth hm.twins hlow hmemo)) ?_
              rintro ⟨e, memo1⟩ m1 ⟨ha1, hmemo1⟩ hslots1
              have hm1 := hm.of_agree ha1 hslots1
              have hhigh1 := ha1.extends_.valid hhigh
              refine same_bind (ih hm1 hhigh1 hmemo1)
                (ends_of_together (together_renameWithin map depth hm1.twins hhigh1 hmemo1)) ?_
              rintro ⟨t, memo2⟩ m2 ⟨ha2, -⟩ hslots2
              have hm2 := hm1.of_agree ha2 hslots2
              refine same_run_lift (same_mkVar hm2.table _)
                (ends_of_together (together_mkVar hm2.twins _)) fun x m3 ha3 hslots3 => ?_
              have hm3 := hm2.of_agree ha3 hslots3
              have he := ha3.extends_.valid (ha2.extends_.valid ha1.valid)
              exact same_run_lift (same_ite hm3 ha3.valid (ha3.extends_.valid ha2.valid) he)
                ends_true fun _ _ _ _ => same_pure

theorem same_rename (map : VarMap) (hm : Sound m) (hf : m.Valid f) :
    Same (Diagram.rename map f) (rename map f) m := by
  unfold Diagram.rename rename
  refine same_bind (same_record _) (returns_record_sound hm _) ?_
  rintro - m1 ⟨hm1, hext⟩ -
  refine same_get ?_
  exact same_bind (same_renameWithin map _ hm1 (hext.valid hf) .empty) ends_true
    fun _ _ _ _ => same_pure

/-! ## Collections -/

theorem same_collectGarbage {roots : List Handle} (hm : Sound m)
    (hroots : ∀ f ∈ roots, m.Valid f) :
    Same (Diagram.collectGarbage roots) (collectGarbage roots) m := by
  have hsweep := sweep_eq hm.table fun i => (m.reach roots).getD i false
  obtain ⟨⟨dropped, t⟩, hplain⟩ :
      ∃ p, m.table.sweep (fun i => (m.reach roots).getD i false) = p := ⟨_, rfl⟩
  rw [hplain] at hsweep
  refine same_of_returns (returns_collectGarbage_swept roots hplain) ?_ ?_
  · unfold collectGarbage
    refine ends_bind.mpr (ends_get.mpr (ends_bind.mpr ((ends_reads
      (reach_eq hm.toGrounded hroots)).mpr (ends_bind.mpr ((ends_reads hsweep).mpr ?_)))))
    simp only [ends_bind, ends_modify, ends_get, ends_record, ends_pure, true_and]
    rfl
  · simp [ResultCache.clear]

end BranchingTime.Guarded
