import BranchingTime.Proofs.Canonicity

/-!
# Operations store nodes only

Besides the journal and the cache, all that an operation changes of a
manager is the table, and that only by storing nodes. So what storing one
node keeps of a table (`I` below), every operation keeps, whether it
returns or faults (`leaves_perform`). Only a collection can undo it.

Most operations carry memos. A property that returning and sequencing keep
(`Calm`) is one also with a memo, so each operation is followed once, in
the order of its steps.
-/

namespace BranchingTime

namespace Diagram

/-! ## Properties of computations -/

section Calm

variable {N : Type → Type} [Monad N] {P : (α : Type) → N α → Prop} {α σ : Type}

/-- A property of computations that returning and sequencing keep. -/
structure Calm (P : (α : Type) → N α → Prop) : Prop where
  pure : ∀ {α} (a : α), P α (pure a)
  bind : ∀ {α β} {x : N α} {f : α → N β}, P α x → (∀ a, P β (f a)) → P β (x >>= f)

/-- The property for computations that carry a memo. -/
def WithMemo (σ : Type) (P : (α : Type) → N α → Prop) (α : Type) (x : StateT σ N α) : Prop :=
  ∀ memo, P (α × σ) (x.run memo)

namespace Calm

theorem withMemo (h : Calm P) : Calm (WithMemo σ P) where
  pure a memo := h.pure (a, memo)
  bind hx hf memo := by
    rw [StateT.run_bind]
    exact h.bind (hx memo) fun p => hf p.1 p.2

theorem get (h : Calm P) : WithMemo σ P σ get := fun memo => h.pure (memo, memo)

/-- Changing the memo before a result is returned. -/
theorem remember (h : Calm P) (g : σ → σ) (a : α) :
    WithMemo σ P α (modify g >>= fun _ => Pure.pure a) :=
  h.withMemo.bind (fun memo => h.pure (PUnit.unit, g memo)) fun _ => h.withMemo.pure a

theorem lift (h : Calm P) {x : N α} (hx : P α x) : WithMemo σ P α (liftM x) :=
  fun memo => h.bind hx fun a => h.pure (a, memo)

end Calm

end Calm

/-! ## What operations leave -/

section Leaves

variable {α : Type} {I : UniqueTable Node → Prop}

/-- However the operation ends, a table with `I` is left with `I`. -/
def Leaves (I : UniqueTable Node → Prop) (α : Type) (x : DiagramM α) : Prop :=
  ∀ m, I m.table → Ends x m (fun _ m' => I m'.table) fun _ m' => I m'.table

theorem calm_leaves (I : UniqueTable Node → Prop) : Calm (Leaves I) where
  pure _ _ h := ends_pure.mpr h
  bind hx hf m h := ends_bind.mpr
    (Ends.mono (hx m h) (fun a m' h' => hf a m' h') fun _ _ h' => h')

theorem leaves_throw (e : Fault) : Leaves I α (throw e) := fun _ h => ends_throw.mpr h

theorem leaves_get : Leaves I Manager get := fun _ h => ends_get.mpr h

theorem leaves_record (e : Event) : Leaves I Unit (record e) := fun _ h => ends_record.mpr h

theorem leaves_cached? (k : IteKey) : Leaves I (Option Handle) (cached? k) := by
  intro m h
  unfold cached?
  refine ends_modifyGet.mpr fun r? m' hlook => ?_
  generalize m.cache.lookup k = p at hlook
  obtain ⟨v?, c⟩ := p
  obtain ⟨-, rfl⟩ := Prod.mk.inj hlook
  exact h

theorem leaves_remember (k : IteKey) (r : Handle) : Leaves I Unit (remember k r) := by
  intro m h
  unfold remember
  refine ends_modify.mpr ?_
  generalize m.cache.insert k r = cache
  exact h

theorem leaves_checkVariable (v : Nat) : Leaves I Unit (checkVariable v) := by
  intro m h
  rw [ends_checkVariable]
  split <;> exact h

theorem leaves_forM_checkVariable (vars : List Nat) :
    Leaves I PUnit (vars.forM checkVariable) := by
  intro m h
  refine Ends.mono (ends_forM_checkVariable vars m) ?_ ?_
  · rintro - m' ⟨rfl, -⟩
    exact h
  · rintro - m' ⟨rfl, -⟩
    exact h

variable (hput : ∀ t n, I t → I (t.put n).2.2)

include hput

theorem leaves_store (n : Node) : Leaves I Handle (store n) := by
  intro m h
  have h' := hput m.table n h
  unfold store
  refine ends_bind.mpr (ends_modifyGet.mpr fun a m' hrun => ?_)
  generalize m.table.put n = p at h' hrun
  obtain ⟨i, grown?, t⟩ := p
  obtain ⟨rfl, rfl⟩ := Prod.mk.inj hrun
  cases grown? with
  | none =>
      simp only [Option.forM, ends_bind, ends_pure]
      exact h'
  | some e =>
      simp only [Option.forM, ends_bind, ends_record, ends_pure]
      exact h'

theorem leaves_mkNode (v : Nat) (low high : Handle) : Leaves I Handle (mkNode v low high) := by
  have hc := calm_leaves I
  unfold mkNode
  split
  · exact leaves_throw _
  split
  · exact hc.pure _
  split
  · exact hc.bind (leaves_store hput _) fun _ => hc.pure _
  · exact leaves_store hput _

theorem leaves_mkVar (v : Nat) : Leaves I Handle (mkVar v) :=
  (calm_leaves I).bind (leaves_checkVariable v) fun _ => leaves_mkNode hput _ _ _

theorem leaves_foldlM_addLiteral (literals : List Int) (c : Handle) :
    Leaves I Handle (literals.foldlM addLiteral c) := by
  have hc := calm_leaves I
  induction literals generalizing c with
  | nil => exact hc.pure _
  | cons l literals ih =>
      rw [List.foldlM_cons]
      refine hc.bind ?_ ih
      unfold addLiteral
      split <;> exact leaves_mkNode hput _ _ _

theorem leaves_iteWithin (depth : Nat) (f g h : Handle) :
    Leaves I Handle (iteWithin depth f g h) := by
  have hc := calm_leaves I
  induction depth generalizing f g h with
  | zero => exact leaves_throw _
  | succ depth ih =>
      rw [iteWithin]
      split
      · exact hc.pure _
      refine hc.bind (leaves_cached? _) fun r? => ?_
      split
      · exact hc.pure _
      · refine hc.bind leaves_get fun _ => hc.bind leaves_get fun _ => ?_
        refine hc.bind (ih _ _ _) fun _ => hc.bind (ih _ _ _) fun _ => ?_
        refine hc.bind (leaves_mkNode hput _ _ _) fun _ => ?_
        exact hc.bind (leaves_remember _ _) fun _ => hc.pure _

theorem leaves_ite (f g h : Handle) : Leaves I Handle (ite f g h) :=
  (calm_leaves I).bind leaves_get fun _ => leaves_iteWithin hput _ _ _ _

theorem leaves_existsWithin (b : Bound) (depth : Nat) (f : Handle) :
    WithMemo _ (Leaves I) Handle (existsWithin b depth f) := by
  have hc := calm_leaves I
  have hm : Calm (WithMemo (Std.HashMap Handle Handle) (Leaves I)) := hc.withMemo
  induction depth generalizing f with
  | zero => exact fun _ => leaves_throw _
  | succ depth ih =>
      rw [existsWithin]
      split
      · exact hm.pure _
      refine hm.bind (hc.lift leaves_get) fun m => ?_
      dsimp only
      split
      · exact hm.pure _
      refine hm.bind hc.get fun memo => ?_
      split
      · exact hm.pure _
      refine hm.bind (hc.lift leaves_get) fun _ => hm.bind (hc.lift leaves_get) fun _ => ?_
      refine hm.bind (ih _) fun e => ?_
      split
      · exact hm.bind (hm.pure _) fun _ => hc.remember _ _
      · refine hm.bind (ih _) fun t => ?_
        split
        · exact hm.bind (hc.lift (leaves_ite hput _ _ _)) fun _ => hc.remember _ _
        · exact hm.bind (hc.lift (leaves_mkNode hput _ _ _)) fun _ => hc.remember _ _

theorem leaves_existsVars (vars : List Nat) (f : Handle) :
    Leaves I Handle (existsVars vars f) := by
  have hc := calm_leaves I
  refine hc.bind (leaves_record _) fun _ => hc.bind (leaves_forM_checkVariable vars) fun _ => ?_
  exact hc.bind leaves_get fun _ => hc.bind (leaves_existsWithin hput _ _ _ _) fun _ => hc.pure _

theorem leaves_andExistsWithin (b : Bound) (depth : Nat) (f g : Handle) :
    WithMemo _ (WithMemo _ (Leaves I)) Handle (andExistsWithin b depth f g) := by
  have hc := calm_leaves I
  have hm : Calm (WithMemo (Std.HashMap Handle Handle) (Leaves I)) := hc.withMemo
  have hp : Calm (WithMemo (Std.HashMap (Handle × Handle) Handle) (WithMemo _ (Leaves I))) :=
    hm.withMemo
  induction depth generalizing f g with
  | zero => exact fun _ _ => leaves_throw _
  | succ depth ih =>
      rw [andExistsWithin]
      split
      · exact hp.pure _
      split
      · exact hm.lift (leaves_existsWithin hput _ _ _)
      split
      · exact hm.lift (leaves_existsWithin hput _ _ _)
      refine hp.bind hm.get fun pairs => ?_
      split
      · exact hp.pure _
      have hget : WithMemo (Std.HashMap (Handle × Handle) Handle) _ Manager (getThe Manager) :=
        hm.lift (hc.lift leaves_get)
      refine hp.bind hget fun _ => hp.bind hget fun _ => hp.bind hget fun _ => ?_
      refine hp.bind hget fun _ => ?_
      dsimp only
      split
      · exact hp.bind (hm.lift (hc.lift (leaves_ite hput _ _ _))) fun _ => hm.remember _ _
      refine hp.bind (ih _ _) fun e => ?_
      split
      · exact hp.bind (hp.pure _) fun _ => hm.remember _ _
      · refine hp.bind (ih _ _) fun t => ?_
        split
        · exact hp.bind (hm.lift (hc.lift (leaves_ite hput _ _ _))) fun _ => hm.remember _ _
        · exact hp.bind (hm.lift (hc.lift (leaves_mkNode hput _ _ _))) fun _ => hm.remember _ _

theorem leaves_andExists (vars : List Nat) (f g : Handle) :
    Leaves I Handle (andExists vars f g) := by
  have hc := calm_leaves I
  refine hc.bind (leaves_record _) fun _ => hc.bind (leaves_forM_checkVariable vars) fun _ => ?_
  refine hc.bind leaves_get fun m => ?_
  have hwithin := leaves_andExistsWithin hput (.ofList vars) (2 * m.depthBound) f g ∅ ∅
  exact hc.bind hwithin fun _ => hc.pure _

theorem leaves_renameWithin (map : VarMap) (depth : Nat) (f : Handle) :
    WithMemo _ (Leaves I) Handle (renameWithin map depth f) := by
  have hc := calm_leaves I
  have hm : Calm (WithMemo (Std.HashMap Nat Handle) (Leaves I)) := hc.withMemo
  induction depth generalizing f with
  | zero => exact fun _ => leaves_throw _
  | succ depth ih =>
      rw [renameWithin]
      split
      · exact hm.pure _
      refine hm.bind hc.get fun memo => ?_
      split
      · exact hm.pure _
      refine hm.bind (hc.lift leaves_get) fun _ => hm.bind (ih _) fun e => ?_
      refine hm.bind (ih _) fun t => hm.bind (hc.lift (leaves_mkVar hput _)) fun x => ?_
      refine hm.bind (hc.lift (leaves_ite hput _ _ _)) fun r => ?_
      exact hc.remember _ _

theorem leaves_rename (map : VarMap) (f : Handle) : Leaves I Handle (rename map f) := by
  have hc := calm_leaves I
  refine hc.bind (leaves_record _) fun _ => hc.bind leaves_get fun _ => ?_
  exact hc.bind (leaves_renameWithin hput _ _ _ _) fun _ => hc.pure _

/-- An operation changes the table by storing nodes only. -/
theorem leaves_perform (op : Operation) : Leaves I Handle op.perform := by
  cases op with
  | var v => exact leaves_mkVar hput v
  | cube literals => exact leaves_foldlM_addLiteral hput _ _
  | ite f g h => exact leaves_ite hput _ _ _
  | conj f g => exact leaves_ite hput _ _ _
  | disj f g => exact leaves_ite hput _ _ _
  | xor f g => exact leaves_ite hput _ _ _
  | iff f g => exact leaves_ite hput _ _ _
  | imp f g => exact leaves_ite hput _ _ _
  | not f => exact (calm_leaves I).pure _
  | existsVars vars f => exact leaves_existsVars hput vars f
  | andExists vars f g => exact leaves_andExists hput vars f g
  | rename map f => exact leaves_rename hput map f

end Leaves

end Diagram

end BranchingTime
