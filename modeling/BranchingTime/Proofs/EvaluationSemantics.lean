import Mathlib.Data.Set.Card
import BranchingTime.Ctl.Evaluate
import BranchingTime.Proofs.QuantifierDenotation
import BranchingTime.Proofs.RenamingDenotation
import BranchingTime.Proofs.StateBits
import BranchingTime.Proofs.TemporalSemantics

/-!
# Evaluation computes the states of a formula

A model presents a structure over the bits of a half when its diagrams
denote the steps and the labels (`Model.Presents`). `ex` is then the set
of states before a set; the fixpoints climb to the operators with a
horizon, and reach them before the fuel is used up, because every
iteration but the last adds or removes a state. Running code keeps a stack
of trees beside the stack of diagrams, so code that can be run is the code
of a tree, and its result denotes the states of that tree.
-/

namespace BranchingTime

open Diagram Manager

/-! ## Halves -/

namespace Encoding

variable (e : Encoding) {a b : Assignment}

/-- The map to the next half moves the current variables only. -/
theorem getD_toNext (v : Nat) :
    (Std.HashMap.ofList e.toNext).getD v v =
      if v ∈ e.vars .current then v + e.halfWidth else v := by
  have hkeys : e.toNext.map Prod.fst = e.vars .current := by simp [toNext, Function.comp_def]
  split
  · next hv =>
      refine Std.HashMap.getD_ofList_of_mem (beq_self_eq_true v) ?_
        (List.mem_map.mpr ⟨v, hv, rfl⟩)
      have hnd : (e.vars .current).Nodup :=
        List.Nodup.map (fun i j h => Nat.add_left_cancel h) List.nodup_range
      rw [← hkeys] at hnd
      exact (List.pairwise_map.mp hnd).imp fun h => by simpa using h
  · next hv =>
      refine Std.HashMap.getD_ofList_of_contains_eq_false ?_
      rw [hkeys]
      simpa using hv

/-- Reading through the map gives the next half in the place of the current
one. -/
theorem halfOf_through (a : Assignment) :
    e.halfOf .current (a.through (.ofList e.toNext)) = e.halfOf .next a := by
  funext i
  have hv : e.base .current + i ∈ e.vars .current := e.mem_vars.mpr ⟨i, rfl⟩
  show a ((Std.HashMap.ofList e.toNext).getD _ _) = _
  rw [getD_toNext, if_pos hv, halfOf]
  congr 1
  simp only [base]
  omega

/-- Quantifying the next half is choosing it. -/
theorem project_next_iff {Q : e.Bits → e.Bits → Prop} :
    Project (e.vars .next) (fun b => Q (e.halfOf .current b) (e.halfOf .next b)) a ↔
      ∃ s', Q (e.halfOf .current a) s' := by
  have hdisjoint : ∀ v ∈ e.vars .current, v ∉ e.vars .next := by
    intro v hv hv'
    obtain ⟨i, rfl⟩ := e.mem_vars.mp hv
    obtain ⟨j, hj⟩ := e.mem_vars.mp hv'
    have := i.isLt
    simp only [base] at hj
    omega
  constructor
  · rintro ⟨b, hb, hQ⟩
    have hcur : e.halfOf .current b = e.halfOf .current a :=
      e.halfOf_eq_iff.mpr fun v hv => hb v (hdisjoint v hv)
    exact ⟨e.halfOf .next b, hcur ▸ hQ⟩
  · rintro ⟨s', hQ⟩
    let b : Assignment := fun v => if v ∈ e.vars .next then e.join s' s' v else a v
    have hcur : e.halfOf .current b = e.halfOf .current a :=
      e.halfOf_eq_iff.mpr fun v hv => if_neg (hdisjoint v hv)
    have hnext : e.halfOf .next b = s' := by
      rw [← e.halfOf_next_join s' s']
      exact e.halfOf_eq_iff.mpr fun v hv => if_pos hv
    refine ⟨b, fun v hv => if_neg hv, ?_⟩
    show Q (e.halfOf .current b) (e.halfOf .next b)
    rwa [hcur, hnext]

theorem within_toNext {n : Nat} (h : e.numVars ≤ n) :
    VarMap.Within (.ofList e.toNext) n := by
  intro v hpos hle
  rw [getD_toNext]
  split
  · next hv =>
      obtain ⟨i, rfl⟩ := e.mem_vars.mp hv
      have := i.isLt
      rw [base, numVars] at *
      omega
  · exact ⟨hpos, hle⟩

end Encoding

/-! ## Sets of states -/

/-- The assignments whose current half is in `z`. -/
def Encoding.In (e : Encoding) (z : Set e.Bits) (a : Assignment) : Prop :=
  e.halfOf .current a ∈ z

/-- The diagrams of a model denote the steps and the labels of a structure. -/
structure Model.Presents (K : Model) (M : Ctl.Structure K.encoding.Bits) (m : Manager) :
    Prop where
  wellFormed : m.WellFormed
  transitions : m.Denotes K.transitions fun a =>
    M.Step (K.encoding.halfOf .current a) (K.encoding.halfOf .next a)
  predicates : ∀ {index p}, K.predicates[index]? = some p →
    m.Denotes p.states (K.encoding.In {s | M.Label index s})

/-- Not all variables of the model exist. -/
def Model.Short (K : Model) (m : Manager) : Prop := m.numVars < K.encoding.numVars

section Operators

variable {K : Model} {M : Ctl.Structure K.encoding.Bits} {m m' : Manager} {f g : Handle}
  {z z' : Set K.encoding.Bits}

theorem Model.Presents.mono (h : K.Presents M m) (hext : m.Extends m') (hm' : m'.WellFormed) :
    K.Presents M m' where
  wellFormed := hm'
  transitions := h.transitions.mono hext h.wellFormed hm'
  predicates hp := (h.predicates hp).mono hext h.wellFormed hm'

theorem Model.Short.of_extends (h : K.Short m') (hext : m.Extends m') : K.Short m := by
  rwa [Model.Short, hext.numVars_eq] at h

/-- Diagrams of sets of states are equal exactly when the sets are. -/
theorem eq_iff_of_denotes (hm : m.WellFormed) (hf : m.Denotes f (K.encoding.In z))
    (hg : m.Denotes g (K.encoding.In z')) : f = g ↔ z = z' := by
  rw [hm.eq_iff_eval hf.valid hg.valid]
  constructor
  · intro h
    ext s
    have := h (K.encoding.join s s)
    rw [Bool.eq_iff_iff, hf.eval_iff, hg.eval_iff] at this
    simpa only [Encoding.In, Encoding.halfOf_current_join] using this
  · rintro rfl a
    rw [Bool.eq_iff_iff, hf.eval_iff, hg.eval_iff]

theorem Manager.Denotes.dependsOn_current (h : m.Denotes f (K.encoding.In z)) :
    DependsOn (m.eval f) {v | v ∈ K.encoding.vars .current} := by
  intro a b hab
  have hhalf : K.encoding.halfOf .current a = K.encoding.halfOf .current b :=
    K.encoding.halfOf_eq_iff.mpr hab
  rw [Bool.eq_iff_iff, h.eval_iff, h.eval_iff, Encoding.In, Encoding.In, hhalf]

theorem ends_ex (hK : K.Presents M m) (hf : m.Denotes f (K.encoding.In z)) :
    Ends (K.ex f) m (m.Yields (K.encoding.In (M.before z))) (fun _ _ => K.Short m) := by
  have hm := hK.wellFormed
  unfold Model.ex
  split
  · next hzero =>
      -- nothing is before the empty set
      subst hzero
      refine ends_pure.mpr ((Yields.refl hm hf.valid).congr fun a => ?_)
      constructor
      · intro h
        simp at h
      · rintro ⟨s, -, hs⟩
        have := (hf.eval_iff (K.encoding.join s s)).mpr
          (by rwa [Encoding.In, Encoding.halfOf_current_join])
        simp at this
  · refine ends_bind.mpr (Ends.mono (ends_rename _ hm hf.valid) ?_ ?_)
    · intro shifted m1 y1
      have hK1 := hK.mono y1.extends_ y1.wellFormed
      refine Ends.mono (ends_andExists _ y1.wellFormed hK1.transitions.valid y1.valid) ?_ ?_
      · intro r m2 y2
        refine (y2.of_extends y1.extends_).congr fun a => ?_
        -- the quantified half is where the step leads
        have hboth : ∀ b, (m1.eval K.transitions b = true ∧ m1.eval shifted b = true) ↔
            (M.Step (K.encoding.halfOf .current b) (K.encoding.halfOf .next b)
              ∧ K.encoding.halfOf .next b ∈ z) := by
          intro b
          rw [hK1.transitions.eval_iff, y1.eval_iff, hf.eval_iff, Encoding.In,
            Encoding.halfOf_through]
        exact (project_congr hboth).trans
          (K.encoding.project_next_iff (Q := fun s s' => M.Step s s' ∧ s' ∈ z))
      · rintro e m2 ⟨-, hbad⟩
        by_contra hshort
        refine hbad fun v hv => ?_
        have := K.encoding.mem_vars_next hv
        rw [Model.Short] at hshort
        rw [y1.extends_.numVars_eq]
        omega
    · rintro e m1 ⟨-, hbad⟩
      by_contra hshort
      exact hbad ((K.encoding.within_toNext (Nat.le_of_not_lt hshort)).places hm.toReduced)

theorem ends_ax (hK : K.Presents M m) (hf : m.Denotes f (K.encoding.In z)) :
    Ends (K.ax f) m (m.Yields (K.encoding.In (M.beforeAll z))) (fun _ _ => K.Short m) := by
  have hneg : m.Denotes (-f) (K.encoding.In zᶜ) := by
    refine ⟨hf.valid.neg, fun a => ?_⟩
    rw [hK.wellFormed.eval_neg hf.valid, Bool.not_eq_true', ← Bool.not_eq_true, hf.eval_iff]
    rfl
  unfold Model.ax
  refine ends_bind.mpr (Ends.imp (ends_ex hK hneg) (fun r m1 y1 => ?_))
  refine ends_pure.mpr (y1.neg.congr fun a => ?_)
  constructor
  · intro h s' hstep
    by_contra hs'
    exact h ⟨s', hstep, hs'⟩
  · rintro h ⟨s', hstep, hs'⟩
    exact hs' (h s' hstep)

/-! ## Steps of the fixpoints -/

theorem ends_union {E : Fault → Manager → Prop} {x : DiagramM Handle} (hm : m.WellFormed)
    (hf : m.Denotes f (K.encoding.In z)) (hx : Ends x m (m.Yields (K.encoding.In z')) E) :
    Ends (x >>= disj f) m (m.Yields (K.encoding.In (z ∪ z'))) E := by
  refine ends_bind.mpr (hx.imp fun r m1 y1 => ?_)
  refine (returns_disj y1.wellFormed (y1.extends_.valid hf.valid) y1.valid).ends
    fun r m2 y2 => (y2.of_extends y1.extends_).congr fun a => ?_
  rw [y1.old_eval_eq hm hf.valid, hf.eval_iff, y1.eval_iff]
  rfl

theorem ends_inter {E : Fault → Manager → Prop} {x : DiagramM Handle} (hm : m.WellFormed)
    (hf : m.Denotes f (K.encoding.In z)) (hx : Ends x m (m.Yields (K.encoding.In z')) E) :
    Ends (x >>= conj f) m (m.Yields (K.encoding.In (z ∩ z'))) E := by
  refine ends_bind.mpr (hx.imp fun r m1 y1 => ?_)
  refine (returns_conj y1.wellFormed (y1.extends_.valid hf.valid) y1.valid).ends
    fun r m2 y2 => (y2.of_extends y1.extends_).congr fun a => ?_
  rw [y1.old_eval_eq hm hf.valid, hf.eval_iff, y1.eval_iff]
  rfl

/-! ## Fixpoints -/

/-- `step` computes `F` in every extension of `m`. -/
def Computes (K : Model) (m : Manager) (step : Handle → DiagramM Handle)
    (F : Set K.encoding.Bits → Set K.encoding.Bits) : Prop :=
  ∀ ⦃m' : Manager⦄ ⦃f : Handle⦄ ⦃z : Set K.encoding.Bits⦄, m.Extends m' → m'.WellFormed →
    m'.Denotes f (K.encoding.In z) →
    Ends (step f) m' (m'.Yields (K.encoding.In (F z))) (fun _ _ => K.Short m)

section Climbing

variable {α : Type} [PartialOrder α] (sets : α → Set K.encoding.Bits)
  {step : Handle → DiagramM Handle} {F : α → α} {first goal z : α}
  {G : Set K.encoding.Bits → Set K.encoding.Bits}

/-- One iteration on the way to the goal: either it returns what it was given,
which is the goal, or it climbs. -/
theorem ends_iteration (hstep : Computes K m step G) (hclimb : Ctl.Climbs F first goal)
    (hsets : Function.Injective sets) (hG : ∀ z, G (sets z) = sets (F z)) (hext : m.Extends m')
    (hm' : m'.WellFormed) (hf : m'.Denotes f (K.encoding.In (sets z)))
    (hway : Ctl.Climbs.OnWay F first goal z) :
    Ends (step f) m' (fun r m1 => (m'.Extends m1 ∧ m1.WellFormed)
        ∧ m1.Denotes f (K.encoding.In (sets z)) ∧ m1.Denotes r (K.encoding.In (sets (F z)))
        ∧ (r = f ∧ z = goal ∨ r ≠ f ∧ z < F z)) (fun _ _ => K.Short m) := by
  refine Ends.imp (hstep hext hm' hf) fun r m1 y1 => ?_
  have hr : m1.Denotes r (K.encoding.In (sets (F z))) := hG z ▸ y1.denotes
  have hf1 := hf.mono y1.extends_ hm' y1.wellFormed
  have heq : r = f ↔ F z = z :=
    (eq_iff_of_denotes y1.wellFormed hr hf1).trans hsets.eq_iff
  refine ⟨⟨y1.extends_, y1.wellFormed⟩, hf1, hr, ?_⟩
  by_cases hrf : r = f
  · exact Or.inl ⟨hrf, hclimb.eq_goal hway (heq.mp hrf)⟩
  · exact Or.inr ⟨hrf, lt_of_le_of_ne hway.rises fun h => hrf (heq.mpr h.symm)⟩

/-- An iteration that climbs, upwards or downwards, and gains height in
every step ends at its goal before the fuel does. -/
theorem ends_fixpointWithin (height : α → Nat) {bound : Nat} (hstep : Computes K m step G)
    (hclimb : Ctl.Climbs F first goal) (hsets : Function.Injective sets)
    (hG : ∀ z, G (sets z) = sets (F z))
    (hheight : StrictMono height) (hbound : ∀ z, height z ≤ bound)
    (fuel count : Nat) (hext : m.Extends m')
    (hm' : m'.WellFormed) (hf : m'.Denotes f (K.encoding.In (sets z)))
    (hway : Ctl.Climbs.OnWay F first goal z) (hfuel : bound < height z + fuel) :
    Ends (fixpointWithin step fuel count f) m' (m'.Yields (K.encoding.In (sets goal)))
      (fun _ _ => K.Short m) := by
  induction fuel generalizing count m' f z with
  | zero =>
      have := hbound z
      omega
  | succ fuel ih =>
      rw [fixpointWithin]
      refine ends_bind.mpr (Ends.imp
        (ends_iteration sets hstep hclimb hsets hG hext hm' hf hway) ?_)
      rintro r m1 ⟨⟨hext1, hm1⟩, hf1, hr, ⟨hrf, hgoal⟩ | ⟨hrf, hlt⟩⟩
      · rw [if_pos hrf]
        simp only [ends_bind, ends_record, ends_pure]
        have hlike := m1.alike_journal (m1.journal.push (.fixpointReached (count + 1)))
        have hwf := hlike.wellFormed hm1
        have hf2 := hf1.mono hlike.extends_ hm1 hwf
        exact ⟨hext1.trans hlike.extends_, hwf, hf2.valid, hgoal ▸ hf2.eval_iff⟩
      · rw [if_neg hrf]
        -- an iteration that changes something gains height, so the fuel lasts
        have hgain := hheight hlt
        exact Ends.imp (ih (count + 1) (hext.trans hext1) hm1 hr (hclimb.onWay_next hway)
          (by omega)) (fun _ _ y => y.of_extends hext1)

end Climbing

theorem ncard_le (e : Encoding) (z : Set e.Bits) : z.ncard ≤ Nat.pow 2 e.halfWidth := by
  have h := Set.ncard_le_ncard (Set.subset_univ z)
  rw [Set.ncard_univ, Nat.card_eq_fintype_card] at h
  simpa using h

theorem ends_fixpoint_up {step : Handle → DiagramM Handle}
    {F : Set K.encoding.Bits → Set K.encoding.Bits} (hstep : Computes K m step F)
    (hclimb : Ctl.Climbs F z z') (hm : m.WellFormed) (hf : m.Denotes f (K.encoding.In z)) :
    Ends (K.fixpoint step f) m (m.Yields (K.encoding.In z')) (fun _ _ => K.Short m) :=
  ends_fixpointWithin id Set.ncard hstep hclimb Function.injective_id (fun _ => rfl)
    (fun _ _ h => Set.ncard_lt_ncard h) (ncard_le K.encoding) _ 0 (.refl m) hm hf
    hclimb.onWay_first (by omega)

theorem ends_fixpoint_down {step : Handle → DiagramM Handle}
    {F : Set K.encoding.Bits → Set K.encoding.Bits} (hstep : Computes K m step F)
    (hclimb : Ctl.Structure.Descends F z z') (hm : m.WellFormed)
    (hf : m.Denotes f (K.encoding.In z)) :
    Ends (K.fixpoint step f) m (m.Yields (K.encoding.In z')) (fun _ _ => K.Short m) :=
  ends_fixpointWithin OrderDual.ofDual (fun z => Set.ncard (OrderDual.ofDual z)ᶜ) hstep hclimb
    Function.injective_id (fun _ => rfl)
    (fun _ _ h => Set.ncard_lt_ncard (compl_lt_compl_iff_lt.mpr h))
    (fun _ => ncard_le K.encoding _) _ 0 (.refl m) hm hf hclimb.onWay_first (by omega)

/-! ## Operators -/

theorem computes_ex (hK : K.Presents M m) : Computes K m K.ex M.before :=
  fun _ _ _ hext hm' hf => Ends.mono (ends_ex (hK.mono hext hm') hf) (fun _ _ y => y)
    (fun _ _ h => h.of_extends hext)

theorem computes_ax (hK : K.Presents M m) : Computes K m K.ax M.beforeAll :=
  fun _ _ _ hext hm' hf => Ends.mono (ends_ax (hK.mono hext hm') hf) (fun _ _ y => y)
    (fun _ _ h => h.of_extends hext)

theorem computes_union {step : Handle → DiagramM Handle}
    {F : Set K.encoding.Bits → Set K.encoding.Bits} (hstep : Computes K m step F) :
    Computes K m (fun h => do disj h (← step h)) fun y => y ∪ F y :=
  fun _ _ _ hext hm' hh => ends_union hm' hh (hstep hext hm' hh)

theorem computes_inter {step : Handle → DiagramM Handle}
    {F : Set K.encoding.Bits → Set K.encoding.Bits} (hstep : Computes K m step F) :
    Computes K m (fun h => do conj h (← step h)) fun y => y ∩ F y :=
  fun _ _ _ hext hm' hh => ends_inter hm' hh (hstep hext hm' hh)

theorem ends_unary (op : Ctl.UnaryOp) (hK : K.Presents M m)
    (hf : m.Denotes f (K.encoding.In z)) :
    Ends (K.unary op f) m (m.Yields (K.encoding.In (M.unary op z))) (fun _ _ => K.Short m) := by
  have hm := hK.wellFormed
  cases op with
  | not =>
      refine ends_pure.mpr ((Yields.refl hm hf.valid).neg.congr fun a => ?_)
      rw [hf.eval_iff]
      rfl
  | ex => exact ends_ex hK hf
  | ax => exact ends_ax hK hf
  | ef => exact ends_fixpoint_up (computes_union (computes_ex hK)) (M.climbs_ef z) hm hf
  | af => exact ends_fixpoint_up (computes_union (computes_ax hK)) (M.climbs_af z) hm hf
  | eg => exact ends_fixpoint_down (computes_inter (computes_ex hK)) (M.descends_eg z) hm hf
  | ag => exact ends_fixpoint_down (computes_inter (computes_ax hK)) (M.descends_ag z) hm hf

/-- One iteration of an `until`. -/
theorem computes_until {step : Handle → DiagramM Handle}
    {F : Set K.encoding.Bits → Set K.encoding.Bits} (hm : m.WellFormed)
    (hf : m.Denotes f (K.encoding.In z)) (hg : m.Denotes g (K.encoding.In z'))
    (hstep : Computes K m step F) :
    Computes K m (fun h => do disj g (← conj f (← step h))) fun y => z' ∪ (z ∩ F y) := by
  intro m1 h y hext hm1 hh
  have hf1 := hf.mono hext hm hm1
  have hg1 := hg.mono hext hm hm1
  have := ends_union hm1 hg1 (ends_inter hm1 hf1 (hstep hext hm1 hh))
  rwa [bind_assoc] at this

theorem ends_binary (op : Ctl.BinaryOp) (hK : K.Presents M m)
    (hf : m.Denotes f (K.encoding.In z)) (hg : m.Denotes g (K.encoding.In z')) :
    Ends (K.binary op f g) m (m.Yields (K.encoding.In (M.binary op z z')))
      (fun _ _ => K.Short m) := by
  have hm := hK.wellFormed
  cases op with
  | and =>
      refine (returns_conj hm hf.valid hg.valid).ends fun r m' y => y.congr fun a => ?_
      rw [hf.eval_iff, hg.eval_iff]
      rfl
  | or =>
      refine (returns_disj hm hf.valid hg.valid).ends fun r m' y => y.congr fun a => ?_
      rw [hf.eval_iff, hg.eval_iff]
      rfl
  | xor =>
      refine (returns_xor hm hf.valid hg.valid).ends fun r m' y => y.congr fun a => ?_
      have hfa := hf.eval_iff a
      have hga := hg.eval_iff a
      rw [Encoding.In] at hfa hga ⊢
      cases hx : m.eval f a <;> cases hy : m.eval g a <;>
        simp_all [Ctl.Structure.binary]
  | eu =>
      exact ends_fixpoint_up (computes_until hm hf hg (computes_ex hK)) (M.climbs_eu z z') hm hg
  | au =>
      exact ends_fixpoint_up (computes_until hm hf hg (computes_ax hK)) (M.climbs_au z z') hm hg

/-! ## Running code -/

/-- The stack denotes the states of the trees. -/
def StackDenotes (M : Ctl.Structure K.encoding.Bits) (m : Manager) :
    List Ctl.Tree → List Handle → Prop :=
  List.Forall₂ fun t h => m.Denotes h (K.encoding.In (t.states M))

theorem StackDenotes.mono {trees : List Ctl.Tree} {stack : List Handle}
    (h : StackDenotes M m trees stack) (hext : m.Extends m') (hm : m.WellFormed)
    (hm' : m'.WellFormed) : StackDenotes M m' trees stack :=
  List.Forall₂.imp (fun _ _ hd => hd.mono hext hm hm') h

/-- The operand of an instruction, if it has one, is a predicate of the
model. -/
def Model.Knows (K : Model) (instr : Ctl.Instr) : Prop :=
  ∀ index, instr = .operand index → index < K.predicates.length

/-- What running code leaves: the trees that pushing it builds. It stops
where pushing does, and at operands that are no predicates. -/
def RunsTo (M : Ctl.Structure K.encoding.Bits) (m : Manager) (trees : List Ctl.Tree)
    (code : List Ctl.Instr) (r : Except CtlError (List Handle)) (m' : Manager) : Prop :=
  (m.Extends m' ∧ m'.WellFormed) ∧
  match r with
  | .ok stack => ∃ trees', code.foldlM Ctl.Tree.push trees = some trees'
      ∧ (∀ instr ∈ code, K.Knows instr) ∧ StackDenotes M m' trees' stack
  | .error _ => code.foldlM Ctl.Tree.push trees = none ∨ ∃ instr ∈ code, ¬ K.Knows instr

theorem ends_exec {trees : List Ctl.Tree} {stack : List Handle} (instr : Ctl.Instr)
    (hK : K.Presents M m) (hs : StackDenotes M m trees stack) :
    Ends (K.exec stack instr).run m (RunsTo M m trees [instr]) (fun _ _ => K.Short m) := by
  have hm := hK.wellFormed
  have hsame := And.intro (Extends.refl m) hm
  cases instr with
  | operand index =>
      rw [Model.exec]
      cases hp : K.predicates[index]? with
      | none =>
          refine ends_except_throw.mpr ⟨hsame, .inr ⟨_, List.mem_singleton_self _, fun h => ?_⟩⟩
          exact absurd (h index rfl) (Nat.not_lt.mpr (List.getElem?_eq_none_iff.mp hp))
      | some p =>
          obtain ⟨hlt, -⟩ := List.getElem?_eq_some_iff.mp hp
          refine ends_except_pure.mpr ⟨hsame, _, rfl, ?_, .cons (hK.predicates hp) hs⟩
          rintro _ hmem index' rfl
          cases List.mem_singleton.mp hmem
          exact hlt
  | unary op =>
      have hknows : ∀ instr ∈ [Ctl.Instr.unary op], K.Knows instr := by
        rintro _ hmem index rfl
        cases List.mem_singleton.mp hmem
      cases hs with
      | nil => exact ends_except_throw.mpr ⟨hsame, .inl rfl⟩
      | cons hh hs =>
          rw [Model.exec]
          refine ends_except_bind.mpr (ends_except_lift.mpr ?_)
          refine Ends.imp (ends_unary op hK hh) (fun r m1 y1 => ?_)
          exact ends_except_pure.mpr ⟨⟨y1.extends_, y1.wellFormed⟩, _, rfl, hknows,
            .cons y1.denotes (StackDenotes.mono hs y1.extends_ hm y1.wellFormed)⟩
  | binary op =>
      have hknows : ∀ instr ∈ [Ctl.Instr.binary op], K.Knows instr := by
        rintro _ hmem index rfl
        cases List.mem_singleton.mp hmem
      rcases hs with _ | ⟨hg, _ | ⟨hf, hs⟩⟩
      · exact ends_except_throw.mpr ⟨hsame, .inl rfl⟩
      · exact ends_except_throw.mpr ⟨hsame, .inl rfl⟩
      · rw [Model.exec]
        refine ends_except_bind.mpr (ends_except_lift.mpr ?_)
        refine Ends.imp (ends_binary op hK hf hg) (fun r m1 y1 => ?_)
        exact ends_except_pure.mpr ⟨⟨y1.extends_, y1.wellFormed⟩, _, rfl, hknows,
          .cons y1.denotes (StackDenotes.mono hs y1.extends_ hm y1.wellFormed)⟩

theorem ends_foldlM_exec {trees : List Ctl.Tree} {stack : List Handle} (code : List Ctl.Instr)
    (hK : K.Presents M m) (hs : StackDenotes M m trees stack) :
    Ends (code.foldlM K.exec stack).run m (RunsTo M m trees code) (fun _ _ => K.Short m) := by
  induction code generalizing m trees stack with
  | nil =>
      exact ends_except_pure.mpr ⟨⟨.refl m, hK.wellFormed⟩, trees, rfl, by simp, hs⟩
  | cons instr code ih =>
      rw [List.foldlM_cons]
      refine ends_except_bind.mpr (Ends.imp (ends_exec instr hK hs) ?_)
      rintro (err | stack1) m1 ⟨⟨ext1, hm1⟩, h1⟩
      · refine ⟨⟨ext1, hm1⟩, h1.imp (fun hpush => ?_) fun ⟨_, hmem, hno⟩ => ?_⟩
        · have hpush : Ctl.Tree.push trees instr = none := by simpa using hpush
          rw [List.foldlM_cons, hpush]
          rfl
        · exact ⟨instr, List.mem_cons_self, List.mem_singleton.mp hmem ▸ hno⟩
      · obtain ⟨trees1, hpush, hknows, hs1⟩ := h1
        have hpush : Ctl.Tree.push trees instr = some trees1 := by simpa using hpush
        have hrest : (instr :: code).foldlM Ctl.Tree.push trees
            = code.foldlM Ctl.Tree.push trees1 := by
          rw [List.foldlM_cons, hpush]
          rfl
        refine Ends.mono (ih (hK.mono ext1 hm1) hs1) ?_ (fun _ _ h => h.of_extends ext1)
        rintro (err | stack2) m2 ⟨⟨ext2, hm2⟩, h2⟩
        · refine ⟨⟨ext1.trans ext2, hm2⟩, h2.imp hrest.trans fun ⟨i, hmem, hno⟩ => ?_⟩
          exact ⟨i, List.mem_cons_of_mem _ hmem, hno⟩
        · obtain ⟨trees2, hcode, hknows2, hs2⟩ := h2
          refine ⟨⟨ext1.trans ext2, hm2⟩, trees2, hrest.trans hcode, ?_, hs2⟩
          exact List.forall_mem_cons.mpr ⟨hknows instr (List.mem_singleton_self _), hknows2⟩

/-- Evaluation succeeds on the code of the trees over the predicates of the
model, and its result denotes the states of the tree. -/
def Evaluated (M : Ctl.Structure K.encoding.Bits) (m : Manager) (formula : Ctl.Formula)
    (r : Except CtlError Handle) (m' : Manager) : Prop :=
  (m.Extends m' ∧ m'.WellFormed) ∧
  match r with
  | .ok h => ∃ t : Ctl.Tree, t.postorder = formula.code
      ∧ (∀ instr ∈ formula.code, K.Knows instr) ∧ m'.Denotes h (K.encoding.In (t.states M))
  | .error _ => ∀ t : Ctl.Tree, t.postorder = formula.code →
      ∃ instr ∈ formula.code, ¬ K.Knows instr

theorem ends_evaluate (formula : Ctl.Formula) (hK : K.Presents M m) :
    Ends (K.evaluate formula).run m (Evaluated M m formula) (fun _ _ => K.Short m) := by
  unfold Model.evaluate
  refine ends_except_bind.mpr (Ends.imp (ends_foldlM_exec formula.code hK .nil) ?_)
  rintro (err | stack) m1 ⟨hm1, hr⟩
  · refine ⟨hm1, fun t ht => hr.resolve_left fun hnone => ?_⟩
    rw [Ctl.Tree.foldlM_push_eq_iff.mpr ht] at hnone
    cases hnone
  · obtain ⟨trees, hcode, hknows, hs⟩ := hr
    simp only
    split
    · obtain _ | ⟨hh, _ | _⟩ := hs
      exact ends_except_pure.mpr
        ⟨hm1, _, Ctl.Tree.foldlM_push_eq_iff.mp hcode, hknows, hh⟩
    · next hone =>
        refine ends_except_throw.mpr ⟨hm1, fun t ht => ?_⟩
        rw [Ctl.Tree.foldlM_push_eq_iff.mpr ht] at hcode
        obtain rfl := Option.some.inj hcode
        obtain _ | ⟨_, _ | _⟩ := hs
        exact absurd rfl (hone _)

theorem returns_evaluate (formula : Ctl.Formula) (hK : K.Presents M m)
    (hvars : K.encoding.numVars ≤ m.numVars) :
    Returns (K.evaluate formula).run m (Evaluated M m formula) :=
  (ends_evaluate formula hK).mono (fun _ _ h => h)
    fun _ _ hshort => absurd hvars (Nat.not_le.mpr hshort)

end Operators

/-! ## Models over pairs of states -/

namespace Model

variable (K : Model) (m : Manager)

/-- The diagrams of a model are stored, and depend on the variables of two
states, or of the current one. -/
structure OverStates : Prop where
  transitions_valid : m.Valid K.transitions
  transitions_dependsOn : DependsOn (m.eval K.transitions)
    {v | v ∈ K.encoding.vars .current ∨ v ∈ K.encoding.vars .next}
  predicates_valid : ∀ p ∈ K.predicates, m.Valid p.states
  predicates_dependsOn : ∀ p ∈ K.predicates,
    DependsOn (m.eval p.states) {v | v ∈ K.encoding.vars .current}

/-- A diagram that depends on the current state only denotes a set of states. -/
theorem denotes_states {K : Model} {m : Manager} {f : Handle} (hf : m.Valid f)
    (hdep : DependsOn (m.eval f) {v | v ∈ K.encoding.vars .current}) :
    m.Denotes f (K.encoding.In {s | m.eval f (K.encoding.join s s) = true}) := by
  refine ⟨hf, fun a => ?_⟩
  rw [Encoding.In, Set.mem_ofPred_eq]
  rw [hdep fun v hv => K.encoding.halfOf_eq_iff.mp (K.encoding.halfOf_current_join _ _).symm v hv]

/-- The structure that the diagrams of a model stand for. -/
def toStructure : Ctl.Structure K.encoding.Bits where
  Step s s' := m.eval K.transitions (K.encoding.join s s') = true
  Label index s := ∃ p, K.predicates[index]? = some p
    ∧ m.eval p.states (K.encoding.join s s) = true

variable {K m}

theorem OverStates.presents (h : K.OverStates m) (hm : m.WellFormed) :
    K.Presents (K.toStructure m) m where
  wellFormed := hm
  transitions := by
    refine ⟨h.transitions_valid, fun a => ?_⟩
    rw [toStructure, h.transitions_dependsOn]
    rintro v (hv | hv)
    · exact K.encoding.halfOf_eq_iff.mp (K.encoding.halfOf_current_join _ _).symm v hv
    · exact K.encoding.halfOf_eq_iff.mp (K.encoding.halfOf_next_join _ _).symm v hv
  predicates {index p} hp := by
    have hmem := List.mem_of_getElem? hp
    have hlabel : {s | (K.toStructure m).Label index s}
        = {s | m.eval p.states (K.encoding.join s s) = true} := by
      simp only [toStructure, hp, Option.some.injEq, exists_eq_left']
    rw [hlabel]
    exact denotes_states (h.predicates_valid p hmem) (h.predicates_dependsOn p hmem)

/-- Where all variables exist, evaluation succeeds exactly on the code of
the trees over the predicates of the model. -/
theorem evaluate_ok_iff (formula : Ctl.Formula) {M : Ctl.Structure K.encoding.Bits}
    (hK : K.Presents M m) (hvars : K.encoding.numVars ≤ m.numVars) :
    (∃ r m', (K.evaluate formula).run m = .ok (.ok r) m') ↔
      ∃ t : Ctl.Tree, t.postorder = formula.code
        ∧ ∀ index, .operand index ∈ formula.code → index < K.predicates.length := by
  obtain ⟨r, m', hrun, -, hr⟩ := (returns_evaluate formula hK hvars).exists_ok
  rw [hrun]
  cases r with
  | ok h =>
      obtain ⟨t, ht, hknows, -⟩ := hr
      exact iff_of_true ⟨h, m', rfl⟩ ⟨t, ht, fun index hmem => hknows _ hmem index rfl⟩
  | error err =>
      refine iff_of_false (fun ⟨_, _, h⟩ => (nomatch h)) fun ⟨t, ht, hall⟩ => ?_
      obtain ⟨instr, hmem, hno⟩ := hr t ht
      exact hno fun index heq => hall index (heq ▸ hmem)

/-- What evaluation returns depends on the current state only, and is true
in the states of the one formula that was compiled to the code. Where all
variables exist it returns for every formula over the predicates. -/
theorem evaluate_exact (formula : Ctl.Formula) (hm : m.WellFormed) (hK : K.OverStates m) :
    (∀ r m', (K.evaluate formula).run m = .ok (.ok r) m' →
      DependsOn (m'.eval r) {v | v ∈ K.encoding.vars .current}
      ∧ ∃! t : Ctl.Tree, t.postorder = formula.code
        ∧ ∀ a, m'.eval r a = true ↔ K.encoding.halfOf .current a ∈ t.states (K.toStructure m))
    ∧ (K.encoding.numVars ≤ m.numVars →
      ((∃ r m', (K.evaluate formula).run m = .ok (.ok r) m') ↔
        ∃ t : Ctl.Tree, t.postorder = formula.code
          ∧ ∀ index, .operand index ∈ formula.code → index < K.predicates.length)) := by
  refine ⟨fun r m' hrun => ?_, evaluate_ok_iff formula (hK.presents hm)⟩
  obtain ⟨-, t, ht, -, hr⟩ := (ends_evaluate formula (hK.presents hm)).of_ok hrun
  exact ⟨hr.dependsOn_current, t, ⟨ht, hr.eval_iff⟩,
    fun u hu => Ctl.Tree.postorder_injective (hu.1.trans ht.symm)⟩

/-- Eight bits without variables, where a step leads to the states with the
first bit, which the only predicate holds of: `AX` of the predicate is true
everywhere. -/
theorem evaluate_exact_ax : ∃ (K : Model) (m : Manager),
    m.WellFormed ∧ K.OverStates m ∧ K.encoding.numVars ≤ m.numVars
      ∧ ∃ r m', (K.evaluate ⟨"AX 0", [.operand 0, .unary .ax]⟩).run m = .ok (.ok r) m'
        ∧ ∀ a, m'.eval r a = true := by
  obtain ⟨m0, h0⟩ : ∃ m, Manager.new? 16 4 = .ok m := ⟨_, rfl⟩
  obtain ⟨hm0, hn0⟩ := Manager.wellFormed_new? h0
  have hvar : ∀ {m : Manager} (v : Nat), m.WellFormed → m.numVars = 16 → 1 ≤ v ∧ v ≤ 16 →
      Returns (mkVar v) m (m.Yields fun a => a v = true) := fun v hm hn hv =>
    Ends.mono (ends_mkVar v hm) (fun _ _ y => y) fun _ _ hbad => hbad.2 (hn ▸ hv)
  obtain ⟨p, m1, -, y1⟩ := (hvar 1 hm0 hn0 (by decide)).exists_ok
  obtain ⟨f, m2, -, y2⟩ :=
    (hvar 9 y1.wellFormed (y1.extends_.numVars_eq.trans hn0) (by decide)).exists_ok
  have hp := y1.denotes.mono y2.extends_ y1.wellFormed y2.wellFormed
  let K : Model := ⟨.zero, f, [⟨0, ⟨"true", []⟩, p⟩], ⟨[]⟩⟩
  let t : Ctl.Tree := .unary .ax (.operand 0)
  have hK : K.OverStates m2 := by
    refine ⟨y2.valid, fun a b hab => ?_, by simpa [K] using hp.valid, ?_⟩
    · have h9 : 9 ∈ Encoding.vars ⟨[]⟩ .next := by decide
      rw [Bool.eq_iff_iff, y2.eval_iff, y2.eval_iff, hab 9 (.inr h9)]
    · intro q hq a b hab
      obtain rfl := List.mem_singleton.mp hq
      have h1 : 1 ∈ Encoding.vars ⟨[]⟩ .current := by decide
      rw [Bool.eq_iff_iff, hp.eval_iff, hp.eval_iff, hab 1 h1]
  have hvars : K.encoding.numVars ≤ m2.numVars := by
    rw [y2.extends_.numVars_eq, y1.extends_.numVars_eq, hn0]
    exact le_refl 16
  obtain ⟨hsound, hcomplete⟩ := evaluate_exact ⟨"AX 0", t.postorder⟩ y2.wellFormed hK
  obtain ⟨r, m', hrun⟩ := (hcomplete hvars).mpr ⟨t, rfl, by simp [t, Ctl.Tree.postorder, K]⟩
  obtain ⟨-, u, ⟨hu, hr⟩, -⟩ := hsound r m' hrun
  obtain rfl := Ctl.Tree.postorder_injective hu
  refine ⟨K, m2, y2.wellFormed, hK, hvars, r, m', hrun, fun a => (hr a).mpr ?_⟩
  -- the first bit of the next state, which the step sets, is the first bit of that state
  intro s' hstep
  refine ⟨_, rfl, (hp.eval_iff _).mpr ?_⟩
  exact (y2.eval_iff _).mp hstep

end Model

end BranchingTime
