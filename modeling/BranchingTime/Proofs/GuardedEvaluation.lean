import BranchingTime.Proofs.GuardedModel

/-!
# Evaluations with guards

The way from a model to an outcome, on guarded diagrams. The code of a formula
is run here with one type for all operators: an operator is asked whether it is
unary, and applying it otherwise than it answered is a fault.

An evaluation only ever adds diagrams (`Grows`), and fails no check.
-/

namespace BranchingTime.Guarded

open Diagram Manager

/-! ## Operators -/

/-- The operators of formulas. -/
inductive Op where
  | not | and | or | xor | ax | ex | af | ef | ag | eg | au | eu

namespace Op

def keyword : Op → String
  | not => "NOT"
  | and => "AND"
  | or => "OR"
  | xor => "XOR"
  | ax => "AX"
  | ex => "EX"
  | af => "AF"
  | ef => "EF"
  | ag => "AG"
  | eg => "EG"
  | au => "AU"
  | eu => "EU"

/-- Does the operator have one operand? -/
def isUnary : Op → Bool
  | not | ax | ex | af | ef | ag | eg => true
  | and | or | xor | au | eu => false

def ofUnary : Ctl.UnaryOp → Op
  | .not => not
  | .ax => ax
  | .ex => ex
  | .af => af
  | .ef => ef
  | .ag => ag
  | .eg => eg

def ofBinary : Ctl.BinaryOp → Op
  | .and => and
  | .or => or
  | .xor => xor
  | .au => au
  | .eu => eu

theorem ofUnary_spec (op : Ctl.UnaryOp) :
    (ofUnary op).isUnary = true ∧ (ofUnary op).keyword = op.keyword := by
  cases op <;> exact ⟨rfl, rfl⟩

theorem ofBinary_spec (op : Ctl.BinaryOp) :
    (ofBinary op).isUnary = false ∧ (ofBinary op).keyword = op.keyword := by
  cases op <;> exact ⟨rfl, rfl⟩

end Op

/-- A word of the code of a formula. -/
inductive Token where
  | operand (index : Nat)
  | operator (op : Op)

/-- The word of an instruction. -/
def Token.of : Ctl.Instr → Token
  | .operand index => .operand index
  | .unary op => .operator (.ofUnary op)
  | .binary op => .operator (.ofBinary op)

/-! ## Definitions -/

/-- A model, with the variables to be renamed and to be quantified. -/
structure Evaluator where
  model : Model
  toNext : VarMap
  nextVars : List Nat

namespace Evaluator

variable (E : Evaluator)

/-- The states with a successor in `f`. -/
def ex (f : Handle) : DiagramM Handle := do
  if f = .zero then return f
  let shifted ← rename E.toNext f
  andExists E.nextVars E.model.transitions shifted

/-- The states all of whose successors are in `f`. -/
def ax (f : Handle) : DiagramM Handle := return -(← E.ex (-f))

/-- The states of a unary operator. -/
def unary (op : Op) (f : Handle) : DiagramM Handle :=
  match op with
  | .not => return -f
  | .ex => E.ex f
  | .ax => E.ax f
  | .ef => E.model.fixpoint (fun z => do disj z (← E.ex z)) f
  | .af => E.model.fixpoint (fun z => do disj z (← E.ax z)) f
  | .eg => E.model.fixpoint (fun z => do conj z (← E.ex z)) f
  | .ag => E.model.fixpoint (fun z => do conj z (← E.ax z)) f
  | .and | .or | .xor | .au | .eu => throw .unreachable

/-- The states of a binary operator. -/
def binary (op : Op) (f g : Handle) : DiagramM Handle :=
  match op with
  | .and => conj f g
  | .or => disj f g
  | .xor => xor f g
  | .eu => E.model.fixpoint (fun z => do disj g (← conj f (← E.ex z))) g
  | .au => E.model.fixpoint (fun z => do disj g (← conj f (← E.ax z))) g
  | .not | .ax | .ex | .af | .ef | .ag | .eg => throw .unreachable

/-- Puts a set of states on a stack. Its nodes can be counted. -/
def push (f : Handle) (stack : List Handle) : Model.EvaluateM (List Handle) := do
  let _ ← (reads (nodeCount · f) : DiagramM Nat)
  return f :: stack

/-- Applies a unary operator to what is on top of a stack. -/
def applyUnary (op : Op) : List Handle → Model.EvaluateM (List Handle)
  | f :: stack => do push (← E.unary op f) stack
  | [] => throw (.stackUnderflow op.keyword)

/-- Applies a binary operator to what is on top of a stack. -/
def applyBinary (op : Op) : List Handle → Model.EvaluateM (List Handle)
  | g :: f :: stack => do push (← E.binary op f g) stack
  | _ => throw (.stackUnderflow op.keyword)

/-- Executes one word on a stack of sets of states. -/
def exec (stack : List Handle) : Token → Model.EvaluateM (List Handle)
  | .operand index =>
    match E.model.predicates[index]? with
    | some p => push p.states stack
    | none => throw (.operandOutOfRange index E.model.predicates.length)
  | .operator op => if op.isUnary then E.applyUnary op stack else E.applyBinary op stack

end Evaluator

/-- The states where a formula is true. -/
def evaluate (K : Model) (f : Ctl.Formula) : Model.EvaluateM Handle := do
  let toNext ← (reads fun _ => toNext K.encoding : DiagramM _)
  let nextVars ← (reads fun _ => vars K.encoding .next : DiagramM _)
  let E : Evaluator := ⟨K, .ofList toNext, nextVars⟩
  match ← (f.code.map Token.of).foldlM E.exec [] with
  | [states] => return states
  | stack => throw (.leftover stack.length)

/-- Compares the start states of a model with a property. -/
def check (K : Model) (property : Handle) : DiagramM Outcome := do
  let union ← disj K.start property
  let witness ← xor union property
  let verdict := if union = property then Verdict.holds else .notHolds
  record (.verdictReached verdict.text)
  return .checked verdict witness K.encoding

/-- From a control-flow table to the outcome of a formula. -/
def investigate (table : ControlTable) (encoding : Encoding) (threshold : Nat)
    (predicates : Except UnfoldError (List Predicate)) (formula : Ctl.Formula) :
    ExceptT SessionError DiagramM Outcome := do
  let predicates ← ExceptT.adapt .unfold (MonadExcept.ofExcept predicates)
  let model ← ExceptT.adapt .unfold (unfold table encoding threshold predicates)
  record (.transitionsBuilt (← (reads (nodeCount · model.transitions) : DiagramM Nat)))
  let property ← ExceptT.adapt .ctl (evaluate model formula)
  let outcome ← check model property
  if let some witness := outcome.witness? then
    let width ← (reads fun _ => word encoding.halfWidth : DiagramM Nat)
    record (.violations (← (reads (satCount · witness width) : DiagramM Nat)))
  record (.cacheUse (← get).cache.hits (← get).cache.misses)
  return outcome

/-! ## Evaluating -/

variable {m n : Manager} {f g : Handle} {K : Model} {e : Encoding}

/-- The evaluator of a model. -/
def Evaluator.of (K : Model) : Evaluator :=
  ⟨K, .ofList K.encoding.toNext, K.encoding.vars .next⟩

theorem tracks_ex (hm : Sound m) (hK : m.Valid K.transitions) (hf : m.Valid f) :
    Tracks (K.ex f) ((Evaluator.of K).ex f) m (Grows m) := by
  unfold Model.ex Evaluator.ex
  split
  · exact tracks_pure ⟨hm, .refl m, hf⟩
  refine tracks_bind ((same_rename _ hm hf).grows hm (together_rename _ hm.twins hf))
    fun r n hr => ?_
  have hK' := hr.extends_.valid hK
  exact ((same_andExists _ hr.sound hK' hr.valid).grows hr.sound
    (together_andExists _ hr.sound.twins hK' hr.valid)).mono fun r' o ho =>
      ⟨ho.sound, hr.extends_.trans ho.extends_, ho.valid⟩

theorem tracks_ax (hm : Sound m) (hK : m.Valid K.transitions) (hf : m.Valid f) :
    Tracks (K.ax f) ((Evaluator.of K).ax f) m (Grows m) :=
  tracks_bind (tracks_ex hm hK hf.neg) fun _ _ hr =>
    tracks_pure ⟨hr.sound, hr.extends_, hr.valid.neg⟩

/-- A step of an iteration passes its checks in all managers to come. -/
def Steps (m : Manager) (step step' : Handle → DiagramM Handle) : Prop :=
  ∀ n z, Grows m z n → Tracks (step z) (step' z) n (Grows n)

theorem Steps.of_extends {step step' : Handle → DiagramM Handle} (h : Steps m step step')
    (hext : m.Extends n) : Steps n step step' :=
  fun o z hz => h o z ⟨hz.sound, hext.trans hz.extends_, hz.valid⟩

theorem Grows.trans {r r' : Handle} {o : Manager} (h : Grows m r n) (h' : Grows n r' o) :
    Grows m r' o :=
  ⟨h'.sound, h.extends_.trans h'.extends_, h'.valid⟩

theorem tracks_fixpointWithin {step step' : Handle → DiagramM Handle} {z : Handle}
    (fuel count : Nat) (hstep : Steps m step step') (hm : Sound m) (hz : m.Valid z) :
    Tracks (fixpointWithin step fuel count z) (fixpointWithin step' fuel count z) m (Grows m) := by
  induction fuel generalizing m z count with
  | zero => exact tracks_throw
  | succ fuel ih =>
      rw [fixpointWithin, fixpointWithin]
      refine tracks_bind (hstep m z ⟨hm, .refl m, hz⟩) fun z' n hz' => ?_
      split
      · refine tracks_bind (tracks_record hz'.sound _) fun _ o ho => tracks_pure ?_
        exact ⟨ho.1, hz'.extends_.trans ho.2, ho.2.valid (hz'.extends_.valid hz)⟩
      · exact (ih (count + 1) (hstep.of_extends hz'.extends_) hz'.sound hz'.valid).mono
          fun _ _ => hz'.trans

/-- Going back along the transitions, and then on with a connective. -/
theorem steps_bind {back back' : Handle → DiagramM Handle}
    {op op' : Handle → Handle → DiagramM Handle} (hback : Steps m back back')
    (hop : ∀ n z r, m.Extends n → Sound n → n.Valid z → n.Valid r →
      Tracks (op z r) (op' z r) n (Grows n)) :
    Steps m (fun z => do op z (← back z)) (fun z => do op' z (← back' z)) := by
  intro n z hz
  refine tracks_bind (hback n z hz) fun r o hr => ?_
  exact (hop o z r (hz.extends_.trans hr.extends_) hr.sound (hr.extends_.valid hz.valid)
    hr.valid).mono fun _ _ => hr.trans

theorem tracks_unary (op : Ctl.UnaryOp) (hm : Sound m) (hK : m.Valid K.transitions)
    (hf : m.Valid f) :
    Tracks (K.unary op f) ((Evaluator.of K).unary (.ofUnary op) f) m (Grows m) := by
  have hex : Steps m K.ex (Evaluator.of K).ex :=
    fun n z hz => tracks_ex hz.sound (hz.extends_.valid hK) hz.valid
  have hax : Steps m K.ax (Evaluator.of K).ax :=
    fun n z hz => tracks_ax hz.sound (hz.extends_.valid hK) hz.valid
  cases op with
  | not => exact tracks_pure ⟨hm, .refl m, hf.neg⟩
  | ex => exact tracks_ex hm hK hf
  | ax => exact tracks_ax hm hK hf
  | ef => exact tracks_fixpointWithin _ 0 (steps_bind hex fun _ _ _ _ => tracks_disj) hm hf
  | af => exact tracks_fixpointWithin _ 0 (steps_bind hax fun _ _ _ _ => tracks_disj) hm hf
  | eg => exact tracks_fixpointWithin _ 0 (steps_bind hex fun _ _ _ _ => tracks_conj) hm hf
  | ag => exact tracks_fixpointWithin _ 0 (steps_bind hax fun _ _ _ _ => tracks_conj) hm hf

theorem tracks_binary (op : Ctl.BinaryOp) (hm : Sound m) (hK : m.Valid K.transitions)
    (hf : m.Valid f) (hg : m.Valid g) :
    Tracks (K.binary op f g) ((Evaluator.of K).binary (.ofBinary op) f g) m (Grows m) := by
  have huntil : ∀ n (z r : Handle), m.Extends n → Sound n → n.Valid z → n.Valid r →
      Tracks (do Diagram.disj g (← Diagram.conj f r)) (do disj g (← conj f r)) n (Grows n) := by
    rintro n z r hext hn - hr
    refine tracks_bind (tracks_conj hn (hext.valid hf) hr) fun q o hq => ?_
    exact (tracks_disj hq.sound (hq.extends_.valid (hext.valid hg)) hq.valid).mono
      fun _ _ => hq.trans
  cases op with
  | and => exact tracks_conj hm hf hg
  | or => exact tracks_disj hm hf hg
  | xor => exact tracks_xor hm hf hg
  | eu =>
      refine tracks_fixpointWithin _ 0 (steps_bind (fun n z hz => ?_) huntil) hm hg
      exact tracks_ex hz.sound (hz.extends_.valid hK) hz.valid
  | au =>
      refine tracks_fixpointWithin _ 0 (steps_bind (fun n z hz => ?_) huntil) hm hg
      exact tracks_ax hz.sound (hz.extends_.valid hK) hz.valid

/-- `m` was extended, by all that is left on a stack at least. -/
def StackGrows (m : Manager) (r : Except CtlError (List Handle)) (n : Manager) : Prop :=
  (Sound n ∧ m.Extends n) ∧ ∀ stack, r = .ok stack → ∀ f ∈ stack, n.Valid f

theorem stackGrows_error {err : CtlError} (hm : Sound m) (hext : n.Extends m) :
    StackGrows n (.error err) m :=
  ⟨⟨hm, hext⟩, fun _ h => by cases h⟩

theorem stackGrows_ok {stack : List Handle} (hm : Sound m) (hext : n.Extends m)
    (hstack : ∀ f ∈ stack, m.Valid f) : StackGrows n (.ok stack) m :=
  ⟨⟨hm, hext⟩, fun _ h => Except.ok.inj h ▸ hstack⟩

theorem tracks_push {stack : List Handle} (hm : Sound m) (hf : m.Valid f)
    (hstack : ∀ f ∈ stack, m.Valid f) :
    Tracks (ExceptT.run (pure (f :: stack) : Model.EvaluateM (List Handle)))
      (Evaluator.push f stack).run m (StackGrows m) :=
  tracks_except_check (nodeCount_eq hm.toGrounded hf) (tracks_pure (stackGrows_ok hm (.refl m)
    (List.forall_mem_cons.mpr ⟨hf, hstack⟩)))

/-- The result of an operator goes on the stack. -/
theorem tracks_apply {x y : DiagramM Handle} {stack : List Handle} (hx : Tracks x y m (Grows m))
    (hstack : ∀ f ∈ stack, m.Valid f) :
    Tracks (ExceptT.run (do return (← x) :: stack : Model.EvaluateM (List Handle)))
      (ExceptT.run (do Evaluator.push (← y) stack : Model.EvaluateM (List Handle))) m
      (StackGrows m) := by
  refine tracks_except_lift hx fun r n hr => ?_
  refine (tracks_push hr.sound hr.valid fun f hf => hr.extends_.valid (hstack f hf)).mono ?_
  exact fun _ _ ho => ⟨⟨ho.1.1, hr.extends_.trans ho.1.2⟩, ho.2⟩

theorem tracks_exec (stack : List Handle) (instr : Ctl.Instr) (hm : Sound m)
    (hK : m.Valid K.transitions) (hps : Stored m K.predicates)
    (hstack : ∀ f ∈ stack, m.Valid f) :
    Tracks (K.exec stack instr).run ((Evaluator.of K).exec stack (.of instr)).run m
      (StackGrows m) := by
  cases instr with
  | operand index =>
      simp only [Model.exec, Token.of, Evaluator.exec, Evaluator.of]
      cases hp : K.predicates[index]? with
      | none => exact tracks_pure (stackGrows_error hm (.refl m))
      | some p => exact tracks_push hm (hps p (List.mem_of_getElem? hp)) hstack
  | unary op =>
      obtain ⟨hunary, hkeyword⟩ := Op.ofUnary_spec op
      rw [Token.of, Evaluator.exec, if_pos hunary]
      cases stack with
      | nil =>
          rw [Evaluator.applyUnary, hkeyword]
          exact tracks_pure (stackGrows_error hm (.refl m))
      | cons f stack =>
          obtain ⟨hf, hstack⟩ := List.forall_mem_cons.mp hstack
          exact tracks_apply (tracks_unary op hm hK hf) hstack
  | binary op =>
      obtain ⟨hbinary, hkeyword⟩ := Op.ofBinary_spec op
      rw [Token.of, Evaluator.exec, if_neg (Bool.eq_false_iff.mp hbinary)]
      rcases stack with _ | ⟨g, _ | ⟨f, stack⟩⟩
      · rw [Evaluator.applyBinary, hkeyword]
        · exact tracks_pure (stackGrows_error hm (.refl m))
        · simp
      · rw [Evaluator.applyBinary, hkeyword]
        · exact tracks_pure (stackGrows_error hm (.refl m))
        · simp
      · obtain ⟨hg, hf, hstack⟩ := by simpa only [List.forall_mem_cons] using hstack
        exact tracks_apply (tracks_binary op hm hK hf hg) hstack

theorem tracks_foldlM_exec (code : List Ctl.Instr) {stack : List Handle} (hm : Sound m)
    (hK : m.Valid K.transitions) (hps : Stored m K.predicates)
    (hstack : ∀ f ∈ stack, m.Valid f) :
    Tracks (code.foldlM K.exec stack).run
      ((code.map Token.of).foldlM (Evaluator.of K).exec stack).run m (StackGrows m) := by
  induction code generalizing m stack with
  | nil => exact tracks_pure (stackGrows_ok hm (.refl m) hstack)
  | cons instr code ih =>
      rw [List.map_cons, List.foldlM_cons, List.foldlM_cons]
      refine tracks_except_bind (tracks_exec stack instr hm hK hps hstack)
        (fun e n h => stackGrows_error h.1.1 h.1.2) fun stack' n ⟨⟨hn, hext⟩, hstack'⟩ => ?_
      refine (ih hn (hext.valid hK) (Stored.of_extends hps hext) (hstack' _ rfl)).mono ?_
      exact fun r o ho => ⟨⟨ho.1.1, hext.trans ho.1.2⟩, ho.2⟩

theorem tracks_evaluate (formula : Ctl.Formula) (hwords : K.encoding.numVars < wordBound)
    (hm : Sound m) (hK : m.Valid K.transitions) (hps : Stored m K.predicates) :
    Tracks (K.evaluate formula).run (evaluate K formula).run m fun _ n => Sound n := by
  unfold Model.evaluate evaluate
  refine tracks_except_check (toNext_eq hwords) (tracks_except_check (vars_eq hwords) ?_)
  refine tracks_except_bind (tracks_foldlM_exec _ hm hK hps (by simp)) (fun _ _ h => h.1.1) ?_
  rintro stack n ⟨⟨hn, -⟩, -⟩
  rcases stack with _ | ⟨f, _ | ⟨g, stack⟩⟩
  · exact tracks_pure hn
  · exact tracks_pure hn
  · exact tracks_pure hn

/-! ## From a table to an outcome -/

theorem tracks_check_start {property : Handle} (hm : Sound m) (hstart : m.Valid K.start)
    (hproperty : m.Valid property) :
    Tracks (K.check property) (check K property) m fun _ n => Sound n := by
  unfold Model.check check
  refine tracks_bind (tracks_disj hm hstart hproperty) fun union n hu => ?_
  refine tracks_bind (tracks_xor hu.sound hu.valid (hu.extends_.valid hproperty)) fun w o hw => ?_
  exact tracks_bind (tracks_record hw.sound _) fun _ _ hr => tracks_pure hr.1

theorem tracks_satCount {k : Nat} (hm : Sound m) (hwf : m.WellFormed) (hf : m.Valid f) :
    Tracks (Diagram.satCount f k) (reads (satCount · f k)) m fun _ n => n = m := by
  have hread : satCount m f k = m.satCount f k := satCount_eq hm.toGrounded hf (hwf.level_pos hf)
  have hend : ∀ {Q : Nat → Manager → Prop}, (∀ c, Q c m) →
      Ends (Diagram.satCount f k) m Q fun _ _ => True := by
    intro Q hQ
    refine ends_bind.mpr (ends_get.mpr (ends_ofExcept.mpr ?_))
    cases m.satCount f k with
    | ok c => exact hQ c
    | error err => trivial
  refine ⟨⟨.inl ?_, hend fun _ => rfl⟩, hend fun _ => rfl⟩
  show (MonadExcept.ofExcept (satCount m f k) : DiagramM Nat) m = _
  rw [hread]
  rfl

theorem tracks_investigate {table : ControlTable}
    {predicates : Except UnfoldError (List Predicate)} (threshold : Nat) (formula : Ctl.Formula)
    (hr : table.InRange) (hscoped : Scoped table e.names.length) (hwords : e.numVars < wordBound)
    (hne : table.isEmpty = false) (hps : ∀ ps, predicates = .ok ps → ∀ p ∈ ps, p.states = .zero)
    (hm : Sound m) (hwf : m.WellFormed) (hvars : e.numVars ≤ m.numVars) :
    Tracks (Session.investigate table e threshold predicates formula).run
      (investigate table e threshold predicates formula).run m fun _ n => Sound n := by
  unfold Session.investigate investigate
  cases predicates with
  | error cause => exact tracks_pure hm
  | ok ps =>
      show Tracks (ExceptT.run (ExceptT.adapt SessionError.unfold
          (Model.unfold table e threshold ps) >>= _))
        (ExceptT.run (ExceptT.adapt SessionError.unfold (unfold table e threshold ps) >>= _)) m _
      refine tracks_except_adapt ((tracks_unfold threshold hr hscoped hwords hne (hps ps rfl) hm
        hwf hvars).and (returns_unfold threshold hr hne (hps ps rfl) hwf hvars))
        (fun _ _ hn => hn.1) ?_
      rintro K m1 ⟨hm1, -, hK⟩
      obtain rfl := hK.encoding_eq
      refine tracks_except_reads (nodeCount_eq hm1.toGrounded hK.transitions.valid) ?_
      refine tracks_except_record hm1 _ fun m2 heq2 hm2 ext2 => ?_
      have hwf2 : m2.WellFormed := heq2 ▸ (m1.alike_journal _).wellFormed hK.wellFormed
      have hvars2 : K.encoding.numVars ≤ m2.numVars := ext2.numVars_eq ▸ hK.vars_le
      refine tracks_except_adapt ((tracks_evaluate formula hwords hm2
        (ext2.valid hK.transitions.valid)
        (Stored.of_extends (valid_of_labelled hK.predicates) ext2)).and
        (returns_evaluate formula (hK.presents.mono ext2 hwf2) hvars2)) (fun _ _ hn => hn.1) ?_
      rintro property m3 ⟨hm3, ⟨ext3, hwf3⟩, t, -, -, hproperty⟩
      have hstart := (hK.start.mono ext2 hK.wellFormed hwf2).mono ext3 hwf2 hwf3
      refine tracks_except_lift ((tracks_check_start hm3 hstart.valid hproperty.valid).and
        (returns_check hwf3 hstart hproperty)) ?_
      rintro _ m4 ⟨hm4, hwf4, verdict, witness, rfl, hwitness, -⟩
      -- the witness is counted over the variables of one state
      refine tracks_except_check (halfWidth_eq hwords) ?_
      refine tracks_except_lift (tracks_satCount hm4 hwf4 hwitness.valid) ?_
      rintro count _ rfl
      refine tracks_except_record hm4 _ fun m5 _ hm5 _ => ?_
      refine tracks_except_get (tracks_except_get ?_)
      exact tracks_except_record hm5 _ fun m6 _ hm6 _ => tracks_pure hm6

end BranchingTime.Guarded
