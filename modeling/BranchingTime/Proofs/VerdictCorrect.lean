import BranchingTime.Session
import BranchingTime.Proofs.Counting
import BranchingTime.Proofs.EvaluationSemantics
import BranchingTime.Proofs.UnfoldingExact

/-!
# Verdicts are right

The transition system of a program has all counters and values as its
states; its steps and labels come from the continuations that the program
reaches (`ControlTable.kripke`). The model that is unfolded presents it,
bits standing for states, so the property that evaluation returns is the
set of the states of the formula. Comparing it with the start states gives
a verdict that answers whether all of them satisfy the formula, and the
rest of a verification only reads the texts and keeps records.
-/

namespace BranchingTime

open Diagram Manager

/-! ## The transition system of a program -/

/-- All states of a program. There is a step where a continuation that is
reached covers the first state, and its step covers the second; a condition
labels the states that a continuation covers at which it is true. -/
def ControlTable.kripke (table : ControlTable) (conditions : List Expr) (numVars : Nat) :
    Ctl.Structure (State numVars) where
  Step s s' := ∃ c, table.Reached numVars c ∧ ∃ next, table.step c = .ok next
    ∧ c.Covers s ∧ next.Covers s'
  Label index s := ∃ condition, conditions[index]? = some condition
    ∧ ∃ c, table.Reached numVars c ∧ condition.evaluate c.binding = .ok (.bool true) ∧ c.Covers s

/-- The bits of a half stand for the states. -/
noncomputable def Encoding.stateEquiv (e : Encoding) : e.Bits ≃ State e.names.length :=
  .ofBijective e.stateOf e.stateOf_bijective

theorem Model.Exact.presents {table : ControlTable} {ps₀ : List Predicate} {K : Model}
    {m : Manager} (h : K.Exact table K.encoding ps₀ m) :
    K.Presents ((table.kripke (ps₀.map Predicate.expr) K.encoding.names.length).comap
      K.encoding.stateEquiv) m where
  wellFormed := h.wellFormed
  transitions := h.transitions
  predicates {index p} hp := by
    obtain ⟨hlt, rfl⟩ := List.getElem?_eq_some_iff.mp hp
    have hlt₀ : index < ps₀.length := h.predicates.length_eq ▸ hlt
    have hcond : (ps₀.map Predicate.expr)[index]? = some ps₀[index].expr := by simp [hlt₀]
    refine (h.predicates.get hlt₀ hlt).states.congr fun a => ?_
    constructor
    · exact fun hlabel => ⟨_, hcond, hlabel⟩
    · rintro ⟨condition, heq, hlabel⟩
      obtain rfl := Option.some.inj (hcond.symm.trans heq)
      exact hlabel

/-! ## Comparing with the start states -/

/-- The verdict that says whether `p`. -/
def Verdict.Answers (v : Verdict) (p : Prop) : Prop :=
  v = .holds ∧ p ∨ v = .notHolds ∧ ¬ p

theorem Verdict.Answers.congr {v : Verdict} {p q : Prop} (h : v.Answers p) (hpq : p ↔ q) :
    v.Answers q :=
  h.imp (And.imp_right hpq.mp) (And.imp_right fun hp hq => hp (hpq.mpr hq))

theorem Verdict.Answers.eq_holds_iff {v : Verdict} {p : Prop} (h : v.Answers p) :
    v = .holds ↔ p := by
  rcases h with ⟨rfl, hp⟩ | ⟨rfl, hp⟩
  · exact iff_of_true rfl hp
  · exact iff_of_false Verdict.noConfusion hp

theorem Verdict.Answers.ne_empty {v : Verdict} {p : Prop} (h : v.Answers p) : v ≠ .empty := by
  rcases h with ⟨rfl, -⟩ | ⟨rfl, -⟩
  · exact Verdict.noConfusion
  · exact Verdict.noConfusion

theorem Verdict.Answers.unique {v v' : Verdict} {p : Prop} (h : v.Answers p)
    (h' : v'.Answers p) : v = v' := by
  rcases h with ⟨rfl, hp⟩ | ⟨rfl, hp⟩
  · exact (h'.eq_holds_iff.mpr hp).symm
  · rcases h' with ⟨rfl, hp'⟩ | ⟨rfl, -⟩
    · exact absurd hp' hp
    · rfl

/-- The verdict answers whether the start states are in the property, and
the witness are those that are not. -/
theorem returns_check {K : Model} {m : Manager} {property : Handle} {φ ψ : Assignment → Prop}
    (hm : m.WellFormed) (hstart : m.Denotes K.start φ) (hproperty : m.Denotes property ψ) :
    Returns (K.check property) m fun outcome m' => m'.WellFormed
      ∧ ∃ verdict witness, outcome = .checked verdict witness K.encoding
        ∧ m'.Denotes witness (fun a => φ a ∧ ¬ ψ a) ∧ verdict.Answers (∀ a, φ a → ψ a) := by
  unfold Model.check
  simp only [ends_bind, ends_record, ends_pure]
  refine Ends.imp (returns_disj hm hstart.valid hproperty.valid) ?_
  intro union m1 y1
  have hproperty1 := hproperty.mono y1.extends_ hm y1.wellFormed
  refine Ends.imp (returns_xor y1.wellFormed y1.valid hproperty1.valid) ?_
  intro witness m2 y2
  have hunion : ∀ a, m1.eval union a = true ↔ φ a ∨ ψ a := fun a => by
    rw [y1.eval_iff, hstart.eval_iff, hproperty.eval_iff]
  have heq : union = property ↔ ∀ a, φ a → ψ a := by
    rw [y1.wellFormed.eq_iff_eval y1.valid hproperty1.valid]
    refine forall_congr' fun a => ?_
    rw [Bool.eq_iff_iff, hunion, hproperty1.eval_iff, or_iff_right_iff_imp]
  have hwitness : m2.Denotes witness fun a => φ a ∧ ¬ ψ a := y2.denotes.congr fun a => by
    rw [Bool.xor_iff_ne, Ne, Bool.eq_iff_iff, hunion, hproperty1.eval_iff]
    tauto
  have hlike := m2.alike_journal (m2.journal.push
    (.verdictReached (if union = property then Verdict.holds else .notHolds).text))
  refine ⟨hlike.wellFormed y2.wellFormed, _, witness, rfl,
    hwitness.mono hlike.extends_ y2.wellFormed (hlike.wellFormed y2.wellFormed), ?_⟩
  split
  · next h => exact .inl ⟨rfl, heq.mp h⟩
  · next h => exact .inr ⟨rfl, fun hall => h (heq.mpr hall)⟩

/-- The formula holds in all states with counter `0`. -/
def Ctl.Tree.HoldsAtStart {numVars : Nat} (t : Ctl.Tree) (K : Ctl.Structure (State numVars)) :
    Prop :=
  ∀ s : State numVars, s.pc.val = 0 → s ∈ t.states K

theorem Ctl.Tree.holdsAtStart_iff {numVars : Nat} {t : Ctl.Tree}
    {K : Ctl.Structure (State numVars)} :
    t.HoldsAtStart K ↔ ∀ values, ⟨0, values⟩ ∈ t.states K := by
  constructor
  · exact fun h values => h ⟨0, values⟩ rfl
  · rintro h ⟨pc, values⟩ hpc
    obtain rfl : pc = 0 := Fin.ext hpc
    exact h values

theorem forall_start_iff (e : Encoding) {t : Ctl.Tree}
    {K : Ctl.Structure (State e.names.length)} :
    (∀ a, (e.stateOf (e.halfOf .current a)).pc = 0 → e.stateOf (e.halfOf .current a) ∈ t.states K)
      ↔ t.HoldsAtStart K := by
  constructor
  · intro h s hpc
    have := h (e.join (e.bitsOfState s) (e.bitsOfState s))
    rw [e.halfOf_current_join, e.stateOf_bitsOfState] at this
    exact this (Fin.ext hpc)
  · exact fun h a hpc => h _ (congrArg Fin.val hpc)

/-! ## From a table to a verdict -/

theorem returns_satCount {m : Manager} {f : Handle} {n : Nat} (hm : m.WellFormed)
    (h : m.Valid f) (hd : DependsOn (m.eval f) {v | v ≤ n}) :
    Returns (Diagram.satCount f n) m fun _ m' => m' = m := by
  obtain ⟨count, hcount⟩ := hm.satCount_returns h hd
  unfold Diagram.satCount
  simp only [ends_bind, ends_get, hcount, ends_ofExcept]

/-- The program has a step wherever it gets. -/
def ControlTable.Goes (table : ControlTable) (numVars : Nat) : Prop :=
  ∀ c, table.Reached numVars c → ∃ next, table.step c = .ok next

/-- An outcome compares the start states with a set of states: its verdict
answers whether they are all in it, and its witness are those that are
not. -/
structure Outcome.Compares (outcome : Outcome) (e : Encoding) (m : Manager)
    (good : Set (State e.names.length)) : Prop where
  wellFormed : m.WellFormed
  checked : ∃ verdict witness, outcome = .checked verdict witness e
    ∧ (m.Denotes witness fun a => (e.stateOf (e.halfOf .current a)).pc = 0
      ∧ e.stateOf (e.halfOf .current a) ∉ good)
    ∧ verdict.Answers (∀ s : State e.names.length, s.pc.val = 0 → s ∈ good)

/-- What an investigation finds: the comparison for the tree of the
formula. It fails for a condition that is none, where a program has no step,
and for a formula that is no tree over the conditions. -/
def Investigated (table : ControlTable) (e : Encoding)
    (predicates : Except UnfoldError (List Predicate)) (formula : Ctl.Formula) (m : Manager) :
    Except SessionError Outcome → Prop
  | .ok outcome => ∃ (ps : List Predicate) (t : Ctl.Tree), predicates = .ok ps
      ∧ t.postorder = formula.code ∧ table.Goes e.names.length
      ∧ outcome.Compares e m (t.states (table.kripke (ps.map Predicate.expr) e.names.length))
  | .error _ => ∀ (ps : List Predicate) (t : Ctl.Tree), predicates = .ok ps →
      t.postorder = formula.code → table.Goes e.names.length →
      ∃ index, .operand index ∈ formula.code ∧ ps.length ≤ index

theorem returns_investigate {table : ControlTable} {e : Encoding} {m : Manager}
    {predicates : Except UnfoldError (List Predicate)} (threshold : Nat) (formula : Ctl.Formula)
    (hr : table.InRange) (hne : table.isEmpty = false)
    (hps : ∀ ps, predicates = .ok ps → ∀ p ∈ ps, p.states = .zero)
    (hm : m.WellFormed) (hvars : e.numVars ≤ m.numVars) :
    Returns (Session.investigate table e threshold predicates formula).run m fun r m' =>
      Investigated table e predicates formula m' r := by
  unfold Session.investigate
  simp only [ends_except_bind, ends_except_adapt, ends_except_ofExcept, ends_except_lift,
    ends_except_record, ends_except_get]
  cases predicates with
  | error cause => exact fun _ _ h => nomatch h
  | ok ps =>
      refine Ends.imp (returns_unfold threshold hr hne (hps ps rfl) hm hvars) ?_
      rintro (err | K) m1 hK
      · obtain ⟨c, hc, hstep⟩ := hK
        intro _ _ _ _ hall
        obtain ⟨next, hnext⟩ := hall c hc
        rw [hstep] at hnext
        cases hnext
      obtain ⟨hgoes, hK⟩ := hK
      obtain rfl := hK.encoding_eq
      have hlike := m1.alike_journal
        (m1.journal.push (.transitionsBuilt (m1.nodeCount K.transitions)))
      have hm2 := hlike.wellFormed hK.wellFormed
      refine Ends.imp (returns_evaluate formula (hK.presents.mono hlike.extends_ hm2) hK.vars_le) ?_
      rintro (err | property) m3 ⟨⟨ext3, hm3⟩, hproperty⟩
      · intro ps' t hps' ht _
        obtain rfl := Except.ok.inj hps'
        obtain ⟨instr, hmem, hno⟩ := hproperty t ht
        simp only [Model.Knows, not_forall] at hno
        obtain ⟨index, rfl, hlt⟩ := hno
        exact ⟨index, hmem, hK.predicates.length_eq ▸ Nat.not_lt.mp hlt⟩
      obtain ⟨t, ht, -, hproperty⟩ := hproperty
      have hstart := (hK.start.mono hlike.extends_ hK.wellFormed hm2).mono ext3 hm2 hm3
      refine Ends.imp (returns_check hm3 hstart hproperty) ?_
      rintro _ m4 ⟨hm4, verdict, witness, rfl, hwitness, hanswers⟩
      simp only [Outcome.witness?, ends_except_bind, ends_except_lift, ends_except_record,
        ends_except_get, ends_except_pure]
      -- the witness is a set of states, so no variable is beyond the counted ones
      have hcounted : DependsOn (m4.eval witness) {v | v ≤ K.encoding.halfWidth} :=
        (Denotes.dependsOn_current (z := {s | (K.encoding.stateOf s).pc = 0 ∧ s ∉ _}) hwitness).mono
          K.encoding.vars_current_le
      refine Ends.imp (returns_satCount hm4 hwitness.valid hcounted) ?_
      rintro count m5 rfl
      rw [Ctl.Structure.states_comap] at hwitness hanswers
      have hlike5 := m5.alike_journal ((m5.journal.push (.violations count)).push
        (.cacheUse m5.cache.hits m5.cache.misses))
      have hm5 := hlike5.wellFormed hm4
      exact ⟨ps, t, rfl, ht, hgoes, hm5, verdict, witness, rfl,
        hwitness.mono hlike5.extends_ hm4 hm5, hanswers.congr (forall_start_iff K.encoding)⟩

/-! ## Reading the texts -/

/-- What the texts of a verification stand for. -/
structure Task where
  program : Program
  table : ControlTable
  conditions : List Expr
  formula : Ctl.Formula

namespace Task

/-- The task that texts are read as. -/
structure ReadFrom (q : Task) (program : String) (conditions : List String) (formula : String) :
    Prop where
  program : Program.parse program = .ok q.program
  table : ControlTable.build q.program.names q.program.statements = .ok q.table
  conditions : List.Forall₂ (fun text e => Expr.compile text q.program.names = .ok e)
    conditions q.conditions
  formula : Ctl.Formula.compile formula = .ok q.formula

/-- The transition system that the formula is about. -/
def system (q : Task) : Ctl.Structure (State q.program.names.length) :=
  q.table.kripke q.conditions q.program.names.length

/-- There is something to check, the program has a step wherever it gets,
and the formula is a tree over the conditions. -/
structure Checkable (q : Task) : Prop where
  names : q.program.names ≠ []
  conditions : q.conditions ≠ []
  table : q.table.isEmpty = false
  steps : ∀ c, q.table.Reached q.program.names.length c → ∃ next, q.table.step c = .ok next
  tree : ∃ t : Ctl.Tree, t.postorder = q.formula.code
  operands : ∀ index, .operand index ∈ q.formula.code → index < q.conditions.length

/-- Texts are read in one way only. -/
theorem ReadFrom.unique {q q' : Task} {program formula : String} {conditions : List String}
    (h : q.ReadFrom program conditions formula) (h' : q'.ReadFrom program conditions formula) :
    q = q' := by
  obtain ⟨p, t, cs, f⟩ := q
  obtain ⟨p', t', cs', f'⟩ := q'
  obtain rfl : p = p' := Except.ok.inj (h.program.symm.trans h'.program)
  obtain rfl : t = t' := Except.ok.inj (h.table.symm.trans h'.table)
  obtain rfl : f = f' := Except.ok.inj (h.formula.symm.trans h'.formula)
  obtain rfl : cs = cs' := List.right_unique_forall₂'
    (fun _ _ _ he he' => Except.ok.inj (he.symm.trans he')) h.conditions h'.conditions
  rfl

theorem ReadFrom.conditions_ne {q : Task} {program formula : String} {conditions : List String}
    (h : q.ReadFrom program conditions formula) (hc : q.Checkable) : conditions ≠ [] := by
  intro hnil
  have hlength := h.conditions.length_eq
  rw [hnil] at hlength
  exact hc.conditions (List.length_eq_zero_iff.mp hlength.symm)

end Task

theorem Predicate.compileAll_spec (names : List String) (first : Nat) (texts : List String) :
    match (Predicate.compileAll names first texts).2 with
    | .ok ps => List.Forall₂ (fun text e => Expr.compile text names = .ok e) texts
          (ps.map Predicate.expr) ∧ ∀ p ∈ ps, p.states = .zero
    | .error _ => ∃ text ∈ texts, ∀ e, Expr.compile text names ≠ .ok e := by
  induction texts generalizing first with
  | nil => exact ⟨.nil, by simp⟩
  | cons text texts ih =>
      cases htext : Expr.compile text names with
      | error cause =>
          simp only [compileAll, compile, htext]
          exact ⟨text, List.mem_cons_self, fun e h => by rw [htext] at h; cases h⟩
      | ok expr =>
          specialize ih (first + 1)
          simp only [compileAll, compile, htext]
          cases hrest : (compileAll names (first + 1) texts).2 with
          | error cause =>
              rw [hrest] at ih
              obtain ⟨text', hmem, hno⟩ := ih
              exact ⟨text', List.mem_cons_of_mem _ hmem, hno⟩
          | ok ps =>
              rw [hrest] at ih
              exact ⟨.cons htext ih.1, List.forall_mem_cons.mpr ⟨rfl, ih.2⟩⟩

/-- The investigation of a task that can be checked does not fail. -/
theorem Task.Checkable.not_investigated_error {q : Task} {program formula : String}
    {conditions : List String} {first : Nat} {err : SessionError} (hc : q.Checkable)
    (hq : q.ReadFrom program conditions formula) {m : Manager} :
    ¬ Investigated q.table ⟨q.program.names⟩
      (Predicate.compileAll q.program.names first conditions).2 q.formula m (.error err) := by
  intro h
  have hspec := Predicate.compileAll_spec q.program.names first conditions
  cases hps : (Predicate.compileAll q.program.names first conditions).2 with
  | error cause =>
      rw [hps] at hspec
      obtain ⟨text, hmem, hno⟩ := hspec
      obtain ⟨i, hi, rfl⟩ := List.mem_iff_getElem.mp hmem
      exact hno _ (hq.conditions.get hi (hq.conditions.length_eq ▸ hi))
  | ok ps =>
      rw [hps] at hspec h
      obtain ⟨t, ht⟩ := hc.tree
      obtain ⟨index, hmem, hle⟩ := h ps t rfl ht hc.steps
      have hlength := hq.conditions.length_eq.symm.trans hspec.1.length_eq
      rw [List.length_map] at hlength
      exact absurd (hc.operands index hmem) (by omega)

/-! ## Endings of sessions -/

section Sessions

variable {α : Type} {s : Session} {E : Failure → Session → Prop}

theorem ends_stage {ε : Type} {failure : ε → Failure} {x : Logged ε α}
    {Q : α → Session → Prop} :
    Ends (Session.stage failure x) s Q E ↔
      Ends x s.journal (fun a journal => Q a { s with journal })
        (fun e journal => E (failure e) { s with journal }) := by
  unfold Ends Session.stage
  cases x s.journal with
  | ok a journal => exact ⟨fun h => h, fun h => h⟩
  | error e journal => exact ⟨fun h => h, fun h => h⟩

theorem ends_session_record {event : Event} {Q : Unit → Session → Prop} :
    Ends (record event : SessionM Unit) s Q E ↔ Q () { s with journal := s.journal.push event } :=
  ends_modify

theorem ends_onManager {m : Manager} {x : ExceptT SessionError DiagramM α}
    {Q : α → Session → Prop} :
    Ends (Session.onManager m x) s Q E ↔
      Ends x.run m (fun r m' => match r with
          | .ok a => Q a { s with manager? := some m', journal := m'.journal }
          | .error e => E (.error e) { s with manager? := some m', journal := m'.journal })
        (fun e m' => E (.fault e) { s with manager? := some m', journal := m'.journal }) := by
  unfold Ends Session.onManager Manager.run
  cases x.run m with
  | ok r m' =>
      cases r with
      | ok a => exact ⟨fun h => h, fun h => h⟩
      | error e => exact ⟨fun h => h, fun h => h⟩
  | error e m' => exact ⟨fun h => h, fun h => h⟩

/-- A stage that only notes its result ends as the result says. -/
theorem ends_noted {ε : Type} {x : Except ε α} {event : α → Event} {journal : Journal} :
    Ends (do let a ← MonadExcept.ofExcept x; record (event a); return a : Logged ε α) journal
      (fun a _ => x = .ok a) (fun e _ => x = .error e) := by
  simp only [ends_bind, ends_ofExcept, ends_logged_record, ends_pure]
  cases x with
  | ok a => rfl
  | error e => rfl

theorem ends_parseLogged {text : String} {journal : Journal} :
    Ends (Program.parseLogged text) journal (fun p _ => Program.parse text = .ok p)
      (fun e _ => Program.parse text = .error e) :=
  ends_noted

theorem ends_compileLogged {text : String} {journal : Journal} :
    Ends (Ctl.Formula.compileLogged text) journal (fun f _ => Ctl.Formula.compile text = .ok f)
      (fun e _ => Ctl.Formula.compile text = .error e) :=
  ends_noted

theorem ends_buildLogged {names statements : List String} {journal : Journal} :
    Ends (ControlTable.buildLogged names statements) journal
      (fun t _ => ControlTable.build names statements = .ok t)
      (fun e _ => ControlTable.build names statements = .error e) := by
  have hbuild : ControlTable.build names statements
      = (Block.parse names statements).bind (ControlTable.ofBlock? names.length) := rfl
  unfold ControlTable.buildLogged
  rw [hbuild]
  cases Block.parse names statements with
  | error e =>
      simp only [ends_bind, ends_logged_record, ends_throw]
      rfl
  | ok block => exact ends_noted

theorem ends_decodeLogged {e : Encoding} {text : String} {limit : Nat} {journal : Journal} :
    Ends (e.decodeLogged text limit) journal (fun texts _ => e.decode text limit = .ok texts)
      (fun cause _ => e.decode text limit = .error cause) := by
  unfold Encoding.decodeLogged Encoding.decode
  cases readCubes e.halfWidth text with
  | error cause => exact ends_throw.mpr rfl
  | ok cubes => exact ends_bind.mpr (ends_logged_record.mpr (ends_pure.mpr rfl))

theorem ends_start {numVars cacheBits : Nat} {journal : Journal} :
    Ends (Manager.start numVars cacheBits) journal
      (fun m _ => m.WellFormed ∧ m.numVars = numVars) (fun _ _ => 31 < cacheBits) := by
  unfold Manager.start
  simp only [ends_bind, ends_ofExcept, ends_logged_record, ends_get, ends_pure]
  cases h : Manager.new? numVars cacheBits with
  | ok m =>
      obtain ⟨hm, hn⟩ := wellFormed_new? h
      exact ⟨(m.alike_journal _).wellFormed hm, hn⟩
  | error e =>
      by_contra hbits
      rw [new?_eq_ok_iff.mpr ⟨Nat.not_lt.mp hbits, rfl⟩] at h
      cases h

/-- The verdict on the task that texts are read as, or that nothing is there
to check. -/
def Concludes (program : String) (conditions : List String) (formula : String) (v : Verdict) :
    Prop :=
  (v = .empty ∧ ∀ q : Task, q.ReadFrom program conditions formula → ¬ q.Checkable)
    ∨ ∃ (q : Task) (t : Ctl.Tree), q.ReadFrom program conditions formula
      ∧ t.postorder = q.formula.code ∧ v.Answers (t.HoldsAtStart q.system)

/-- A verification fails on tasks that cannot be checked only, or for the
size of the cache. -/
def Excused (program : String) (conditions : List String) (formula : String) (cacheBits : Nat) :
    Prop :=
  ∀ q : Task, q.ReadFrom program conditions formula → q.Checkable → 31 < cacheBits

/-- The session has settled a task: its program goes on wherever it gets,
and the start states were compared with the states of the formula. -/
structure Task.Settled (q : Task) (t : Ctl.Tree) (v : Verdict) (s : Session) : Prop where
  tree : t.postorder = q.formula.code
  goes : q.table.Goes q.program.names.length
  compared : ∃ m outcome, s.manager? = some m ∧ s.verifier.outcome? = some outcome
    ∧ outcome.verdict = v ∧ outcome.Compares ⟨q.program.names⟩ m (t.states q.system)

/-- What is left after a verdict: nothing was there to check, or the task
that the texts are read as is settled. -/
def Leaves (program : String) (conditions : List String) (formula : String) (v : Verdict)
    (s : Session) : Prop :=
  (v = .empty ∧ s.verifier.outcome? = some .empty
      ∧ ∀ q : Task, q.ReadFrom program conditions formula → ¬ q.Checkable)
    ∨ ∃ (q : Task) (t : Ctl.Tree), q.ReadFrom program conditions formula ∧ q.Settled t v s

/-- What is left after a failure: no outcome. -/
structure Fails (program : String) (conditions : List String) (formula : String)
    (cacheBits : Nat) (e : Failure) (s : Session) : Prop where
  outcome : s.verifier.outcome? = none
  excused : Excused program conditions formula cacheBits
  fault : ∀ cause, e = .fault cause → 31 < cacheBits

/-- A verification changes no settings, and shows examples as these say. -/
structure Session.Renews (s s' : Session) : Prop where
  settings_eq : s'.settings = s.settings
  maxExamples_eq : s'.verifier.maxExamples = s.settings.maxExamples

theorem Task.Settled.answers {q : Task} {t : Ctl.Tree} {v : Verdict} (h : q.Settled t v s) :
    v.Answers (t.HoldsAtStart q.system) := by
  obtain ⟨m, outcome, -, -, rfl, -, verdict, witness, rfl, -, hanswers⟩ := h.compared
  exact hanswers

theorem Leaves.concludes {program formula : String} {conditions : List String} {v : Verdict}
    (h : Leaves program conditions formula v s) : Concludes program conditions formula v := by
  rcases h with ⟨hv, -, hno⟩ | ⟨q, t, hq, ht⟩
  · exact .inl ⟨hv, hno⟩
  · exact .inr ⟨q, t, hq, ht.tree, ht.answers⟩

theorem returns_recordEmpty {program formula : String} {conditions : List String}
    (s₀ : Session) (hs : s₀.Renews s)
    (h : ∀ q : Task, q.ReadFrom program conditions formula → ¬ q.Checkable) :
    Returns Session.recordEmpty s fun v s' =>
      s₀.Renews s' ∧ Leaves program conditions formula v s' := by
  unfold Session.recordEmpty Verifier.recordEmpty
  simp only [ends_bind, ends_get, ends_session_record, ends_modify, ends_pure]
  exact ⟨⟨hs.settings_eq, hs.maxExamples_eq⟩, .inl ⟨rfl, rfl, h⟩⟩

theorem ends_run (program : String) (conditions : List String) (formula : String) :
    Ends (Session.run program conditions formula) s
      (fun v s' => s.Renews s' ∧ Leaves program conditions formula v s')
      (fun e s' => s.Renews s' ∧ Fails program conditions formula s.settings.cacheBits e s') := by
  unfold Session.run
  simp only [ends_bind, ends_modify, ends_stage]
  refine Ends.mono ends_parseLogged ?_ (fun _ _ hp => ⟨⟨rfl, rfl⟩, rfl,
    fun q hq _ => (nomatch hp.symm.trans hq.program), fun _ => nofun⟩)
  intro p journal1 hp
  -- any task that the texts are read as has the program, the table and the code found on the way
  have hprogram : ∀ {q : Task}, q.ReadFrom program conditions formula → q.program = p :=
    fun hq => Except.ok.inj (hq.program.symm.trans hp)
  refine Ends.mono ends_compileLogged ?_ (fun _ _ hf => ⟨⟨rfl, rfl⟩, rfl,
    fun q hq _ => (nomatch hf.symm.trans hq.formula), fun _ => nofun⟩)
  intro f journal2 hf
  split
  · next hempty =>
      refine (returns_recordEmpty s (by exact ⟨rfl, rfl⟩) fun q hq hc => ?_).ends fun _ _ h => h
      obtain rfl := hprogram hq
      simp [hc.names, hq.conditions_ne hc] at hempty
  simp only [ends_bind, ends_stage, ends_session_record]
  refine Ends.mono ends_buildLogged ?_ (fun _ _ hno => ⟨⟨rfl, rfl⟩, rfl, fun q hq _ => ?_,
    fun _ => nofun⟩)
  · intro table journal3 htable
    have hbuilt : ∀ {q : Task}, q.ReadFrom program conditions formula → q.table = table :=
      fun hq => Except.ok.inj (hq.table.symm.trans (hprogram hq ▸ htable))
    split
    · next hempty =>
        refine (returns_recordEmpty s (by exact ⟨rfl, rfl⟩) fun q hq hc => ?_).ends fun _ _ h => h
        obtain rfl := hbuilt hq
        exact Bool.eq_false_iff.mp hc.table hempty
    next hne =>
    simp only [ends_bind, ends_get, ends_stage, ends_modify, ends_onManager, ends_pure]
    refine Ends.mono ends_start ?_ (fun _ _ hbits => ⟨⟨rfl, rfl⟩, rfl, fun _ _ _ => hbits,
      fun _ _ => hbits⟩)
    rintro m journal4 ⟨hm, hn⟩
    have hspec := Predicate.compileAll_spec p.names s.nextId conditions
    refine Ends.mono (returns_investigate _ f (ControlTable.inRange_of_build htable)
      (Bool.eq_false_iff.mpr hne) (fun ps hps => ?_) hm hn.ge) ?_ (fun _ _ h => h.elim)
    · rw [hps] at hspec
      exact hspec.2
    rintro (err | outcome) m5 h5
    · refine ⟨⟨rfl, rfl⟩, rfl, fun q hq hc => ?_, fun _ => nofun⟩
      obtain rfl := hprogram hq
      obtain rfl := hbuilt hq
      obtain rfl := Except.ok.inj (hq.formula.symm.trans hf)
      exact (hc.not_investigated_error hq h5).elim
    · obtain ⟨ps, t, hps, ht, hgoes, hcompares⟩ := h5
      rw [hps] at hspec
      exact ⟨⟨rfl, rfl⟩, .inr ⟨⟨p, table, ps.map Predicate.expr, f⟩, t,
        ⟨hp, htable, hspec.1, hf⟩, ht, hgoes, m5, outcome, rfl, rfl, rfl, hcompares⟩⟩
  · obtain rfl := hprogram hq
    exact nomatch hno.symm.trans hq.table

/-- The report of a failure only adds to the journal. -/
theorem ends_verify_of_run {program formula : String} {conditions : List String}
    {Q : Verdict → Session → Prop} (h : Ends (Session.run program conditions formula) s Q E)
    (hE : ∀ e s' journal, E e s' → E e { s' with journal }) :
    Ends (Session.verify program conditions formula) s Q E := by
  unfold Ends Session.verify at *
  cases hrun : Session.run program conditions formula s with
  | ok v s' =>
      rw [hrun] at h
      exact h
  | error e s' =>
      rw [hrun] at h
      cases e with
      | error cause => exact hE _ _ _ h
      | fault cause => exact h

theorem ends_verify_session (program : String) (conditions : List String) (formula : String) :
    Ends (Session.verify program conditions formula) s
      (fun v s' => s.Renews s' ∧ Leaves program conditions formula v s')
      (fun e s' => s.Renews s' ∧ Fails program conditions formula s.settings.cacheBits e s') := by
  refine ends_verify_of_run (ends_run program conditions formula) ?_
  intro e s' journal ⟨hrenews, hfails⟩
  exact ⟨⟨hrenews.settings_eq, hrenews.maxExamples_eq⟩, hfails.outcome, hfails.excused,
    hfails.fault⟩

theorem ends_verify (program : String) (conditions : List String) (formula : String) :
    Ends (Session.verify program conditions formula) s
      (fun v _ => Concludes program conditions formula v)
      (fun _ _ => Excused program conditions formula s.settings.cacheBits) :=
  (ends_verify_session program conditions formula).mono (fun _ _ h => h.2.concludes)
    fun _ _ h => h.2.excused

/-- A task that can be checked is settled. -/
theorem Task.Checkable.exists_settled {q : Task} {program formula : String}
    {conditions : List String} (hc : q.Checkable) (hq : q.ReadFrom program conditions formula)
    (hbits : s.settings.cacheBits ≤ 31) :
    ∃ v s' t, Session.verify program conditions formula s = .ok v s' ∧ q.Settled t v s' := by
  have hreturns : Returns (Session.verify program conditions formula) s _ :=
    (ends_verify_session program conditions formula).mono (fun _ _ h => h.2) fun _ _ hfails =>
      absurd (hfails.2.excused q hq hc) (Nat.not_lt.mpr hbits)
  obtain ⟨v, s', hrun, ⟨-, -, hno⟩ | ⟨q', t, hq', hsettled⟩⟩ := hreturns.exists_ok
  · exact absurd hc (hno q hq)
  · obtain rfl := hq.unique hq'
    exact ⟨v, s', t, hrun, hsettled⟩

end Sessions

/-! ## The verdict of a session -/

/-- A verdict says whether the formula holds wherever the program can start,
whatever values its variables have then; the formula and the transition
system are those that the texts are read as. There is a verdict on every
task that can be checked. -/
theorem Session.verify_correct (program : String) (conditions : List String) (formula : String)
    (s : Session) :
    (∀ v s', Session.verify program conditions formula s = .ok v s' →
      v = .holds ∨ v = .notHolds →
      ∃ q : Task, q.ReadFrom program conditions formula
        ∧ ∃! t : Ctl.Tree, t.postorder = q.formula.code
          ∧ (v = .holds ↔ ∀ values, ⟨0, values⟩ ∈ t.states q.system))
    ∧ (∀ q : Task, q.ReadFrom program conditions formula → q.Checkable →
      s.settings.cacheBits ≤ 31 →
      ∃ v s', Session.verify program conditions formula s = .ok v s'
        ∧ (v = .holds ∨ v = .notHolds)) := by
  have hends := ends_verify (s := s) program conditions formula
  constructor
  · intro v s' hrun hv
    rcases hends.of_ok hrun with ⟨rfl, -⟩ | ⟨q, t, hq, ht, hanswers⟩
    · simp at hv
    · refine ⟨q, hq, t, ⟨ht, hanswers.eq_holds_iff.trans Ctl.Tree.holdsAtStart_iff⟩, fun u hu => ?_⟩
      exact Ctl.Tree.postorder_injective (hu.1.trans ht.symm)
  · intro q hq hc hbits
    have hreturns : Returns (Session.verify program conditions formula) s _ :=
      hends.mono (fun _ _ h => h) fun _ _ hno => absurd (hno q hq hc) (Nat.not_lt.mpr hbits)
    obtain ⟨v, s', hrun, ⟨rfl, hno⟩ | ⟨_, _, _, _, hanswers⟩⟩ := hreturns.exists_ok
    · exact absurd hc (hno q hq)
    · exact ⟨v, s', hrun, hanswers.imp And.left And.left⟩

/-- The program that assigns `1`: from every start it goes on to a state
with that value. -/
theorem Session.verify_correct_assign : ∃ s',
    Session.verify "int x; x = 1;" ["x == 1"] "EX 0" (Session.new ⟨4, 0, 1⟩)
      = .ok .holds s' := by
  let condition : Expr := ⟨"x == 1", [.var 0 "x", .num 1, .binary .eq]⟩
  let table : ControlTable :=
    ⟨[⟨0, [.undefined], [.expr "1"], 1, .assign 0 ⟨"1", [.num 1]⟩⟩]⟩
  let q : Task := ⟨⟨["x"], ["x = 1"]⟩, table, [condition], ⟨"EX 0", [.operand 0, .unary .ex]⟩⟩
  let t : Ctl.Tree := .unary .ex (.operand 0)
  have hq : q.ReadFrom "int x; x = 1;" ["x == 1"] "EX 0" :=
    ⟨by decide +kernel, by decide +kernel, .cons (by decide +kernel) .nil, by decide +kernel⟩
  have hstep : table.step (.start 1) = .ok ⟨1, [some 1]⟩ := rfl
  have hc : q.Checkable := by
    refine ⟨by simp [q], by simp [q], rfl, fun c _ => ?_, ⟨t, rfl⟩, by simp [q]⟩
    rcases c with ⟨_ | pc, binding⟩
    · exact ⟨_, rfl⟩
    · exact ⟨⟨pc + 1, binding⟩, by simp [q, table, ControlTable.step, ControlTable.entry?]⟩
  have hholds : ∀ values, ⟨0, values⟩ ∈ t.states q.system := by
    intro values
    have hreached : table.Reached 1 ⟨1, [some 1]⟩ :=
      .tail .refl (.step rfl (fun _ => Action.noConfusion) hstep)
    have hcovers : Continuation.Covers ⟨1, [some 1]⟩ (⟨1, fun _ => 1⟩ : State 1) := by
      refine ⟨rfl, fun i value hi => ?_⟩
      obtain rfl : i = 0 := Subsingleton.elim i 0
      exact Option.some.inj (Option.some.inj hi)
    refine ⟨⟨1, fun _ => 1⟩, ⟨.start 1, .refl, _, hstep, ?_, hcovers⟩, condition, rfl, _, hreached,
      ?_, hcovers⟩
    · exact Continuation.covers_start.mpr rfl
    · rfl
  obtain ⟨hsound, hcomplete⟩ := Session.verify_correct "int x; x = 1;" ["x == 1"] "EX 0"
    (Session.new ⟨4, 0, 1⟩)
  obtain ⟨v, s', hrun, hv⟩ := hcomplete q hq hc (by decide)
  obtain ⟨q', hq', u, ⟨hu, hiff⟩, -⟩ := hsound v s' hrun hv
  obtain rfl := hq.unique hq'
  obtain rfl : u = t := Ctl.Tree.postorder_injective hu
  exact ⟨s', hiff.mpr hholds ▸ hrun⟩

/-! ## A program that assigns -/

/-- Formulas over `x == 1` and the program that assigns `1`. -/
def Task.assignOne (formula : Ctl.Formula) : Task where
  program := ⟨["x"], ["x = 1"]⟩
  table := ⟨[⟨0, [.undefined], [.expr "1"], 1, .assign 0 ⟨"1", [.num 1]⟩⟩]⟩
  conditions := [⟨"x == 1", [.var 0 "x", .num 1, .binary .eq]⟩]
  formula := formula

namespace Task

variable {formula : Ctl.Formula} {c : Continuation}

theorem assignOne_readFrom {text : String} (h : Ctl.Formula.compile text = .ok formula) :
    (assignOne formula).ReadFrom "int x; x = 1;" ["x == 1"] text where
  program := by
    dsimp only [assignOne]
    decide +kernel
  table := by
    dsimp only [assignOne]
    decide +kernel
  conditions := by
    refine .cons ?_ .nil
    dsimp only [assignOne]
    decide +kernel
  formula := h

/-- The program starts and ends. -/
theorem assignOne_reached (h : (assignOne formula).table.Reached 1 c) :
    c = .start 1 ∨ c = ⟨1, [some 1]⟩ := by
  induction h with
  | refl => exact .inl rfl
  | tail _ hl ih =>
      rcases ih with rfl | rfl
      · cases hl with
        | step _ _ h => exact .inr (Except.ok.inj h).symm
        | read value he hact =>
            cases he
            cases hact
      · cases hl with
        | step he => cases he
        | read value he => cases he

theorem assignOne_checkable {t : Ctl.Tree} (ht : t.postorder = formula.code)
    (hoperands : ∀ index, .operand index ∈ formula.code → index < 1) :
    (assignOne formula).Checkable where
  names := List.cons_ne_nil _ _
  conditions := List.cons_ne_nil _ _
  table := rfl
  steps c hc := by
    rcases assignOne_reached hc with rfl | rfl
    · exact ⟨_, rfl⟩
    · exact ⟨_, rfl⟩
  tree := ⟨t, ht⟩
  operands := hoperands

end Task

end BranchingTime
