import BranchingTime.Proofs.VerdictCorrect

/-!
# What a verification fails with

No diagram is needed to tell the error that a verification ends in.
`Session.diagnose` finds it in the texts: it reads them in the same order,
searches the program for a step that fails with the visited set and the
work-list only, and runs the code of the formula on heights of the stack. Each
stage of a verification is shown to fail as its diagnosis does, whatever the
manager is; faults are left aside here, as they are dealt with elsewhere.
-/

namespace BranchingTime

open Diagram

/-! ## The search of a program -/

/-- What an unfolding has found and has yet to expand. -/
structure Frontier where
  visited : Std.HashSet Continuation
  worklist : List Continuation

/-- Adds a continuation unless it was found before. -/
def Frontier.visit (f : Frontier) (c : Continuation) : Frontier :=
  if f.visited.contains c then f
  else { f with visited := f.visited.insert c, worklist := c :: f.worklist }

/-- Expands continuations, at most `fuel` many, as long as they have a
step. -/
def ControlTable.explore (table : ControlTable) : Nat → Frontier → Except UnfoldError Unit
  | 0, _ => .ok ()
  | fuel + 1, f =>
    match f.worklist with
    | [] => .ok ()
    | c :: rest => do
      let next ← table.step c
      explore table fuel
        ((table.successors c next).foldl Frontier.visit { f with worklist := rest })

/-- Fails with the first step that fails. -/
def ControlTable.checkSteps (table : ControlTable) (e : Encoding) : Except UnfoldError Unit :=
  table.explore (Unfolding.continuationBound e + 1)
    (Frontier.visit ⟨∅, []⟩ (.start e.names.length))

section Unfolding

variable {t : Unfolding} {m : Manager} {c : Continuation}

/-- The part of the progress that no diagram plays a part in. -/
def Progress.frontier (p : Progress) : Frontier := ⟨p.visited, p.worklist⟩

theorem Progress.frontier_foldl_visit (l : List Continuation) (p : Progress) :
    (l.foldl visit p).frontier = l.foldl Frontier.visit p.frontier
      ∧ (l.foldl visit p).predicates.length = p.predicates.length := by
  induction l generalizing p with
  | nil => exact ⟨rfl, rfl⟩
  | cons c l ih =>
      have hvisit : (p.visit c).frontier = p.frontier.visit c
          ∧ (p.visit c).predicates.length = p.predicates.length := by
        by_cases hfound : p.visited.contains c = true
        · simp [visit, Frontier.visit, frontier, hfound]
        · simp [visit, Frontier.visit, frontier, hfound]
      obtain ⟨hfrontier, hlength⟩ := ih (p.visit c)
      rw [List.foldl_cons, List.foldl_cons, hfrontier, hlength, hvisit.1, hvisit.2]
      exact ⟨rfl, rfl⟩

theorem ends_label_length (built? : Option Handle) (ps : List Predicate) :
    Ends (t.label c built? ps) m (fun ps' _ => ps'.length = ps.length) (fun _ _ => True) := by
  induction ps generalizing m built? with
  | nil => exact ends_pure.mpr rfl
  | cons p ps ih =>
      rw [Unfolding.label]
      split
      · cases built? with
        | none =>
            simp only [ends_bind, ends_pure]
            refine ends_true.imp fun state m1 _ => ends_true.imp fun states m2 _ => ?_
            exact (ih (some state)).imp fun ps' _ h => congrArg (· + 1) h
        | some state =>
            simp only [ends_bind, ends_pure]
            refine ends_true.imp fun states m2 _ => ?_
            exact (ih (some state)).imp fun ps' _ h => congrArg (· + 1) h
      · simp only [ends_bind, ends_pure]
        exact (ih built?).imp fun ps' _ h => congrArg (· + 1) h

theorem ends_tidy_frontier (p : Progress) :
    Ends (t.tidy p) m (fun p' _ => p'.frontier = p.frontier
      ∧ p'.predicates.length = p.predicates.length) (fun _ _ => True) := by
  unfold Unfolding.tidy
  simp only [ends_bind, ends_get]
  split
  · exact ends_pure.mpr ⟨rfl, rfl⟩
  · refine ends_bind.mpr (ends_true.imp fun dropped m1 _ => ?_)
    simp only [ends_bind, ends_get]
    split
    · exact ends_pure.mpr ⟨rfl, rfl⟩
    · exact ends_bind.mpr (ends_record.mpr (ends_pure.mpr ⟨rfl, rfl⟩))

theorem ends_expand_frontier (p : Progress) :
    Ends (t.expand p c).run m (fun r _ =>
      r.map (fun p' => (p'.frontier, p'.predicates.length))
        = (t.table.step c).map fun next =>
          ((t.table.successors c next).foldl Frontier.visit p.frontier, p.predicates.length))
      (fun _ _ => True) := by
  unfold Unfolding.expand
  simp only [ends_except_bind, ends_except_lift, ends_except_ofExcept]
  refine (ends_label_length none p.predicates).imp fun predicates m1 hpredicates => ?_
  cases hstep : t.table.step c with
  | error err => rfl
  | ok next =>
      refine ends_true.imp fun edge m2 _ => ends_true.imp fun transitions m3 _ => ?_
      refine (ends_tidy_frontier _).imp fun p' m4 htidy => ?_
      obtain ⟨hfrontier, hlength⟩ := Progress.frontier_foldl_visit (t.table.successors c next)
        { p with transitions, predicates, expanded := p.expanded + 1 }
      simp only [Except.map, htidy.1, htidy.2, hfrontier, hlength, hpredicates]
      rfl

theorem ends_runWithin_explore (fuel : Nat) (p : Progress) :
    Ends (t.runWithin fuel p).run m (fun r _ => r.map (fun p' => p'.predicates.length)
      = (t.table.explore fuel p.frontier).map fun _ => p.predicates.length)
      (fun _ _ => True) := by
  induction fuel generalizing p m with
  | zero => exact ends_throw.mpr trivial
  | succ fuel ih =>
      rw [Unfolding.runWithin, ControlTable.explore]
      cases hp : p.worklist with
      | nil =>
          simp only [Progress.frontier, hp]
          exact ends_except_pure.mpr rfl
      | cons c rest =>
          simp only [Progress.frontier, hp]
          refine ends_except_bind.mpr ((ends_expand_frontier { p with worklist := rest }).imp ?_)
          intro r m1 hexpand
          cases hstep : t.table.step c with
          | error err =>
              rw [hstep] at hexpand
              cases r with
              | error err' =>
                  obtain rfl := Except.error.inj hexpand
                  rfl
              | ok p' => cases hexpand
          | ok next =>
              rw [hstep] at hexpand
              cases r with
              | error err => cases hexpand
              | ok p' =>
                  obtain ⟨hfrontier, hlength⟩ := Prod.mk.inj (Except.ok.inj hexpand)
                  refine (ih p').imp fun r' _ h => ?_
                  rw [h, hfrontier, hlength]
                  rfl

theorem ends_unfold_steps {table : ControlTable} {e : Encoding} (threshold : Nat)
    (ps : List Predicate) (hne : table.isEmpty = false) :
    Ends (Model.unfold table e threshold ps).run m (fun r _ =>
      r.map (fun K => K.predicates.length) = (table.checkSteps e).map fun _ => ps.length)
      (fun _ _ => True) := by
  unfold Model.unfold
  simp only [hne, Bool.false_eq_true, if_false, ends_except_bind, ends_except_lift]
  refine ends_true.imp fun start m1 _ => ?_
  refine (ends_runWithin_explore _ _).imp fun r m2 h => ?_
  obtain ⟨hfrontier, hlength⟩ := Progress.frontier_foldl_visit [.start e.names.length]
    ⟨.zero, ps, ∅, [], threshold, 0⟩
  simp only [List.foldl_cons, List.foldl_nil] at hfrontier hlength
  rw [hfrontier, hlength] at h
  cases r with
  | error err => exact h
  | ok p =>
      simp only [ends_except_record, ends_except_get, ends_except_pure]
      exact h

end Unfolding

/-! ## The heights of the stack -/

/-- The height of the stack after an instruction, where there are so many
operands. -/
def Ctl.Instr.height (operands : Nat) : Nat → Instr → Except CtlError Nat
  | height, .operand index =>
    if index < operands then .ok (height + 1) else .error (.operandOutOfRange index operands)
  | height + 1, .unary _ => .ok (height + 1)
  | 0, .unary op => .error (.stackUnderflow op.keyword)
  | height + 2, .binary _ => .ok (height + 1)
  | _, .binary op => .error (.stackUnderflow op.keyword)

/-- Fails where the code is not that of a formula over so many operands. -/
def Ctl.Formula.checkCode (operands : Nat) (formula : Formula) : Except CtlError Unit := do
  match ← formula.code.foldlM (Instr.height operands) 0 with
  | 1 => return ()
  | height => throw (.leftover height)

section Evaluation

variable {K : Model} {m : Manager}

theorem ends_exec_height (stack : List Handle) (instr : Ctl.Instr) :
    Ends (K.exec stack instr).run m (fun r _ => r.map List.length
      = Ctl.Instr.height K.predicates.length stack.length instr) (fun _ _ => True) := by
  cases instr with
  | operand index =>
      rw [Model.exec, Ctl.Instr.height]
      cases hp : K.predicates[index]? with
      | some p =>
          rw [if_pos (List.getElem?_eq_some_iff.mp hp).1]
          exact ends_except_pure.mpr rfl
      | none =>
          rw [if_neg (Nat.not_lt.mpr (List.getElem?_eq_none_iff.mp hp))]
          exact ends_except_throw.mpr rfl
  | unary op =>
      cases stack with
      | nil => exact ends_except_throw.mpr rfl
      | cons f stack =>
          rw [Model.exec]
          refine ends_except_bind.mpr (ends_except_lift.mpr (ends_true.imp fun f' m1 _ => ?_))
          exact ends_except_pure.mpr rfl
  | binary op =>
      rcases stack with _ | ⟨g, _ | ⟨f, stack⟩⟩
      · exact ends_except_throw.mpr rfl
      · exact ends_except_throw.mpr rfl
      · rw [Model.exec]
        refine ends_except_bind.mpr (ends_except_lift.mpr (ends_true.imp fun f' m1 _ => ?_))
        exact ends_except_pure.mpr rfl

theorem ends_foldlM_exec_height (code : List Ctl.Instr) (stack : List Handle) :
    Ends (code.foldlM K.exec stack).run m (fun r _ => r.map List.length
      = code.foldlM (Ctl.Instr.height K.predicates.length) stack.length) (fun _ _ => True) := by
  induction code generalizing stack m with
  | nil => exact ends_except_pure.mpr rfl
  | cons instr code ih =>
      rw [List.foldlM_cons, List.foldlM_cons]
      refine ends_except_bind.mpr ((ends_exec_height stack instr).imp fun r m1 h => ?_)
      rw [← h]
      cases r with
      | error err => rfl
      | ok stack' => exact ih stack'

theorem ends_evaluate_code (formula : Ctl.Formula) :
    Ends (K.evaluate formula).run m (fun r _ => r.map (fun _ => ())
      = formula.checkCode K.predicates.length) (fun _ _ => True) := by
  unfold Model.evaluate Ctl.Formula.checkCode
  refine ends_except_bind.mpr ((ends_foldlM_exec_height formula.code []).imp fun r m1 h => ?_)
  rw [← List.length_nil, ← h]
  cases r with
  | error err => rfl
  | ok stack =>
      rcases stack with _ | ⟨f, _ | ⟨g, stack⟩⟩
      · exact ends_except_throw.mpr rfl
      · exact ends_except_pure.mpr rfl
      · exact ends_except_throw.mpr rfl

end Evaluation

/-! ## The errors of a verification -/

/-- The numbers of predicates play no part in compiling them. -/
theorem Predicate.length_compileAll (names : List String) (first first' : Nat)
    (texts : List String) :
    (compileAll names first texts).2.map List.length
      = (compileAll names first' texts).2.map List.length := by
  induction texts generalizing first first' with
  | nil => rfl
  | cons text texts ih =>
      specialize ih (first + 1) (first' + 1)
      cases htext : Expr.compile text names with
      | error cause => simp only [compileAll, compile, htext]
      | ok expr =>
          simp only [compileAll, compile, htext]
          cases hrest : (compileAll names (first + 1) texts).2 with
          | error cause =>
              cases hrest' : (compileAll names (first' + 1) texts).2 with
              | error cause' =>
                  rw [hrest, hrest'] at ih
                  exact ih
              | ok ps' =>
                  rw [hrest, hrest'] at ih
                  cases ih
          | ok ps =>
              cases hrest' : (compileAll names (first' + 1) texts).2 with
              | error cause' =>
                  rw [hrest, hrest'] at ih
                  cases ih
              | ok ps' =>
                  rw [hrest, hrest'] at ih
                  exact congrArg (fun n => Except.ok (n + 1)) (Except.ok.inj ih)

/-- The error of an investigation, as far as the texts are to blame. -/
def ControlTable.diagnose (table : ControlTable) (e : Encoding)
    (operands : Except UnfoldError Nat) (formula : Ctl.Formula) : Except SessionError Unit := do
  let operands ← operands.mapError .unfold
  (table.checkSteps e).mapError .unfold
  (formula.checkCode operands).mapError .ctl

theorem ends_check_verdict {K : Model} {property : Handle} {m : Manager} :
    Ends (K.check property) m (fun outcome _ => outcome.verdict ≠ .empty) (fun _ _ => True) := by
  unfold Model.check
  simp only [ends_bind, ends_record, ends_pure]
  refine ends_true.imp fun union m1 _ => ends_true.imp fun witness m2 _ => ?_
  show (if union = property then Verdict.holds else .notHolds) ≠ .empty
  split
  · exact Verdict.noConfusion
  · exact Verdict.noConfusion

theorem ends_investigate_diagnose {table : ControlTable} {e : Encoding} {m : Manager}
    (threshold : Nat) (predicates : Except UnfoldError (List Predicate)) (formula : Ctl.Formula)
    (hne : table.isEmpty = false) :
    Ends (Session.investigate table e threshold predicates formula).run m (fun r _ =>
      r.map (fun outcome => decide (outcome.verdict ≠ .empty))
        = (table.diagnose e (predicates.map List.length) formula).map fun _ => true)
      (fun _ _ => True) := by
  unfold Session.investigate
  simp only [ends_except_bind, ends_except_adapt, ends_except_ofExcept, ends_except_lift,
    ends_except_record, ends_except_get]
  cases predicates with
  | error cause => rfl
  | ok ps =>
      have hdiagnose : table.diagnose e ((Except.ok ps).map List.length) formula
          = (table.checkSteps e).mapError .unfold >>= fun _ =>
            (formula.checkCode ps.length).mapError .ctl := rfl
      refine (ends_unfold_steps threshold ps hne).imp fun r m1 hsteps => ?_
      cases hcheck : table.checkSteps e with
      | error cause =>
          rw [hcheck] at hsteps hdiagnose
          cases r with
          | error cause' =>
              obtain rfl := Except.error.inj hsteps
              rw [hdiagnose]
              rfl
          | ok K => cases hsteps
      | ok _ =>
          rw [hcheck] at hsteps hdiagnose
          cases r with
          | error cause => cases hsteps
          | ok K =>
              have hlength : K.predicates.length = ps.length := Except.ok.inj hsteps
              refine (ends_evaluate_code formula).imp fun r m2 hcode => ?_
              rw [hlength] at hcode
              rw [← hcode] at hdiagnose
              rw [hdiagnose]
              cases r with
              | error cause => rfl
              | ok property =>
                  refine ends_check_verdict.imp fun outcome m3 houtcome => ?_
                  have hend := congrArg (Except.ok (ε := SessionError)) (decide_eq_true houtcome)
                  split
                  · simp only [ends_except_bind, ends_except_lift, ends_except_record,
                      ends_except_get, ends_except_pure]
                    exact ends_true.imp fun _ _ _ => hend
                  · simp only [ends_except_bind, ends_except_record, ends_except_get,
                      ends_except_pure]
                    exact hend

/-- Whether there is anything to check about a program, or the error that
keeps it from being checked. -/
def Program.diagnose (p : Program) (conditions : List String) (formula : Ctl.Formula) :
    Except SessionError Bool := do
  if p.names.isEmpty || conditions.isEmpty then return false
  let table ← (ControlTable.build p.names p.statements).mapError .program
  if table.isEmpty then return false
  let operands := (Predicate.compileAll p.names 0 conditions).2.map List.length
  (table.diagnose ⟨p.names⟩ operands formula).map fun _ => true

/-- What a verification finds in its texts: whether there is anything to
check, or an error. -/
def Session.diagnose (program : String) (conditions : List String) (formula : String) :
    Except SessionError Bool := do
  let program ← (Program.parse program).mapError .program
  let formula ← (Ctl.Formula.compile formula).mapError .ctl
  program.diagnose conditions formula

theorem ends_recordEmpty_verdict {s : Session} :
    Returns Session.recordEmpty s fun v _ => v = .empty := by
  unfold Session.recordEmpty Verifier.recordEmpty
  simp only [ends_bind, ends_get, ends_session_record, ends_modify, ends_pure]

theorem ends_run_diagnose {s : Session} (program : String) (conditions : List String)
    (formula : String) :
    Ends (Session.run program conditions formula) s
      (fun v _ => Session.diagnose program conditions formula = .ok (v ≠ .empty))
      (fun e _ => ∀ cause, e = .error cause →
        Session.diagnose program conditions formula = .error cause) := by
  unfold Session.run
  simp only [ends_bind, ends_modify, ends_stage]
  refine Ends.mono ends_parseLogged ?_ fun cause _ hp => ?_
  swap
  · rw [Session.diagnose, hp]
    exact fun _ hcause => congrArg _ (Failure.error.inj hcause)
  intro p journal1 hp
  refine Ends.mono ends_compileLogged ?_ fun cause _ hf => ?_
  swap
  · rw [Session.diagnose, hp, hf]
    exact fun _ hcause => congrArg _ (Failure.error.inj hcause)
  intro f journal2 hf
  have hdiagnose : Session.diagnose program conditions formula = p.diagnose conditions f := by
    rw [Session.diagnose, hp, hf]
    rfl
  rw [hdiagnose]
  unfold Program.diagnose
  split
  · exact ends_recordEmpty_verdict.ends fun v _ hv => by rw [hv]; rfl
  simp only [ends_bind, ends_stage, ends_session_record]
  refine Ends.mono ends_buildLogged ?_ fun cause _ htable => ?_
  swap
  · rw [htable]
    exact fun _ hcause => congrArg _ (Failure.error.inj hcause)
  intro table journal3 htable
  rw [htable]
  -- the table is empty on both sides, or on none
  show Ends _ _ (fun v _ => (if table.isEmpty then _ else _) = _)
    (fun e _ => ∀ cause, _ → (if table.isEmpty then _ else _) = _)
  split
  · exact ends_recordEmpty_verdict.ends fun v _ hv => by rw [hv]; rfl
  next hne =>
  simp only [ends_bind, ends_get, ends_stage, ends_modify, ends_onManager, ends_pure]
  refine Ends.mono ends_true ?_ (fun _ _ _ _ => nofun)
  intro m journal4 _
  refine Ends.mono (ends_investigate_diagnose _ _ f (Bool.eq_false_iff.mpr hne)) ?_
    (fun _ _ _ _ => nofun)
  intro r m5 hr
  rw [Predicate.length_compileAll p.names s.nextId 0] at hr
  rw [← hr]
  cases r with
  | error cause => exact fun _ hcause => congrArg _ (Failure.error.inj hcause)
  | ok outcome => rfl

theorem ends_verify_diagnose {s : Session} (program : String) (conditions : List String)
    (formula : String) :
    Ends (Session.verify program conditions formula) s
      (fun v _ => Session.diagnose program conditions formula = .ok (v ≠ .empty))
      (fun e _ => ∀ cause, e = .error cause →
        Session.diagnose program conditions formula = .error cause) :=
  ends_verify_of_run (ends_run_diagnose program conditions formula) fun _ _ _ h => h

end BranchingTime
