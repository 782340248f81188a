import BranchingTime.Proofs.TableLayout
import BranchingTime.Proofs.TextPieces
import BranchingTime.Proofs.TreeEvaluation

/-!
# Assignments have integers to assign

What an assignment puts on its right-hand side is limited to the characters of
arithmetic when the statement is read, and never looked at again. That is
enough: such a text has no token of a comparison or of a connective
(`Reads.arithmetic`), so the tree that it is has none, and a tree of
arithmetic has an integer for its value, or none at all
(`Tree.integral_value`).
-/

namespace BranchingTime.Expr

open Statement (isExpressionChar)

/-! ## Arithmetic -/

/-- The token has a place in arithmetic. -/
def Token.Arithmetic : Token → Prop
  | word _ | openParen | closeParen => True
  | unary op => op = .neg
  | binary op => ∃ f, op.meaning = .arithmetic f

theorem Token.Spelled.arithmetic {t : Token} {pre : List Char} (h : t.Spelled pre)
    (hpre : ∀ c ∈ pre, isExpressionChar c = true) : t.Arithmetic := by
  rcases t with text | _ | _ | op | op
  · trivial
  · trivial
  · trivial
  · cases op with
    | neg => rfl
    | not =>
        cases h
        exact absurd (hpre '!' (by decide)) (by decide)
  · cases op with
    | add | sub | mul | div => exact ⟨_, rfl⟩
    | or =>
        cases h
        exact absurd (hpre '|' (by decide)) (by decide)
    | and =>
        cases h
        exact absurd (hpre '&' (by decide)) (by decide)
    | eq =>
        cases h
        exact absurd (hpre '=' (by decide)) (by decide)
    | ne =>
        cases h
        exact absurd (hpre '!' (by decide)) (by decide)
    | lt | le =>
        cases h
        exact absurd (hpre '<' (by decide)) (by decide)
    | gt | ge =>
        cases h
        exact absurd (hpre '>' (by decide)) (by decide)

/-- A text of the characters of arithmetic has no other tokens. -/
theorem Reads.arithmetic {wants : Bool} {cs : List Char} {ts : List Token} (h : Reads wants cs ts)
    (hcs : ∀ c ∈ cs, isExpressionChar c = true) : ∀ t ∈ ts, t.Arithmetic := by
  induction h with
  | done => exact List.forall_mem_nil _
  | blank _ _ ih => exact ih (List.forall_mem_cons.mp hcs).2
  | token hlongest _ _ ih =>
      obtain ⟨hpre, hrest⟩ := List.forall_mem_append.mp hcs
      exact List.forall_mem_cons.mpr ⟨hlongest.spelled.arithmetic hpre, ih hrest⟩

/-! ## Values of arithmetic -/

/-- An integer, or an error for lack of a value: that of a variable, or that of
a quotient. -/
inductive Integral : Except EvalError Value → Prop
  | int (n : Int16) : Integral (.ok (.int n))
  | unbound (name : String) : Integral (.error (.unbound name))
  | divisionByZero : Integral (.error .divisionByZero)

theorem Integral.bind {x : Except EvalError Value} {f : Value → Except EvalError Value}
    (h : Integral x) (hf : ∀ n, Integral (f (.int n))) : Integral (x >>= f) := by
  cases h with
  | int n => exact hf n
  | unbound name => exact .unbound name
  | divisionByZero => exact .divisionByZero

theorem BinaryOp.integral_combine {op : BinaryOp} {f : Int → Int → Int}
    (h : op.meaning = .arithmetic f) (a b : Int16) : Integral (op.combine (.int a) (.int b)) := by
  unfold combine
  rw [h]
  dsimp only
  split
  · exact .divisionByZero
  · exact .int _

/-- The value of a tree of arithmetic is an integer, if it has any. -/
theorem Tree.integral_value {t : Tree} (h : ∀ tok ∈ t.tokens, tok.Arithmetic) (b : Binding) :
    Integral (t.value b) := by
  induction t with
  | operand o =>
      cases o with
      | num text value => exact .int value
      | var index name =>
          rw [value, Operand.value]
          split
          · exact .int _
          · exact .unbound name
  | parens t ih => exact ih fun tok htok => h tok (by simp [tokens, htok])
  | unary op t ih =>
      obtain ⟨rfl, ht⟩ := List.forall_mem_cons.mp h
      exact (ih ht).bind fun n => .int _
  | binary op l r ihl ihr =>
      rw [tokens, List.forall_mem_append, List.forall_mem_cons] at h
      obtain ⟨hl, ⟨f, hf⟩, hr⟩ := h
      exact (ihl hl).bind fun x => (ihr hr).bind fun y => op.integral_combine hf x y

theorem integral_evaluate {text : String} {names : List String} {e : Expr}
    (h : compile text names = .ok e) (htext : ∀ c ∈ text.toList, isExpressionChar c = true)
    (b : Binding) : Integral (e.evaluate b) := by
  obtain ⟨t, ht, rfl⟩ := compile_eq_ok_iff.mp h
  rw [evaluate, runCode_postorder]
  exact t.integral_value (ht.reads.arithmetic htext) b

end BranchingTime.Expr

namespace BranchingTime.ControlTable

/-! ## Entries that assign -/

variable {names statements : List String} {table : ControlTable}

/-- Whatever is known of the variables, an assignment of a table that is built
has an integer to assign, or it fails because a variable is not known or a
divisor is zero. A step at it goes on with that integer, or reports that
cause. -/
theorem assignments_integral (h : build names statements = .ok table) {pc var : Nat} {e : Entry}
    {rhs : Expr} (he : table.entry? pc = some e) (hact : e.action = .assign var rhs)
    (b : Binding) :
    (∃ n, rhs.evaluate b = .ok (.int n)
        ∧ table.step ⟨pc, b⟩ = .ok ⟨e.next, b.set var (some n)⟩)
      ∨ ∃ cause, ((∃ name, cause = .unbound name) ∨ cause = .divisionByZero)
        ∧ rhs.evaluate b = .error cause
        ∧ table.step ⟨pc, b⟩ = .error (.unresolved pc rhs.text cause) := by
  obtain ⟨P, hP, -, htable⟩ := build_eq_ok_iff.mp h
  obtain ⟨s, -, name, ⟨left, right, -, -, htrim, hright⟩, -, hcompile⟩ :=
    hP.exists_assigns (htable ▸ List.mem_of_getElem? he) hact
  have htext : ∀ c ∈ rhs.text.toList, Statement.isExpressionChar c = true := by
    intro c hc
    rw [htrim] at hc
    exact hright c (Text.mem_of_mem_trim hc)
  have hassigns : table.AssignsAt pc var rhs e.next := ⟨e, he, hact, rfl⟩
  have hstep := (hassigns.stepsBy (b := b)).step_eq
  have hintegral := Expr.integral_evaluate hcompile htext b
  unfold Expr.integer at hstep
  generalize rhs.evaluate b = value at hintegral hstep ⊢
  cases hintegral with
  | int n => exact .inl ⟨n, rfl, hstep⟩
  | unbound name => exact .inr ⟨_, .inl ⟨name, rfl⟩, rfl, hstep⟩
  | divisionByZero => exact .inr ⟨_, .inr rfl, rfl, hstep⟩

/-- A quotient over a line break and a wide space: it is computed, or a variable
or the divisor is to blame. -/
theorem assignments_integral_quotient :
    ∃ table, build ["x", "y"] ["x = y\u2003/\n(x - 2)"] = .ok table
      ∧ table.step ⟨0, [some 4, some 7]⟩ = .ok ⟨1, [some 3, some 7]⟩
      ∧ table.step ⟨0, [some 2, some 7]⟩
        = .error (.unresolved 0 "y\u2003/\n(x - 2)" .divisionByZero)
      ∧ table.step ⟨0, [some 2, none]⟩
        = .error (.unresolved 0 "y\u2003/\n(x - 2)" (.unbound "y")) := by
  let rhs : Expr := ⟨"y\u2003/\n(x - 2)",
    [.var 1 "y", .var 0 "x", .num 2, .binary .sub, .binary .div]⟩
  have hbuild : build ["x", "y"] ["x = y\u2003/\n(x - 2)"]
      = .ok (ofBlock 2 (.assign 0 rhs .done)) := by
    decide +kernel
  have hvalue : rhs.evaluate [some 4, some 7] = .ok (.int 3) := by decide +kernel
  have hzero : rhs.evaluate [some 2, some 7] = .error .divisionByZero := by decide +kernel
  have hnone : rhs.evaluate [some 2, none] = .error (.unbound "y") := by decide +kernel
  have hentry : ControlTable.entry? (ofBlock 2 (.assign 0 rhs .done)) 0 = some _ := rfl
  have hassigns := assignments_integral hbuild hentry rfl
  refine ⟨_, hbuild, ?_, ?_, ?_⟩
  · rcases hassigns [some 4, some 7] with ⟨n, hn, hstep⟩ | ⟨cause, -, hcause, -⟩
    · cases hvalue.symm.trans hn
      exact hstep
    · cases hvalue.symm.trans hcause
  · rcases hassigns [some 2, some 7] with ⟨n, hn, -⟩ | ⟨cause, -, hcause, hstep⟩
    · cases hzero.symm.trans hn
    · cases hzero.symm.trans hcause
      exact hstep
  · rcases hassigns [some 2, none] with ⟨n, hn, -⟩ | ⟨cause, -, hcause, hstep⟩
    · cases hnone.symm.trans hn
    · cases hnone.symm.trans hcause
      exact hstep

end BranchingTime.ControlTable
