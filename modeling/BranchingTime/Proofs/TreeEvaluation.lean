import BranchingTime.Expr.Machine
import BranchingTime.Proofs.CompilationExact
import BranchingTime.Proofs.RunningProgram

/-!
# Code is evaluated as its tree

The value of a tree is defined by recursion on the tree: both operands of an
operator are evaluated, the left one first, and the first error is the
result. Operators are given on whole numbers and wrap the result to 16 bits.

The machine computes the same on the postorder of the tree, and leaves what
was on its stack before (`foldlM_exec_postorder`). So the machine neither
runs out of operands nor leaves any on compiled code, and its errors are
those of the tree.
-/

namespace BranchingTime.Expr

/-! ## Operators on whole numbers -/

/-- The word that a whole number is modulo `2 ^ 16`. -/
def wrap (n : Int) : Int16 := .ofInt n

/-- What a binary operator computes, by the kind of its operands. -/
inductive Meaning where
  | arithmetic (f : Int → Int → Int)
  | comparison (r : Int → Int → Bool)
  | connective (f : Bool → Bool → Bool)

namespace BinaryOp

def meaning : BinaryOp → Meaning
  | or => .connective (· || ·)
  | and => .connective (· && ·)
  | eq => .comparison (· = ·)
  | ne => .comparison (· ≠ ·)
  | lt => .comparison (· < ·)
  | le => .comparison (· ≤ ·)
  | gt => .comparison (· > ·)
  | ge => .comparison (· ≥ ·)
  | add => .arithmetic (· + ·)
  | sub => .arithmetic (· - ·)
  | mul => .arithmetic (· * ·)
  | div => .arithmetic Int.tdiv

/-- The value of an operator on operands of the right kind. -/
def combine (op : BinaryOp) (x y : Value) : Except EvalError Value :=
  match op.meaning, x, y with
  | .arithmetic f, .int a, .int b =>
    if op = .div ∧ b.toInt = 0 then .error .divisionByZero
    else .ok (.int (wrap (f a.toInt b.toInt)))
  | .comparison r, .int a, .int b => .ok (.bool (r a.toInt b.toInt))
  | .connective f, .bool a, .bool b => .ok (.bool (f a b))
  | _, _, _ => .error (.typeMismatch op.symbol)

end BinaryOp

/-- The value of an operator on an operand of the right kind. -/
def UnaryOp.act (op : UnaryOp) (x : Value) : Except EvalError Value :=
  match op, x with
  | .neg, .int n => .ok (.int (wrap (-n.toInt)))
  | .not, .bool b => .ok (.bool !b)
  | .neg, .bool _ | .not, .int _ => .error (.typeMismatch op.symbol)

/-! ### The machine's operators -/

section Words

variable (a b : Int16)

theorem eq_wrap_iff {n : Int} : a = wrap n ↔ a.toInt = n.bmod (2 ^ 16) := by
  rw [← Int16.toInt_inj, wrap, Int16.toInt_ofInt]
  rfl

theorem neg_eq_wrap : -a = wrap (-a.toInt) := (eq_wrap_iff _).mpr (Int16.toInt_neg a)

theorem add_eq_wrap : a + b = wrap (a.toInt + b.toInt) :=
  (eq_wrap_iff _).mpr (Int16.toInt_add a b)

theorem sub_eq_wrap : a - b = wrap (a.toInt - b.toInt) :=
  (eq_wrap_iff _).mpr (Int16.toInt_sub a b)

theorem mul_eq_wrap : a * b = wrap (a.toInt * b.toInt) :=
  (eq_wrap_iff _).mpr (Int16.toInt_mul a b)

theorem div_eq_wrap : a / b = wrap (a.toInt.tdiv b.toInt) :=
  (eq_wrap_iff _).mpr (Int16.toInt_div a b)

theorem eq_zero_iff : b = 0 ↔ b.toInt = 0 := Int16.toInt_inj.symm

end Words

theorem UnaryOp.apply_eq_act (op : UnaryOp) (x : Value) : op.apply x = op.act x := by
  cases op with
  | not => cases x <;> rfl
  | neg =>
      cases x with
      | bool b => rfl
      | int n => simp only [apply, act, neg_eq_wrap]

theorem BinaryOp.apply_eq_combine (op : BinaryOp) (x y : Value) :
    op.apply x y = op.combine x y := by
  rcases x with a | a <;> rcases y with b | b
  · cases op with
    | or | and => rfl
    | eq => simp [apply, combine, meaning, Int16.toInt_inj]
    | ne => simp [apply, combine, meaning, Int16.toInt_inj]
    | lt => simp [apply, combine, meaning, Int16.lt_iff_toInt_lt]
    | le => simp [apply, combine, meaning, Int16.le_iff_toInt_le]
    | gt => simp [apply, combine, meaning, Int16.lt_iff_toInt_lt]
    | ge => simp [apply, combine, meaning, Int16.le_iff_toInt_le]
    | add => simp [apply, combine, meaning, add_eq_wrap]
    | sub => simp [apply, combine, meaning, sub_eq_wrap]
    | mul => simp [apply, combine, meaning, mul_eq_wrap]
    | div => simp [apply, combine, meaning, div_eq_wrap, eq_zero_iff]
  · cases op <;> rfl
  · cases op <;> rfl
  · cases op <;> rfl

/-! ## The value of a tree -/

/-- What an operand stands for. -/
def Operand.value (b : Binding) : Operand → Except EvalError Value
  | num _ value => .ok (.int value)
  | var index name =>
    match b[index]?.join with
    | some n => .ok (.int n)
    | none => .error (.unbound name)

/-- The value of a tree. Both operands of an operator are evaluated, the left
one first. -/
def Tree.value (b : Binding) : Tree → Except EvalError Value
  | operand o => o.value b
  | parens t => t.value b
  | unary op t => do
    let x ← t.value b
    op.act x
  | binary op l r => do
    let x ← l.value b
    let y ← r.value b
    op.combine x y

section Machine

variable {b : Binding} {stack : List Value}

theorem exec_operand (o : Operand) :
    exec b stack o.instr = (o.value b).map (· :: stack) := by
  cases o with
  | num text value => rfl
  | var index name =>
      simp only [Operand.instr, exec, lookup, Operand.value]
      rcases b[index]? with _ | _ | n <;> rfl

/-- Running the code of a tree puts its value on the stack. -/
theorem foldlM_exec_postorder (t : Tree) :
    t.postorder.foldlM (exec b) stack = (t.value b).map (· :: stack) := by
  induction t generalizing stack with
  | operand o =>
      rw [Tree.postorder, List.foldlM_cons, exec_operand, Tree.value]
      cases o.value b <;> rfl
  | parens t ih => exact ih
  | unary op t ih =>
      rw [Tree.postorder, List.foldlM_append, ih, Tree.value]
      cases t.value b with
      | error e => rfl
      | ok x =>
          change (exec b (x :: stack) (.unary op) >>= pure) = (op.act x).map _
          rw [exec, op.apply_eq_act]
          cases op.act x <;> rfl
  | binary op l r ihl ihr =>
      rw [Tree.postorder, List.foldlM_append, List.foldlM_append, ihl, Tree.value]
      cases l.value b with
      | error e => rfl
      | ok x =>
          change (r.postorder.foldlM (exec b) (x :: stack) >>= _) = _
          rw [ihr]
          cases r.value b with
          | error e => rfl
          | ok y =>
              change (exec b (y :: x :: stack) (.binary op) >>= pure) = (op.combine x y).map _
              rw [exec, op.apply_eq_combine]
              cases op.combine x y <;> rfl

theorem runCode_postorder (t : Tree) : runCode b t.postorder = t.value b := by
  rw [runCode, foldlM_exec_postorder]
  cases t.value b <;> rfl

end Machine

/-! ## Errors -/

/-- Errors that the values of a tree can be to blame for: the machine's own
ones are not. -/
def OfValues : EvalError → Prop
  | .unbound _ | .divisionByZero | .typeMismatch _ => True
  | .stackUnderflow | .leftover _ => False

section Errors

variable {b : Binding} {err : EvalError}

theorem error_of_bind {x : Except EvalError Value} {f : Value → Except EvalError Value}
    (h : (x >>= f) = .error err) : x = .error err ∨ ∃ v, f v = .error err := by
  cases x with
  | error e => exact .inl h
  | ok v => exact .inr ⟨v, h⟩

theorem UnaryOp.ofValues_act {op : UnaryOp} {x : Value} (h : op.act x = .error err) :
    OfValues err := by
  unfold act at h
  split at h <;> cases h <;> trivial

theorem BinaryOp.ofValues_combine {op : BinaryOp} {x y : Value}
    (h : op.combine x y = .error err) : OfValues err := by
  unfold combine at h
  split at h
  · split at h <;> cases h
    trivial
  all_goals cases h
  trivial

theorem Tree.ofValues_value {t : Tree} (h : t.value b = .error err) : OfValues err := by
  induction t with
  | operand o =>
      unfold value Operand.value at h
      split at h
      · cases h
      · split at h <;> cases h
        trivial
  | parens t ih => exact ih h
  | unary op t ih =>
      rcases error_of_bind h with h | ⟨x, h⟩
      · exact ih h
      · exact UnaryOp.ofValues_act h
  | binary op l r ihl ihr =>
      rcases error_of_bind h with h | ⟨x, h⟩
      · exact ihl h
      · rcases error_of_bind h with h | ⟨y, h⟩
        · exact ihr h
        · exact BinaryOp.ofValues_combine h

end Errors

/-! ## Compiled texts -/

/-- A text that compiles is evaluated as its one tree is, so the machine
neither lacks nor leaves operands; and what it is when something is unknown,
it stays when more is known. -/
theorem evaluate_eq_value {text : String} {names : List String} {e : Expr}
    (h : compile text names = .ok e) :
    (∃! t, Parses names text t)
    ∧ (∀ t, Parses names text t → ∀ b, e.evaluate b = t.value b)
    ∧ (∀ b, e.evaluate b ≠ .error .stackUnderflow ∧ ∀ n, e.evaluate b ≠ .error (.leftover n))
    ∧ ∀ b b' v, e.evaluate b = .ok v → b.Below b' → e.evaluate b' = .ok v := by
  obtain ⟨t, ht, rfl⟩ := compile_eq_ok_iff.mp h
  have heval (b : Binding) : evaluate ⟨text, t.postorder⟩ b = t.value b := runCode_postorder t
  refine ⟨⟨t, ht, fun t' ht' => ht'.unique ht⟩, fun t' ht' b => ?_, fun b => ?_,
    fun b b' v hv hbelow => hbelow.evaluate hv⟩
  · rw [heval, ht.unique ht']
  · rw [heval]
    exact ⟨fun herr => t.ofValues_value herr, fun n herr => t.ofValues_value herr⟩

/-- The least number divided by minus one is itself, whatever else is known. -/
theorem evaluate_eq_value_least :
    ∃ e, compile "a / -1 < b" ["a", "b"] = .ok e
      ∧ (∀ t, Parses ["a", "b"] "a / -1 < b" t →
        t.value [some (-32768), some 0, none] = .ok (.bool true)
        ∧ t.value [some (-32768)] = .error (.unbound "b"))
      ∧ ∀ b', Binding.Below [some (-32768), some 0] b' → e.evaluate b' = .ok (.bool true) := by
  have hcompile : compile "a / -1 < b" ["a", "b"] = .ok ⟨"a / -1 < b",
      [.var 0 "a", .num 1, .unary .neg, .binary .div, .var 1 "b", .binary .lt]⟩ := by
    decide +kernel
  obtain ⟨-, htree, -, hmore⟩ := evaluate_eq_value hcompile
  refine ⟨_, hcompile, fun t ht => ⟨?_, ?_⟩, fun b' hb' => hmore _ b' _ ?_ hb'⟩
  · rw [← htree t ht]
    decide +kernel
  · rw [← htree t ht]
    decide +kernel
  · decide +kernel

end BranchingTime.Expr
