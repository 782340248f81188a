import BranchingTime.Proofs.BlockGrammar

/-!
# Tables do what their blocks say

The meaning of a structured program is a relation between what is known
before it, the values it reads, and how it ends (`Block.Runs`): it finishes,
or it is stuck at an expression somewhere inside. The table of the program
is a flat list of entries with jumps. What follows shows that the two agree.

`Block.Sits` says that the entries of a block stand in a table from some
counter on. From there on, a run of the block is followed by the table
(`Block.Runs.follows`), and a run of the table that halts has either got
stuck inside of the block or left it at its end (`Block.Sits.passes`). The
first goes by the rules of the meaning; the second by the syntax, and for a
loop by the length of the run.
-/

namespace BranchingTime

/-! ## The meaning of blocks -/

/-- Why an expression gives no way on. -/
inductive Trouble where
  | noValue (e : Expr) (cause : EvalError)
  | notInteger (e : Expr)
  | notBoolean (e : Expr)
  deriving DecidableEq, Repr

/-- The error of a step that meets the trouble at an entry. -/
def Trouble.error (pc : Nat) : Trouble → UnfoldError
  | noValue e cause => .unresolved pc e.text cause
  | notInteger e => .notInteger pc e.text
  | notBoolean e => .notBoolean e.text

/-- The value of an expression that is assigned. -/
def Expr.integer (e : Expr) (b : Binding) : Except Trouble Int16 :=
  match e.evaluate b with
  | .ok (.int value) => .ok value
  | .ok (.bool _) => .error (.notInteger e)
  | .error cause => .error (.noValue e cause)

/-- The value of an expression that is a condition. -/
def Expr.truth (e : Expr) (b : Binding) : Except Trouble Bool :=
  match e.evaluate b with
  | .ok (.bool x) => .ok x
  | .ok (.int _) => .error (.notBoolean e)
  | .error cause => .error (.noValue e cause)

namespace Block

/-- A statement inside of a block. -/
inductive Place where
  | first
  /-- After the first statement. -/
  | later (p : Place)
  /-- In the block that the first statement runs when its condition holds. -/
  | inner (p : Place)
  /-- In the `else` block of the first statement. -/
  | other (p : Place)
  deriving DecidableEq, Repr

/-- How the run of a block ends, and what is known then. -/
inductive Ending where
  | finished (b : Binding)
  | stuck (place : Place) (b : Binding) (trouble : Trouble)
  deriving DecidableEq, Repr

/-- The ending as one of the block around. -/
def Ending.within (f : Place → Place) : Ending → Ending
  | finished b => finished b
  | stuck place b trouble => stuck (f place) b trouble

/-- How a block can run from what is known, when `read` gets the listed
values. -/
inductive Runs : Block → Binding → List Int16 → Ending → Prop
  | done {b} : Runs .done b [] (.finished b)
  | read {var rest b values ending} (value : Int16)
      (h : Runs rest (b.set var (some value)) values ending) :
      Runs (.read var rest) b (value :: values) (ending.within .later)
  | assign {var rhs rest b value values ending} (hvalue : rhs.integer b = .ok value)
      (h : Runs rest (b.set var (some value)) values ending) :
      Runs (.assign var rhs rest) b values (ending.within .later)
  | assign_stuck {var rhs rest b trouble} (hvalue : rhs.integer b = .error trouble) :
      Runs (.assign var rhs rest) b [] (.stuck .first b trouble)
  | if_true {cond body rest b b' values values' ending} (hcond : cond.truth b = .ok true)
      (hbody : Runs body b values (.finished b')) (h : Runs rest b' values' ending) :
      Runs (.ifThen cond body rest) b (values ++ values') (ending.within .later)
  | if_false {cond body rest b values ending} (hcond : cond.truth b = .ok false)
      (h : Runs rest b values ending) :
      Runs (.ifThen cond body rest) b values (ending.within .later)
  | if_inner {cond body rest b values place b' trouble} (hcond : cond.truth b = .ok true)
      (hbody : Runs body b values (.stuck place b' trouble)) :
      Runs (.ifThen cond body rest) b values (.stuck (.inner place) b' trouble)
  | if_stuck {cond body rest b trouble} (hcond : cond.truth b = .error trouble) :
      Runs (.ifThen cond body rest) b [] (.stuck .first b trouble)
  | else_true {cond body body' rest b b' values values' ending} (hcond : cond.truth b = .ok true)
      (hbody : Runs body b values (.finished b')) (h : Runs rest b' values' ending) :
      Runs (.ifElse cond body body' rest) b (values ++ values') (ending.within .later)
  | else_false {cond body body' rest b b' values values' ending}
      (hcond : cond.truth b = .ok false) (hbody : Runs body' b values (.finished b'))
      (h : Runs rest b' values' ending) :
      Runs (.ifElse cond body body' rest) b (values ++ values') (ending.within .later)
  | else_inner {cond body body' rest b values place b' trouble} (hcond : cond.truth b = .ok true)
      (hbody : Runs body b values (.stuck place b' trouble)) :
      Runs (.ifElse cond body body' rest) b values (.stuck (.inner place) b' trouble)
  | else_other {cond body body' rest b values place b' trouble}
      (hcond : cond.truth b = .ok false) (hbody : Runs body' b values (.stuck place b' trouble)) :
      Runs (.ifElse cond body body' rest) b values (.stuck (.other place) b' trouble)
  | else_stuck {cond body body' rest b trouble} (hcond : cond.truth b = .error trouble) :
      Runs (.ifElse cond body body' rest) b [] (.stuck .first b trouble)
  | loop_true {cond body rest b b' values values' ending} (hcond : cond.truth b = .ok true)
      (hbody : Runs body b values (.finished b'))
      (h : Runs (.loop cond body rest) b' values' ending) :
      Runs (.loop cond body rest) b (values ++ values') ending
  | loop_false {cond body rest b values ending} (hcond : cond.truth b = .ok false)
      (h : Runs rest b values ending) :
      Runs (.loop cond body rest) b values (ending.within .later)
  | loop_inner {cond body rest b values place b' trouble} (hcond : cond.truth b = .ok true)
      (hbody : Runs body b values (.stuck place b' trouble)) :
      Runs (.loop cond body rest) b values (.stuck (.inner place) b' trouble)
  | loop_stuck {cond body rest b trouble} (hcond : cond.truth b = .error trouble) :
      Runs (.loop cond body rest) b [] (.stuck .first b trouble)

/-- The counter of a place, for a block that starts at `pc`. -/
def address (pc : Nat) : Block → Place → Nat
  | read _ rest, .later p | assign _ _ rest, .later p => rest.address (pc + 1) p
  | ifThen _ body _, .inner p | ifElse _ body _ _, .inner p | loop _ body _, .inner p =>
      body.address (pc + 1) p
  | ifElse _ body body' _, .other p => body'.address (pc + 3 + body.size) p
  | ifThen _ body rest, .later p | loop _ body rest, .later p =>
      rest.address (pc + 2 + body.size) p
  | ifElse _ body body' rest, .later p => rest.address (pc + 4 + body.size + body'.size) p
  | _, _ => pc

end Block

/-! ## Runs of tables -/

namespace ControlTable

/-- One step of a table and the values it reads: a variable that was read
gets a value after the step. -/
inductive Advances (t : ControlTable) (c : Continuation) : List Int16 → Continuation → Prop
  | step {next : Continuation} (h : t.step c = .ok next)
      (hread : ∀ e, t.entry? c.pc = some e → ∀ var, e.action ≠ .read var) : Advances t c [] next
  | read {e : Entry} {var : Nat} {next : Continuation} (value : Int16) (h : t.step c = .ok next)
      (he : t.entry? c.pc = some e) (hact : e.action = .read var) :
      Advances t c [value] { next with binding := next.binding.set var (some value) }

/-- Steps of a table, one after the other, and the values they read. -/
inductive Follows (t : ControlTable) : Continuation → List Int16 → Continuation → Prop
  | refl {c} : Follows t c [] c
  | head {c c₁ c' values values'} (h : t.Advances c values c₁) (hrest : Follows t c₁ values' c') :
      Follows t c (values ++ values') c'

theorem Follows.trans {t : ControlTable} {c c₁ c' : Continuation} {values values' : List Int16}
    (h : t.Follows c values c₁) (h' : t.Follows c₁ values' c') :
    t.Follows c (values ++ values') c' := by
  induction h with
  | refl => exact h'
  | head hadv _ ih =>
      rw [List.append_assoc]
      exact .head hadv (ih h')

/-- No step leads on: the program is over, or stuck. -/
def Halted (t : ControlTable) (c : Continuation) : Prop :=
  t.entry? c.pc = none ∨ ∃ e, t.step c = .error e

/-- A run of `n` steps that halts. -/
inductive Halts (t : ControlTable) : Nat → Continuation → List Int16 → Continuation → Prop
  | here {c} (h : t.Halted c) : Halts t 0 c [] c
  | head {n c c₁ c' values values'} (h : t.Advances c values c₁) (hrest : Halts t n c₁ values' c') :
      Halts t (n + 1) c (values ++ values') c'

/-! ### Single entries -/

/-- The entry at `pc` reads a variable. -/
def ReadsAt (t : ControlTable) (pc var next : Nat) : Prop :=
  ∃ e, t.entry? pc = some e ∧ e.action = .read var ∧ e.next = next

/-- The entry at `pc` assigns to a variable. -/
def AssignsAt (t : ControlTable) (pc var : Nat) (rhs : Expr) (next : Nat) : Prop :=
  ∃ e, t.entry? pc = some e ∧ e.action = .assign var rhs ∧ e.next = next

/-- The entry at `pc` goes on as a condition says. -/
def DecidesAt (t : ControlTable) (pc : Nat) (cond : Expr) (yesPc noPc : Nat) : Prop :=
  ∃ e, t.entry? pc = some e
    ∧ (e.action = .branch cond yesPc noPc ∨ e.action = .loop cond yesPc noPc)

/-- The entry at `pc` only goes on. -/
def JumpsAt (t : ControlTable) (pc target : Nat) : Prop :=
  ∃ e, t.entry? pc = some e ∧ e.next = target
    ∧ ((∃ header, e.action = .elseMark header) ∨ ∃ header group, e.action = .groupEnd header group)

section Entries

variable {t : ControlTable} {n pc var next yesPc noPc target : Nat} {rhs cond : Expr} {e : Entry}
  {b : Binding} {c c' : Continuation} {value : Int16} {values : List Int16} {trouble : Trouble}

/-- The step at `c` reads nothing, and is the one that an expression
decides. -/
structure StepsBy {α : Type} (t : ControlTable) (c : Continuation) (x : Except Trouble α)
    (f : α → Continuation) : Prop where
  step_eq : t.step c = match x with
    | .ok v => .ok (f v)
    | .error trouble => .error (trouble.error c.pc)
  entry : ∃ e, t.entry? c.pc = some e ∧ ∀ var, e.action ≠ .read var

namespace StepsBy

variable {α : Type} {x : Except Trouble α} {f : α → Continuation} {v : α}

theorem follows (h : t.StepsBy c x f) (hx : x = .ok v) (hrest : t.Follows (f v) values c') :
    t.Follows c values c' := by
  obtain ⟨e, he, hread⟩ := h.entry
  refine .head (.step (by rw [h.step_eq, hx]) fun e' he' => ?_) hrest
  rw [he] at he'
  exact Option.some.inj he' ▸ hread

theorem stuck (h : t.StepsBy c x f) (hx : x = .error trouble) :
    t.step c = .error (trouble.error c.pc) := by
  rw [h.step_eq, hx]

/-- A run that halts is at its end where there is no value, or goes on with
it. -/
theorem halts (h : t.StepsBy c x f) (hrun : t.Halts n c values c') :
    (∃ trouble, x = .error trouble ∧ values = [] ∧ c' = c)
      ∨ ∃ m v, n = m + 1 ∧ x = .ok v ∧ t.Halts m (f v) values c' := by
  obtain ⟨e, he, hread⟩ := h.entry
  have hstep := h.step_eq
  cases hrun with
  | here hh =>
      rcases hh with hnone | ⟨err, herr⟩
      · rw [he] at hnone
        cases hnone
      · cases x with
        | error trouble => exact .inl ⟨trouble, rfl, rfl, rfl⟩
        | ok v =>
            rw [hstep] at herr
            cases herr
  | head hadv hrest =>
      cases hadv with
      | read value _ he' hact =>
          rw [he] at he'
          exact absurd hact (Option.some.inj he' ▸ hread _)
      | step hnext _ =>
          cases x with
          | error trouble =>
              rw [hstep] at hnext
              cases hnext
          | ok v =>
              obtain rfl := Except.ok.inj (hstep.symm.trans hnext)
              exact .inr ⟨_, v, rfl, rfl, hrest⟩

end StepsBy

theorem AssignsAt.stepsBy (h : t.AssignsAt pc var rhs next) :
    t.StepsBy ⟨pc, b⟩ (rhs.integer b) fun value => ⟨next, b.set var (some value)⟩ := by
  obtain ⟨e, he, hact, rfl⟩ := h
  refine ⟨?_, e, he, by simp [hact]⟩
  simp only [step, he, Entry.step, hact, Action.valueAt, Expr.integer]
  rcases rhs.evaluate b with cause | (value | x) <;> rfl

theorem DecidesAt.stepsBy (h : t.DecidesAt pc cond yesPc noPc) :
    t.StepsBy ⟨pc, b⟩ (cond.truth b) fun x => ⟨if x then yesPc else noPc, b⟩ := by
  obtain ⟨e, he, hact⟩ := h
  refine ⟨?_, e, he, by rcases hact with hact | hact <;> simp [hact]⟩
  have hstep : e.step ⟨pc, b⟩ = do
      return ⟨if ← Action.condition pc cond b then yesPc else noPc, b⟩ := by
    rcases hact with hact | hact <;> rw [Entry.step, hact] <;> rfl
  simp only [step, he, hstep, Action.condition, Action.valueAt, Expr.truth]
  rcases cond.evaluate b with cause | (value | x) <;> rfl

theorem JumpsAt.stepsBy (h : t.JumpsAt pc target) :
    t.StepsBy ⟨pc, b⟩ (.ok ()) fun _ => ⟨target, b⟩ := by
  obtain ⟨e, he, rfl, ⟨header, hact⟩ | ⟨header, group, hact⟩⟩ := h
  · refine ⟨?_, e, he, by simp [hact]⟩
    rw [step, he]
    exact Entry.step_eq_ok_iff.mpr (by simp [Entry.Does, hact, Continuation.goto])
  · refine ⟨?_, e, he, by simp [hact]⟩
    rw [step, he]
    exact Entry.step_eq_ok_iff.mpr (by simp [Entry.Does, hact, Continuation.goto])

theorem JumpsAt.follows (h : t.JumpsAt pc target) (hrest : t.Follows ⟨target, b⟩ values c') :
    t.Follows ⟨pc, b⟩ values c' :=
  h.stepsBy.follows rfl hrest

theorem JumpsAt.halts (h : t.JumpsAt pc target) (hrun : t.Halts n ⟨pc, b⟩ values c') :
    ∃ m, n = m + 1 ∧ t.Halts m ⟨target, b⟩ values c' := by
  rcases h.stepsBy.halts hrun with ⟨trouble, hx, -⟩ | ⟨m, -, hm, -, hrest⟩
  · cases hx
  · exact ⟨m, hm, hrest⟩

namespace ReadsAt

theorem step_eq (h : t.ReadsAt pc var next) : t.step ⟨pc, b⟩ = .ok ⟨next, b.set var none⟩ := by
  obtain ⟨e, he, hact, rfl⟩ := h
  rw [step, he]
  exact Entry.step_eq_ok_iff.mpr (by rw [Entry.Does, hact])

theorem follows (h : t.ReadsAt pc var next)
    (hrest : t.Follows ⟨next, b.set var (some value)⟩ values c') :
    t.Follows ⟨pc, b⟩ (value :: values) c' := by
  have hstep := h.step_eq (b := b)
  obtain ⟨e, he, hact, -⟩ := h
  refine .head (.read value hstep he hact) ?_
  rwa [List.set_set]

theorem halts (h : t.ReadsAt pc var next) (hrun : t.Halts n ⟨pc, b⟩ values c') :
    ∃ m value values', n = m + 1 ∧ values = value :: values'
      ∧ t.Halts m ⟨next, b.set var (some value)⟩ values' c' := by
  have hstep := h.step_eq (b := b)
  obtain ⟨e, he, hact, -⟩ := h
  cases hrun with
  | here hh =>
      rcases hh with hnone | ⟨err, herr⟩
      · rw [he] at hnone
        cases hnone
      · rw [hstep] at herr
        cases herr
  | head hadv hrest =>
      cases hadv with
      | step _ hread => exact absurd hact (hread e he var)
      | read value hstep' he' hact' =>
          rw [he] at he'
          obtain rfl := Option.some.inj he'
          obtain rfl := Action.read.inj (hact.symm.trans hact')
          obtain rfl := Except.ok.inj (hstep.symm.trans hstep')
          rw [List.set_set] at hrest
          exact ⟨_, value, _, rfl, rfl, hrest⟩

end ReadsAt

end Entries

/-- A table follows all steps of a run that halts. -/
theorem Follows.halts {t : ControlTable} {c c' : Continuation} {values : List Int16}
    (h : t.Follows c values c') (hc : t.Halted c') : ∃ n, t.Halts n c values c' := by
  induction h with
  | refl => exact ⟨0, .here hc⟩
  | head hadv _ ih =>
      obtain ⟨n, hn⟩ := ih hc
      exact ⟨n + 1, .head hadv hn⟩

/-- The end of the program is not left. -/
theorem Halts.eq_of_entry_none {t : ControlTable} {n : Nat} {c c' : Continuation}
    {values : List Int16} (h : t.Halts n c values c') (hc : t.entry? c.pc = none) :
    values = [] ∧ c' = c := by
  induction h with
  | here => exact ⟨rfl, rfl⟩
  | head hadv _ ih =>
      cases hadv with
      | read _ _ he =>
          rw [hc] at he
          cases he
      | step hstep =>
          rw [step, hc] at hstep
          obtain rfl := Except.ok.inj hstep
          exact ih hc

end ControlTable

/-! ## Blocks in tables -/

namespace Block

/-- The entries of the block stand in the table from `pc` on. -/
def Sits (t : ControlTable) (pc : Nat) : Block → Prop
  | done => True
  | read var rest => t.ReadsAt pc var (pc + 1) ∧ rest.Sits t (pc + 1)
  | assign var rhs rest => t.AssignsAt pc var rhs (pc + 1) ∧ rest.Sits t (pc + 1)
  | ifThen cond body rest =>
      t.DecidesAt pc cond (pc + 1) (pc + 2 + body.size) ∧ body.Sits t (pc + 1)
        ∧ t.JumpsAt (pc + 1 + body.size) (pc + 2 + body.size) ∧ rest.Sits t (pc + 2 + body.size)
  | ifElse cond body body' rest =>
      t.DecidesAt pc cond (pc + 1) (pc + 2 + body.size) ∧ body.Sits t (pc + 1)
        ∧ t.JumpsAt (pc + 1 + body.size) (pc + 4 + body.size + body'.size)
        ∧ t.JumpsAt (pc + 2 + body.size) (pc + 3 + body.size)
        ∧ body'.Sits t (pc + 3 + body.size)
        ∧ t.JumpsAt (pc + 3 + body.size + body'.size) (pc + 4 + body.size + body'.size)
        ∧ rest.Sits t (pc + 4 + body.size + body'.size)
  | loop cond body rest =>
      t.DecidesAt pc cond (pc + 1) (pc + 2 + body.size) ∧ body.Sits t (pc + 1)
        ∧ t.JumpsAt (pc + 1 + body.size) pc ∧ rest.Sits t (pc + 2 + body.size)

/-- The table has these entries from `pc` on. -/
def Segment (t : ControlTable) (pc : Nat) (l : List Entry) : Prop :=
  ∀ (i : Nat) (e : Entry), l[i]? = some e → t.entry? (pc + i) = some e

namespace Segment

variable {t : ControlTable} {pc : Nat} {e : Entry} {l l' : List Entry}

theorem head (h : Segment t pc (e :: l)) : t.entry? pc = some e := h 0 e rfl

theorem tail (h : Segment t pc (e :: l)) : Segment t (pc + 1) l := by
  intro i e' hi
  rw [Nat.add_assoc, Nat.add_comm 1]
  exact h (i + 1) e' hi

theorem left (h : Segment t pc (l ++ l')) : Segment t pc l := by
  intro i e' hi
  refine h i e' ?_
  rw [List.getElem?_append_left (List.getElem?_eq_some_iff.mp hi).1, hi]

theorem right (h : Segment t pc (l ++ l')) : Segment t (pc + l.length) l' := by
  intro i e' hi
  rw [Nat.add_assoc]
  refine h _ e' ?_
  rw [List.getElem?_append_right (Nat.le_add_right _ _), Nat.add_sub_cancel_left, hi]

end Segment

/-- A block sits where it is laid out. -/
theorem Segment.sits {t : ControlTable} {P : Block} {pc : Nat} {known : List Descriptor}
    (h : Segment t pc (P.layout pc known)) : P.Sits t pc := by
  induction P generalizing pc known with
  | done => trivial
  | read var rest ih => exact ⟨⟨_, h.head, rfl, rfl⟩, ih h.tail⟩
  | assign var rhs rest ih => exact ⟨⟨_, h.head, rfl, rfl⟩, ih h.tail⟩
  | ifThen cond body rest ihb ih =>
      have hafter := h.tail.right
      rw [length_layout] at hafter
      have hnext : pc + 1 + body.size + 1 = pc + 2 + body.size := by omega
      rw [Sits, ← hnext]
      exact ⟨⟨_, h.head, .inl rfl⟩, ihb h.tail.left, ⟨_, hafter.head, rfl, .inr ⟨_, _, rfl⟩⟩,
        ih hafter.tail⟩
  | ifElse cond body body' rest ihb ihb' ih =>
      simp only [layout, List.cons_append, List.append_assoc] at h
      have hmark := h.tail.right
      rw [length_layout] at hmark
      have hafter := hmark.tail.tail.right
      rw [length_layout] at hafter
      have hother : pc + 1 + body.size + 1 + 1 = pc + 3 + body.size := by omega
      have hnext : pc + 3 + body.size + body'.size + 1 = pc + 4 + body.size + body'.size := by omega
      have helse : pc + 1 + body.size + 1 = pc + 2 + body.size := by omega
      rw [Sits, ← hnext, ← hother, ← helse]
      exact ⟨⟨_, h.head, .inl rfl⟩, ihb h.tail.left, ⟨_, hmark.head, rfl, .inr ⟨_, _, rfl⟩⟩,
        ⟨_, hmark.tail.head, rfl, .inl ⟨_, rfl⟩⟩, ihb' hmark.tail.tail.left,
        ⟨_, hafter.head, rfl, .inr ⟨_, _, rfl⟩⟩, ih hafter.tail⟩
  | loop cond body rest ihb ih =>
      have hafter := h.tail.right
      rw [length_layout] at hafter
      have hnext : pc + 1 + body.size + 1 = pc + 2 + body.size := by omega
      rw [Sits, ← hnext]
      exact ⟨⟨_, h.head, .inr rfl⟩, ihb h.tail.left, ⟨_, hafter.head, rfl, .inr ⟨_, _, rfl⟩⟩,
        ih hafter.tail⟩

/-! ## The table follows the block -/

section Agreement

variable {t : ControlTable} {P Q : Block} {pc pc' m n : Nat} {b b' : Binding}
  {values values' : List Int16} {ending : Ending} {f : Place → Place} {c : Continuation}

/-- The continuation where the block ends so: after its last entry, or stuck
at the entry of the place. -/
def Ending.At (t : ControlTable) (P : Block) (pc : Nat) : Ending → Continuation → Prop
  | finished b, c => c = ⟨pc + P.size, b⟩
  | stuck place b trouble, c =>
      c = ⟨P.address pc place, b⟩ ∧ t.step c = .error (trouble.error c.pc)

theorem Ending.At.within (h : ending.At t Q pc' c)
    (haddress : ∀ p, P.address pc (f p) = Q.address pc' p)
    (hsize : pc + P.size = pc' + Q.size) : (ending.within f).At t P pc c := by
  cases ending with
  | finished b =>
      rw [within, At, hsize]
      exact h
  | stuck place b trouble =>
      rw [within, At, haddress]
      exact h

/-- A run of a block is followed by the table in which it sits. -/
theorem Runs.follows (h : P.Runs b values ending) (hs : P.Sits t pc) :
    ∃ c, t.Follows ⟨pc, b⟩ values c ∧ ending.At t P pc c := by
  induction h generalizing pc with
  | done => exact ⟨_, .refl, rfl⟩
  | read value _ ih =>
      obtain ⟨hread, hrest⟩ := hs
      obtain ⟨c, hfollows, hat⟩ := ih hrest
      exact ⟨c, hread.follows hfollows, hat.within (fun _ => rfl) (by rw [size]; omega)⟩
  | assign hvalue _ ih =>
      obtain ⟨hassign, hrest⟩ := hs
      obtain ⟨c, hfollows, hat⟩ := ih hrest
      exact ⟨c, hassign.stepsBy.follows hvalue hfollows,
        hat.within (fun _ => rfl) (by rw [size]; omega)⟩
  | assign_stuck hvalue => exact ⟨_, .refl, rfl, hs.1.stepsBy.stuck hvalue⟩
  | if_true hcond _ _ ihb ih =>
      obtain ⟨hdecide, hbody, hjump, hrest⟩ := hs
      obtain ⟨_, hfollows, rfl⟩ := ihb hbody
      obtain ⟨c, hfollows', hat⟩ := ih hrest
      refine ⟨c, hdecide.stepsBy.follows hcond (hfollows.trans (hjump.follows hfollows')),
        hat.within (fun _ => rfl) (by rw [size]; omega)⟩
  | if_false hcond _ ih =>
      obtain ⟨hdecide, -, -, hrest⟩ := hs
      obtain ⟨c, hfollows, hat⟩ := ih hrest
      exact ⟨c, hdecide.stepsBy.follows hcond hfollows,
        hat.within (fun _ => rfl) (by rw [size]; omega)⟩
  | if_inner hcond _ ihb =>
      obtain ⟨hdecide, hbody, -⟩ := hs
      obtain ⟨c, hfollows, hat⟩ := ihb hbody
      exact ⟨c, hdecide.stepsBy.follows hcond hfollows, hat⟩
  | if_stuck hcond => exact ⟨_, .refl, rfl, hs.1.stepsBy.stuck hcond⟩
  | else_true hcond _ _ ihb ih =>
      obtain ⟨hdecide, hbody, hjump, -, -, -, hrest⟩ := hs
      obtain ⟨_, hfollows, rfl⟩ := ihb hbody
      obtain ⟨c, hfollows', hat⟩ := ih hrest
      exact ⟨c, hdecide.stepsBy.follows hcond (hfollows.trans (hjump.follows hfollows')),
        hat.within (fun _ => rfl) (by rw [size]; omega)⟩
  | else_false hcond _ _ ihb ih =>
      obtain ⟨hdecide, -, -, hmark, hbody, hjump, hrest⟩ := hs
      obtain ⟨_, hfollows, rfl⟩ := ihb hbody
      obtain ⟨c, hfollows', hat⟩ := ih hrest
      exact ⟨c, hdecide.stepsBy.follows hcond
          (hmark.follows (hfollows.trans (hjump.follows hfollows'))),
        hat.within (fun _ => rfl) (by rw [size]; omega)⟩
  | else_inner hcond _ ihb =>
      obtain ⟨hdecide, hbody, -⟩ := hs
      obtain ⟨c, hfollows, hat⟩ := ihb hbody
      exact ⟨c, hdecide.stepsBy.follows hcond hfollows, hat⟩
  | else_other hcond _ ihb =>
      obtain ⟨hdecide, -, -, hmark, hbody, -⟩ := hs
      obtain ⟨c, hfollows, hat⟩ := ihb hbody
      exact ⟨c, hdecide.stepsBy.follows hcond (hmark.follows hfollows), hat⟩
  | else_stuck hcond => exact ⟨_, .refl, rfl, hs.1.stepsBy.stuck hcond⟩
  | loop_true hcond _ _ ihb ih =>
      obtain ⟨_, hfollows, rfl⟩ := ihb hs.2.1
      obtain ⟨c, hfollows', hat⟩ := ih hs
      obtain ⟨hdecide, -, hjump, -⟩ := hs
      exact ⟨c, hdecide.stepsBy.follows hcond (hfollows.trans (hjump.follows hfollows')), hat⟩
  | loop_false hcond _ ih =>
      obtain ⟨hdecide, -, -, hrest⟩ := hs
      obtain ⟨c, hfollows, hat⟩ := ih hrest
      exact ⟨c, hdecide.stepsBy.follows hcond hfollows,
        hat.within (fun _ => rfl) (by rw [size]; omega)⟩
  | loop_inner hcond _ ihb =>
      obtain ⟨hdecide, hbody, -⟩ := hs
      obtain ⟨c, hfollows, hat⟩ := ihb hbody
      exact ⟨c, hdecide.stepsBy.follows hcond hfollows, hat⟩
  | loop_stuck hcond => exact ⟨_, .refl, rfl, hs.1.stepsBy.stuck hcond⟩

theorem Ending.within_self : ending.within (fun p => p) = ending := by
  cases ending <;> rfl

/-! ## The block accounts for the table -/

/-- What a run that halts at `c` within `n` steps from the start of a block
has done: it is stuck inside, or has left the block behind. -/
inductive Passes (t : ControlTable) (P : Block) (pc : Nat) (b : Binding) (n : Nat)
    (c : Continuation) : List Int16 → Prop
  | stuck {values : List Int16} {place : Place} {trouble : Trouble}
      (h : P.Runs b values (.stuck place c.binding trouble)) (hpc : c.pc = P.address pc place) :
      Passes t P pc b n c values
  | left {m : Nat} {values values' : List Int16} {b' : Binding}
      (h : P.Runs b values (.finished b')) (hm : m ≤ n)
      (hrest : t.Halts m ⟨pc + P.size, b'⟩ values' c) : Passes t P pc b n c (values ++ values')

namespace Passes

/-- What was done in the last part of a block was done in the block. -/
theorem later (values : List Int16) (h : Passes t Q pc' b' m c values')
    (hruns : ∀ {values' ending}, Q.Runs b' values' ending →
      P.Runs b (values ++ values') (ending.within f))
    (haddress : ∀ p, P.address pc (f p) = Q.address pc' p)
    (hsize : pc + P.size = pc' + Q.size) (hm : m ≤ n) :
    Passes t P pc b n c (values ++ values') := by
  cases h with
  | stuck h hpc => exact .stuck (hruns h) (hpc.trans (haddress _).symm)
  | left h hk hrest =>
      rw [← List.append_assoc]
      exact .left (hruns h) (hk.trans hm) (hsize ▸ hrest)

/-- What was done in a block inside was done in the block, if what follows
it was. -/
theorem inside (h : Passes t Q pc' b m c values)
    (hruns : ∀ {values place b' trouble}, Q.Runs b values (.stuck place b' trouble) →
      P.Runs b values (.stuck (f place) b' trouble))
    (haddress : ∀ p, P.address pc (f p) = Q.address pc' p)
    (hleft : ∀ {k values values' b'}, Q.Runs b values (.finished b') → k ≤ m →
      t.Halts k ⟨pc' + Q.size, b'⟩ values' c → Passes t P pc b n c (values ++ values')) :
    Passes t P pc b n c values := by
  cases h with
  | stuck h hpc => exact .stuck (hruns h) (hpc.trans (haddress _).symm)
  | left h hk hrest => exact hleft h hk hrest

end Passes

theorem Sits.passes (hs : P.Sits t pc) (h : t.Halts n ⟨pc, b⟩ values c) :
    Passes t P pc b n c values := by
  induction P generalizing pc n b values with
  | done => exact .left .done (Nat.le_refl n) h
  | read var rest ih =>
      obtain ⟨hread, hrest⟩ := hs
      obtain ⟨m, value, values', rfl, rfl, hnext⟩ := hread.halts h
      exact Passes.later [value] (ih hrest hnext) (.read value) (fun _ => rfl)
        (by rw [size]; omega) (Nat.le_succ m)
  | assign var rhs rest ih =>
      obtain ⟨hassign, hrest⟩ := hs
      rcases hassign.stepsBy.halts h with
        ⟨trouble, hvalue, rfl, rfl⟩ | ⟨m, value, rfl, hvalue, hnext⟩
      · exact .stuck (.assign_stuck hvalue) rfl
      · exact Passes.later [] (ih hrest hnext) (fun hr => .assign hvalue hr) (fun _ => rfl)
          (by rw [size]; omega) (Nat.le_succ m)
  | ifThen cond body rest ihb ih =>
      obtain ⟨hdecide, hbody, hjump, hrest⟩ := hs
      rcases hdecide.stepsBy.halts h with ⟨trouble, hcond, rfl, rfl⟩ | ⟨m, x, rfl, hcond, hnext⟩
      · exact .stuck (.if_stuck hcond) rfl
      cases x with
      | false =>
          exact Passes.later [] (ih hrest hnext) (fun hr => .if_false hcond hr) (fun _ => rfl)
            (by rw [size]; omega) (Nat.le_succ m)
      | true =>
          refine (ihb hbody hnext).inside (fun hr => .if_inner hcond hr) (fun _ => rfl)
            fun hr hk hend => ?_
          obtain ⟨k, rfl, hafter⟩ := hjump.halts hend
          exact Passes.later _ (ih hrest hafter) (fun hr' => .if_true hcond hr hr') (fun _ => rfl)
            (by rw [size]; omega) (by omega)
  | ifElse cond body body' rest ihb ihb' ih =>
      obtain ⟨hdecide, hbody, hjump, hmark, hbody', hjump', hrest⟩ := hs
      rcases hdecide.stepsBy.halts h with ⟨trouble, hcond, rfl, rfl⟩ | ⟨m, x, rfl, hcond, hnext⟩
      · exact .stuck (.else_stuck hcond) rfl
      cases x with
      | false =>
          obtain ⟨m, rfl, hmarked⟩ := hmark.halts hnext
          refine (ihb' hbody' hmarked).inside (fun hr => .else_other hcond hr) (fun _ => rfl)
            fun hr hk hend => ?_
          obtain ⟨k, rfl, hafter⟩ := hjump'.halts hend
          exact Passes.later _ (ih hrest hafter) (fun hr' => .else_false hcond hr hr')
            (fun _ => rfl)
            (by rw [size]; omega) (by omega)
      | true =>
          refine (ihb hbody hnext).inside (fun hr => .else_inner hcond hr) (fun _ => rfl)
            fun hr hk hend => ?_
          obtain ⟨k, rfl, hafter⟩ := hjump.halts hend
          exact Passes.later _ (ih hrest hafter) (fun hr' => .else_true hcond hr hr') (fun _ => rfl)
            (by rw [size]; omega) (by omega)
  | loop cond body rest ihb ih =>
      -- every turn takes a step at least, so what is left after one is shorter
      induction n using Nat.strong_induction_on generalizing b values with
      | _ n again =>
        obtain ⟨hdecide, hbody, hjump, hrest⟩ := hs
        rcases hdecide.stepsBy.halts h with ⟨trouble, hcond, rfl, rfl⟩ | ⟨m, x, rfl, hcond, hnext⟩
        · exact .stuck (.loop_stuck hcond) rfl
        cases x with
        | false =>
            exact Passes.later [] (ih hrest hnext) (fun hr => .loop_false hcond hr)
              (fun _ => rfl) (by rw [size]; omega) (Nat.le_succ m)
        | true =>
            refine (ihb hbody hnext).inside (fun hr => .loop_inner hcond hr) (fun _ => rfl)
              fun hr hk hend => ?_
            obtain ⟨k, rfl, hafter⟩ := hjump.halts hend
            refine Passes.later _ (again k (by omega) hafter) (fun hr' => ?_) (fun _ => rfl) rfl
              (by omega)
            rw [Ending.within_self]
            exact .loop_true hcond hr hr'

end Agreement

end Block

/-! ## Tables that are built -/

namespace ControlTable

variable {names statements : List String} {table : ControlTable}

theorem build_eq_ok_iff : build names statements = .ok table ↔
    ∃ P, Block.Reads names statements P ∧ P.size ≤ maxEntries ∧ table = ofBlock names.length P := by
  constructor
  · intro h
    obtain ⟨P, hP, h⟩ := exists_of_bind_eq_ok h
    unfold ofBlock? at h
    split at h
    · next hsize => exact ⟨P, Block.parse_eq_ok_iff.mp hP, hsize, (Except.ok.inj h).symm⟩
    · cases h
  · rintro ⟨P, hP, hsize, rfl⟩
    rw [build, Block.parse_eq_ok_iff.mpr hP]
    change ofBlock? names.length P = _
    rw [ofBlock?, if_pos hsize]

section OfBlock

variable {numVars : Nat} {P : Block} {b b' : Binding} {values : List Int16} {c : Continuation}

theorem sits_ofBlock (numVars : Nat) (P : Block) : P.Sits (ofBlock numVars P) 0 := by
  refine Block.Segment.sits (fun i e hi => ?_ : Block.Segment _ 0 (P.layout 0
    (List.replicate numVars .undefined)))
  rw [Nat.zero_add]
  exact hi

theorem size_ofBlock : (ofBlock numVars P).size = P.size :=
  P.length_layout ..

theorem entry?_ofBlock_size : ControlTable.entry? (ofBlock numVars P) P.size = none := by
  refine List.getElem?_eq_none_iff.mpr ?_
  exact size_ofBlock.le

/-- The table comes to its end as the block finishes. -/
theorem follows_ofBlock_finished_iff :
    (ofBlock numVars P).Follows ⟨0, b⟩ values ⟨P.size, b'⟩ ↔ P.Runs b values (.finished b') := by
  constructor
  · intro h
    obtain ⟨n, hn⟩ := h.halts (.inl entry?_ofBlock_size)
    cases (sits_ofBlock numVars P).passes hn with
    | stuck hruns hpc =>
        -- a block that is stuck there would leave the table stuck at its end
        obtain ⟨c, -, rfl, hstep⟩ := hruns.follows (sits_ofBlock numVars P)
        rw [step, ← hpc, entry?_ofBlock_size] at hstep
        cases hstep
    | left hruns _ hrest =>
        rw [Nat.zero_add] at hrest
        obtain ⟨rfl, heq⟩ := hrest.eq_of_entry_none entry?_ofBlock_size
        cases heq
        rwa [List.append_nil]
  · intro h
    obtain ⟨c, hfollows, rfl⟩ := h.follows (sits_ofBlock numVars P)
    rwa [Nat.zero_add] at hfollows

/-- The table is stuck where the block is. -/
theorem follows_ofBlock_stuck_iff {err : UnfoldError} :
    ((ofBlock numVars P).Follows ⟨0, b⟩ values c ∧ (ofBlock numVars P).step c = .error err) ↔
      ∃ place trouble, P.Runs b values (.stuck place c.binding trouble)
        ∧ c.pc = P.address 0 place ∧ err = trouble.error c.pc := by
  constructor
  · rintro ⟨h, herr⟩
    obtain ⟨n, hn⟩ := h.halts (.inr ⟨err, herr⟩)
    cases (sits_ofBlock numVars P).passes hn with
    | @stuck _ place trouble hruns hpc =>
        obtain ⟨_, -, rfl, hstep⟩ := hruns.follows (sits_ofBlock numVars P)
        rw [← hpc] at hstep
        exact ⟨place, trouble, hruns, hpc, Except.error.inj (herr.symm.trans hstep)⟩
    | left hruns _ hrest =>
        rw [Nat.zero_add] at hrest
        obtain ⟨-, rfl⟩ := hrest.eq_of_entry_none entry?_ofBlock_size
        rw [step, entry?_ofBlock_size] at herr
        cases herr
  · rintro ⟨place, trouble, hruns, hpc, rfl⟩
    obtain ⟨_, hfollows, rfl, hstep⟩ := hruns.follows (sits_ofBlock numVars P)
    rw [← hpc] at hfollows hstep
    exact ⟨hfollows, hstep⟩

end OfBlock

/-- A table that is built does what its statements say. The statements are
one block; the table can come to its end if and only if the block can
finish, with the same values read and the same knowledge, and it gets stuck
if and only if the block does, at the entry of the same expression and for
the same reason. -/
theorem runs_iff_of_build (h : build names statements = .ok table) :
    ∃! P : Block, Block.Reads names statements P
      ∧ ∀ (b : Binding) (values : List Int16),
        (∀ b', table.Follows ⟨0, b⟩ values ⟨table.size, b'⟩ ↔ P.Runs b values (.finished b'))
        ∧ ∀ c err, (table.Follows ⟨0, b⟩ values c ∧ table.step c = .error err) ↔
          ∃ place trouble, P.Runs b values (.stuck place c.binding trouble)
            ∧ c.pc = P.address 0 place ∧ err = trouble.error c.pc := by
  obtain ⟨P, hP, -, rfl⟩ := build_eq_ok_iff.mp h
  refine ⟨P, ⟨hP, fun b values => ⟨fun b' => ?_, fun c err => follows_ofBlock_stuck_iff⟩⟩,
    fun Q hQ => ?_⟩
  · rw [size_ofBlock]
    exact follows_ofBlock_finished_iff
  · exact Except.ok.inj (hQ.1.parse_eq.symm.trans hP.parse_eq)

/-- Counting down what was read. -/
theorem runs_iff_of_build_countdown :
    ∃ table, build ["x"] ["read(x)", "while (x > 0)", "\x7b", "x = x - 1", "\x7d"] = .ok table
      ∧ table.Follows ⟨0, [none]⟩ [1] ⟨table.size, [some 0]⟩ := by
  let P : Block := .read 0 (.loop ⟨"x > 0", [.var 0 "x", .num 0, .binary .gt]⟩
    (.assign 0 ⟨"x - 1", [.var 0 "x", .num 1, .binary .sub]⟩ .done) .done)
  have hbuild : build ["x"] ["read(x)", "while (x > 0)", "\x7b", "x = x - 1", "\x7d"]
      = .ok (ofBlock 1 P) := by
    decide +kernel
  obtain ⟨Q, ⟨hQ, hruns⟩, -⟩ := runs_iff_of_build hbuild
  obtain rfl : Q = P := Except.ok.inj (hQ.parse_eq.symm.trans (by decide +kernel))
  have hloop : P.Runs [none] [1] (.finished [some 0]) :=
    .read 1 (.loop_true (by decide +kernel) (.assign (by decide +kernel) .done)
      (.loop_false (by decide +kernel) .done))
  exact ⟨_, hbuild, ((hruns [none] [1]).1 [some 0]).mpr hloop⟩

end ControlTable

end BranchingTime
