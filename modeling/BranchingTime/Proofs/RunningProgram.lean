import BranchingTime.Proofs.VerdictCorrect

/-!
# Verdicts hold of the running program

The transition system that is checked leaves the variables open that are
not known, so it is not the program as it runs. `ControlTable.running` is
the program as it runs: all values are known, and every entry acts on them.

Three facts join the two. A continuation that knows less takes the same
step (`ControlTable.step_mono`), so each step of the running program is one
of the checked system wherever a reached continuation covers the state.
What a step covers is covered by a continuation that is reached again
(`ControlTable.Reached.covers_next`), so one never leaves these states. And
a condition that is known to be true is true. A formula that speaks of all
paths only, without negation, can then be carried over
(`Ctl.Simulates.states`).
-/

namespace BranchingTime

/-! ## Knowing more -/

/-- What `b` knows, `b'` knows too. -/
def Binding.Below (b b' : Binding) : Prop :=
  ∀ (i : Nat) (value : Int16), b[i]? = some (some value) → b'[i]? = some (some value)

namespace Binding.Below

variable {b b' : Binding}

theorem set (h : Below b b') (hlength : b.length = b'.length) (var : Nat) (x : Option Int16) :
    Below (b.set var x) (b'.set var x) := by
  intro i value hi
  rw [List.getElem?_set] at hi ⊢
  rw [← hlength]
  by_cases hvar : var = i
  · rwa [if_pos hvar] at hi ⊢
  · rw [if_neg hvar] at hi ⊢
    exact h i value hi

theorem lookup (h : Below b b') {index : Nat} {name : String} {v : Value}
    (hv : Expr.lookup b index name = .ok v) : Expr.lookup b' index name = .ok v := by
  unfold Expr.lookup at hv
  split at hv
  · next n hn =>
      rw [← hv, Expr.lookup, h index n hn]
  · cases hv

theorem exec (h : Below b b') {stack stack' : List Value} {instr : Instr}
    (hv : Expr.exec b stack instr = .ok stack') : Expr.exec b' stack instr = .ok stack' := by
  cases instr with
  | num n => exact hv
  | var index name =>
      obtain ⟨v, hlookup, hv⟩ := exists_of_bind_eq_ok hv
      rw [Expr.exec, h.lookup hlookup]
      exact hv
  | unary op => cases stack <;> exact hv
  | binary op => rcases stack with _ | ⟨y, _ | ⟨x, stack⟩⟩ <;> exact hv

theorem foldlM_exec (h : Below b b') {code : List Instr} {stack stack' : List Value}
    (hv : code.foldlM (Expr.exec b) stack = .ok stack') :
    code.foldlM (Expr.exec b') stack = .ok stack' := by
  induction code generalizing stack with
  | nil => exact hv
  | cons instr code ih =>
      rw [List.foldlM_cons] at hv ⊢
      obtain ⟨stack1, hexec, hv⟩ := exists_of_bind_eq_ok hv
      rw [h.exec hexec]
      exact ih hv

/-- An expression that has a value keeps it when more is known. -/
theorem evaluate (h : Below b b') {e : Expr} {v : Value} (hv : e.evaluate b = .ok v) :
    e.evaluate b' = .ok v := by
  obtain ⟨stack, hcode, hv⟩ := exists_of_bind_eq_ok hv
  rw [Expr.evaluate, Expr.runCode, h.foldlM_exec hcode]
  exact hv

end Binding.Below

/-- `d` stands where `c` does and knows more. -/
structure Continuation.Below (c d : Continuation) : Prop where
  pc_eq : c.pc = d.pc
  length_eq : c.binding.length = d.binding.length
  binding : Binding.Below c.binding d.binding

theorem Continuation.Below.goto {c d : Continuation} (h : c.Below d) (pc : Nat) :
    (c.goto pc).Below (d.goto pc) :=
  ⟨rfl, h.length_eq, h.binding⟩

theorem Continuation.Below.set {c d : Continuation} (h : c.Below d) (pc var : Nat)
    (x : Option Int16) :
    Continuation.Below ⟨pc, c.binding.set var x⟩ ⟨pc, d.binding.set var x⟩ :=
  ⟨rfl, by simpa using h.length_eq, h.binding.set h.length_eq var x⟩

theorem Entry.step_mono {e : Entry} {c d next : Continuation} (h : c.Below d)
    (hstep : e.step c = .ok next) : ∃ next', e.step d = .ok next' ∧ next.Below next' := by
  simp only [Entry.step_eq_ok_iff, Entry.Does] at hstep ⊢
  cases hact : e.action with
  | read var =>
      rw [hact] at hstep
      subst hstep
      exact ⟨_, rfl, h.set e.next var none⟩
  | assign var rhs =>
      rw [hact] at hstep
      obtain ⟨value, hvalue, rfl⟩ := hstep
      exact ⟨_, ⟨value, h.binding.evaluate hvalue, rfl⟩, h.set e.next var (some value)⟩
  | branch cond yesPc noPc =>
      rw [hact] at hstep
      obtain ⟨x, hx, rfl⟩ := hstep
      exact ⟨_, ⟨x, h.binding.evaluate hx, rfl⟩, h.goto _⟩
  | loop cond yesPc noPc =>
      rw [hact] at hstep
      obtain ⟨x, hx, rfl⟩ := hstep
      exact ⟨_, ⟨x, h.binding.evaluate hx, rfl⟩, h.goto _⟩
  | elseMark header =>
      rw [hact] at hstep
      subst hstep
      exact ⟨_, rfl, h.goto _⟩
  | groupEnd header group =>
      rw [hact] at hstep
      subst hstep
      exact ⟨_, rfl, h.goto _⟩

theorem ControlTable.step_mono {table : ControlTable} {c d next : Continuation} (h : c.Below d)
    (hstep : table.step c = .ok next) : ∃ next', table.step d = .ok next' ∧ next.Below next' := by
  unfold ControlTable.step at hstep ⊢
  rw [← h.pc_eq]
  cases he : table.entry? c.pc with
  | some e =>
      rw [he] at hstep
      exact Entry.step_mono h hstep
  | none =>
      rw [he] at hstep
      obtain rfl := Except.ok.inj hstep
      exact ⟨d, rfl, h⟩

/-! ## The running program -/

section Running

variable {numVars : Nat} {c d next : Continuation} {s s' : State numVars} {table : ControlTable}

/-- The binding that knows every variable. -/
def State.binding (s : State numVars) : Binding := List.ofFn fun i => some (s.values i)

/-- The continuation that covers `s` alone. -/
def State.continuation (s : State numVars) : Continuation := ⟨s.pc, s.binding⟩

/-- What an entry does where all values are known: a `read` stores any
value, an assignment and a condition have theirs. -/
def Entry.Moves (e : Entry) (s s' : State numVars) : Prop :=
  match e.action with
  | .read var => s'.pc.val = e.next ∧ ∀ i, i.val ≠ var → s'.values i = s.values i
  | .assign var rhs => ∃ value, rhs.evaluate s.binding = .ok (.int value)
      ∧ s'.pc.val = e.next ∧ ∀ i, s'.values i = if i.val = var then value else s.values i
  | .branch cond thenPc elsePc => ∃ b, cond.evaluate s.binding = .ok (.bool b)
      ∧ s'.pc.val = (if b then thenPc else elsePc) ∧ s'.values = s.values
  | .loop cond bodyPc exitPc => ∃ b, cond.evaluate s.binding = .ok (.bool b)
      ∧ s'.pc.val = (if b then bodyPc else exitPc) ∧ s'.values = s.values
  | .elseMark _ | .groupEnd .. => s'.pc.val = e.next ∧ s'.values = s.values

/-- The program as it runs: entries move, the end stays where it is, and a
condition holds where it is true of the values. -/
def ControlTable.running (table : ControlTable) (conditions : List Expr) (numVars : Nat) :
    Ctl.Structure (State numVars) where
  Step s s' :=
    match table.entry? s.pc with
    | some e => e.Moves s s'
    | none => s' = s
  Label index s := ∃ condition, conditions[index]? = some condition
    ∧ condition.evaluate s.binding = .ok (.bool true)

theorem State.length_binding (s : State numVars) : s.binding.length = numVars :=
  List.length_ofFn

theorem State.getElem?_binding (s : State numVars) {i : Nat} {value : Int16} :
    s.binding[i]? = some (some value) ↔ ∃ h : i < numVars, s.values ⟨i, h⟩ = value := by
  unfold State.binding
  rw [List.getElem?_ofFn]
  by_cases h : i < numVars
  · simp [h]
  · simp [h]

/-- Covering a state is knowing less than it. -/
theorem Continuation.Fits.covers_iff (h : c.Fits numVars) :
    c.Covers s ↔ c.Below s.continuation := by
  constructor
  · rintro ⟨hpc, hvalues⟩
    refine ⟨hpc, h.length_eq.trans s.length_binding.symm, fun i value hi => ?_⟩
    have hlt : i < numVars := h.length_eq ▸ (List.getElem?_eq_some_iff.mp hi).1
    exact s.getElem?_binding.mpr ⟨hlt, hvalues ⟨i, hlt⟩ value hi⟩
  · intro hbelow
    refine ⟨hbelow.pc_eq, fun i value hi => ?_⟩
    obtain ⟨hlt, hvalue⟩ := s.getElem?_binding.mp (hbelow.binding i value hi)
    exact hvalue

theorem Continuation.Below.covers (h : c.Below d) (hd : d.Covers s) : c.Covers s :=
  ⟨h.pc_eq.trans hd.1, fun i value hi => hd.2 i value (h.binding i value hi)⟩

/-- Where the counter fits, some state is covered. -/
theorem Continuation.Fits.exists_covers (h : c.Fits numVars) :
    ∃ s : State numVars, c.Covers s := by
  refine ⟨⟨⟨c.pc, h.pc_lt⟩, fun i => (c.binding[i.val]?.join).getD 0⟩, rfl, fun i value hi => ?_⟩
  simp [hi]

theorem State.covers_goto {pc : Nat} :
    (s.continuation.goto pc).Covers s' ↔ s'.pc.val = pc ∧ s'.values = s.values := by
  refine and_congr eq_comm ?_
  constructor
  · intro h
    funext i
    exact h i _ (s.getElem?_binding.mpr ⟨i.isLt, rfl⟩)
  · intro h i value hi
    obtain ⟨hlt, hvalue⟩ := s.getElem?_binding.mp hi
    rw [h, ← hvalue]

theorem State.covers_set {pc var : Nat} {x : Option Int16} :
    Continuation.Covers ⟨pc, s.binding.set var x⟩ s' ↔ s'.pc.val = pc
      ∧ ∀ i, if i.val = var then ∀ value, x = some value → s'.values i = value
        else s'.values i = s.values i := by
  refine and_congr eq_comm (forall_congr' fun i => ?_)
  have hlength : i.val < s.binding.length := s.length_binding.symm ▸ i.isLt
  by_cases hvar : i.val = var
  · subst hvar
    simp [hlength]
  · rw [if_neg hvar, List.getElem?_set_ne (Ne.symm hvar)]
    constructor
    · intro h
      exact h _ (s.getElem?_binding.mpr ⟨i.isLt, rfl⟩)
    · intro h value hi
      obtain ⟨hlt, hvalue⟩ := s.getElem?_binding.mp hi
      rw [h, ← hvalue]

/-- Where all is known, what a step covers is where the entry moves to. -/
theorem Entry.moves_iff {e : Entry} :
    e.Moves s s' ↔ ∃ next, e.step s.continuation = .ok next ∧ next.Covers s' := by
  have hjump (cond : Expr) (yesPc noPc : Nat) :
      (∃ x, cond.evaluate s.binding = .ok (.bool x)
          ∧ s'.pc.val = (if x then yesPc else noPc) ∧ s'.values = s.values)
        ↔ ∃ next, (∃ x, cond.evaluate s.binding = .ok (.bool x)
          ∧ next = s.continuation.goto (if x then yesPc else noPc)) ∧ next.Covers s' := by
    simp only [← State.covers_goto]
    constructor
    · rintro ⟨x, hx, hcovers⟩
      exact ⟨_, ⟨x, hx, rfl⟩, hcovers⟩
    · rintro ⟨_, ⟨x, hx, rfl⟩, hcovers⟩
      exact ⟨x, hx, hcovers⟩
  simp only [Entry.step_eq_ok_iff, Entry.Does, Entry.Moves]
  cases e.action with
  | read var =>
      rw [exists_eq_left, State.continuation, State.covers_set]
      refine and_congr_right fun _ => forall_congr' fun i => ?_
      by_cases hvar : i.val = var <;> simp [hvar]
  | assign var rhs =>
      have hset (value : Int16) : (s'.pc.val = e.next
          ∧ ∀ i, s'.values i = if i.val = var then value else s.values i)
          ↔ Continuation.Covers ⟨e.next, s.binding.set var (some value)⟩ s' := by
        rw [State.covers_set]
        refine and_congr_right fun _ => forall_congr' fun i => ?_
        by_cases hvar : i.val = var <;> simp [hvar]
      simp only [hset]
      constructor
      · rintro ⟨value, hvalue, hcovers⟩
        exact ⟨_, ⟨value, hvalue, rfl⟩, hcovers⟩
      · rintro ⟨_, ⟨value, hvalue, rfl⟩, hcovers⟩
        exact ⟨value, hvalue, hcovers⟩
  | branch cond yesPc noPc => exact hjump cond yesPc noPc
  | loop cond yesPc noPc => exact hjump cond yesPc noPc
  | elseMark header => rw [exists_eq_left, State.covers_goto]
  | groupEnd header group => rw [exists_eq_left, State.covers_goto]

theorem ControlTable.running_step_iff {conditions : List Expr} :
    (table.running conditions numVars).Step s s' ↔
      ∃ next, table.step s.continuation = .ok next ∧ next.Covers s' := by
  unfold ControlTable.running ControlTable.step
  have hpc : s.continuation.pc = s.pc := rfl
  simp only [hpc]
  cases table.entry? s.pc with
  | some e => exact Entry.moves_iff
  | none =>
      constructor
      · rintro rfl
        exact ⟨_, rfl, State.covers_goto.mpr ⟨rfl, rfl⟩⟩
      · rintro ⟨next, hnext, hcovers⟩
        obtain rfl := Except.ok.inj hnext
        obtain ⟨hpc, hvalues⟩ := State.covers_goto.mp hcovers
        obtain ⟨pc, values⟩ := s
        obtain ⟨pc', values'⟩ := s'
        cases hvalues
        cases Fin.ext hpc
        rfl

/-! ## Reached continuations cover the run -/

/-- The states that a reached continuation covers. -/
def ControlTable.covered (table : ControlTable) (numVars : Nat) : Set (State numVars) :=
  {s | ∃ c, table.Reached numVars c ∧ c.Covers s}

/-- What the step of a reached continuation covers is covered again: after a
`read`, by the continuation that goes on with the value read. -/
theorem ControlTable.Reached.covers_next (h : table.Reached numVars c)
    (hstep : table.step c = .ok next) (hs : next.Covers s) : s ∈ table.covered numVars := by
  cases he : table.entry? c.pc with
  | none =>
      rw [ControlTable.step, he] at hstep
      obtain rfl := Except.ok.inj hstep
      exact ⟨c, h, hs⟩
  | some e =>
      by_cases hread : ∃ var, e.action = .read var
      · obtain ⟨var, hact⟩ := hread
        obtain rfl : next = ⟨e.next, c.binding.set var none⟩ := by
          rw [ControlTable.step, he] at hstep
          simpa only [Entry.Does, hact] using Entry.step_eq_ok_iff.mp hstep
        obtain ⟨hpc, hvalues⟩ := hs
        let value : Int16 := if hvar : var < numVars then s.values ⟨var, hvar⟩ else 0
        refine ⟨_, h.tail (.read value he hact), hpc, fun i v hi => ?_⟩
        by_cases hvar : i.val = var
        · subst hvar
          rw [List.getElem?_set_self'] at hi
          have hvalue : value = s.values i := dif_pos i.isLt
          cases hslot : c.binding[i.val]? with
          | none => simp [hslot] at hi
          | some slot => simpa [hslot, hvalue] using hi
        · refine hvalues i v ?_
          simpa only [List.getElem?_set_ne (Ne.symm hvar)] using hi
      · exact ⟨next, h.tail (.step he (fun var hact => hread ⟨var, hact⟩) hstep), hs⟩

end Running

/-! ## Formulas about all paths -/

namespace Ctl

/-- The operators that speak of all paths, and no negation. -/
def UnaryOp.IsUniversal : UnaryOp → Prop
  | .ax | .af | .ag => True
  | .not | .ex | .ef | .eg => False

def BinaryOp.IsUniversal : BinaryOp → Prop
  | .and | .or | .au => True
  | .xor | .eu => False

def Tree.IsUniversal : Tree → Prop
  | operand _ => True
  | unary op arg => op.IsUniversal ∧ arg.IsUniversal
  | binary op left right => op.IsUniversal ∧ left.IsUniversal ∧ right.IsUniversal

/-- On the states of `R`, which `C` never leaves, `K` has all steps of `C`
and no labels that `C` does not have. -/
structure Simulates {S : Type} (K C : Structure S) (R : Set S) : Prop where
  step : ∀ {s s'}, s ∈ R → C.Step s s' → K.Step s s' ∧ s' ∈ R
  label : ∀ {index s}, s ∈ R → K.Label index s → C.Label index s

namespace Simulates

variable {S : Type} {K C : Structure S} {R : Set S} {s s' : S} {P Q : S → Prop}

theorem walk (h : Simulates K C R) (hs : s ∈ R) (hPQ : ∀ s ∈ R, P s → Q s)
    (hwalk : C.Walk P s s') : K.Walk Q s s' ∧ s' ∈ R := by
  induction hwalk with
  | refl => exact ⟨.refl, hs⟩
  | tail _ hlast ih =>
      obtain ⟨hwalk, hmem⟩ := ih
      obtain ⟨hP, hstep⟩ := hlast
      obtain ⟨hstep, hmem'⟩ := h.step hmem hstep
      exact ⟨hwalk.tail ⟨hPQ _ hmem hP, hstep⟩, hmem'⟩

theorem run (h : Simulates K C R) (hs : s ∈ R) (hPQ : ∀ s ∈ R, P s → Q s) (hrun : C.Run P s) :
    K.Run Q s := by
  obtain ⟨path, rfl, hpath⟩ := hrun
  have hmem : ∀ i, path i ∈ R := by
    intro i
    induction i with
    | zero => exact hs
    | succ i ih => exact (h.step ih (hpath i).2).2
  exact ⟨path, rfl, fun i => ⟨hPQ _ (hmem i) (hpath i).1, (h.step (hmem i) (hpath i).2).1⟩⟩

theorem unary (h : Simulates K C R) {op : UnaryOp} (hop : op.IsUniversal) {f g : Set S}
    (hfg : ∀ s ∈ R, s ∈ f → s ∈ g) (hs : s ∈ R) (hmem : s ∈ K.unary op f) :
    s ∈ C.unary op g := by
  have hgf : ∀ s ∈ R, s ∉ g → s ∉ f := fun s hs => mt (hfg s hs)
  cases op with
  | ax =>
      intro s' hstep
      obtain ⟨hstep, hs'⟩ := h.step hs hstep
      exact hfg s' hs' (hmem s' hstep)
  | af => exact fun hrun => hmem (h.run hs hgf hrun)
  | ag =>
      intro s' hwalk
      obtain ⟨hwalk, hs'⟩ := h.walk hs (fun _ _ => id) hwalk
      exact hfg s' hs' (hmem s' hwalk)
  | not | ex | ef | eg => exact hop.elim

theorem binary (h : Simulates K C R) {op : BinaryOp} (hop : op.IsUniversal) {f g f' g' : Set S}
    (hf : ∀ s ∈ R, s ∈ f → s ∈ f') (hg : ∀ s ∈ R, s ∈ g → s ∈ g') (hs : s ∈ R)
    (hmem : s ∈ K.binary op f g) : s ∈ C.binary op f' g' := by
  cases op with
  | and => exact ⟨hf s hs hmem.1, hg s hs hmem.2⟩
  | or => exact hmem.imp (hf s hs) (hg s hs)
  | au =>
      have hgg : ∀ s ∈ R, s ∉ g' → s ∉ g := fun s hs => mt (hg s hs)
      refine ⟨fun hrun => hmem.1 (h.run hs hgg hrun), fun hwalk => ?_⟩
      obtain ⟨s', hwalk, hg', hf'⟩ := hwalk
      obtain ⟨hwalk, hs'⟩ := h.walk hs hgg hwalk
      exact hmem.2 ⟨s', hwalk, hgg s' hs' hg', mt (hf s' hs') hf'⟩
  | xor | eu => exact hop.elim

/-- What holds in `K` along all paths holds in `C`. -/
theorem states (h : Simulates K C R) {t : Tree} (ht : t.IsUniversal) (hs : s ∈ R)
    (hmem : s ∈ t.states K) : s ∈ t.states C := by
  induction t generalizing s with
  | operand index => exact h.label hs hmem
  | unary op arg ih => exact h.unary ht.1 (fun _ hs' => ih ht.2 hs') hs hmem
  | binary op left right ihl ihr =>
      exact h.binary ht.1 (fun _ hs' => ihl ht.2.1 hs') (fun _ hs' => ihr ht.2.2 hs') hs hmem

end Simulates

end Ctl

/-! ## From the checked system to the running program -/

section Running

variable {numVars : Nat} {table : ControlTable} {conditions : List Expr} {s s' : State numVars}

/-- Where the program goes on, a run is one of the checked system. -/
theorem ControlTable.Goes.simulates (hgoes : table.Goes numVars) (hr : table.InRange) :
    Ctl.Simulates (table.kripke conditions numVars) (table.running conditions numVars)
      (table.covered numVars) where
  step {s s'} hs hstep := by
    obtain ⟨c, hc, hcovers⟩ := hs
    obtain ⟨next, hnext⟩ := hgoes c hc
    obtain ⟨next', hnext', hcovers'⟩ := ControlTable.running_step_iff.mp hstep
    -- the continuation knows less than the state, so its step covers what the state's step covers
    have hbelow := (hr.fits_reached hc).covers_iff.mp hcovers
    obtain ⟨next'', hnext'', hbelow'⟩ := ControlTable.step_mono hbelow hnext
    obtain rfl := Except.ok.inj (hnext'.symm.trans hnext'')
    have hnextCovers := hbelow'.covers hcovers'
    exact ⟨⟨c, hc, next, hnext, hcovers, hnextCovers⟩, hc.covers_next hnext hnextCovers⟩
  label {index s} hs hlabel := by
    obtain ⟨condition, hcondition, c, hc, htrue, hcovers⟩ := hlabel
    have hbelow := (hr.fits_reached hc).covers_iff.mp hcovers
    exact ⟨condition, hcondition, hbelow.binding.evaluate htrue⟩

/-- Where the program goes on, it does not get stuck when it runs. -/
theorem ControlTable.Goes.exists_step (hgoes : table.Goes numVars) (hr : table.InRange)
    (hs : s ∈ table.covered numVars) : ∃ s', (table.running conditions numVars).Step s s' := by
  obtain ⟨c, hc, hcovers⟩ := hs
  obtain ⟨next, hnext⟩ := hgoes c hc
  have hfits := hr.fits_reached hc
  obtain ⟨next', hnext', hbelow⟩ := ControlTable.step_mono (hfits.covers_iff.mp hcovers) hnext
  have hfits' : next'.Fits numVars := hr.fits_step ⟨s.pc.isLt, s.length_binding⟩ hnext'
  obtain ⟨s', hs'⟩ := hfits'.exists_covers
  exact ⟨s', ControlTable.running_step_iff.mpr ⟨next', hnext', hs'⟩⟩

end Running

/-- The program of a task as it runs. -/
def Task.running (q : Task) : Ctl.Structure (State q.program.names.length) :=
  q.table.running q.conditions q.program.names.length

/-- A formula about all paths that is found to hold does hold of the running
program, whatever values its variables start with; and the program never
gets stuck on the way. -/
theorem Session.running_of_holds (program : String) (conditions : List String)
    (formula : String) (s s' : Session)
    (h : Session.verify program conditions formula s = .ok .holds s') :
    ∃ q : Task, q.ReadFrom program conditions formula
      ∧ ∃! t : Ctl.Tree, t.postorder = q.formula.code
        ∧ (t.IsUniversal → ∀ values, ⟨0, values⟩ ∈ t.states q.running)
        ∧ ∀ values s₁, q.running.Walk (fun _ => True) ⟨0, values⟩ s₁ →
            ∃ s₂, q.running.Step s₁ s₂ := by
  rcases ((ends_verify_session program conditions formula).of_ok h).2 with
    ⟨hempty, -⟩ | ⟨q, t, hq, hsettled⟩
  · cases hempty
  have hr : q.table.InRange := ControlTable.inRange_of_build hq.table
  have hsim : Ctl.Simulates q.system q.running _ := hsettled.goes.simulates hr
  have hstart (values : Fin q.program.names.length → Int16) :
      ⟨0, values⟩ ∈ q.table.covered q.program.names.length :=
    ⟨_, .refl, Continuation.covers_start.mpr rfl⟩
  have hholds := hsettled.answers.eq_holds_iff.mp rfl
  refine ⟨q, hq, t, ⟨hsettled.tree, fun ht values => ?_, fun values s₁ hwalk => ?_⟩, fun u hu => ?_⟩
  · exact hsim.states ht (hstart values) (hholds _ rfl)
  · exact hsettled.goes.exists_step hr (hsim.walk (hstart values) (fun _ _ => id) hwalk).2
  · exact Ctl.Tree.postorder_injective (hu.1.trans hsettled.tree.symm)

/-- After the assignment of `1` there is no way to another value. -/
theorem Session.running_of_holds_assign :
    (∃ s', Session.verify "int x; x = 1;" ["x == 1"] "AX AG 0" (Session.new ⟨4, 0, 1⟩)
      = .ok .holds s')
    ∧ ∀ values, ⟨0, values⟩ ∈ (Ctl.Tree.unary .ax (.unary .ag (.operand 0))).states
      (Task.assignOne ⟨"AX AG 0", [.operand 0, .unary .ag, .unary .ax]⟩).running := by
  let q : Task := .assignOne ⟨"AX AG 0", [.operand 0, .unary .ag, .unary .ax]⟩
  let t : Ctl.Tree := .unary .ax (.unary .ag (.operand 0))
  have hq : q.ReadFrom "int x; x = 1;" ["x == 1"] "AX AG 0" :=
    Task.assignOne_readFrom (by decide +kernel)
  have hc : q.Checkable := Task.assignOne_checkable (t := t) rfl (by simp)
  have hend : q.table.Reached 1 ⟨1, [some 1]⟩ :=
    .tail .refl (.step rfl (fun _ => Action.noConfusion) rfl)
  -- every step leads to the end, and the end is kept
  have hstep : ∀ s s', q.system.Step s s' → Continuation.Covers ⟨1, [some 1]⟩ s' := by
    intro s s' h
    obtain ⟨c, hc, next, hnext, -, hcovers⟩ := h
    rcases Task.assignOne_reached hc with rfl | rfl
    · exact Except.ok.inj hnext ▸ hcovers
    · exact Except.ok.inj hnext ▸ hcovers
  have hholds : t.HoldsAtStart q.system := by
    intro s _ s' hfirst s'' hwalk
    have hcovers : Continuation.Covers ⟨1, [some 1]⟩ s'' := by
      induction hwalk with
      | refl => exact hstep s s' hfirst
      | tail _ hlast _ => exact hstep _ _ hlast.2
    exact ⟨_, rfl, _, hend, rfl, hcovers⟩
  obtain ⟨v, s', u, hrun, hsettled⟩ := hc.exists_settled hq (s := Session.new ⟨4, 0, 1⟩) (by decide)
  obtain rfl : u = t := Ctl.Tree.postorder_injective hsettled.tree
  obtain rfl : v = .holds := hsettled.answers.eq_holds_iff.mpr hholds
  obtain ⟨q', hq', u, ⟨hu, hruns, -⟩, -⟩ := Session.running_of_holds _ _ _ _ _ hrun
  obtain rfl := hq.unique hq'
  obtain rfl : u = t := Ctl.Tree.postorder_injective hu
  exact ⟨⟨s', hrun⟩, hruns ⟨trivial, trivial, trivial⟩⟩

end BranchingTime
