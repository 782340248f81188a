import Mathlib.Data.Fintype.BigOperators
import Mathlib.Data.Fintype.Option
import Mathlib.Logic.Relation
import BranchingTime.Kripke.Model

/-!
# The continuations of a program

`ControlTable.Reached` is where a program can come from its start, when
every `read` may give every value. A table that was laid out from a block
sends the counter to its own entries or to its end
(`ControlTable.ofBlock_inRange`), so the counter of every reached
continuation fits in 8 bits, and there are no more reached continuations
than `Unfolding.continuationBound` allows (`length_le_continuationBound`).
-/

namespace BranchingTime

/-! ## Where entries lead -/

/-- The counters that an entry may set. -/
def Entry.targets (e : Entry) : List Nat :=
  match e.action with
  | .branch _ thenPc elsePc => [e.next, thenPc, elsePc]
  | .loop _ bodyPc exitPc => [e.next, bodyPc, exitPc]
  | _ => [e.next]

theorem exists_of_bind_eq_ok {ε α β : Type} {x : Except ε α} {f : α → Except ε β} {b : β}
    (h : (x >>= f) = .ok b) : ∃ a, x = .ok a ∧ f a = .ok b := by
  cases x with
  | error e => cases h
  | ok a => exact ⟨a, rfl, h⟩

theorem Action.valueAt_eq_ok_iff {pc : Nat} {e : Expr} {b : Binding} {v : Value} :
    valueAt pc e b = .ok v ↔ e.evaluate b = .ok v := by
  unfold valueAt
  cases e.evaluate b with
  | ok w => simp
  | error cause => exact iff_of_false nofun nofun

theorem Action.condition_eq_ok_iff {pc : Nat} {cond : Expr} {b : Binding} {x : Bool} :
    condition pc cond b = .ok x ↔ cond.evaluate b = .ok (.bool x) := by
  have hvalue : valueAt pc cond b = .ok (.bool x) ↔ _ := valueAt_eq_ok_iff
  unfold condition
  rw [← hvalue]
  cases valueAt pc cond b with
  | error cause => exact iff_of_false nofun nofun
  | ok v =>
      cases v with
      | int n => exact iff_of_false nofun nofun
      | bool y =>
          constructor
          · intro h
            rw [Except.ok.inj h]
          · intro h
            rw [Value.bool.inj (Except.ok.inj h)]
            rfl

/-- What an entry does to a continuation where it has a step. -/
def Entry.Does (e : Entry) (c next : Continuation) : Prop :=
  match e.action with
  | .read var => next = ⟨e.next, c.binding.set var none⟩
  | .assign var rhs => ∃ value, rhs.evaluate c.binding = .ok (.int value)
      ∧ next = ⟨e.next, c.binding.set var (some value)⟩
  | .branch cond yesPc noPc | .loop cond yesPc noPc =>
      ∃ x, cond.evaluate c.binding = .ok (.bool x) ∧ next = c.goto (if x then yesPc else noPc)
  | .elseMark _ | .groupEnd .. => next = c.goto e.next

theorem Entry.step_eq_ok_iff {e : Entry} {c next : Continuation} :
    e.step c = .ok next ↔ e.Does c next := by
  have hpure (next' : Continuation) :
      (pure next' : Except UnfoldError Continuation) = .ok next ↔ next = next' :=
    ⟨fun h => (Except.ok.inj h).symm, fun h => congrArg Except.ok h.symm⟩
  have hjump (cond : Expr) (yesPc noPc : Nat) :
      (do return c.goto (if ← Action.condition c.pc cond c.binding then yesPc else noPc)) = .ok next
        ↔ ∃ x, cond.evaluate c.binding = .ok (.bool x)
          ∧ next = c.goto (if x then yesPc else noPc) := by
    constructor
    · intro h
      obtain ⟨x, hx, h⟩ := exists_of_bind_eq_ok h
      exact ⟨x, Action.condition_eq_ok_iff.mp hx, (Except.ok.inj h).symm⟩
    · intro h
      obtain ⟨x, hx, rfl⟩ := h
      rw [Action.condition_eq_ok_iff.mpr hx]
      rfl
  unfold Entry.step Entry.Does
  cases e.action with
  | read var => exact hpure _
  | assign var rhs =>
      constructor
      · intro h
        obtain ⟨v, hv, h⟩ := exists_of_bind_eq_ok h
        cases v with
        | bool x => cases h
        | int value => exact ⟨value, Action.valueAt_eq_ok_iff.mp hv, (Except.ok.inj h).symm⟩
      · intro h
        obtain ⟨value, hv, rfl⟩ := h
        simp only [Action.valueAt_eq_ok_iff.mpr hv]
        rfl
  | branch cond yesPc noPc => exact hjump cond yesPc noPc
  | loop cond yesPc noPc => exact hjump cond yesPc noPc
  | elseMark header => exact hpure _
  | groupEnd header group => exact hpure _

theorem Entry.step_spec {e : Entry} {c c' : Continuation} (h : e.step c = .ok c') :
    c'.pc ∈ e.targets ∧ c'.binding.length = c.binding.length := by
  rw [step_eq_ok_iff] at h
  unfold Entry.Does at h
  unfold Entry.targets
  cases hact : e.action with
  | read var =>
      rw [hact] at h
      simp [h]
  | assign var rhs =>
      rw [hact] at h
      obtain ⟨value, -, rfl⟩ := h
      simp
  | branch cond yesPc noPc =>
      rw [hact] at h
      obtain ⟨x, -, rfl⟩ := h
      cases x <;> simp [Continuation.goto]
  | loop cond yesPc noPc =>
      rw [hact] at h
      obtain ⟨x, -, rfl⟩ := h
      cases x <;> simp [Continuation.goto]
  | elseMark header =>
      rw [hact] at h
      simp [h, Continuation.goto]
  | groupEnd header group =>
      rw [hact] at h
      simp [h, Continuation.goto]

theorem Block.length_layout (b : Block) (pc : Nat) (known : List Descriptor) :
    (b.layout pc known).length = b.size := by
  induction b generalizing pc known with
  | done => rfl
  | read var rest ih => simp [layout, size, ih, Nat.add_comm]
  | assign var rhs rest ih => simp [layout, size, ih, Nat.add_comm]
  | ifThen cond body rest ihb ihr =>
      simp only [layout, size, List.cons_append, List.length_cons, List.length_append, ihb, ihr]
      omega
  | ifElse cond thenBody elseBody rest iht ihe ihr =>
      simp only [layout, size, List.cons_append, List.length_cons, List.length_append, iht, ihe,
        ihr]
      omega
  | loop cond body rest ihb ihr =>
      simp only [layout, size, List.cons_append, List.length_cons, List.length_append, ihb, ihr]
      omega

/-- Blocks send the counter to their own entries, or to just after the last
one. -/
theorem Block.targets_layout (b : Block) {pc : Nat} {known : List Descriptor} {e : Entry}
    {t : Nat} (he : e ∈ b.layout pc known) (ht : t ∈ e.targets) : t ≤ pc + b.size := by
  induction b generalizing pc known with
  | done => cases he
  | read var rest ih =>
      rw [size]
      rcases List.mem_cons.mp he with rfl | he
      · simp only [Entry.targets, List.mem_singleton] at ht
        omega
      · have := ih he
        omega
  | assign var rhs rest ih =>
      rw [size]
      rcases List.mem_cons.mp he with rfl | he
      · simp only [Entry.targets, List.mem_singleton] at ht
        omega
      · have := ih he
        omega
  | ifThen cond body rest ihb ihr =>
      rw [size]
      simp only [layout, List.cons_append, List.mem_cons, List.mem_append] at he
      rcases he with rfl | he | rfl | he
      · simp only [Entry.targets, List.mem_cons, List.not_mem_nil, or_false] at ht
        omega
      · have := ihb he
        omega
      · simp only [Entry.targets, List.mem_singleton] at ht
        omega
      · have := ihr he
        omega
  | ifElse cond thenBody elseBody rest iht ihe ihr =>
      rw [size]
      simp only [layout, List.cons_append, List.mem_cons, List.mem_append] at he
      rcases he with rfl | (he | rfl | rfl | he) | rfl | he
      · simp only [Entry.targets, List.mem_cons, List.not_mem_nil, or_false] at ht
        omega
      · have := iht he
        omega
      · simp only [Entry.targets, List.mem_singleton] at ht
        omega
      · simp only [Entry.targets, List.mem_singleton] at ht
        omega
      · have := ihe he
        omega
      · simp only [Entry.targets, List.mem_singleton] at ht
        omega
      · have := ihr he
        omega
  | loop cond body rest ihb ihr =>
      rw [size]
      simp only [layout, List.cons_append, List.mem_cons, List.mem_append] at he
      rcases he with rfl | he | rfl | he
      · simp only [Entry.targets, List.mem_cons, List.not_mem_nil, or_false] at ht
        omega
      · have := ihb he
        omega
      · simp only [Entry.targets, List.mem_singleton] at ht
        omega
      · have := ihr he
        omega

namespace ControlTable

variable {t : ControlTable} {c c' next : Continuation} {numVars : Nat}

/-- The counter can hold every entry and the end, and no entry leads out of
these. -/
structure InRange (t : ControlTable) : Prop where
  size_le : t.size ≤ maxEntries
  targets_le : ∀ {e target}, e ∈ t.entries → target ∈ e.targets → target ≤ t.size

theorem ofBlock_inRange {b : Block} (h : b.size ≤ maxEntries) : (ofBlock numVars b).InRange := by
  have hsize : (ofBlock numVars b).size = b.size := b.length_layout ..
  refine ⟨hsize ▸ h, fun he ht => ?_⟩
  have := b.targets_layout he ht
  omega

theorem inRange_of_build {names statements : List String} (h : build names statements = .ok t) :
    t.InRange := by
  obtain ⟨b, -, h⟩ := exists_of_bind_eq_ok h
  unfold ofBlock? at h
  split at h
  · next hle =>
      obtain rfl := Except.ok.inj h
      exact ofBlock_inRange hle
  · cases h

/-! ## Reached continuations -/

/-- Where a program can go on from a continuation: to where its step leads,
or after a `read` with any value. The end leads nowhere. -/
inductive Leads (t : ControlTable) (c : Continuation) : Continuation → Prop
  | step {e : Entry} {next : Continuation} (he : t.entry? c.pc = some e)
      (hread : ∀ var, e.action ≠ .read var) (h : t.step c = .ok next) : Leads t c next
  | read {e : Entry} {var : Nat} (value : Int16) (he : t.entry? c.pc = some e)
      (hread : e.action = .read var) : Leads t c ⟨e.next, c.binding.set var (some value)⟩

/-- The continuations that a program reaches from its start. -/
def Reached (t : ControlTable) (numVars : Nat) : Continuation → Prop :=
  Relation.ReflTransGen t.Leads (.start numVars)

theorem mem_allValues (value : Int16) : value ∈ allValues := by
  have hlow := value.le_toInt
  have hhigh := value.toInt_lt
  refine List.mem_map.mpr ⟨(value.toInt + 32768).toNat, List.mem_range.mpr (by omega), ?_⟩
  rw [Int.toNat_of_nonneg (by omega), Int.add_sub_cancel, Int16.ofInt_toInt]

/-- The listed successors are where the program can go on. -/
theorem mem_successors (h : t.step c = .ok next) : c' ∈ t.successors c next ↔ t.Leads c c' := by
  unfold successors
  cases he : t.entry? c.pc with
  | none =>
      constructor
      · intro hmem
        cases hmem
      · intro hl
        cases hl with
        | step he' =>
            rw [he] at he'
            cases he'
        | read _ he' =>
            rw [he] at he'
            cases he'
  | some e =>
      have hstep : e.step c = .ok next := by
        rw [step, he] at h
        exact h
      simp only
      split
      · next var hact =>
          have hnext : next = ⟨e.next, c.binding.set var none⟩ := by
            rw [Entry.step, hact] at hstep
            exact (Except.ok.inj hstep).symm
          subst hnext
          rw [List.mem_map]
          constructor
          · rintro ⟨value, -, rfl⟩
            rw [List.set_set]
            exact .read value he hact
          · intro hl
            cases hl with
            | step he' hread =>
                rw [he] at he'
                exact absurd hact (Option.some.inj he' ▸ hread var)
            | read value he' hact' =>
                rw [he] at he'
                obtain rfl := Option.some.inj he'
                obtain rfl := Action.read.inj (hact.symm.trans hact')
                exact ⟨value, mem_allValues value, by rw [List.set_set]⟩
      · next hread =>
          rw [List.mem_singleton]
          constructor
          · rintro rfl
            exact .step he (fun var hact => hread var hact) h
          · intro hl
            cases hl with
            | step _ _ h' => exact Except.ok.inj (h'.symm.trans h)
            | read value he' hact =>
                rw [he] at he'
                obtain rfl := Option.some.inj he'
                exact absurd hact (hread _)

end ControlTable

/-! ## How many there are -/

/-- The counter fits in 8 bits, and there is a slot for every variable. -/
structure Continuation.Fits (numVars : Nat) (c : Continuation) : Prop where
  pc_lt : c.pc < 256
  length_eq : c.binding.length = numVars

namespace ControlTable

variable {t : ControlTable} {c c' : Continuation} {numVars : Nat}

theorem fits_start (numVars : Nat) : (Continuation.start numVars).Fits numVars :=
  ⟨by simp [Continuation.start], by simp [Continuation.start]⟩

theorem InRange.target_lt (ht : t.InRange) {e : Entry} {target : Nat}
    (he : t.entry? c.pc = some e) (htarget : target ∈ e.targets) : target < 256 := by
  have hle := ht.targets_le (List.mem_of_getElem? he) htarget
  have hsize : t.size ≤ 255 := ht.size_le
  omega

theorem InRange.pc_le_of_leads (ht : t.InRange) (h : t.Leads c c') : c'.pc ≤ t.size := by
  cases h with
  | @step e _ he _ h =>
      rw [step, he] at h
      exact ht.targets_le (List.mem_of_getElem? he) (Entry.step_spec h).1
  | read value he hact =>
      exact ht.targets_le (List.mem_of_getElem? he) (by simp [Entry.targets, hact])

theorem InRange.pc_le_of_reached (ht : t.InRange) (h : t.Reached numVars c) : c.pc ≤ t.size := by
  cases h with
  | refl => exact Nat.zero_le _
  | tail _ hl => exact ht.pc_le_of_leads hl

theorem InRange.fits_step (ht : t.InRange) (hc : c.Fits numVars) (h : t.step c = .ok c') :
    c'.Fits numVars := by
  unfold step at h
  split at h
  · next e he =>
      obtain ⟨hpc, hlen⟩ := Entry.step_spec h
      exact ⟨ht.target_lt he hpc, hlen.trans hc.length_eq⟩
  · obtain rfl := Except.ok.inj h
    exact hc

theorem InRange.fits_leads (ht : t.InRange) (hc : c.Fits numVars) (h : t.Leads c c') :
    c'.Fits numVars := by
  cases h with
  | step _ _ h => exact ht.fits_step hc h
  | read value he hact =>
      refine ⟨ht.target_lt he ?_, by simpa using hc.length_eq⟩
      simp [Entry.targets, hact]

theorem InRange.fits_reached (ht : t.InRange) (h : t.Reached numVars c) : c.Fits numVars := by
  induction h with
  | refl => exact fits_start numVars
  | tail _ hl ih => exact ht.fits_leads ih hl

end ControlTable

/-- A continuation as one of finitely many. -/
def Continuation.code (numVars : Nat) (c : Continuation) :
    Fin 256 × (Fin numVars → Option (Fin 65536)) :=
  (Fin.ofNat 256 c.pc, fun i => (c.binding[i.val]?.join).map fun value => value.toBitVec.toFin)

theorem Continuation.Fits.code_inj {numVars : Nat} {c c' : Continuation} (hc : c.Fits numVars)
    (hc' : c'.Fits numVars) (h : c.code numVars = c'.code numVars) : c = c' := by
  obtain ⟨pc, binding⟩ := c
  obtain ⟨pc', binding'⟩ := c'
  obtain ⟨hpc, hbinding⟩ := Prod.mk.inj h
  have hpc : pc = pc' := by
    have := congrArg Fin.val hpc
    simpa [Nat.mod_eq_of_lt hc.pc_lt, Nat.mod_eq_of_lt hc'.pc_lt] using this
  have hlen := hc.length_eq
  have hlen' := hc'.length_eq
  have hbinding : binding = binding' := by
    refine List.ext_getElem (hlen.trans hlen'.symm) fun i hi hi' => ?_
    have := congrFun hbinding ⟨i, hlen ▸ hi⟩
    simp only [List.getElem?_eq_getElem hi, List.getElem?_eq_getElem hi', Option.join_some] at this
    refine Option.map_injective (fun x y hxy => ?_) this
    exact Int16.toBitVec_inj.mp (BitVec.toFin_inj.mp hxy)
  rw [hpc, hbinding]

/-- There are no more continuations that fit than the bound says. -/
theorem length_le_continuationBound {e : Encoding} {l : List Continuation} (hnd : l.Nodup)
    (hfits : ∀ c ∈ l, c.Fits e.names.length) : l.length ≤ Unfolding.continuationBound e := by
  have hmap : (l.map (Continuation.code e.names.length)).Nodup :=
    hnd.map_on fun c hc c' hc' h => (hfits c hc).code_inj (hfits c' hc') h
  have hle := hmap.length_le_card
  simpa [Unfolding.continuationBound] using hle

end BranchingTime
