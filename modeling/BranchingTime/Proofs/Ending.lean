import Std.Data.HashMap
import BranchingTime.Diagram.Manager

/-!
# How operations end

An operation on a state, such as a manager, ends in a result or in a
fault, and leaves a state behind either way. `Ends x m Q E` says what holds
then: `Q` of the result and the state, or `E` of the fault and the state.
`Returns` is the special case without faults.

The equivalences below compute `Ends` along the structure of an
operation, one for each way to build operations. A proof about an
operation rewrites with them until it meets the operations that it calls,
and goes on there with what is known of those (`Ends.mono`).
-/

namespace BranchingTime.Diagram

/-- From `m`, the operation `x` ends in a result and a state with `Q`, or in
a fault and a state with `E`. -/
def Ends {ε σ α : Type} (x : EStateM ε σ α) (m : σ) (Q : α → σ → Prop) (E : ε → σ → Prop) :
    Prop :=
  match x m with
  | .ok a m' => Q a m'
  | .error e m' => E e m'

/-- From `m`, the operation `x` ends in a result and a state with `Q`. -/
abbrev Returns {ε σ α : Type} (x : EStateM ε σ α) (m : σ) (Q : α → σ → Prop) : Prop :=
  Ends x m Q fun _ _ => False

section Rules

variable {ε σ α β : Type} {m m' : σ} {E E' : ε → σ → Prop}

/-! ## Running on -/

theorem bind_of_ok {x : EStateM ε σ α} {f : α → EStateM ε σ β} {a : α}
    (hx : x m = .ok a m') : (x >>= f) m = f a m' := by
  show EStateM.bind x f m = _
  rw [EStateM.bind, hx]

theorem bind_of_error {x : EStateM ε σ α} {f : α → EStateM ε σ β} {e : ε}
    (hx : x m = .error e m') : (x >>= f) m = .error e m' := by
  show EStateM.bind x f m = _
  rw [EStateM.bind, hx]

/-! ## Reading an ending off a run -/

theorem Ends.of_ok {x : EStateM ε σ α} {a : α} {Q : α → σ → Prop}
    (h : Ends x m Q E) (hx : x m = .ok a m') : Q a m' := by
  unfold Ends at h
  rw [hx] at h
  exact h

theorem Ends.of_error {x : EStateM ε σ α} {e : ε} {Q : α → σ → Prop}
    (h : Ends x m Q E) (hx : x m = .error e m') : E e m' := by
  unfold Ends at h
  rw [hx] at h
  exact h

theorem ends_of_eq_ok {x : EStateM ε σ α} {a : α} {Q : α → σ → Prop} (hx : x m = .ok a m')
    (h : Q a m') : Ends x m Q E := by
  unfold Ends
  rw [hx]
  exact h

theorem Returns.exists_ok {x : EStateM ε σ α} {Q : α → σ → Prop}
    (h : Returns x m Q) : ∃ a m', x m = .ok a m' ∧ Q a m' := by
  unfold Returns Ends at h
  cases hx : x m with
  | ok a m' =>
      rw [hx] at h
      exact ⟨a, m', rfl, h⟩
  | error e m' =>
      rw [hx] at h
      exact h.elim

theorem Ends.mono {x : EStateM ε σ α} {Q Q' : α → σ → Prop} (h : Ends x m Q E)
    (hQ : ∀ a m', Q a m' → Q' a m') (hE : ∀ e m', E e m' → E' e m') : Ends x m Q' E' := by
  unfold Ends at h ⊢
  cases hx : x m with
  | ok a m' =>
      rw [hx] at h
      exact hQ a m' h
  | error e m' =>
      rw [hx] at h
      exact hE e m' h

theorem Ends.imp {x : EStateM ε σ α} {Q Q' : α → σ → Prop} (h : Ends x m Q E)
    (hQ : ∀ a m', Q a m' → Q' a m') : Ends x m Q' E :=
  h.mono hQ fun _ _ he => he

theorem Ends.and {x : EStateM ε σ α} {Q Q' : α → σ → Prop} (h : Ends x m Q E)
    (h' : Ends x m Q' E') :
    Ends x m (fun a m' => Q a m' ∧ Q' a m') (fun e m' => E e m' ∧ E' e m') := by
  unfold Ends at h h' ⊢
  cases hx : x m with
  | ok a m' =>
      rw [hx] at h h'
      exact ⟨h, h'⟩
  | error e m' =>
      rw [hx] at h h'
      exact ⟨h, h'⟩

theorem ends_true {x : EStateM ε σ α} : Ends x m (fun _ _ => True) (fun _ _ => True) := by
  unfold Ends
  split <;> trivial

/-- An operation ends as it runs. -/
theorem ends_self {x : EStateM ε σ α} :
    Ends x m (fun a m' => x m = .ok a m') (fun e m' => x m = .error e m') := by
  unfold Ends
  cases x m with
  | ok a m' => rfl
  | error e m' => rfl

/-- An operation that returns may be used where faults are allowed. -/
theorem Returns.ends {x : EStateM ε σ α} {Q Q' : α → σ → Prop} (h : Returns x m Q)
    (hQ : ∀ a m', Q a m' → Q' a m') : Ends x m Q' E :=
  Ends.mono h hQ fun _ _ hf => hf.elim

/-! ## Endings of composed operations -/

-- The two directions are given as functions, not as reflexivity: rewriting by reflexivity would
-- let the kernel evaluate table and cache look-ups on both sides. For the same reason the pair
-- that a `modifyGet` computes is named, not projected.

theorem ends_pure {a : α} {Q : α → σ → Prop} :
    Ends (pure a : EStateM ε σ α) m Q E ↔ Q a m :=
  ⟨fun h => h, fun h => h⟩

theorem ends_throw {e : ε} {Q : α → σ → Prop} :
    Ends (throw e : EStateM ε σ α) m Q E ↔ E e m :=
  ⟨fun h => h, fun h => h⟩

theorem ends_get {Q : σ → σ → Prop} : Ends (get : EStateM ε σ σ) m Q E ↔ Q m m :=
  ⟨fun h => h, fun h => h⟩

theorem ends_ofExcept {x : Except ε α} {Q : α → σ → Prop} :
    Ends (MonadExcept.ofExcept x : EStateM ε σ α) m Q E ↔
      match x with
      | .ok a => Q a m
      | .error e => E e m := by
  cases x with
  | ok a => exact ⟨fun h => h, fun h => h⟩
  | error e => exact ⟨fun h => h, fun h => h⟩

theorem ends_modifyGet {g : σ → α × σ} {Q : α → σ → Prop} :
    Ends (modifyGet g : EStateM ε σ α) m Q E ↔ ∀ a m', g m = (a, m') → Q a m' := by
  constructor
  · intro h a m' hg
    change Q (g m).1 (g m).2 at h
    rwa [hg] at h
  · intro h
    exact h (g m).1 (g m).2 rfl

theorem ends_modify {g : σ → σ} {Q : Unit → σ → Prop} :
    Ends (modify g : EStateM ε σ Unit) m Q E ↔ Q () (g m) :=
  ⟨fun h => h, fun h => h⟩

theorem ends_bind {x : EStateM ε σ α} {f : α → EStateM ε σ β} {Q : β → σ → Prop} :
    Ends (x >>= f) m Q E ↔ Ends x m (fun a m' => Ends (f a) m' Q E) E := by
  unfold Ends
  show (match EStateM.bind x f m with
    | .ok a m' => Q a m'
    | .error e m' => E e m') ↔ _
  unfold EStateM.bind
  cases x m with
  | ok a m' => exact ⟨fun h => h, fun h => h⟩
  | error e m' => exact ⟨fun h => h, fun h => h⟩

/-- Stages without diagrams keep a journal for their state. -/
theorem ends_logged_record {journal : Journal} {E : ε → Journal → Prop} {e : Event}
    {Q : Unit → Journal → Prop} :
    Ends (record e : Logged ε Unit) journal Q E ↔ Q () (journal.push e) :=
  ends_modify

end Rules

/-! ## Operations on managers -/

section Rules

variable {α β σ : Type} {m m' : Manager} {E E' : Fault → Manager → Prop}

theorem ends_record {e : Event} {Q : Unit → Manager → Prop} :
    Ends (record e) m Q E ↔ Q () { m with journal := m.journal.push e } :=
  ⟨fun h => h, fun h => h⟩

/-! ## Operations that carry a memo -/

theorem ends_run_get {memo : σ} {Q : Manager × σ → Manager → Prop} :
    Ends (StateT.run (MonadStateOf.get : StateT σ DiagramM Manager) memo) m Q E ↔ Q (m, memo) m :=
  ⟨fun h => h, fun h => h⟩

theorem ends_run_lift {x : DiagramM α} {memo : σ} {Q : α × σ → Manager → Prop} :
    Ends (StateT.run (liftM x : StateT σ DiagramM α) memo) m Q E ↔
      Ends x m (fun a m' => Q (a, memo) m') E := by
  show Ends (x >>= fun a => pure (a, memo)) m Q E ↔ _
  simp only [ends_bind, ends_pure]

theorem ends_run_run_get {τ : Type} {memo : σ} {memo' : τ}
    {Q : (Manager × σ) × τ → Manager → Prop} :
    Ends (StateT.run (StateT.run
      (MonadStateOf.get : StateT σ (StateT τ DiagramM) Manager) memo) memo') m Q E ↔
      Q ((m, memo), memo') m :=
  ⟨fun h => h, fun h => h⟩

theorem ends_run_run_lift {τ : Type} {x : DiagramM α} {memo : σ} {memo' : τ}
    {Q : (α × σ) × τ → Manager → Prop} :
    Ends (StateT.run (StateT.run (liftM x : StateT σ (StateT τ DiagramM) α) memo) memo') m Q E ↔
      Ends x m (fun a m' => Q ((a, memo), memo') m') E := by
  show Ends ((x >>= fun a => pure (a, memo')) >>= fun p => pure ((p.1, memo), p.2)) m Q E ↔ _
  simp only [ends_bind, ends_pure]

/-! ## Operations with errors of their own -/

section Errors

variable {ε : Type} {e : ε}

theorem ends_except_pure {a : α} {Q : Except ε α → Manager → Prop} :
    Ends (ExceptT.run (pure a : ExceptT ε DiagramM α)) m Q E ↔ Q (.ok a) m :=
  ⟨fun h => h, fun h => h⟩

theorem ends_except_throw {Q : Except ε α → Manager → Prop} :
    Ends (ExceptT.run (throw e : ExceptT ε DiagramM α)) m Q E ↔ Q (.error e) m :=
  ⟨fun h => h, fun h => h⟩

theorem ends_except_get {Q : Except ε Manager → Manager → Prop} :
    Ends (ExceptT.run (get : ExceptT ε DiagramM Manager)) m Q E ↔ Q (.ok m) m :=
  ⟨fun h => h, fun h => h⟩

theorem ends_except_record {event : Event} {Q : Except ε Unit → Manager → Prop} :
    Ends (ExceptT.run (record event : ExceptT ε DiagramM Unit)) m Q E ↔
      Q (.ok ()) { m with journal := m.journal.push event } :=
  ⟨fun h => h, fun h => h⟩

theorem ends_except_ofExcept {x : Except ε α} {Q : Except ε α → Manager → Prop} :
    Ends (ExceptT.run (MonadExcept.ofExcept x : ExceptT ε DiagramM α)) m Q E ↔ Q x m := by
  cases x with
  | ok a => exact ⟨fun h => h, fun h => h⟩
  | error e => exact ⟨fun h => h, fun h => h⟩

theorem ends_except_lift {x : DiagramM α} {Q : Except ε α → Manager → Prop} :
    Ends (ExceptT.run (liftM x : ExceptT ε DiagramM α)) m Q E ↔
      Ends x m (fun a m' => Q (.ok a) m') E := by
  show Ends (x >>= fun a => pure (.ok a)) m Q E ↔ _
  simp only [ends_bind, ends_pure]

theorem ends_except_bind {x : ExceptT ε DiagramM α} {f : α → ExceptT ε DiagramM β}
    {Q : Except ε β → Manager → Prop} :
    Ends (ExceptT.run (x >>= f)) m Q E ↔
      Ends x.run m (fun r m' => match r with
        | .ok a => Ends (ExceptT.run (f a)) m' Q E
        | .error e => Q (.error e) m') E := by
  show Ends (x.run >>= ExceptT.bindCont f) m Q E ↔ _
  rw [ends_bind]
  refine ⟨fun h => h.mono (fun r m' hr => ?_) (fun _ _ he => he),
    fun h => h.mono (fun r m' hr => ?_) (fun _ _ he => he)⟩
  · cases r with
    | ok a => exact hr
    | error e => exact hr
  · cases r with
    | ok a => exact hr
    | error e => exact hr

theorem ends_except_adapt {δ : Type} {x : ExceptT ε DiagramM α} {g : ε → δ}
    {Q : Except δ α → Manager → Prop} :
    Ends (ExceptT.run (ExceptT.adapt g x)) m Q E ↔
      Ends x.run m (fun r m' => Q (r.mapError g) m') E := by
  show Ends (EStateM.map (Except.mapError g) x.run) m Q E ↔ _
  unfold Ends EStateM.map
  cases x.run m with
  | ok r m' => exact ⟨fun h => h, fun h => h⟩
  | error e m' => exact ⟨fun h => h, fun h => h⟩

end Errors

end Rules

-- From here on endings are computed by the rules only. Unfolding one would run the operation.
attribute [irreducible] Ends

/-! ## Memos -/

section Memos

variable {κ ν : Type} [BEq κ] [Hashable κ] {P P' : κ → ν → Prop}
  {memo : Std.HashMap κ ν}

/-- Everything in the memo has the property `P`. -/
def MemoHolds (P : κ → ν → Prop) (memo : Std.HashMap κ ν) : Prop :=
  ∀ k r, memo[k]? = some r → P k r

theorem MemoHolds.imp (h : MemoHolds P memo) (himp : ∀ k r, P k r → P' k r) :
    MemoHolds P' memo :=
  fun k r hk => himp k r (h k r hk)

variable [LawfulBEq κ]

theorem MemoHolds.empty : MemoHolds P ∅ := by
  intro k r h
  simp at h

theorem MemoHolds.insert (h : MemoHolds P memo) {k : κ} {r : ν} (hk : P k r) :
    MemoHolds P (memo.insert k r) := by
  intro k' r' hmem
  rw [Std.HashMap.getElem?_insert] at hmem
  split at hmem
  · next heq =>
      obtain rfl := eq_of_beq heq
      obtain rfl := Option.some.inj hmem
      exact hk
  · exact h k' r' hmem

end Memos

end BranchingTime.Diagram
