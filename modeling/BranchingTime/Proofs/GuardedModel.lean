import BranchingTime.Proofs.GuardedEncoding
import BranchingTime.Proofs.GuardedOperations
import BranchingTime.Proofs.VerdictCorrect

/-!
# Models with guards

The way from a control-flow table to a model, on guarded diagrams and with
guarded encodings, and with checks of its own: an entry writes to variables
that have a place in the binding, and the manager has room for two states.

An unfolding keeps to diagrams of its manager and to continuations that fit,
from step to step (`tracks_expand`) and through collections of garbage. It
fails no check.
-/

namespace BranchingTime

/-- The variable that an action writes to. -/
def Action.target? : Action → Option Nat
  | .read var => some var
  | .assign var _ => some var
  | _ => none

namespace Guarded

open Diagram Manager

/-! ## Definitions -/

/-- All states with a given counter and the given known values. -/
def state (e : Encoding) (pc : Nat) (binding : Binding) (half : Half) : DiagramM Handle := do
  cube (← reads fun _ => stateLiterals e pc binding half)

/-- All pairs of a current and a next state with the given known values. -/
def edge (e : Encoding) (pc : Nat) (source : Binding) (nextPc : Nat) (target : Binding) :
    DiagramM Handle := do
  let current ← reads fun _ => stateLiterals e pc source .current
  let next ← reads fun _ => stateLiterals e nextPc target .next
  cube (current ++ next)

/-- Adds the state of `c` to the predicates that are true there. -/
def label (e : Encoding) (c : Continuation) :
    Option Handle → List Predicate → DiagramM (List Predicate)
  | _, [] => return []
  | built?, p :: ps => do
    if p.holdsAt c.binding then
      let state ← match built? with
        | some state => pure state
        | none => state e c.pc c.binding .current
      let states ← disj p.states state
      return { p with states } :: (← label e c (some state) ps)
    else
      return p :: (← label e c built? ps)

/-- The variable that is written to at a continuation has a place in a
binding. -/
def checkTarget (t : ControlTable) (c : Continuation) (binding : Binding) : Except Fault Unit :=
  ensure (∀ entry ∈ t.entry? c.pc, ∀ var ∈ entry.action.target?, var < binding.length) .outOfBounds

/-- Collects garbage when there is more than the threshold allows. -/
def tidy (t : Unfolding) (p : Progress) : DiagramM Progress := do
  if (← get).numNodes ≤ p.threshold then return p
  let _ ← collectGarbage (t.start :: p.transitions :: p.predicates.map Predicate.states)
  if (← get).numNodes ≤ p.threshold / 2 then return p
  let threshold := 2 * p.threshold
  record (.thresholdRaised threshold)
  return { p with threshold }

/-- Expands one continuation. -/
def expand (t : Unfolding) (p : Progress) (c : Continuation) : UnfoldM Progress := do
  let predicates ← label t.encoding c none p.predicates
  (reads fun _ => checkTarget t.table c c.binding : DiagramM Unit)
  let next ← MonadExcept.ofExcept (t.table.step c)
  let edge ← edge t.encoding c.pc c.binding next.pc next.binding
  let transitions ← disj p.transitions edge
  let p := { p with transitions, predicates, expanded := p.expanded + 1 }
  (reads fun _ => checkTarget t.table c next.binding : DiagramM Unit)
  tidy t ((t.table.successors c next).foldl Progress.visit p)

/-- Expands continuations until none is left, at most `fuel` many. -/
def runWithin (t : Unfolding) : Nat → Progress → UnfoldM Progress
  | 0, _ => throwThe Fault .unsettled
  | fuel + 1, p =>
    match p.worklist with
    | [] => return p
    | c :: rest => do runWithin t fuel (← expand t { p with worklist := rest } c)

/-- The transition system of a table, labelled with predicates. The manager
has variables for two states. -/
def unfold (table : ControlTable) (encoding : Encoding) (threshold : Nat)
    (predicates : List Predicate) : UnfoldM Model := do
  let numVars ← (reads fun _ => numVars encoding : DiagramM Nat)
  (reads fun m => ensure (numVars ≤ m.numVars) .outOfBounds : DiagramM Unit)
  if table.isEmpty then
    record .nothingToUnfold
    throw .emptyProgram
  let c := Continuation.start encoding.names.length
  let start ← state encoding c.pc c.binding .current
  let t : Unfolding := ⟨table, encoding, start⟩
  let p : Progress := ⟨.zero, predicates, ∅, [], threshold, 0⟩
  let p ← runWithin t (Unfolding.continuationBound encoding + 1) (p.visit c)
  record (.unfolded p.expanded (← (reads (nodeCount · p.transitions) : DiagramM Nat)))
  return ⟨start, p.transitions, p.predicates, encoding⟩

/-! ## Following an operation -/

/-- From `m`, the operation `y` ends as `x` does, or because the arena is full.
If `x` returns then with `Q`. -/
structure Tracks {α : Type} (x y : DiagramM α) (m : Manager) (Q : α → Manager → Prop) : Prop
    extends Same x y m where
  ends : Ends x m Q fun _ _ => True

/-- `m` was extended, by `r` at least, and is sound still. -/
structure Grows (m : Manager) (r : Handle) (n : Manager) : Prop where
  sound : Sound n
  extends_ : m.Extends n
  valid : n.Valid r

section Rules

variable {α β ε : Type} {x y : DiagramM α} {m : Manager} {P Q : α → Manager → Prop}
  {R : β → Manager → Prop}

theorem Same.tracks {E : Fault → Manager → Prop} (h : Same x y m) (hx : Ends x m Q E) :
    Tracks x y m Q :=
  ⟨h, hx.mono (fun _ _ hq => hq) fun _ _ _ => trivial⟩

theorem Same.grows {x y : DiagramM Handle} (h : Same x y m) (hm : Sound m)
    (hx : Together x x m m fun r n n' => m.Agree r n n') : Tracks x y m (Grows m) := by
  refine h.tracks (((ends_of_together hx).and h.slots).imp fun r n ⟨ha, hslots⟩ => ?_)
  exact ⟨hm.of_agree ha hslots, ha.extends_, ha.valid⟩

theorem Tracks.mono (h : Tracks x y m P) (hQ : ∀ a n, P a n → Q a n) : Tracks x y m Q :=
  ⟨h.toSame, h.ends.imp hQ⟩

theorem tracks_pure {a : α} (h : Q a m) : Tracks (pure a) (pure a) m Q :=
  ⟨same_pure, ends_pure.mpr h⟩

theorem tracks_throw {e : Fault} : Tracks (throw e) (throw e) m Q :=
  ⟨same_throw, ends_throw.mpr trivial⟩

theorem tracks_bind {f g : α → DiagramM β} (h : Tracks x y m Q)
    (hgo : ∀ a n, Q a n → Tracks (f a) (g a) n R) : Tracks (x >>= f) (y >>= g) m R :=
  ⟨same_bind h.toSame h.ends fun a n hq _ => (hgo a n hq).toSame,
    ends_bind.mpr (h.ends.imp fun a n hq => (hgo a n hq).ends)⟩

theorem tracks_get {f g : Manager → DiagramM β} (h : Tracks (f m) (g m) m R) :
    Tracks (get >>= f) (get >>= g) m R :=
  ⟨same_get h.toSame, ends_bind.mpr (ends_get.mpr h.ends)⟩

theorem tracks_check {z : DiagramM β} {g : α → DiagramM β} {read : Manager → Except Fault α} {a : α}
    (hread : read m = .ok a) (h : Tracks z (g a) m R) : Tracks z (reads read >>= g) m R :=
  ⟨same_check hread h.toSame, h.ends⟩

theorem tracks_record (hm : Sound m) (e : Event) :
    Tracks (record e) (record e) m fun _ n => Sound n ∧ m.Extends n :=
  (same_record e).tracks (returns_record_sound hm e)

/-- What else is known of an operation. -/
theorem Tracks.and {E : Fault → Manager → Prop} (h : Tracks x y m P) (hx : Ends x m Q E) :
    Tracks x y m fun a n => P a n ∧ Q a n :=
  h.toSame.tracks (h.ends.and hx)

theorem tracks_except_bind {x y : ExceptT ε DiagramM α} {f g : α → ExceptT ε DiagramM β}
    {P : Except ε α → Manager → Prop} {R : Except ε β → Manager → Prop}
    (h : Tracks x.run y.run m P) (herr : ∀ e n, P (.error e) n → R (.error e) n)
    (hgo : ∀ a n, P (.ok a) n → Tracks (f a).run (g a).run n R) :
    Tracks (ExceptT.run (x >>= f)) (ExceptT.run (y >>= g)) m R := by
  show Tracks (x.run >>= ExceptT.bindCont f) (y.run >>= ExceptT.bindCont g) m R
  refine tracks_bind h fun r n hr => ?_
  cases r with
  | ok a => exact hgo a n hr
  | error e => exact tracks_pure (herr e n hr)

theorem tracks_except_lift {f g : α → ExceptT ε DiagramM β} {R : Except ε β → Manager → Prop}
    (h : Tracks x y m P) (hgo : ∀ a n, P a n → Tracks (f a).run (g a).run n R) :
    Tracks (ExceptT.run ((liftM x : ExceptT ε DiagramM α) >>= f))
      (ExceptT.run ((liftM y : ExceptT ε DiagramM α) >>= g)) m R := by
  show Tracks ((x >>= fun a => pure (Except.ok a)) >>= ExceptT.bindCont f)
    ((y >>= fun a => pure (Except.ok a)) >>= ExceptT.bindCont g) m R
  simp only [bind_assoc, pure_bind]
  exact tracks_bind h hgo

theorem tracks_except_run_lift {R : Except ε α → Manager → Prop} (h : Tracks x y m P)
    (hR : ∀ a n, P a n → R (.ok a) n) :
    Tracks (ExceptT.run (liftM x : ExceptT ε DiagramM α))
      (ExceptT.run (liftM y : ExceptT ε DiagramM α)) m R :=
  tracks_bind h fun a n ha => tracks_pure (hR a n ha)

theorem tracks_except_check {z : ExceptT ε DiagramM β} {g : α → ExceptT ε DiagramM β}
    {R : Except ε β → Manager → Prop} {read : Manager → Except Fault α} {a : α}
    (hread : read m = .ok a) (h : Tracks z.run (g a).run m R) :
    Tracks z.run (ExceptT.run ((liftM (reads read) : ExceptT ε DiagramM α) >>= g)) m R := by
  show Tracks z.run ((reads read >>= fun a => pure (Except.ok a)) >>= ExceptT.bindCont g) m R
  simp only [bind_assoc, pure_bind]
  exact tracks_check hread h

theorem tracks_except_reads {f : Manager → ExceptT ε DiagramM β} {g : α → ExceptT ε DiagramM β}
    {R : Except ε β → Manager → Prop} {read : Manager → Except Fault α} {a : α}
    (hread : read m = .ok a) (h : Tracks (f m).run (g a).run m R) :
    Tracks (ExceptT.run ((get : ExceptT ε DiagramM Manager) >>= f))
      (ExceptT.run ((liftM (reads read) : ExceptT ε DiagramM α) >>= g)) m R := by
  show Tracks ((get >>= fun n => pure (Except.ok n)) >>= ExceptT.bindCont f)
    ((reads read >>= fun a => pure (Except.ok a)) >>= ExceptT.bindCont g) m R
  simp only [bind_assoc, pure_bind]
  exact ⟨same_reads hread h.toSame, ends_bind.mpr (ends_get.mpr h.ends)⟩

theorem tracks_except_get {f g : Manager → ExceptT ε DiagramM β} {R : Except ε β → Manager → Prop}
    (h : Tracks (f m).run (g m).run m R) :
    Tracks (ExceptT.run ((get : ExceptT ε DiagramM Manager) >>= f))
      (ExceptT.run ((get : ExceptT ε DiagramM Manager) >>= g)) m R := by
  show Tracks ((get >>= fun n => pure (Except.ok n)) >>= ExceptT.bindCont f)
    ((get >>= fun n => pure (Except.ok n)) >>= ExceptT.bindCont g) m R
  simp only [bind_assoc, pure_bind]
  exact tracks_get h

theorem tracks_except_record {f g : Unit → ExceptT ε DiagramM β}
    {R : Except ε β → Manager → Prop} (hm : Sound m) (e : Event)
    (hgo : ∀ n, n = { m with journal := m.journal.push e } → Sound n → m.Extends n →
      Tracks (f ()).run (g ()).run n R) :
    Tracks (ExceptT.run ((record e : ExceptT ε DiagramM Unit) >>= f))
      (ExceptT.run ((record e : ExceptT ε DiagramM Unit) >>= g)) m R := by
  have hrecord : Ends (record e : DiagramM Unit) m
      (fun _ n => n = { m with journal := m.journal.push e }) fun _ _ => True := ends_record.mpr rfl
  exact tracks_except_lift ((tracks_record hm e).and hrecord) fun _ n hn => hgo n hn.2 hn.1.1 hn.1.2

theorem tracks_except_adapt {δ : Type} {x y : ExceptT ε DiagramM α} {f g : α → ExceptT δ DiagramM β}
    {P : Except ε α → Manager → Prop} {R : Except δ β → Manager → Prop} {cause : ε → δ}
    (h : Tracks x.run y.run m P) (herr : ∀ e n, P (.error e) n → R (.error (cause e)) n)
    (hgo : ∀ a n, P (.ok a) n → Tracks (f a).run (g a).run n R) :
    Tracks (ExceptT.run (ExceptT.adapt cause x >>= f)) (ExceptT.run (ExceptT.adapt cause y >>= g))
      m R := by
  show Tracks ((Except.mapError cause <$> x.run) >>= ExceptT.bindCont f)
    ((Except.mapError cause <$> y.run) >>= ExceptT.bindCont g) m R
  simp only [bind_map_left]
  refine tracks_bind h fun r n hr => ?_
  cases r with
  | ok a => exact hgo a n hr
  | error e => exact tracks_pure (herr e n hr)

end Rules

variable {m n : Manager} {f g : Handle} {e : Encoding} {K : Model} {c : Continuation}

theorem tracks_ite (hm : Sound m) (hf : m.Valid f) (hg : m.Valid g) {h : Handle}
    (hh : m.Valid h) : Tracks (Diagram.ite f g h) (ite f g h) m (Grows m) :=
  (same_ite hm hf hg hh).grows hm (together_ite hm.twins hf hg hh)

theorem tracks_disj (hm : Sound m) (hf : m.Valid f) (hg : m.Valid g) :
    Tracks (Diagram.disj f g) (disj f g) m (Grows m) :=
  tracks_ite hm hf m.valid_one hg

theorem tracks_conj (hm : Sound m) (hf : m.Valid f) (hg : m.Valid g) :
    Tracks (Diagram.conj f g) (conj f g) m (Grows m) :=
  tracks_ite hm hf hg m.valid_zero

theorem tracks_xor (hm : Sound m) (hf : m.Valid f) (hg : m.Valid g) :
    Tracks (Diagram.xor f g) (xor f g) m (Grows m) :=
  tracks_ite hm hf hg.neg hg

/-! ## States and edges -/

theorem natAbs_of_mem_stateLiterals {pc k : Nat} {binding : Binding} {half : Half} {l : Int}
    (hvars : e.numVars ≤ k) (hl : l ∈ e.stateLiterals pc binding half) :
    1 ≤ l.natAbs ∧ l.natAbs ≤ k := by
  have hmem := (e.natAbs_stateLiterals pc binding half).subset (List.mem_map_of_mem hl)
  have hrange := List.mem_range'_1.mp hmem
  rw [Encoding.numVars] at hvars
  cases half <;> simp only [Encoding.base] at hrange <;> omega

theorem tracks_state {half : Half} (hwords : e.numVars < wordBound) (hm : Sound m)
    (hvars : e.numVars ≤ m.numVars) (hlen : c.binding.length = e.names.length) :
    Tracks (e.state c.pc c.binding half) (state e c.pc c.binding half) m (Grows m) := by
  refine tracks_check (stateLiterals_eq hwords c.pc hlen) ((same_cube hm fun l hl => ?_).grows hm
    (together_foldlM_addLiteral hm.twins m.valid_one))
  exact natAbs_of_mem_stateLiterals hvars hl

theorem tracks_edge {next : Continuation} (hwords : e.numVars < wordBound) (hm : Sound m)
    (hvars : e.numVars ≤ m.numVars) (hlen : c.binding.length = e.names.length)
    (hlen' : next.binding.length = e.names.length) :
    Tracks (e.edge c.pc c.binding next.pc next.binding)
      (edge e c.pc c.binding next.pc next.binding) m (Grows m) := by
  refine tracks_check (stateLiterals_eq hwords c.pc hlen)
    (tracks_check (stateLiterals_eq hwords next.pc hlen')
      ((same_cube hm fun l hl => ?_).grows hm (together_foldlM_addLiteral hm.twins m.valid_one)))
  rcases List.mem_append.mp hl with hl | hl
  · exact natAbs_of_mem_stateLiterals hvars hl
  · exact natAbs_of_mem_stateLiterals hvars hl

/-! ## Unfolding -/

/-- The variables that a table writes to are among the first `numVars`. -/
def Scoped (t : ControlTable) (numVars : Nat) : Prop :=
  ∀ entry ∈ t.entries, ∀ var ∈ entry.action.target?, var < numVars

theorem Scoped.checkTarget_eq {t : ControlTable} {binding : Binding} {numVars : Nat}
    (h : Scoped t numVars) (hlen : binding.length = numVars) :
    checkTarget t c binding = .ok () := by
  refine ensure_eq (fun entry hentry var hvar => ?_) _
  rw [hlen]
  exact h entry (List.mem_of_getElem? hentry) var hvar

/-- All predicates are about stored states. -/
def Stored (m : Manager) (ps : List Predicate) : Prop := ∀ p ∈ ps, m.Valid p.states

theorem Stored.of_extends {ps : List Predicate} (h : Stored m ps) (hext : m.Extends n) :
    Stored n ps :=
  fun p hp => hext.valid (h p hp)

theorem tracks_label {t : Unfolding} {ps : List Predicate} {built? : Option Handle}
    (hwords : t.encoding.numVars < wordBound) (hm : Sound m)
    (hvars : t.encoding.numVars ≤ m.numVars) (hlen : c.binding.length = t.encoding.names.length)
    (hbuilt : ∀ f ∈ built?, m.Valid f) (hps : Stored m ps) :
    Tracks (t.label c built? ps) (label t.encoding c built? ps) m fun ps' n =>
      (Sound n ∧ m.Extends n) ∧ Stored n ps' := by
  induction ps generalizing m built? with
  | nil => exact tracks_pure ⟨⟨hm, .refl m⟩, hps⟩
  | cons p ps ih =>
      obtain ⟨hp, hps⟩ := List.forall_mem_cons.mp hps
      rw [Unfolding.label, label]
      split
      · -- the state is there, or is built now; then it is added, and passed on
        have hgo : ∀ s n, Grows m s n → Tracks (do
              let states ← Diagram.disj p.states s
              return { p with states } :: (← t.label c (some s) ps))
            (do
              let states ← disj p.states s
              return { p with states } :: (← label t.encoding c (some s) ps)) n
            fun ps' o => (Sound o ∧ m.Extends o) ∧ Stored o ps' := by
          intro s n hs
          refine tracks_bind (tracks_disj hs.sound (hs.extends_.valid hp) hs.valid) ?_
          intro r n1 h1
          have ext1 := hs.extends_.trans h1.extends_
          refine tracks_bind (ih h1.sound (ext1.numVars_eq ▸ hvars)
            (fun f hf => Option.some.inj hf ▸ h1.extends_.valid hs.valid)
            (Stored.of_extends hps ext1)) fun ps' n2 h2 => ?_
          exact tracks_pure ⟨⟨h2.1.1, ext1.trans h2.1.2⟩,
            List.forall_mem_cons.mpr ⟨h2.1.2.valid h1.valid, h2.2⟩⟩
        cases built? with
        | some s => exact hgo s m ⟨hm, .refl m, hbuilt s rfl⟩
        | none => exact tracks_bind (tracks_state hwords hm hvars hlen) hgo
      · refine tracks_bind (ih hm hvars hbuilt hps) fun ps' n h => tracks_pure ⟨h.1, ?_⟩
        exact List.forall_mem_cons.mpr ⟨h.1.2.valid hp, h.2⟩

theorem tracks_collectGarbage {roots : List Handle} (hm : Sound m)
    (hroots : ∀ f ∈ roots, m.Valid f) :
    Tracks (Diagram.collectGarbage roots) (collectGarbage roots) m fun _ n => Sound n := by
  have hsame := same_collectGarbage hm hroots
  have hend := ends_of_together (together_collectGarbage hm.twins roots)
  exact hsame.tracks ((hend.and hsame.slots).imp fun _ n ⟨ht, hslots⟩ =>
    ⟨ht.left, hslots ▸ hm.slots⟩)

theorem tracks_tidy {t : Unfolding} {p : Progress} (hm : Sound m)
    (hroots : ∀ f ∈ t.roots p, m.Valid f) : Tracks (t.tidy p) (tidy t p) m fun _ n => Sound n := by
  unfold Unfolding.tidy tidy
  refine tracks_get ?_
  split
  · exact tracks_pure hm
  refine tracks_bind (tracks_collectGarbage hm hroots) fun _ n hn => tracks_get ?_
  split
  · exact tracks_pure hn
  · exact tracks_bind (tracks_record hn _) fun _ _ ho => tracks_pure ho.1

/-- An expansion passes its checks at a continuation that fits. -/
theorem tracks_expand {t : Unfolding} {p : Progress} (hr : t.table.InRange)
    (hscoped : Scoped t.table t.encoding.names.length) (hwords : t.encoding.numVars < wordBound)
    (hfits : c.Fits t.encoding.names.length) (hm : Sound m)
    (hvars : t.encoding.numVars ≤ m.numVars) (hstart : m.Valid t.start)
    (htransitions : m.Valid p.transitions) (hps : Stored m p.predicates) :
    Tracks (t.expand p c).run (expand t p c).run m fun _ n => Sound n := by
  unfold Unfolding.expand expand
  refine tracks_except_lift (tracks_label hwords hm hvars hfits.length_eq (by simp) hps) ?_
  rintro ps m1 ⟨⟨hm1, ext1⟩, hps1⟩
  refine tracks_except_check (hscoped.checkTarget_eq hfits.length_eq) ?_
  cases hstep : t.table.step c with
  | error err => exact tracks_pure hm1
  | ok next =>
      have hnext := hr.fits_step hfits hstep
      refine tracks_except_lift (tracks_edge hwords hm1 (ext1.numVars_eq ▸ hvars) hfits.length_eq
        hnext.length_eq) fun edge m2 h2 => ?_
      have ext2 := ext1.trans h2.extends_
      refine tracks_except_lift (tracks_disj h2.sound (ext2.valid htransitions) h2.valid)
        fun transitions m3 h3 => ?_
      have ext3 := ext2.trans h3.extends_
      refine tracks_except_check (hscoped.checkTarget_eq hnext.length_eq) ?_
      refine tracks_except_run_lift (tracks_tidy h3.sound ?_) fun _ _ hn => hn
      have hkeep := Progress.foldl_visit_diagrams
        ⟨transitions, ps, p.visited, p.worklist, p.threshold, p.expanded + 1⟩
        (t.table.successors c next)
      simp only [Unfolding.roots, hkeep, List.forall_mem_cons, List.forall_mem_map]
      exact ⟨ext3.valid hstart, h3.valid,
        Stored.of_extends hps1 (h2.extends_.trans h3.extends_)⟩

/-- One step keeps a manager sound, so a whole run does. -/
theorem tracks_runWithin {t : Unfolding} {ps₀ : List Predicate} {done : List Continuation}
    {p : Progress} (fuel : Nat) (hr : t.table.InRange)
    (hscoped : Scoped t.table t.encoding.names.length) (hwords : t.encoding.numVars < wordBound)
    (hm : Sound m) (hs : Search t.table t.encoding.names.length done p)
    (hcol : Collected t ps₀ done p m) :
    Tracks (t.runWithin fuel p).run (runWithin t fuel p).run m fun _ n => Sound n := by
  induction fuel generalizing p m done with
  | zero => exact tracks_throw
  | succ fuel ih =>
      rw [Unfolding.runWithin, runWithin]
      cases hp : p.worklist with
      | nil => exact tracks_pure hm
      | cons c rest =>
          have hfits := hr.fits_reached (hs.reached c (by simp [hp]))
          have hexpand := tracks_expand (p := { p with worklist := rest }) hr hscoped hwords hfits
            hm hcol.vars_le hcol.start.valid hcol.transitions.valid
            (valid_of_labelled hcol.predicates)
          refine tracks_except_bind (hexpand.and (returns_expand hr hs hp hcol))
            (fun _ _ hn => hn.1) fun p' n hn => ?_
          exact ih hn.1 hn.2.1 hn.2.2

theorem tracks_unfold {table : ControlTable} {ps : List Predicate} (threshold : Nat)
    (hr : table.InRange) (hscoped : Scoped table e.names.length) (hwords : e.numVars < wordBound)
    (hne : table.isEmpty = false) (hps : ∀ p ∈ ps, p.states = .zero) (hm : Sound m)
    (hwf : m.WellFormed) (hvars : e.numVars ≤ m.numVars) :
    Tracks (Model.unfold table e threshold ps).run (unfold table e threshold ps).run m
      fun _ n => Sound n := by
  unfold Model.unfold unfold
  refine tracks_except_check (numVars_eq hwords) (tracks_except_check (ensure_eq hvars _) ?_)
  simp only [hne, Bool.false_eq_true, if_false]
  have hfits := ControlTable.fits_start e.names.length
  refine tracks_except_lift ((tracks_state (c := .start e.names.length) hwords hm hvars
    hfits.length_eq).and (returns_state hwf hvars .current hfits.pc_lt)) ?_
  rintro start m1 ⟨h1, y1⟩
  have hs := search_start table e.names.length threshold ps
  have hcol : Collected ⟨table, e, start⟩ ps [] _ m1 :=
    collected_start threshold hps y1.wellFormed (y1.extends_.numVars_eq ▸ hvars) y1.denotes
  refine tracks_except_bind ((tracks_runWithin _ hr hscoped hwords h1.sound hs hcol).and
    (returns_runWithin hr _ hs hcol (by simp))) (fun _ _ hn => hn.1) ?_
  rintro p m2 ⟨h2, done, -, -, hcol2⟩
  refine tracks_except_reads (nodeCount_eq h2.toGrounded hcol2.transitions.valid) ?_
  exact tracks_except_record h2 _ fun n _ hn _ => tracks_pure hn

end Guarded

end BranchingTime
