import BranchingTime.Proofs.RunningProgram

/-!
# The transition system has no deadlock

The transitions of a model lead from the bits of a state to the bits of
another (`Model.Joins`). From the start, such steps never leave what the
reached continuations cover, because the step of a continuation covers
only what is covered again; and what is covered has a step, because an
unfolding that succeeds found a step for every reached continuation.

The continuations that an unfolding expands are those that it takes from
its work-list (`Unfolding.Expands`). When it succeeds, they are all that
are reached.
-/

namespace BranchingTime

open Diagram Manager

/-! ## What an unfolding expands -/

/-- The continuations that are taken from the work-list and expanded, from
some progress on. -/
inductive Unfolding.Expands (t : Unfolding) : Progress → Manager → Continuation → Prop
  | now {p m c rest p' m'} (hp : p.worklist = c :: rest)
      (h : (t.expand { p with worklist := rest } c).run m = .ok (.ok p') m') : Expands t p m c
  | later {p m c rest p' m' d} (hp : p.worklist = c :: rest)
      (h : (t.expand { p with worklist := rest } c).run m = .ok (.ok p') m')
      (hd : Expands t p' m' d) : Expands t p m d

/-- The continuations that the unfolding of a table expands. -/
def Model.Expands (table : ControlTable) (e : Encoding) (threshold : Nat)
    (predicates : List Predicate) (m : Manager) (c : Continuation) : Prop :=
  ∃ start m', e.state 0 (Continuation.start e.names.length).binding .current m = .ok start m'
    ∧ Unfolding.Expands ⟨table, e, start⟩ (Progress.visit ⟨.zero, predicates, ∅, [], threshold, 0⟩
        (.start e.names.length)) m' c

variable {m m' : Manager} {e : Encoding} {c : Continuation}

/-- A run that empties the work-list expands everything reached that was
not done before. -/
theorem Unfolding.returns_expands {t : Unfolding} {ps₀ : List Predicate} (hr : t.table.InRange)
    (fuel : Nat) {p : Progress} {m : Manager} {done : List Continuation}
    (hs : Search t.table t.encoding.names.length done p) (hcol : Collected t ps₀ done p m)
    (hfuel : continuationBound t.encoding < done.length + fuel) :
    Returns (t.runWithin fuel p).run m fun r _ => ∀ p', r = .ok p' →
      ∀ c, t.table.Reached t.encoding.names.length c → c ∈ done ∨ t.Expands p m c := by
  induction fuel generalizing p m done with
  | zero =>
      have hle := length_le_continuationBound (e := t.encoding) (hs.nodup.sublist
        (List.sublist_append_left done p.worklist)) fun c hc =>
          hr.fits_reached (hs.reached c (List.mem_append_left _ hc))
      omega
  | succ fuel ih =>
      rw [runWithin]
      cases hp : p.worklist with
      | nil => exact ends_except_pure.mpr fun _ _ c hc => Or.inl ((hs.mem_iff_reached hp).mpr hc)
      | cons d rest =>
          refine ends_except_bind.mpr ?_
          refine Ends.mono ((returns_expand hr hs hp hcol).and ends_self) ?_ fun _ _ h => h.1
          rintro r m1 ⟨hexpand, hrun⟩
          cases r with
          | error err =>
              intro p' hp'
              cases hp'
          | ok p1 =>
              refine Ends.imp (ih hexpand.1 hexpand.2 (by simp only [List.length_cons]; omega)) ?_
              intro r m2 hlater p' hp' c hc
              rcases hlater p' hp' c hc with hdone | hlater
              · rcases List.mem_cons.mp hdone with rfl | hdone
                · exact Or.inr (.now hp hrun)
                · exact Or.inl hdone
              · exact Or.inr (.later hp hrun hlater)

/-- Everything reached is expanded by an unfolding that succeeds. -/
theorem Model.returns_unfold_expands {table : ControlTable} {ps₀ : List Predicate}
    (threshold : Nat) (hr : table.InRange) (hne : table.isEmpty = false)
    (hps : ∀ p ∈ ps₀, p.states = .zero) (hm : m.WellFormed) (hvars : e.numVars ≤ m.numVars) :
    Returns (Model.unfold table e threshold ps₀).run m fun r _ => ∀ K, r = .ok K →
      ∀ c, table.Reached e.names.length c → Model.Expands table e threshold ps₀ m c := by
  unfold Model.unfold
  simp only [hne, Bool.false_eq_true, if_false, ends_except_bind, ends_except_lift]
  refine Ends.mono ((returns_state (c := .start e.names.length) hm hvars .current
    (ControlTable.fits_start _).pc_lt).and ends_self) ?_ fun _ _ h => h.1
  rintro start m1 ⟨y1, hstart⟩
  refine Ends.imp (Unfolding.returns_expands hr _ (search_start table _ threshold ps₀)
    (collected_start threshold hps y1.wellFormed (y1.extends_.numVars_eq ▸ hvars) y1.denotes)
    (by simp)) ?_
  intro r m2 hexpands
  cases r with
  | error err =>
      intro K hK
      cases hK
  | ok p =>
      simp only [ends_except_get, ends_except_record, ends_except_pure]
      intro K _ c hc
      exact ⟨start, m1, hstart, (hexpands p rfl c hc).resolve_left (List.not_mem_nil)⟩

/-! ## Steps between bits -/

/-- The bits of a state are among the start of a model. -/
def Model.Starts (K : Model) (m : Manager) (s : K.encoding.Bits) : Prop :=
  m.eval K.start (K.encoding.join s s) = true

/-- The transitions of a model lead from the bits of a state to those of
another. -/
def Model.Joins (K : Model) (m : Manager) (s s' : K.encoding.Bits) : Prop :=
  m.eval K.transitions (K.encoding.join s s') = true

namespace Model.Exact

variable {table : ControlTable} {ps₀ : List Predicate} {K : Model} {s s' : K.encoding.Bits}

theorem starts_iff (h : K.Exact table K.encoding ps₀ m) :
    K.Starts m s ↔ (K.encoding.stateOf s).pc = 0 := by
  rw [Starts, h.start.eval_iff, K.encoding.halfOf_current_join]

theorem joins_iff (h : K.Exact table K.encoding ps₀ m) :
    K.Joins m s s' ↔ ∃ c, table.Reached K.encoding.names.length c ∧ ∃ next,
      table.step c = .ok next ∧ c.Covers (K.encoding.stateOf s)
        ∧ next.Covers (K.encoding.stateOf s') := by
  rw [Joins, h.transitions.eval_iff, EdgeOf, K.encoding.halfOf_current_join,
    K.encoding.halfOf_next_join]

/-- From the start, steps stay within what is covered. -/
theorem covered_of_walk (h : K.Exact table K.encoding ps₀ m) (hs : K.Starts m s)
    (hwalk : Relation.ReflTransGen (K.Joins m) s s') :
    K.encoding.stateOf s' ∈ table.covered K.encoding.names.length := by
  induction hwalk with
  | refl => exact ⟨_, .refl, Continuation.covers_start.mpr (h.starts_iff.mp hs)⟩
  | tail _ hlast _ =>
      obtain ⟨c, hc, next, hstep, -, hnext⟩ := h.joins_iff.mp hlast
      exact hc.covers_next hstep hnext

/-- What is covered has a step. -/
theorem exists_joins (h : K.Exact table K.encoding ps₀ m) (hr : table.InRange)
    (hgoes : table.Goes K.encoding.names.length)
    (hs : K.encoding.stateOf s ∈ table.covered K.encoding.names.length) :
    ∃ s', K.Joins m s s' := by
  obtain ⟨c, hc, hcovers⟩ := hs
  obtain ⟨next, hstep⟩ := hgoes c hc
  obtain ⟨state, hstate⟩ := (hr.fits_step (hr.fits_reached hc) hstep).exists_covers
  refine ⟨K.encoding.bitsOfState state, h.joins_iff.mpr ⟨c, hc, next, hstep, hcovers, ?_⟩⟩
  rwa [K.encoding.stateOf_bitsOfState]

end Model.Exact

/-- In the model of a program, from any well-formed manager and with any
threshold: whatever bits the transitions lead to from the start, in any
number of steps, are covered by a continuation that the unfolding expanded,
and the transitions lead on from there. -/
theorem Model.no_deadlock {names statements : List String} {table : ControlTable}
    {predicates : List Predicate} {threshold : Nat} {K : Model} {s s' : K.encoding.Bits}
    (hbuild : ControlTable.build names statements = .ok table)
    (hpreds : ∀ p ∈ predicates, ∃ id text, Predicate.compile id text names = .ok p)
    (hm : m.WellFormed) (hvars : Encoding.numVars ⟨names⟩ ≤ m.numVars)
    (hrun : (Model.unfold table ⟨names⟩ threshold predicates).run m = .ok (.ok K) m')
    (hstart : K.Starts m' s) (hwalk : Relation.ReflTransGen (K.Joins m') s s') :
    (∃ c, Model.Expands table ⟨names⟩ threshold predicates m c
      ∧ c.Covers (K.encoding.stateOf s')) ∧ ∃ s'', K.Joins m' s' s'' := by
  have hr := ControlTable.inRange_of_build hbuild
  have hzero : ∀ p ∈ predicates, p.states = .zero := fun p hp => by
    obtain ⟨id, text, hc⟩ := hpreds p hp
    exact Predicate.states_of_compile hc
  have hne : table.isEmpty = false := by
    refine Bool.eq_false_iff.mpr fun hempty => ?_
    have hends : Returns (Model.unfold table ⟨names⟩ threshold predicates).run m
        fun r _ => r = .error .emptyProgram := by
      unfold Model.unfold
      simp only [hempty, if_true, ends_except_bind, ends_except_record, ends_except_throw]
    cases hends.of_ok hrun
  obtain ⟨hgoes, hexact⟩ := (returns_unfold threshold hr hne hzero hm hvars).of_ok hrun
  have hexpands := (Model.returns_unfold_expands threshold hr hne hzero hm hvars).of_ok hrun K rfl
  obtain ⟨start, transitions, ps, e⟩ := K
  obtain rfl : e = ⟨names⟩ := hexact.encoding_eq
  have hcovered := hexact.covered_of_walk hstart hwalk
  refine ⟨?_, hexact.exists_joins hr hgoes hcovered⟩
  obtain ⟨c, hc, hcovers⟩ := hcovered
  exact ⟨c, hexpands c hc, hcovers⟩

/-- The model of the program that reads a variable: the start has a step,
and so has what the step leads to. -/
theorem Model.no_deadlock_read : ∃ (table : ControlTable) (m m' : Manager) (K : Model)
    (s s' : K.encoding.Bits), ControlTable.build ["x"] ["read(x)"] = .ok table
      ∧ m.WellFormed ∧ Encoding.numVars ⟨["x"]⟩ ≤ m.numVars
      ∧ (Model.unfold table ⟨["x"]⟩ 0 []).run m = .ok (.ok K) m'
      ∧ K.Starts m' s ∧ K.Joins m' s s'
      ∧ (∃ c, Model.Expands table ⟨["x"]⟩ 0 [] m c ∧ c.Covers (K.encoding.stateOf s'))
      ∧ ∃ s'', K.Joins m' s' s'' := by
  have hbuild : ControlTable.build ["x"] ["read(x)"]
      = .ok ⟨[⟨0, [.undefined], [.defined], 1, .read 0⟩]⟩ := by decide +kernel
  obtain ⟨m, hnew⟩ : ∃ m, Manager.new? 48 4 = .ok m := ⟨_, rfl⟩
  obtain ⟨hm, hn⟩ := Manager.wellFormed_new? hnew
  have hvars : Encoding.numVars ⟨["x"]⟩ ≤ m.numVars := by
    rw [hn]
    decide
  have hr := ControlTable.inRange_of_build hbuild
  have hps : ∀ p ∈ ([] : List Predicate), p.states = .zero := by simp
  obtain ⟨r, m', hrun, hunfold⟩ := (returns_unfold (e := ⟨["x"]⟩) 0 hr rfl hps hm hvars).exists_ok
  cases r with
  | error err =>
      -- a `read` always has a step, and so has the end
      obtain ⟨⟨_ | pc, binding⟩, -, hstep⟩ := hunfold
      · cases hstep
      · simp [ControlTable.step, ControlTable.entry?] at hstep
  | ok K =>
      obtain ⟨hgoes, hexact⟩ := hunfold
      have henc := hexact.encoding_eq
      replace hexact : K.Exact _ K.encoding [] m' := henc.symm ▸ hexact
      let s := K.encoding.bitsOfState ⟨0, fun _ => 0⟩
      have hs : K.Starts m' s := hexact.starts_iff.mpr (by rw [K.encoding.stateOf_bitsOfState])
      obtain ⟨s', hs'⟩ := hexact.exists_joins hr (henc.symm ▸ hgoes)
        (hexact.covered_of_walk hs .refl)
      exact ⟨_, m, m', K, s, s', hbuild, hm, hvars, hrun, hs, hs',
        Model.no_deadlock hbuild (by simp) hm hvars hrun hs (.single hs')⟩

end BranchingTime
