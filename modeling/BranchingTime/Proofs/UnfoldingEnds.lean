import BranchingTime.Proofs.UnfoldingExact

/-!
# The work-list of an unfolding runs out

An unfolding takes continuations from its work-list until there are none, or
until a step fails. `Unfolding.Passes` is that loop without a bound, and
`Unfolding.Stops` is where it ends. A continuation is put on the list only when
it was not found before, so what was expanded and what is on the list are
different continuations; all of them are reached, so they have a counter in the
table and a slot for every variable, and there are only so many of these. Each
expansion uses up one, also when the program itself goes on for ever.

The states of the predicates do not matter to this, as long as they are stored
in the manager, and neither does the threshold, which decides about collections
only.
-/

namespace BranchingTime

open Diagram Manager

/-! ## The loop -/

namespace Unfolding

/-- How the loop goes on from `p₀` and `m₀`, with what was expanded on the way,
last first. -/
inductive Passes (t : Unfolding) (p₀ : Progress) (m₀ : Manager) :
    List Continuation → Progress → Manager → Prop where
  | start : Passes t p₀ m₀ [] p₀ m₀
  | expand {done rest c p p' m m'} (h : Passes t p₀ m₀ done p m) (hp : p.worklist = c :: rest)
      (hrun : (t.expand { p with worklist := rest } c).run m = .ok (.ok p') m') :
      Passes t p₀ m₀ (c :: done) p' m'

/-- The loop ends here: nothing is left to expand, or an expansion fails. -/
inductive Stops (t : Unfolding) (p : Progress) (m : Manager) :
    Except UnfoldError Progress → Manager → Prop where
  | emptied (hp : p.worklist = []) : Stops t p m (.ok p) m
  | failed {rest c err m'} (hp : p.worklist = c :: rest)
      (hrun : (t.expand { p with worklist := rest } c).run m = .ok (.error err) m') :
      Stops t p m (.error err) m'

variable {t : Unfolding} {p₀ p p' : Progress} {m₀ m m' : Manager}
  {done rest : List Continuation} {c : Continuation} {r : Except UnfoldError Progress}

theorem Passes.run_eq (h : t.Passes p₀ m₀ done p m) (fuel : Nat) :
    (t.runWithin (fuel + done.length) p₀).run m₀ = (t.runWithin fuel p).run m := by
  induction h generalizing fuel with
  | start => rfl
  | expand _ hp hrun ih =>
      rw [List.length_cons, Nat.add_left_comm, Nat.add_comm, ih, runWithin, hp]
      exact bind_of_ok hrun

theorem Stops.run_eq (h : t.Stops p m r m') (fuel : Nat) :
    (t.runWithin (fuel + 1) p).run m = .ok r m' := by
  rw [runWithin]
  cases h with
  | emptied hp =>
      rw [hp]
      rfl
  | failed hp hrun =>
      rw [hp]
      exact bind_of_ok hrun

/-! ## What an expansion keeps -/

/-- The diagrams that an expansion reads are stored, and all variables exist. -/
structure Stored (t : Unfolding) (p : Progress) (m : Manager) : Prop where
  wellFormed : m.WellFormed
  vars_le : t.encoding.numVars ≤ m.numVars
  transitions : m.Valid p.transitions
  predicates : ∀ q ∈ p.predicates, m.Valid q.states

/-- What the loop keeps, after some expansions. -/
structure Keeps (t : Unfolding) (done : List Continuation) (p : Progress) (m : Manager) :
    Prop where
  search : Search t.table t.encoding.names.length done p
  stored : t.Stored p m
  expanded_eq : p.expanded = done.length

theorem Keeps.returns_expand (h : t.Keeps done p m) (hr : t.table.InRange)
    (hp : p.worklist = c :: rest) :
    Returns (t.expand { p with worklist := rest } c).run m fun r m' =>
      ∀ p', r = .ok p' → t.Keeps (c :: done) p' m' := by
  have hfits := hr.fits_reached (h.search.reached c (by simp [hp]))
  refine Ends.imp (returns_expanded hr hfits h.stored.wellFormed h.stored.vars_le
    h.stored.transitions h.stored.predicates) ?_
  rintro r m' hexpand p' rfl
  obtain ⟨next, hstep, hp'⟩ := hexpand
  obtain ⟨threshold, hprogress⟩ := hp'.progress_eq
  refine ⟨h.search.of_expanded hp hstep hp', ⟨hp'.wellFormed, hp'.numVars_eq ▸ h.stored.vars_le,
    hp'.transitions.valid, ?_⟩, ?_⟩
  · exact ((List.forall₂_and_left _ _).mp
      (hp'.predicates.flip.imp fun _ _ hq => ⟨hq.states.valid, hq⟩)).1
  · have hcount := congrArg Progress.expanded hprogress
    rw [hcount, List.length_cons, ← h.expanded_eq]
    exact (Progress.foldl_visit_diagrams ..).2.2

/-- What was expanded and what is on the list are different continuations that
fit, so they are not more than those. -/
theorem Keeps.length_le (h : t.Keeps done p m) (hr : t.table.InRange) :
    (done ++ p.worklist).length ≤ continuationBound t.encoding :=
  length_le_continuationBound h.search.nodup fun c hc => hr.fits_reached (h.search.reached c hc)

theorem Passes.keeps (h : t.Passes p₀ m₀ done p m) (hr : t.table.InRange)
    (h₀ : t.Keeps [] p₀ m₀) : t.Keeps done p m := by
  induction h with
  | start => exact h₀
  | expand _ hp hrun ih => exact (ih.returns_expand hr hp).of_ok hrun _ rfl

/-- There are only so many continuations, so an expansion comes that is the
last one. -/
theorem Passes.exists_stops (h : t.Passes p₀ m₀ done p m) (hr : t.table.InRange)
    (hkeeps : t.Keeps done p m) (left : Nat)
    (hleft : continuationBound t.encoding < done.length + left) :
    ∃ done' p' m₁ r m₂, t.Passes p₀ m₀ done' p' m₁ ∧ t.Stops p' m₁ r m₂ := by
  induction left generalizing done p m with
  | zero =>
      have := hkeeps.length_le hr
      rw [List.length_append] at this
      omega
  | succ left ih =>
      cases hp : p.worklist with
      | nil => exact ⟨done, p, m, _, _, h, .emptied hp⟩
      | cons c rest =>
          obtain ⟨r, m', hrun, hnext⟩ := (hkeeps.returns_expand hr hp).exists_ok
          cases r with
          | error err => exact ⟨done, p, m, _, _, h, .failed hp hrun⟩
          | ok p' =>
              exact ih (h.expand hp hrun) (hnext p' rfl) (by rw [List.length_cons]; omega)

end Unfolding

/-! ## The whole unfolding -/

/-- The progress before the first expansion: the start was found. -/
def Progress.initial (numVars threshold : Nat) (predicates : List Predicate) : Progress :=
  visit ⟨.zero, predicates, ∅, [], threshold, 0⟩ (.start numVars)

variable {m m₁ : Manager} {start : Handle} {predicates : List Predicate} {names : List String}
  {table : ControlTable}

theorem keeps_initial (threshold : Nat) (hpreds : ∀ p ∈ predicates, m.Valid p.states)
    (hm : m.WellFormed) (hvars : Encoding.numVars ⟨names⟩ ≤ m.numVars) :
    Unfolding.Keeps ⟨table, ⟨names⟩, start⟩ [] (.initial names.length threshold predicates) m := by
  obtain ⟨ht, hp, he⟩ := Progress.foldl_visit_diagrams ⟨.zero, predicates, ∅, [], threshold, 0⟩
    [.start names.length]
  exact ⟨search_start .., ⟨hm, hvars, ht ▸ m.valid_zero, hp ▸ hpreds⟩, he⟩

/-- What the loop ends with is what the unfolding returns, unless the table is
empty. -/
theorem Model.returns_unfold_of_loop {threshold : Nat} {r : Except UnfoldError Progress}
    {m₂ : Manager}
    (hstart : Encoding.state ⟨names⟩ 0 (Continuation.start names.length).binding .current m
      = .ok start m₁)
    (hloop : (Unfolding.runWithin ⟨table, ⟨names⟩, start⟩ (Unfolding.continuationBound ⟨names⟩ + 1)
      (.initial names.length threshold predicates)).run m₁ = .ok r m₂) :
    Returns (Model.unfold table ⟨names⟩ threshold predicates).run m fun r' _ =>
      table.isEmpty = false →
        r' = r.map fun p => ⟨start, p.transitions, p.predicates, ⟨names⟩⟩ := by
  unfold Model.unfold
  cases hempty : table.isEmpty with
  | true =>
      simp only [if_true, ends_except_bind, ends_except_record]
      exact ends_except_throw.mpr fun h => Bool.noConfusion h
  | false =>
      simp only [Bool.false_eq_true, if_false, ends_except_bind, ends_except_lift]
      refine ends_of_eq_ok hstart (ends_of_eq_ok hloop ?_)
      cases r with
      | error err => exact fun _ => rfl
      | ok p =>
          simp only [ends_except_get, ends_except_record, ends_except_pure]
          exact fun _ => rfl

/-- The loop of an unfolding ends, for every program that was laid out in a
table and from any well-formed manager, whatever the predicates are and
whatever the threshold is. On the way, no continuation is expanded twice or is
on the list after it was expanded; all of them have a slot for each variable
and a counter that is an entry or the end; so they are never more than there are
such counters and slots. The loop with a bound ends as the one without, if the
bound allows for its expansions, and the unfolding returns what it ends with. -/
theorem Model.worklist_ends {statements : List String} (threshold : Nat)
    (hbuild : ControlTable.build names statements = .ok table)
    (hpreds : ∀ p ∈ predicates, m.Valid p.states) (hm : m.WellFormed)
    (hvars : Encoding.numVars ⟨names⟩ ≤ m.numVars) :
    ∃ start m₁, Encoding.state ⟨names⟩ 0 (Continuation.start names.length).binding .current m
        = .ok start m₁
      ∧ (∀ done p m', Unfolding.Passes ⟨table, ⟨names⟩, start⟩
          (.initial names.length threshold predicates) m₁ done p m' →
        (done ++ p.worklist).Nodup
          ∧ (∀ c ∈ done ++ p.worklist, c.binding.length = names.length ∧ c.pc ≤ table.size)
          ∧ (done ++ p.worklist).length ≤ 256 * 65537 ^ names.length
          ∧ p.expanded = done.length)
      ∧ ∃ done p m₂ r m₃, Unfolding.Passes ⟨table, ⟨names⟩, start⟩
          (.initial names.length threshold predicates) m₁ done p m₂
        ∧ Unfolding.Stops ⟨table, ⟨names⟩, start⟩ p m₂ r m₃
        ∧ (∀ bound, done.length < bound →
          (Unfolding.runWithin ⟨table, ⟨names⟩, start⟩ bound
            (.initial names.length threshold predicates)).run m₁ = .ok r m₃)
        ∧ ∃ r' m', (Model.unfold table ⟨names⟩ threshold predicates).run m = .ok r' m'
          ∧ (table.isEmpty = false →
            r' = r.map fun p => ⟨start, p.transitions, p.predicates, ⟨names⟩⟩) := by
  have hr := ControlTable.inRange_of_build hbuild
  obtain ⟨start, m₁, hstart, y⟩ := (returns_state (c := .start names.length) hm hvars .current
    (ControlTable.fits_start _).pc_lt).exists_ok
  have h₀ : Unfolding.Keeps ⟨table, ⟨names⟩, start⟩ []
      (.initial names.length threshold predicates) m₁ :=
    keeps_initial threshold (fun p hp => y.extends_.valid (hpreds p hp)) y.wellFormed
      (y.extends_.numVars_eq ▸ hvars)
  obtain ⟨done, p, m₂, r, m₃, hpass, hstop⟩ := Unfolding.Passes.start.exists_stops hr h₀
    (Unfolding.continuationBound ⟨names⟩ + 1) (by simp)
  have hrun (bound : Nat) (hbound : done.length < bound) :
      (Unfolding.runWithin ⟨table, ⟨names⟩, start⟩ bound
        (.initial names.length threshold predicates)).run m₁ = .ok r m₃ := by
    obtain ⟨more, rfl⟩ := Nat.exists_eq_add_of_lt hbound
    rw [Nat.add_assoc, Nat.add_comm, hpass.run_eq, hstop.run_eq]
  refine ⟨start, m₁, hstart, fun done p m' h => ?_, done, p, m₂, r, m₃, hpass, hstop, hrun, ?_⟩
  · have hkeeps := h.keeps hr h₀
    refine ⟨hkeeps.search.nodup, fun c hc => ?_, hkeeps.length_le hr, hkeeps.expanded_eq⟩
    have hreached := hkeeps.search.reached c hc
    exact ⟨(hr.fits_reached hreached).length_eq, hr.pc_le_of_reached hreached⟩
  · have hle := (hpass.keeps hr h₀).length_le hr
    rw [List.length_append] at hle
    exact (Model.returns_unfold_of_loop hstart
      (hrun _ (Nat.lt_succ_of_le (Nat.le_of_add_right_le hle)))).exists_ok

/-- A program that sets a variable to zero as long as it is zero goes round for
ever, and is unfolded: here with a collection after every expansion, and with a
predicate that had all states to begin with. -/
theorem Model.worklist_ends_forever : ∃ (table : ControlTable) (p : Predicate) (m : Manager),
    ControlTable.build ["x"] ["x = 0", "while (x == 0)", "\x7b", "x = 0", "\x7d"] = .ok table
      ∧ (table.step ⟨1, [some 0]⟩ = .ok ⟨2, [some 0]⟩ ∧ table.step ⟨2, [some 0]⟩ = .ok ⟨3, [some 0]⟩
        ∧ table.step ⟨3, [some 0]⟩ = .ok ⟨1, [some 0]⟩)
      ∧ p.states = .one ∧ m.Valid p.states ∧ m.WellFormed
      ∧ Encoding.numVars ⟨["x"]⟩ ≤ m.numVars
      ∧ ∃ start m₁ done q m₂ r m₃, Unfolding.Passes ⟨table, ⟨["x"]⟩, start⟩ (.initial 1 0 [p]) m₁
          done q m₂
        ∧ Unfolding.Stops ⟨table, ⟨["x"]⟩, start⟩ q m₂ r m₃
        ∧ (done ++ q.worklist).Nodup ∧ (done ++ q.worklist).length ≤ 256 * 65537
        ∧ ∃ r' m', (Model.unfold table ⟨["x"]⟩ 0 [p]).run m = .ok r' m' := by
  let zero : Expr := ⟨"0", [.num 0]⟩
  let isZero : Expr := ⟨"x == 0", [.var 0 "x", .num 0, .binary .eq]⟩
  let table := ControlTable.ofBlock 1 (.assign 0 zero (.loop isZero (.assign 0 zero .done) .done))
  have hbuild : ControlTable.build ["x"] ["x = 0", "while (x == 0)", "\x7b", "x = 0", "\x7d"]
      = .ok table := by decide +kernel
  obtain ⟨m, hnew⟩ : ∃ m, Manager.new? 48 4 = .ok m := ⟨_, rfl⟩
  obtain ⟨hm, hn⟩ := Manager.wellFormed_new? hnew
  have hvars : Encoding.numVars ⟨["x"]⟩ ≤ m.numVars := by
    rw [hn]
    decide
  have hpreds : ∀ p ∈ [(⟨0, isZero, .one⟩ : Predicate)], m.Valid p.states :=
    List.forall_mem_singleton.mpr m.valid_one
  obtain ⟨start, m₁, -, hall, done, q, m₂, r, m₃, hpass, hstop, -, r', m', hunfold, -⟩ :=
    Model.worklist_ends 0 hbuild hpreds hm hvars
  obtain ⟨hnodup, -, hlength, -⟩ := hall done q m₂ hpass
  exact ⟨table, ⟨0, isZero, .one⟩, m, hbuild, by decide +kernel, rfl, m.valid_one, hm, hvars, start,
    m₁, done, q, m₂, r, m₃, hpass, hstop, hnodup, hlength, r', m', hunfold⟩

end BranchingTime
