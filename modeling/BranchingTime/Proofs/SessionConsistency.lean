import BranchingTime.Proofs.DeclarationCount
import BranchingTime.Proofs.Independence

/-!
# What a session holds

A session answers questions about its last verification: the verdict, and
counterexamples that are read off a witness. The witness is a handle, which
means nothing without the manager that it was found with. After any calls, the
session holds what its last verification left (`Session.Holds`): nothing if it
failed, and otherwise its verdict, with a witness of the very manager that was
opened for it. Asking for counterexamples changes none of this.
-/

namespace BranchingTime

open Diagram Manager

/-! ## The last verification -/

def Call.isVerify : Call → Bool
  | .verify .. => true
  | .counterexamples _ => false

namespace Session

variable {s : Session}

/-- The last verification among some calls, and what it ended in. -/
def lastVerify? (s : Session) (calls : List Call) : Option (Call × Except Failure Reply) :=
  ((calls.zip (s.replies calls)).filter (·.1.isVerify)).getLast?

theorem after_concat (s : Session) (calls : List Call) (c : Call) :
    s.after (calls ++ [c]) = ((s.after calls).call c).2 := by
  induction calls generalizing s with
  | nil => rfl
  | cons d calls ih => exact ih (s.call d).2

theorem replies_concat (s : Session) (calls : List Call) (c : Call) :
    s.replies (calls ++ [c]) = s.replies calls ++ [((s.after calls).call c).1] := by
  induction calls generalizing s with
  | nil => rfl
  | cons d calls ih => exact congrArg _ (ih (s.call d).2)

theorem length_replies (s : Session) (calls : List Call) :
    (s.replies calls).length = calls.length := by
  induction calls generalizing s with
  | nil => rfl
  | cons c calls ih => exact congrArg _ (ih (s.call c).2)

theorem lastVerify?_concat (s : Session) (calls : List Call) (c : Call) :
    s.lastVerify? (calls ++ [c])
      = if c.isVerify then some (c, ((s.after calls).call c).1) else s.lastVerify? calls := by
  rw [lastVerify?, replies_concat, List.zip_append (s.length_replies calls).symm,
    List.filter_append]
  cases hc : c.isVerify with
  | true => simp [hc]
  | false => simp [hc, lastVerify?]

end Session

/-! ## Where an outcome comes from -/

section Opened

variable {s : Session} {program formula : String} {conditions : List String}

/-- A manager that was opened for these texts became `m` when the outcome was
found with it. -/
def OpenedFor (settings : Settings) (program : String) (conditions : List String)
    (formula : String) (m : Manager) (outcome : Outcome) : Prop :=
  ∃ (p : Program) (table : ControlTable) (f : Ctl.Formula) (first : Nat)
    (journal journal' : Journal) (opened : Manager),
    Program.parse program = .ok p ∧ ControlTable.build p.names p.statements = .ok table
      ∧ Ctl.Formula.compile formula = .ok f
      ∧ Manager.start (Encoding.numVars ⟨p.names⟩) settings.cacheBits journal = .ok opened journal'
      ∧ (Session.investigate table ⟨p.names⟩ settings.gcThreshold
        (Predicate.compileAll p.names first conditions).2 f).run opened = .ok (.ok outcome) m

/-- The session holds an outcome together with its manager, unless there was
nothing to check. -/
def Session.Owns (s : Session) (settings : Settings) (program : String) (conditions : List String)
    (formula : String) : Prop :=
  ∀ outcome, s.verifier.outcome? = some outcome →
    outcome = .empty
      ∨ ∃ m, s.manager? = some m ∧ OpenedFor settings program conditions formula m outcome

theorem returns_recordEmpty_owns (settings : Settings) :
    Returns Session.recordEmpty s fun _ s' => s'.Owns settings program conditions formula := by
  unfold Session.recordEmpty Verifier.recordEmpty
  simp only [ends_bind, ends_get, ends_session_record, ends_modify, ends_pure]
  exact fun outcome h => .inl (Option.some.inj h).symm

theorem ends_run_owns (program : String) (conditions : List String) (formula : String) :
    Ends (Session.run program conditions formula) s
      (fun _ s' => s'.Owns s.settings program conditions formula) (fun _ _ => True) := by
  unfold Session.run
  simp only [ends_bind, ends_modify, ends_stage]
  refine Ends.mono ends_parseLogged ?_ fun _ _ _ => trivial
  intro p journal1 hp
  refine Ends.mono ends_compileLogged ?_ fun _ _ _ => trivial
  intro f journal2 hf
  split
  · exact (returns_recordEmpty_owns s.settings).ends fun _ _ h => h
  simp only [ends_bind, ends_stage, ends_session_record]
  refine Ends.mono ends_buildLogged ?_ fun _ _ _ => trivial
  intro table journal3 htable
  split
  · exact (returns_recordEmpty_owns s.settings).ends fun _ _ h => h
  simp only [ends_bind, ends_get, ends_stage, ends_modify, ends_onManager, ends_pure]
  refine Ends.mono ends_self ?_ fun _ _ _ => trivial
  intro opened journal4 hopened
  refine Ends.mono ends_self ?_ fun _ _ _ => trivial
  rintro (err | outcome) m hrun
  · trivial
  · intro outcome' h
    obtain rfl := Option.some.inj h
    exact .inr ⟨m, rfl, p, table, f, s.nextId, _, journal4, opened, hp, htable, hf, hopened, hrun⟩

theorem ends_verify_owns (program : String) (conditions : List String) (formula : String) :
    Ends (Session.verify program conditions formula) s
      (fun _ s' => s'.Owns s.settings program conditions formula) (fun _ _ => True) :=
  ends_verify_of_run (ends_run_owns program conditions formula) fun _ _ _ _ => trivial

end Opened

/-! ## What stays in a session -/

/-- What a verification leaves in a session, as it ended. -/
inductive Session.Holds (settings : Settings) (s : Session) :
    Option (Call × Except Failure Reply) → Prop
  | nothing (h : s.verifier.outcome? = none) : Holds settings s none
  | failed {c : Call} {e : Failure} (h : s.verifier.outcome? = none) :
      Holds settings s (some (c, .error e))
  | empty {c : Call} (h : s.verifier.outcome? = some .empty) :
      Holds settings s (some (c, .ok (.verdict .empty)))
  | settled {program formula : String} {conditions : List String} {q : Task} {t : Ctl.Tree}
      {v : Verdict} (hq : q.ReadFrom program conditions formula) (h : q.Settled t v s)
      (howns : s.Owns settings program conditions formula) :
      Holds settings s (some (.verify program conditions formula, .ok (.verdict v)))

/-- A session that has its settings, and holds what the last verification
left. -/
structure Session.Remembers (settings : Settings) (last? : Option (Call × Except Failure Reply))
    (s : Session) : Prop where
  settings_eq : s.settings = settings
  maxExamples_eq : s.verifier.maxExamples = settings.maxExamples
  holds : s.Holds settings last?

namespace Session

variable {settings : Settings} {s : Session} {last? : Option (Call × Except Failure Reply)}

theorem Holds.journal (h : s.Holds settings last?) (journal : Journal) :
    Holds settings { s with journal } last? := by
  cases h with
  | nothing h => exact .nothing h
  | failed h => exact .failed h
  | empty h => exact .empty h
  | settled hq h howns => exact .settled hq ⟨h.tree, h.goes, h.compared⟩ howns

/-- A verification makes the session forget what was there before. -/
theorem Remembers.verify (h : s.Remembers settings last?) (program : String)
    (conditions : List String) (formula : String) :
    (s.call (.verify program conditions formula)).2.Remembers settings
      (some (.verify program conditions formula,
        (s.call (.verify program conditions formula)).1)) := by
  obtain ⟨rfl, -, -⟩ := h
  have hends : Ends (Call.verify program conditions formula).perform s
      (fun reply s' => s'.Remembers s.settings
        (some (.verify program conditions formula, .ok reply)))
      (fun e s' => s'.Remembers s.settings
        (some (.verify program conditions formula, .error e))) := by
    refine ends_bind.mpr (Ends.mono ((ends_verify_session program conditions formula).and
      (ends_verify_owns program conditions formula)) ?_ ?_)
    · rintro v s' ⟨⟨hrenews, hleaves⟩, howns⟩
      refine ends_pure.mpr ⟨hrenews.settings_eq, hrenews.maxExamples_eq, ?_⟩
      rcases hleaves with ⟨rfl, hempty, -⟩ | ⟨q, t, hq, hsettled⟩
      · exact .empty hempty
      · exact .settled hq hsettled howns
    · rintro e s' ⟨⟨hrenews, hfails⟩, -⟩
      exact ⟨hrenews.settings_eq, hrenews.maxExamples_eq, .failed hfails.outcome⟩
  rcases ends_call hends with ⟨reply, hreply, hs'⟩ | ⟨e, he, hs'⟩
  · rwa [hreply]
  · rwa [he]

theorem Remembers.counterexamples (h : s.Remembers settings last?) (n : Int) :
    (s.call (.counterexamples n)).2.Remembers settings last? := by
  obtain ⟨journal, hs'⟩ := s.call_counterexamples n
  rw [hs']
  exact ⟨h.settings_eq, h.maxExamples_eq, h.holds.journal journal⟩

theorem remembers_after (settings : Settings) (calls : List Call) :
    ((new settings).after calls).Remembers settings ((new settings).lastVerify? calls) := by
  -- calls are added at the end, as the last verification is looked for from there
  induction calls using List.reverseRecOn with
  | nil => exact ⟨rfl, rfl, .nothing rfl⟩
  | append_singleton calls c ih =>
      rw [after_concat, lastVerify?_concat]
      cases c with
      | verify program conditions formula => exact ih.verify program conditions formula
      | counterexamples n => exact ih.counterexamples n

/-! ## Verdicts and witnesses -/

theorem Holds.verdict?_eq_some_iff (h : s.Holds settings last?) (v : Verdict) :
    s.verdict? = some v ↔ ∃ c, last? = some (c, .ok (.verdict v)) := by
  cases h with
  | nothing h => simp [verdict?, Verifier.verdict?, h]
  | failed h => simp [verdict?, Verifier.verdict?, h]
  | empty h => simp [verdict?, Verifier.verdict?, h, Outcome.verdict]
  | settled hq h howns =>
      obtain ⟨m, outcome, -, houtcome, hverdict, -⟩ := h.compared
      simp [verdict?, Verifier.verdict?, houtcome, hverdict]

theorem Holds.verdict?_eq_none_iff (h : s.Holds settings last?) :
    s.verdict? = none ↔ last? = none ∨ ∃ c e, last? = some (c, .error e) := by
  cases h with
  | nothing h => simp [verdict?, Verifier.verdict?, h]
  | failed h => simp [verdict?, Verifier.verdict?, h]
  | empty h => simp [verdict?, Verifier.verdict?, h]
  | settled hq h howns =>
      obtain ⟨m, outcome, -, houtcome, -⟩ := h.compared
      simp [verdict?, Verifier.verdict?, houtcome]

/-- There is nothing to show without a verdict on a property. -/
theorem Holds.shows_none (h : s.Holds settings last?)
    (hverdict : s.verdict? = none ∨ s.verdict? = some .empty) : s.Shows none := by
  cases h with
  | nothing h => simp [Shows, Verifier.witness?, h]
  | failed h => simp [Shows, Verifier.witness?, h]
  | empty h => simp [Shows, Verifier.witness?, h, Outcome.witness?]
  | settled hq h howns =>
      have hne := h.answers.ne_empty
      obtain ⟨m, outcome, -, houtcome, rfl, -⟩ := h.compared
      simp [verdict?, Verifier.verdict?, houtcome, hne] at hverdict

/-- A witness is there after a task was settled. -/
theorem Holds.exists_settled (h : s.Holds settings last?) (hw : s.verifier.witness? ≠ none) :
    ∃ (program : String) (conditions : List String) (formula : String) (q : Task) (t : Ctl.Tree)
      (v : Verdict), last? = some (.verify program conditions formula, .ok (.verdict v))
      ∧ q.ReadFrom program conditions formula ∧ q.Settled t v s
      ∧ s.Owns settings program conditions formula := by
  cases h with
  | nothing h => simp [Verifier.witness?, h] at hw
  | failed h => simp [Verifier.witness?, h] at hw
  | empty h => simp [Verifier.witness?, h, Outcome.witness?] at hw
  | settled hq h howns => exact ⟨_, _, _, _, _, _, rfl, hq, h, howns⟩

/-- The witness is found with the manager that the session holds, which was
opened by the last verification, and denotes what that one was about. -/
theorem Holds.witness (h : s.Holds settings last?) {w : Handle}
    (hw : s.verifier.witness? = some w) :
    ∃ (program : String) (conditions : List String) (formula : String)
      (reply : Except Failure Reply) (m : Manager) (outcome : Outcome),
      last? = some (.verify program conditions formula, reply)
      ∧ s.manager? = some m ∧ s.verifier.outcome? = some outcome
      ∧ OpenedFor settings program conditions formula m outcome
      ∧ m.Valid w
      ∧ ∃ (q : Task) (t : Ctl.Tree), q.ReadFrom program conditions formula
        ∧ t.postorder = q.formula.code
        ∧ Witnesses ⟨q.program.names⟩ m w (t.states q.system) := by
  obtain ⟨program, conditions, formula, q, t, v, hlast, hq, hsettled, howns⟩ :=
    h.exists_settled (by simp [hw])
  obtain ⟨m, _, hmanager, houtcome, -, hm, verdict, witness, rfl, hdenotes, -⟩ := hsettled.compared
  obtain rfl : witness = w := by
    simpa [Verifier.witness?, houtcome, Outcome.witness?] using hw
  rcases howns _ houtcome with hempty | ⟨m', hmanager', hopened⟩
  · cases hempty
  · obtain rfl := Option.some.inj (hmanager.symm.trans hmanager')
    exact ⟨program, conditions, formula, _, m, _, hlast, hmanager, houtcome, hopened,
      hdenotes.valid, q, t, hq, hsettled.tree, hm, hdenotes⟩

end Session

/-! ## Asking for counterexamples -/

theorem exampleLimit_of_invalid {n : Int} (hn : n = 0 ∨ n < -1) (cap : Nat) :
    exampleLimit n cap = .error (.invalidExampleCount n) := by
  unfold exampleLimit
  rw [if_neg (by omega), if_neg (by omega)]

theorem exists_exampleLimit {n : Int} (hn : ¬ (n = 0 ∨ n < -1)) (cap : Nat) :
    ∃ limit, exampleLimit n cap = .ok limit := by
  by_cases hall : n = -1
  · exact ⟨cap, exampleLimit_eq_ok_iff.mpr (.inl ⟨hall, rfl⟩)⟩
  · exact ⟨min n.toNat cap, exampleLimit_eq_ok_iff.mpr (.inr ⟨by omega, rfl⟩)⟩

theorem examplesOf_of_error {view : Option (Encoding × List Literals)} {cap : Nat} {n : Int}
    {cause : VerifyError} (h : exampleLimit n cap = .error cause) :
    examplesOf view cap n = .error cause := by
  unfold examplesOf
  rw [h]
  rfl

theorem examplesOf_none {cap limit : Nat} {n : Int} (h : exampleLimit n cap = .ok limit) :
    examplesOf none cap n = .error .noVerdict := by
  unfold examplesOf
  rw [h]
  rfl

/-- With a witness, only its cubes can be misread. -/
theorem examplesOf_some {e : Encoding} {paths : List Literals} {cap limit : Nat} {n : Int}
    (h : exampleLimit n cap = .ok limit) :
    (∃ texts, examplesOf (some (e, paths)) cap n = .ok texts)
      ∨ ∃ cause, examplesOf (some (e, paths)) cap n = .error (.decode cause) := by
  have heq : examplesOf (some (e, paths)) cap n
      = if paths = [] then .ok []
        else e.decode (String.join ((paths.take limit).map cubeText)) limit := by
    unfold examplesOf
    rw [h]
    rfl
  rw [heq]
  split
  · exact .inl ⟨[], rfl⟩
  · unfold Encoding.decode
    split
    · exact .inl ⟨_, rfl⟩
    · exact .inr ⟨_, rfl⟩

namespace Session

variable {settings : Settings} {s : Session} {last? : Option (Call × Except Failure Reply)}

theorem Remembers.exists_shows (h : s.Remembers settings last?) : ∃ view, s.Shows view := by
  cases hw : s.verifier.witness? with
  | none => exact ⟨none, hw⟩
  | some w =>
      obtain ⟨_, _, _, _, _, _, -, -, hsettled, -⟩ := h.holds.exists_settled (by simp [hw])
      obtain ⟨_, _, -, hshows⟩ := hsettled.exists_witnesses
      exact ⟨_, hshows⟩

theorem Remembers.reply_invalid (h : s.Remembers settings last?) {n : Int}
    (hn : n = 0 ∨ n < -1) :
    (s.call (.counterexamples n)).1 = .error (.error (.verify (.invalidExampleCount n))) := by
  obtain ⟨view, hshows⟩ := h.exists_shows
  rw [hshows.reply_eq (congrArg _ h.settings_eq) h.maxExamples_eq,
    examplesOf_of_error (exampleLimit_of_invalid hn _)]
  rfl

theorem Remembers.reply_noVerdict (h : s.Remembers settings last?) {n : Int}
    (hn : ¬ (n = 0 ∨ n < -1)) (hverdict : s.verdict? = none ∨ s.verdict? = some .empty) :
    (s.call (.counterexamples n)).1 = .error (.error (.verify .noVerdict)) := by
  obtain ⟨limit, hlimit⟩ := exists_exampleLimit hn settings.maxExamples
  rw [(h.holds.shows_none hverdict).reply_eq (congrArg _ h.settings_eq) h.maxExamples_eq,
    examplesOf_none hlimit]
  rfl

/-- A verdict on a property comes with a witness. -/
theorem Holds.witness?_ne_none (h : s.Holds settings last?)
    (hverdict : ¬ (s.verdict? = none ∨ s.verdict? = some .empty)) :
    s.verifier.witness? ≠ none := by
  cases h with
  | nothing h => simp [verdict?, Verifier.verdict?, h] at hverdict
  | failed h => simp [verdict?, Verifier.verdict?, h] at hverdict
  | empty h => simp [verdict?, Verifier.verdict?, h, Outcome.verdict] at hverdict
  | settled hq h howns =>
      obtain ⟨m, _, -, houtcome, -, -, verdict, witness, rfl, -⟩ := h.compared
      simp [Verifier.witness?, houtcome, Outcome.witness?]

theorem Remembers.reply_of_verdict (h : s.Remembers settings last?) {n : Int}
    (hn : ¬ (n = 0 ∨ n < -1)) (hverdict : ¬ (s.verdict? = none ∨ s.verdict? = some .empty)) :
    (∃ texts, (s.call (.counterexamples n)).1 = .ok (.examples texts))
      ∨ ∃ cause, (s.call (.counterexamples n)).1 = .error (.error (.verify (.decode cause))) := by
  obtain ⟨limit, hlimit⟩ := exists_exampleLimit hn settings.maxExamples
  obtain ⟨_, _, _, _, _, _, -, -, hsettled, -⟩ :=
    h.holds.exists_settled (h.holds.witness?_ne_none hverdict)
  obtain ⟨m, witness, -, hshows⟩ := hsettled.exists_witnesses
  rw [hshows.reply_eq (congrArg _ h.settings_eq) h.maxExamples_eq]
  rcases examplesOf_some hlimit with ⟨texts, htexts⟩ | ⟨cause, hcause⟩
  · rw [htexts]
    exact .inl ⟨texts, rfl⟩
  · rw [hcause]
    exact .inr ⟨cause, rfl⟩

/-- No cube is misread, unless the program has too many variables. -/
theorem Remembers.reply_examples (h : s.Remembers settings last?) {n : Int}
    (hn : ¬ (n = 0 ∨ n < -1)) (hverdict : ¬ (s.verdict? = none ∨ s.verdict? = some .empty))
    (hshort : ∀ program conditions formula reply,
      last? = some (.verify program conditions formula, reply) → program.length < 2 ^ 63) :
    ∃ texts, (s.call (.counterexamples n)).1 = .ok (.examples texts) := by
  obtain ⟨limit, hlimit⟩ := exists_exampleLimit hn settings.maxExamples
  obtain ⟨_, _, _, _, _, _, hlast, hq, hsettled, -⟩ :=
    h.holds.exists_settled (h.holds.witness?_ne_none hverdict)
  obtain ⟨m, witness, hw, hshows⟩ := hsettled.exists_witnesses
  have hwidth := Program.halfWidth_le hq.program (hshort _ _ _ _ hlast)
  rw [hshows.reply_eq (congrArg _ h.settings_eq) h.maxExamples_eq, hw.examplesOf_eq hwidth hlimit]
  exact ⟨_, rfl⟩

theorem Remembers.reply_eq_invalid_iff (h : s.Remembers settings last?) (n : Int) :
    (s.call (.counterexamples n)).1 = .error (.error (.verify (.invalidExampleCount n)))
      ↔ n = 0 ∨ n < -1 := by
  refine ⟨fun hreply => ?_, h.reply_invalid⟩
  by_contra hn
  by_cases hverdict : s.verdict? = none ∨ s.verdict? = some .empty
  · rw [h.reply_noVerdict hn hverdict] at hreply
    cases hreply
  · rcases h.reply_of_verdict hn hverdict with ⟨texts, hok⟩ | ⟨cause, herror⟩
    · rw [hok] at hreply
      cases hreply
    · rw [herror] at hreply
      cases hreply

theorem Remembers.reply_eq_noVerdict_iff (h : s.Remembers settings last?) {n : Int}
    (hn : ¬ (n = 0 ∨ n < -1)) :
    (s.call (.counterexamples n)).1 = .error (.error (.verify .noVerdict))
      ↔ s.verdict? = none ∨ s.verdict? = some .empty := by
  refine ⟨fun hreply => ?_, h.reply_noVerdict hn⟩
  by_contra hverdict
  rcases h.reply_of_verdict hn hverdict with ⟨texts, hok⟩ | ⟨cause, herror⟩
  · rw [hok] at hreply
    cases hreply
  · rw [herror] at hreply
    cases hreply

/-- What a session holds fits its last verification, and what it replies fits
what it holds. -/
structure Consistent (settings : Settings) (last? : Option (Call × Except Failure Reply))
    (s : Session) : Prop where
  /-- There is no verdict before a verification, and none after a failure. -/
  verdict_none : s.verdict? = none ↔ last? = none ∨ ∃ c e, last? = some (c, .error e)
  /-- A verdict is the one that the last verification replied with. -/
  verdict_some : ∀ v, s.verdict? = some v ↔ ∃ c, last? = some (c, .ok (.verdict v))
  /-- A witness is live in the manager that the session holds. The last
  verification opened this manager and found the witness with it, which
  denotes the start states outside of the property. -/
  witness : ∀ w, s.verifier.witness? = some w →
    ∃ (program : String) (conditions : List String) (formula : String)
      (reply : Except Failure Reply) (m : Manager) (outcome : Outcome),
      last? = some (.verify program conditions formula, reply)
      ∧ s.manager? = some m ∧ s.verifier.outcome? = some outcome
      ∧ OpenedFor settings program conditions formula m outcome
      ∧ m.Valid w
      ∧ ∃ (q : Task) (t : Ctl.Tree), q.ReadFrom program conditions formula
        ∧ t.postorder = q.formula.code
        ∧ Witnesses ⟨q.program.names⟩ m w (t.states q.system)
  /-- Asking for counterexamples leaves nothing but notes. -/
  unchanged : ∀ n, ∃ journal, (s.call (.counterexamples n)).2 = { s with journal }
  invalid : ∀ n,
    (s.call (.counterexamples n)).1 = .error (.error (.verify (.invalidExampleCount n)))
      ↔ n = 0 ∨ n < -1
  noVerdict : ∀ n, ¬ (n = 0 ∨ n < -1) →
    ((s.call (.counterexamples n)).1 = .error (.error (.verify .noVerdict))
      ↔ s.verdict? = none ∨ s.verdict? = some .empty)

/-- A session is consistent after any calls. With a verdict on a property,
asking for counterexamples does not fail, unless the program has a text of
`2 ^ 63` characters, which no memory has room for. -/
theorem consistent_after (settings : Settings) (calls : List Call) :
    ((new settings).after calls).Consistent settings ((new settings).lastVerify? calls)
      ∧ ∀ n, ¬ (n = 0 ∨ n < -1) →
        ¬ (((new settings).after calls).verdict? = none
          ∨ ((new settings).after calls).verdict? = some .empty) →
        (∀ program conditions formula reply,
          (new settings).lastVerify? calls = some (.verify program conditions formula, reply) →
          program.length < 2 ^ 63) →
        ∃ texts, (((new settings).after calls).call (.counterexamples n)).1
          = .ok (.examples texts) := by
  have h := remembers_after settings calls
  exact ⟨⟨h.holds.verdict?_eq_none_iff, h.holds.verdict?_eq_some_iff, fun _ => h.holds.witness,
    call_counterexamples _, h.reply_eq_invalid_iff, fun _ => h.reply_eq_noVerdict_iff⟩,
    fun _ hn hverdict hshort => h.reply_examples hn hverdict hshort⟩

theorem call_verify_of_ok {program formula : String} {conditions : List String} {v : Verdict}
    {s' : Session} (h : verify program conditions formula s = .ok v s') :
    s.call (.verify program conditions formula) = (.ok (.verdict v), s') := by
  have hperform : (Call.verify program conditions formula).perform s = .ok (.verdict v) s' :=
    bind_of_ok h
  rw [call, hperform]

/-- A verdict with examples, and then a failure that leaves no verdict. -/
theorem consistent_after_assign : ∃ v texts,
    ((new ⟨4, 0, 2⟩).after [.verify "int x; x = 1;" ["x == 1"] "0"]).verdict? = some v
      ∧ (((new ⟨4, 0, 2⟩).after [.verify "int x; x = 1;" ["x == 1"] "0"]).call
        (.counterexamples (-1))).1 = .ok (.examples texts)
      ∧ ((new ⟨4, 0, 2⟩).after [.verify "int x; x = 1;" ["x == 1"] "0",
        .verify "int x; int x;" [] "0"]).verdict? = none := by
  have hq : (Task.assignOne ⟨"0", [.operand 0]⟩).ReadFrom "int x; x = 1;" ["x == 1"] "0" :=
    Task.assignOne_readFrom (by decide +kernel)
  have hc : (Task.assignOne ⟨"0", [.operand 0]⟩).Checkable :=
    Task.assignOne_checkable (t := .operand 0) rfl (by simp)
  obtain ⟨v, s', t, hrun, hsettled⟩ := hc.exists_settled hq (s := new ⟨4, 0, 2⟩) (by decide)
  have hlast := lastVerify?_concat (new ⟨4, 0, 2⟩) [] (.verify "int x; x = 1;" ["x == 1"] "0")
  rw [Call.isVerify, if_pos rfl, List.nil_append, after, call_verify_of_ok hrun] at hlast
  obtain ⟨hconsistent, hexamples⟩ :=
    consistent_after ⟨4, 0, 2⟩ [.verify "int x; x = 1;" ["x == 1"] "0"]
  have hverdict := (hconsistent.verdict_some v).mpr ⟨_, hlast⟩
  have hchecked := hsettled.answers.ne_empty
  obtain ⟨texts, htexts⟩ := hexamples (-1) (by decide) (by simp [hverdict, hchecked]) (by
    intro program conditions formula reply h
    rw [hlast] at h
    cases h
    decide)
  refine ⟨v, texts, hverdict, htexts, ?_⟩
  have hparse : Program.parse "int x; int x;" = .error (.duplicateVariable "x") := by
    decide +kernel
  have hready : (new ⟨4, 0, 2⟩).Ready 2 := ⟨rfl, rfl, by decide⟩
  rcases (hready.after [.verify "int x; x = 1;" ["x == 1"] "0"]).verify_call "int x; int x;" [] "0"
    with ⟨v', -, hok, -⟩ | ⟨cause, hcause, -⟩
  · rw [diagnose, hparse] at hok
    cases hok
  · have hlast' := lastVerify?_concat (new ⟨4, 0, 2⟩) [.verify "int x; x = 1;" ["x == 1"] "0"]
      (.verify "int x; int x;" [] "0")
    rw [Call.isVerify, if_pos rfl, hcause] at hlast'
    exact (consistent_after _ _).1.verdict_none.mpr (.inr ⟨_, _, hlast'⟩)

end Session

end BranchingTime
