import Mathlib.Data.FinEnum
import BranchingTime.Proofs.DeclarationCount
import BranchingTime.Proofs.ShownStates
import BranchingTime.Proofs.VerdictCorrect

/-!
# Counterexamples are exact

The witness of a verdict denotes the start states outside of the property.
Its states are listed path by path, each of them once, and different values
have different texts. So what is shown for some limit is a list of that many
different counterexamples, or of all of them, and a larger limit only adds to
it.

Nothing goes wrong on the way through the text of the cubes, unless a bit
index has more than 64 bits; a program text that declares so many variables
is longer than any.
-/

namespace BranchingTime

open Diagram Manager

/-! ## The witness -/

section Witness

variable {e : Encoding} {m : Manager} {witness : Handle} {good : Set (State e.names.length)}

/-- A witness denotes the start states outside of `good`. -/
structure Witnesses (e : Encoding) (m : Manager) (witness : Handle)
    (good : Set (State e.names.length)) : Prop where
  wellFormed : m.WellFormed
  denotes : m.Denotes witness fun a => (e.stateOf (e.halfOf .current a)).pc = 0
    ∧ e.stateOf (e.halfOf .current a) ∉ good

namespace Witnesses

theorem statesAt (h : Witnesses e m witness good) :
    StatesAt e m witness 0 {values | ⟨0, values⟩ ∉ good} where
  wellFormed := h.wellFormed
  denotes := by
    refine h.denotes.congr fun a => and_congr_right fun hpc => ?_
    rw [Set.mem_ofPred_eq, ← hpc]

theorem mem_witnessValues (h : Witnesses e m witness good)
    {values : Fin e.names.length → Int16} :
    values ∈ e.witnessValues m witness ↔ ⟨0, values⟩ ∉ good :=
  h.statesAt.mem_witnessValues

theorem nodup_witnessValues (h : Witnesses e m witness good) :
    (e.witnessValues m witness).Nodup :=
  h.statesAt.nodup_witnessValues

theorem ncard_eq (h : Witnesses e m witness good) :
    {values | ⟨0, values⟩ ∉ good}.ncard = (e.witnessValues m witness).length :=
  h.statesAt.ncard_eq

end Witnesses

end Witness

/-! ## What a session shows -/

/-- The examples of a witness with these paths; there are none without a
witness. -/
def examplesOf (view : Option (Encoding × List Literals)) (cap : Nat) (n : Int) :
    Except VerifyError (List String) := do
  let limit ← exampleLimit n cap
  match view with
  | none => throw .noVerdict
  | some (e, paths) =>
    if paths = [] then return []
    e.decode (String.join ((paths.take limit).map cubeText)) limit

/-- A session shows the paths of its witness, if it has one. -/
def Session.Shows (s : Session) : Option (Encoding × List Literals) → Prop
  | none => s.verifier.witness? = none
  | some (e, paths) => ∃ m verdict witness, s.manager? = some m
      ∧ s.verifier.outcome? = some (.checked verdict witness e)
      ∧ m.WellFormed ∧ m.Valid witness ∧ m.paths witness = paths

theorem Manager.WellFormed.paths_eq_nil_iff {m : Manager} {witness : Handle} (hm : m.WellFormed)
    (h : m.Valid witness) : m.paths witness = [] ↔ witness = .zero := by
  constructor
  · intro hnil
    refine (hm.toReduced.eq_iff_eval h m.valid_zero).mpr fun a => ?_
    rw [eval_zero, Bool.eq_false_iff]
    intro htrue
    obtain ⟨p, hp, -⟩ := (hm.toReduced.eval_iff_meets h a).mp htrue
    rw [hnil] at hp
    cases hp
  · intro hzero
    rw [hzero, paths_zero]

section Showing

variable {s : Session} {cap : Nat} {view : Option (Encoding × List Literals)}

/-- Asking for examples leaves nothing but notes. -/
theorem ends_counterexamples_journal (n : Int) :
    Ends (Session.counterexamples n) s (fun _ s' => ∃ journal, s' = { s with journal })
      (fun _ s' => ∃ journal, s' = { s with journal }) := by
  unfold Session.counterexamples
  simp only [ends_bind, ends_get]
  split
  · simp only [ends_bind, ends_get, ends_stage]
    exact ends_true.mono (fun _ journal _ => ⟨journal, rfl⟩) fun _ journal _ => ⟨journal, rfl⟩
  · simp only [ends_bind, ends_get]
    split
    · exact ends_throw.mpr ⟨s.journal, rfl⟩
    · exact ends_throw.mpr ⟨s.journal, rfl⟩

/-- Examples are those of the paths that are shown. -/
theorem ends_counterexamples (hs : s.Shows view) (hsettings : s.settings.maxExamples = cap)
    (hverifier : s.verifier.maxExamples = cap) (n : Int) :
    Ends (Session.counterexamples n) s (fun texts _ => examplesOf view cap n = .ok texts)
      (fun e _ => ∃ cause, e = .error (.verify cause) ∧ examplesOf view cap n = .error cause) := by
  unfold Session.counterexamples examplesOf
  simp only [ends_bind, ends_get]
  cases hlimit : exampleLimit n cap with
  | error cause =>
      split
      · simp only [ends_bind, ends_get, ends_stage, Verifier.counterexamples, ends_ofExcept,
          hverifier, hlimit]
        exact ⟨cause, rfl, rfl⟩
      · simp only [ends_bind, ends_get, hsettings, hlimit, ends_throw]
        exact ⟨cause, rfl, rfl⟩
  | ok limit =>
      cases view with
      | none =>
          split
          · simp only [ends_bind, ends_get, ends_stage, Verifier.counterexamples, ends_ofExcept,
              hverifier, hlimit]
            split
            · next houtcome =>
                simp [Session.Shows, Verifier.witness?, houtcome, Outcome.witness?] at hs
            · exact ends_throw.mpr ⟨.noVerdict, rfl, rfl⟩
          · simp only [ends_bind, ends_get, hsettings, hlimit, ends_throw]
            exact ⟨.noVerdict, rfl, rfl⟩
      | some shown =>
          obtain ⟨e, paths⟩ := shown
          obtain ⟨m, verdict, witness, hmanager, houtcome, hm, hvalid, rfl⟩ := hs
          simp only [hmanager, ends_bind, ends_get, ends_stage, Verifier.counterexamples,
            ends_ofExcept, hverifier, hlimit, houtcome, cubesText_eq, Option.elim_some]
          split
          · next hzero =>
              have hnil := (hm.paths_eq_nil_iff hvalid).mpr hzero
              exact ends_pure.mpr (if_pos hnil)
          · next hne =>
              have hpaths := mt (hm.paths_eq_nil_iff hvalid).mp hne
              simp only [ends_bind, ends_logged_record]
              refine Ends.mono ends_decodeLogged (fun texts _ htexts => ?_) fun cause _ hcause => ?_
              · exact (if_neg hpaths).trans htexts
              · exact ⟨cause, rfl, (if_neg hpaths).trans hcause⟩

/-- A settled task leaves a witness to show. -/
theorem Task.Settled.exists_witnesses {q : Task} {t : Ctl.Tree} {v : Verdict}
    (h : q.Settled t v s) :
    ∃ m witness, Witnesses ⟨q.program.names⟩ m witness (t.states q.system)
      ∧ s.Shows (some (⟨q.program.names⟩, m.paths witness)) := by
  obtain ⟨m, outcome, hmanager, houtcome, -, hm, verdict, witness, rfl, hdenotes, -⟩ := h.compared
  exact ⟨m, witness, ⟨hm, hdenotes⟩, m, verdict, witness, hmanager, houtcome, hm,
    hdenotes.valid, rfl⟩

/-- The examples of a witness are the first of its values. -/
theorem Witnesses.examplesOf_eq {e : Encoding} {m : Manager} {witness : Handle}
    {good : Set (State e.names.length)} (h : Witnesses e m witness good)
    (hwidth : e.halfWidth ≤ Cube.maxIndex) {n : Int} {limit : Nat}
    (hlimit : exampleLimit n cap = .ok limit) :
    examplesOf (some (e, m.paths witness)) cap n
      = .ok (((e.witnessValues m witness).map (exampleText e.names)).take limit) := by
  unfold examplesOf
  rw [hlimit]
  show (if m.paths witness = [] then Except.ok [] else _) = _
  split
  · next hnil => simp [Encoding.witnessValues, Manager.allStates, hnil]
  · have hdecode := h.statesAt.decode_eq hwidth (some limit) limit (by simp)
    rwa [cubesText_eq] at hdecode

/-- A session that shows a witness replies with the first of its values. -/
theorem Witnesses.counterexamples_eq {e : Encoding} {m : Manager} {witness : Handle}
    {good : Set (State e.names.length)} (h : Witnesses e m witness good)
    (hwidth : e.halfWidth ≤ Cube.maxIndex) (hs : s.Shows (some (e, m.paths witness)))
    (hsettings : s.settings.maxExamples = cap) (hverifier : s.verifier.maxExamples = cap)
    {n : Int} {limit : Nat} (hlimit : exampleLimit n cap = .ok limit) :
    ∃ journal, Session.counterexamples n s
      = .ok (((e.witnessValues m witness).map (exampleText e.names)).take limit)
        { s with journal } := by
  have hends := ends_counterexamples hs hsettings hverifier n
  rw [h.examplesOf_eq hwidth hlimit] at hends
  have hreturns : Returns (Session.counterexamples n) s _ :=
    (hends.and (ends_counterexamples_journal n)).mono (fun _ _ h => h) fun _ _ h => by simp at h
  obtain ⟨texts, _, hrun, htexts, journal, rfl⟩ := hreturns.exists_ok
  obtain rfl := Except.ok.inj htexts
  exact ⟨journal, hrun⟩

end Showing

theorem exampleLimit_eq_ok_iff {n : Int} {cap limit : Nat} :
    exampleLimit n cap = .ok limit ↔ n = -1 ∧ limit = cap ∨ 1 ≤ n ∧ limit = min n.toNat cap := by
  unfold exampleLimit
  split
  · next hn =>
      subst hn
      simp [eq_comm]
  · next hn =>
      split
      · next hpos => simp [hn, hpos, eq_comm]
      · next hpos => simp [hn, hpos]

/-- After a verdict, counterexamples are shown exactly: different values that
start outside of the property, as many as asked for or all that there are.
Asking for more adds to the end of the list, and there is nothing to show if
and only if the property holds. As bit indices are read as numbers of 64 bits,
the text must not be too long for any memory. -/
theorem Session.counterexamples_exact {program formula : String} {conditions : List String}
    {s s' : Session} {v : Verdict}
    (hrun : Session.verify program conditions formula s = .ok v s')
    (hv : v = .holds ∨ v = .notHolds) (hshort : program.length < 2 ^ 63) :
    ∃ (q : Task) (t : Ctl.Tree) (shown : Nat → List String),
      q.ReadFrom program conditions formula ∧ t.postorder = q.formula.code
      ∧ (∀ n limit journal,
        n = -1 ∧ limit = s.settings.maxExamples
          ∨ 1 ≤ n ∧ limit = min n.toNat s.settings.maxExamples →
        ∃ journal', Session.counterexamples n { s' with journal }
          = .ok (shown limit) { s' with journal := journal' })
      ∧ (∀ limit, (shown limit).Nodup
        ∧ (shown limit).length = min limit {values | ⟨0, values⟩ ∉ t.states q.system}.ncard
        ∧ ∀ text ∈ shown limit, ∃ values, ⟨0, values⟩ ∉ t.states q.system
          ∧ text = exampleText q.program.names values)
      ∧ (∀ limit limit', limit ≤ limit' → shown limit <+: shown limit')
      ∧ ∀ limit, 1 ≤ limit → (shown limit = [] ↔ v = .holds) := by
  obtain ⟨hrenews, hleaves⟩ := (ends_verify_session program conditions formula).of_ok hrun
  rcases hleaves with ⟨rfl, -, -⟩ | ⟨q, t, hq, hsettled⟩
  · simp at hv
  have hwidth := Program.halfWidth_le hq.program hshort
  obtain ⟨m, witness, hw, hshows⟩ := hsettled.exists_witnesses
  have hnodup := hw.nodup_witnessValues
  refine ⟨q, t, fun limit => ((Encoding.witnessValues ⟨q.program.names⟩ m witness).map
      (exampleText q.program.names)).take limit, hq, hsettled.tree,
    fun n limit journal hlimit => ?_, fun limit => ⟨?_, ?_, fun text htext => ?_⟩,
    fun limit limit' hle => List.take_prefix_take_left hle, fun limit hlimit => ?_⟩
  · have hshows : Session.Shows { s' with journal } (some (⟨q.program.names⟩, m.paths witness)) :=
      hshows
    exact hw.counterexamples_eq hwidth hshows (congrArg Settings.maxExamples hrenews.settings_eq)
      hrenews.maxExamples_eq (exampleLimit_eq_ok_iff.mpr hlimit)
  · exact (hnodup.map (exampleText_injective _)).sublist (List.take_sublist _ _)
  · rw [List.length_take, List.length_map, hw.ncard_eq]
  · obtain ⟨values, hvalues, rfl⟩ := List.mem_map.mp (List.mem_of_mem_take htext)
    exact ⟨values, hw.mem_witnessValues.mp hvalues, rfl⟩
  · rw [hsettled.answers.eq_holds_iff, Ctl.Tree.holdsAtStart_iff, List.take_eq_nil_iff,
      List.map_eq_nil_iff, or_iff_right (by omega), List.eq_nil_iff_forall_not_mem]
    exact forall_congr' fun values => by rw [hw.mem_witnessValues, not_not]

/-- Nothing is known of `x` where the program starts that assigns `1`, so
each value is a counterexample to `x == 1`; two are allowed. -/
theorem Session.counterexamples_exact_assign : ∃ s' texts journal,
    Session.verify "int x; x = 1;" ["x == 1"] "0" (Session.new ⟨4, 0, 2⟩) = .ok .notHolds s'
      ∧ Session.counterexamples (-1) s' = .ok texts { s' with journal }
      ∧ texts.Nodup ∧ texts.length = 2 := by
  let task := Task.assignOne ⟨"0", [.operand 0]⟩
  have hq : task.ReadFrom "int x; x = 1;" ["x == 1"] "0" :=
    Task.assignOne_readFrom (by decide +kernel)
  have hc : task.Checkable := Task.assignOne_checkable (t := .operand 0) rfl (by simp)
  obtain ⟨v, s', t, hrun, hsettled⟩ := hc.exists_settled hq (s := Session.new ⟨4, 0, 2⟩) (by decide)
  obtain rfl : t = .operand 0 := Ctl.Tree.postorder_injective hsettled.tree
  have hout : ∀ values, ⟨0, values⟩ ∉ Ctl.Tree.states task.system (.operand 0) := by
    rintro values ⟨condition, hcondition, c, hreached, htrue, hpc, -⟩
    obtain rfl := Option.some.inj hcondition
    rcases Task.assignOne_reached hreached with rfl | rfl
    · cases htrue
    · cases hpc
  obtain rfl : v = .notHolds := by
    rcases hsettled.answers with ⟨-, hholds⟩ | ⟨rfl, -⟩
    · exact absurd (Ctl.Tree.holdsAtStart_iff.mp hholds fun _ => 0) (hout _)
    · rfl
  obtain ⟨q, t, shown, hq', ht, hshown, hexact, -, -⟩ :=
    Session.counterexamples_exact hrun (.inr rfl) (by decide)
  obtain rfl := hq.unique hq'
  obtain rfl : t = .operand 0 := Ctl.Tree.postorder_injective ht
  obtain ⟨journal, hasked⟩ := hshown (-1) 2 s'.journal (.inl ⟨rfl, rfl⟩)
  obtain ⟨hnodup, hlength, -⟩ := hexact 2
  refine ⟨s', shown 2, journal, hrun, hasked, hnodup, hlength.trans ?_⟩
  refine min_eq_left (Nat.succ_le_of_lt ((Set.one_lt_ncard (Set.toFinite _)).mpr ?_))
  exact ⟨fun _ => 0, hout _, fun _ => 1, hout _, fun h => by cases congrFun h ⟨0, by decide⟩⟩

end BranchingTime
