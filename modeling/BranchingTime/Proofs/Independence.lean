import BranchingTime.Proofs.Counterexamples
import BranchingTime.Proofs.Diagnosis

/-!
# Replies do not depend on tuning or history

Two sessions number their nodes differently, collect garbage at different
moments, and remember different results. Nothing of this shows. An error is
found in the texts alone (`Session.diagnose`), the verdict answers a question
about the transition system of the program, and the witness denotes the same
states in both sessions; as diagrams are reduced, it has the same paths in the
same order, and examples are read off the paths.

So sessions that were asked to verify the same texts are alike, whatever came
before (`Session.Ready.concurs_verify`), and alike sessions reply alike from
then on (`Session.Alike.replyAlike`).
-/

namespace BranchingTime

open Diagram Manager

/-! ## Calls -/

/-- What a session can be asked for. -/
inductive Call where
  | verify (program : String) (conditions : List String) (formula : String)
  | counterexamples (n : Int)
  deriving DecidableEq, Repr

inductive Reply where
  | verdict (v : Verdict)
  | examples (texts : List String)
  deriving DecidableEq, Repr

def Call.perform : Call → SessionM Reply
  | verify program conditions formula =>
    return .verdict (← Session.verify program conditions formula)
  | counterexamples n => return .examples (← Session.counterexamples n)

namespace Session

/-- What a call ends in, and the session after it. -/
def call (s : Session) (c : Call) : Except Failure Reply × Session :=
  match c.perform s with
  | .ok reply s' => (.ok reply, s')
  | .error e s' => (.error e, s')

/-- The session after some calls. -/
def after (s : Session) : List Call → Session
  | [] => s
  | c :: calls => (s.call c).2.after calls

/-- What some calls end in, one after the other. -/
def replies (s : Session) : List Call → List (Except Failure Reply)
  | [] => []
  | c :: calls => (s.call c).1 :: (s.call c).2.replies calls

end Session

section Sessions

variable {s s' : Session} {cap : Nat}

theorem ends_call {c : Call} {Q : Reply → Session → Prop} {E : Failure → Session → Prop}
    (h : Ends c.perform s Q E) :
    (∃ reply, (s.call c).1 = .ok reply ∧ Q reply (s.call c).2)
      ∨ ∃ e, (s.call c).1 = .error e ∧ E e (s.call c).2 := by
  unfold Session.call
  cases hc : c.perform s with
  | ok reply s' => exact .inl ⟨reply, rfl, h.of_ok hc⟩
  | error e s' => exact .inr ⟨e, rfl, h.of_error hc⟩

/-- Asking for counterexamples only leaves notes. -/
theorem Session.call_counterexamples (s : Session) (n : Int) :
    ∃ journal, (s.call (.counterexamples n)).2 = { s with journal } := by
  have hends : Ends (Call.counterexamples n).perform s
      (fun _ s' => ∃ journal, s' = { s with journal })
      (fun _ s' => ∃ journal, s' = { s with journal }) :=
    ends_bind.mpr ((ends_counterexamples_journal n).imp fun _ _ hs' => ends_pure.mpr hs')
  rcases ends_call hends with ⟨_, _, hs'⟩ | ⟨_, _, hs'⟩
  · exact hs'
  · exact hs'

/-- The reply has the examples of the paths that are shown. -/
theorem Session.Shows.reply_eq {view : Option (Encoding × List Literals)} (hs : s.Shows view)
    (hsettings : s.settings.maxExamples = cap) (hverifier : s.verifier.maxExamples = cap)
    (n : Int) :
    (s.call (.counterexamples n)).1
      = ((examplesOf view cap n).mapError fun cause => .error (.verify cause)).map .examples := by
  have hends : Ends (Call.counterexamples n).perform s
      (fun reply _ => ∃ texts, reply = .examples texts ∧ examplesOf view cap n = .ok texts)
      (fun e _ => ∃ cause, e = .error (.verify cause) ∧ examplesOf view cap n = .error cause) :=
    ends_bind.mpr ((ends_counterexamples hs hsettings hverifier n).imp
      fun texts _ htexts => ends_pure.mpr ⟨texts, rfl, htexts⟩)
  rcases ends_call hends with ⟨_, hreply, texts, rfl, htexts⟩ | ⟨_, hreply, cause, rfl, hcause⟩
  · rw [hreply, htexts]
    rfl
  · rw [hreply, hcause]
    rfl

/-! ## What stays the same -/

/-- A session that shows up to `cap` examples, and is tuned in some way that is
allowed. -/
structure Session.Ready (cap : Nat) (s : Session) : Prop where
  settings : s.settings.maxExamples = cap
  verifier : s.verifier.maxExamples = cap
  cacheBits : s.settings.cacheBits ≤ 31

namespace Session.Ready

theorem renew (h : s.Ready cap) (hs : s.Renews s') : s'.Ready cap where
  settings := (congrArg Settings.maxExamples hs.settings_eq).trans h.settings
  verifier := hs.maxExamples_eq.trans h.settings
  cacheBits := (congrArg Settings.cacheBits hs.settings_eq).trans_le h.cacheBits

theorem call (h : s.Ready cap) (c : Call) : (s.call c).2.Ready cap := by
  cases c with
  | verify program conditions formula =>
      have hends : Ends (Call.verify program conditions formula).perform s
          (fun _ s' => s'.Ready cap) (fun _ s' => s'.Ready cap) := by
        refine ends_bind.mpr ((ends_verify_session program conditions formula).mono ?_ ?_)
        · exact fun v s' hv => ends_pure.mpr (h.renew hv.1)
        · exact fun e s' he => h.renew he.1
      rcases ends_call hends with ⟨_, _, hready⟩ | ⟨_, _, hready⟩
      · exact hready
      · exact hready
  | counterexamples n =>
      obtain ⟨journal, hs'⟩ := s.call_counterexamples n
      rw [hs']
      exact ⟨h.settings, h.verifier, h.cacheBits⟩

theorem after (h : s.Ready cap) (calls : List Call) : (s.after calls).Ready cap := by
  induction calls generalizing s with
  | nil => exact h
  | cons c calls ih => exact ih (h.call c)

end Session.Ready

/-! ## Sessions that are alike -/

/-- Two sessions that show the same. -/
structure Session.Alike (cap : Nat) (s s' : Session) : Prop where
  left : s.Ready cap
  right : s'.Ready cap
  view : ∃ view, s.Shows view ∧ s'.Shows view

/-- A call ends in both sessions in the same way and not in a fault, and leaves
them alike. -/
structure Call.Concurs (c : Call) (cap : Nat) (s s' : Session) : Prop where
  reply_eq : (s.call c).1 = (s'.call c).1
  no_fault : ∀ cause, (s.call c).1 ≠ .error (.fault cause)
  alike : Session.Alike cap (s.call c).2 (s'.call c).2

theorem Witnesses.paths_eq {e : Encoding} {m m' : Manager} {witness witness' : Handle}
    {good : Set (State e.names.length)} (h : Witnesses e m witness good)
    (h' : Witnesses e m' witness' good) : m.paths witness = m'.paths witness' := by
  refine h.wellFormed.toReduced.paths_eq_of_eval_eq h'.wellFormed.toReduced h.denotes.valid
    h'.denotes.valid (funext fun a => ?_)
  rw [Bool.eq_iff_iff, h.denotes.eval_iff, h'.denotes.eval_iff]

/-- The same verdict, with the same to show, wherever texts are verified. -/
theorem Leaves.unique {program formula : String} {conditions : List String} {v v' : Verdict}
    (h : Leaves program conditions formula v s) (h' : Leaves program conditions formula v' s')
    (hempty : v = .empty ↔ v' = .empty) :
    v = v' ∧ ∃ view, s.Shows view ∧ s'.Shows view := by
  rcases h with ⟨hv, hnone, -⟩ | ⟨q, t, hq, hs⟩
  · rcases h' with ⟨hv', hnone', -⟩ | ⟨q', t', -, hs'⟩
    · refine ⟨hv.trans hv'.symm, none, ?_, ?_⟩
      · simp [Session.Shows, Verifier.witness?, hnone, Outcome.witness?]
      · simp [Session.Shows, Verifier.witness?, hnone', Outcome.witness?]
    · exact absurd (hempty.mp hv) hs'.answers.ne_empty
  · rcases h' with ⟨hv', -, -⟩ | ⟨q', t', hq', hs'⟩
    · exact absurd (hempty.mpr hv') hs.answers.ne_empty
    · -- the texts are read as one task, and the diagrams of its witness have the same paths
      obtain rfl := hq.unique hq'
      obtain rfl : t = t' := Ctl.Tree.postorder_injective (hs.tree.trans hs'.tree.symm)
      obtain ⟨m, witness, hw, hshows⟩ := hs.exists_witnesses
      obtain ⟨m', witness', hw', hshows'⟩ := hs'.exists_witnesses
      rw [← hw.paths_eq hw'] at hshows'
      exact ⟨hs.answers.unique hs'.answers, _, hshows, hshows'⟩

namespace Session

/-- A verification ends as the diagnosis of its texts says. -/
theorem Ready.verify_call (h : s.Ready cap) (program : String) (conditions : List String)
    (formula : String) :
    (∃ v, (s.call (.verify program conditions formula)).1 = .ok (.verdict v)
        ∧ diagnose program conditions formula = .ok (v ≠ .empty)
        ∧ Leaves program conditions formula v (s.call (.verify program conditions formula)).2)
      ∨ ∃ cause, (s.call (.verify program conditions formula)).1 = .error (.error cause)
        ∧ diagnose program conditions formula = .error cause
        ∧ (s.call (.verify program conditions formula)).2.Shows none := by
  have hends : Ends (Call.verify program conditions formula).perform s
      (fun reply s' => ∃ v, reply = .verdict v
        ∧ diagnose program conditions formula = .ok (v ≠ .empty)
        ∧ Leaves program conditions formula v s')
      (fun e s' => ∃ cause, e = .error cause ∧ diagnose program conditions formula = .error cause
        ∧ s'.Shows none) := by
    refine ends_bind.mpr (Ends.mono ((ends_verify_diagnose program conditions formula).and
      (ends_verify_session program conditions formula)) ?_ ?_)
    · intro v s' ⟨hdiagnose, _, hleaves⟩
      exact ends_pure.mpr ⟨v, rfl, hdiagnose, hleaves⟩
    · intro e s' ⟨hdiagnose, _, hfails⟩
      cases e with
      | error cause =>
          have hshows : s'.Shows none := by simp [Shows, Verifier.witness?, hfails.outcome]
          exact ⟨cause, rfl, hdiagnose cause rfl, hshows⟩
      | fault cause => exact absurd (hfails.fault cause rfl) (Nat.not_lt.mpr h.cacheBits)
  rcases ends_call hends with ⟨_, hreply, v, rfl, hv⟩ | ⟨_, hreply, cause, rfl, hcause⟩
  · exact .inl ⟨v, hreply, hv⟩
  · exact .inr ⟨cause, hreply, hcause⟩

/-- However two sessions are tuned and whatever they did before, a verification
ends in the same way in both. -/
theorem Ready.concurs_verify (h : s.Ready cap) (h' : s'.Ready cap) (program : String)
    (conditions : List String) (formula : String) :
    (Call.verify program conditions formula).Concurs cap s s' := by
  have hcall := h.verify_call program conditions formula
  have hcall' := h'.verify_call program conditions formula
  have hready := h.call (.verify program conditions formula)
  have hready' := h'.call (.verify program conditions formula)
  -- the texts have one diagnosis, so that both sessions fail, or none does
  rcases hcall with ⟨v, hv, hdiagnose, hleaves⟩ | ⟨cause, hcause, hdiagnose, hshows⟩
  · rcases hcall' with ⟨v', hv', hdiagnose', hleaves'⟩ | ⟨cause', -, hdiagnose', -⟩
    · have hempty : v = .empty ↔ v' = .empty := by
        have hdecide := Except.ok.inj (hdiagnose.symm.trans hdiagnose')
        rwa [decide_eq_decide, not_iff_not] at hdecide
      obtain ⟨rfl, hview⟩ := hleaves.unique hleaves' hempty
      refine ⟨hv.trans hv'.symm, fun cause hfault => ?_, hready, hready', hview⟩
      cases hv.symm.trans hfault
    · cases hdiagnose.symm.trans hdiagnose'
  · rcases hcall' with ⟨v', -, hdiagnose', -⟩ | ⟨cause', hcause', hdiagnose', hshows'⟩
    · cases hdiagnose.symm.trans hdiagnose'
    · obtain rfl := Except.error.inj (hdiagnose.symm.trans hdiagnose')
      refine ⟨hcause.trans hcause'.symm, fun fault hfault => ?_, hready, hready', none, hshows,
        hshows'⟩
      cases hcause.symm.trans hfault

/-- Asking for examples replies with those of the paths that are shown, and
they are still shown afterwards. -/
theorem Ready.counterexamples_call {view : Option (Encoding × List Literals)} (h : s.Ready cap)
    (hs : s.Shows view) (n : Int) :
    (s.call (.counterexamples n)).1
        = ((examplesOf view cap n).mapError fun cause => .error (.verify cause)).map .examples
      ∧ (s.call (.counterexamples n)).2.Shows view := by
  refine ⟨hs.reply_eq h.settings h.verifier n, ?_⟩
  obtain ⟨journal, hs'⟩ := s.call_counterexamples n
  rw [hs']
  -- nothing that is shown is read off the journal
  cases view with
  | none => exact hs
  | some shown => exact hs

theorem Alike.concurs_counterexamples (h : Alike cap s s') (n : Int) :
    (Call.counterexamples n).Concurs cap s s' := by
  obtain ⟨view, hs, hs'⟩ := h.view
  obtain ⟨hreply, hshows⟩ := h.left.counterexamples_call hs n
  obtain ⟨hreply', hshows'⟩ := h.right.counterexamples_call hs' n
  refine ⟨hreply.trans hreply'.symm, fun cause hfault => ?_, h.left.call _, h.right.call _, view,
    hshows, hshows'⟩
  rw [hreply] at hfault
  cases hview : examplesOf view cap n with
  | ok texts =>
      rw [hview] at hfault
      cases hfault
  | error e =>
      rw [hview] at hfault
      cases hfault

theorem Alike.concurs (h : Alike cap s s') (c : Call) : c.Concurs cap s s' := by
  cases c with
  | verify program conditions formula =>
      exact h.left.concurs_verify h.right program conditions formula
  | counterexamples n => exact h.concurs_counterexamples n

/-- Two sessions reply alike to calls, without faults. -/
structure ReplyAlike (s s' : Session) (calls : List Call) : Prop where
  replies_eq : s.replies calls = s'.replies calls
  no_fault : ∀ cause, .error (.fault cause) ∉ s.replies calls

end Session

theorem Call.Concurs.replyAlike_cons {c : Call} {calls : List Call}
    (h : c.Concurs cap s s') (hcalls : Session.ReplyAlike (s.call c).2 (s'.call c).2 calls) :
    Session.ReplyAlike s s' (c :: calls) := by
  refine ⟨?_, fun cause hmem => ?_⟩
  · rw [Session.replies, Session.replies, h.reply_eq, hcalls.replies_eq]
  · rcases List.mem_cons.mp hmem with hhead | htail
    · exact h.no_fault cause hhead.symm
    · exact hcalls.no_fault cause htail

namespace Session

theorem Alike.replyAlike (h : Alike cap s s') (calls : List Call) : ReplyAlike s s' calls := by
  induction calls generalizing s s' with
  | nil => exact ⟨rfl, fun _ => List.not_mem_nil⟩
  | cons c calls ih => exact (h.concurs c).replyAlike_cons (ih (h.concurs c).alike)

/-- A session replies to a verification, and to all calls after it, as any
other session that shows as many examples does: neither the size of the cache,
nor the threshold of collections, nor any earlier call plays a part. There are
no faults. -/
theorem replies_independent {settings settings' : Settings}
    (hmax : settings.maxExamples = settings'.maxExamples) (hbits : settings.cacheBits ≤ 31)
    (hbits' : settings'.cacheBits ≤ 31) (before before' : List Call) (program : String)
    (conditions : List String) (formula : String) (later : List Call) :
    ((new settings).after before).replies (.verify program conditions formula :: later)
        = ((new settings').after before').replies (.verify program conditions formula :: later)
      ∧ ∀ cause, .error (.fault cause)
        ∉ ((new settings).after before).replies (.verify program conditions formula :: later) := by
  have hnew : (new settings).Ready settings.maxExamples := ⟨rfl, rfl, hbits⟩
  have hnew' : (new settings').Ready settings.maxExamples := ⟨hmax.symm, hmax.symm, hbits'⟩
  have hconcurs := (hnew.after before).concurs_verify (hnew'.after before') program conditions
    formula
  obtain ⟨heq, hfaults⟩ := hconcurs.replyAlike_cons (hconcurs.alike.replyAlike later)
  exact ⟨heq, hfaults⟩

/-- A session without a cache that collects garbage at every step, after a
verdict and a failure, replies as a new one does. -/
theorem replies_independent_assign :
    ((new ⟨0, 0, 3⟩).after [.verify "int x; x = 1;" ["x == 1"] "0", .counterexamples 2,
      .verify "int x; int x;" [] "0"]).replies
        [.verify "int x; x = 1;" ["x == 1"] "EX 0", .counterexamples (-1)]
      = ((new ⟨20, 1048576, 3⟩).after []).replies
        [.verify "int x; x = 1;" ["x == 1"] "EX 0", .counterexamples (-1)] := by
  have hmax : Settings.maxExamples ⟨0, 0, 3⟩ = Settings.maxExamples ⟨20, 1048576, 3⟩ := rfl
  obtain ⟨heq, -⟩ := replies_independent hmax (by decide) (by decide)
    [.verify "int x; x = 1;" ["x == 1"] "0", .counterexamples 2, .verify "int x; int x;" [] "0"] []
    "int x; x = 1;" ["x == 1"] "EX 0" [.counterexamples (-1)]
  exact heq

end Session

end Sessions

end BranchingTime
