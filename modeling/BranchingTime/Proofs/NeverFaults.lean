import BranchingTime.Proofs.GuardedBuilder
import BranchingTime.Proofs.GuardedEvaluation
import BranchingTime.Proofs.GuardedExamples

/-!
# Verifications never fault

A session with guards verifies and shows counterexamples with all the checks
of `Guarded`: statements, characters, entries, descriptors, fields, bits,
cells, slots and marks are there when they are read or written, variables are
those of the manager, cofactors are taken in order, operators are applied to as
many operands as they have, nothing is subtracted from less, words do not
overflow, and no descent or iteration goes on for too long.

It ends exactly as the session does, in the same state, unless the arena of its
manager is full; and neither ends in another fault. So no check fails, for any
texts, as long as the variables of two states can be numbered.
-/

namespace BranchingTime

open Diagram Manager

namespace Guarded

/-! ## Sessions with guards -/

/-- Makes a check in a stage. -/
def checked {α : Type} (x : Except Fault α) : Logged Failure α :=
  MonadExcept.ofExcept (x.mapError .fault)

/-- Takes the result of a reader, or its error as a failure. -/
def settled {ε α : Type} (failure : ε → Failure) (y : CheckedM ε α) : Logged Failure α := do
  MonadExcept.ofExcept ((← checked y.run).mapError failure)

/-- The normal form of a program text, with a record of what was found. -/
def parseLogged (text : String) : Logged Failure Program := do
  let p ← settled (.error ∘ .program) (parseProgram text)
  record (.programParsed p.names.length p.statements.length)
  return p

/-- Compiles a formula, and records the code. -/
def compileLogged (text : String) : Logged Failure Ctl.Formula := do
  let f ← settled (.error ∘ .ctl) (compile text)
  record (.formulaCompiled text f.listing)
  return f

/-- The table of a list of statements, with a record of the outcome. -/
def buildLogged (names statements : List String) : Logged Failure ControlTable := do
  match ← checked (entriesOf names statements).run with
  | .error e =>
    record (.tableFailed e.message)
    throw (.error (.program e))
  | .ok entries =>
    let table ← MonadExcept.ofExcept ((ofEntries? entries).mapError (.error ∘ .program))
    record (.tableBuilt table.size)
    return table

/-- Opens a manager. The terminal node has to be in cell `1`. -/
def start (numVars cacheBits : Nat) : Logged Failure Manager := do
  record (.opening numVars cacheBits)
  let table ← checked (UniqueTable.new? initialTableBits)
  let (one, table) ← checked (take table default .held)
  checked (ensure (one = Handle.one.index) .outOfBounds)
  let cache ← checked (ResultCache.new? cacheBits)
  return { numVars, table, cache, journal := ← get }

/-- The first `limit` examples of the cubes in a text, with a record of how
much was decoded. -/
def decodeLogged (e : Encoding) (text : String) (limit : Nat) : Logged Failure (List String) := do
  let cubes ← settled (.error ∘ .verify ∘ .decode) (readCubes e.halfWidth text)
  let found ← checked (examples e limit cubes)
  record (.decoded found.length cubes.length)
  return found

/-- Up to `n` counterexamples of the last verification. -/
def examplesOf (v : Verifier) (manager : Manager) (n : Int) : Logged Failure (List String) := do
  let limit ← MonadExcept.ofExcept ((exampleLimit n v.maxExamples).mapError (.error ∘ .verify))
  match v.outcome? with
  | some (.checked _ witness encoding) =>
    if witness = .zero then return []
    let text ← checked (cubesText manager limit witness)
    record (.witnessCubes text)
    decodeLogged encoding text limit
  | _ => throw (.error (.verify .noVerdict))

/-- All of a verification but the report of its failure. -/
def run (program : String) (conditions : List String) (formula : String) : SessionM Verdict := do
  modify fun s => { s with verifier := .new s.settings.maxExamples }
  let program ← Session.stage id (parseLogged program)
  let formula ← Session.stage id (compileLogged formula)
  if program.names.isEmpty || conditions.isEmpty then return ← Session.recordEmpty
  let table ← Session.stage id (buildLogged program.names program.statements)
  record (.tableShape table.size program.names.length)
  record (.tableListing table.text)
  if table.isEmpty then return ← Session.recordEmpty
  let encoding : Encoding := ⟨program.names⟩
  let settings := (← get).settings
  let numVars ← Session.stage id (checked (numVars encoding))
  let manager ← Session.stage id (start numVars settings.cacheBits)
  let (nextId, predicates) ←
    Session.stage id (checked (compileAll program.names (← get).nextId conditions))
  modify fun s => { s with nextId }
  let outcome ← Session.onManager manager
    (investigate table encoding settings.gcThreshold predicates formula)
  modify fun s => { s with verifier := { s.verifier with outcome? := some outcome } }
  return outcome.verdict

/-- Verifies a formula over conditions of a program. A failure that lies in
the texts is recorded. -/
def verify (program : String) (conditions : List String) (formula : String) : SessionM Verdict :=
  fun s =>
    match run program conditions formula s with
    | .error (.error e) s =>
      .error (.error e) { s with journal := s.journal.push (.sessionFailed e.message) }
    | result => result

/-- Up to `n` counterexamples of the last verdict, `-1` for as many as
allowed. -/
def counterexamples (n : Int) : SessionM (List String) := do
  match (← get).manager? with
  | some manager => Session.stage id (examplesOf (← get).verifier manager n)
  | none =>
    match exampleLimit n (← get).settings.maxExamples with
    | .ok _ => throw (.error (.verify .noVerdict))
    | .error e => throw (.error (.verify e))

/-! ## Stages -/

section Stages

variable {ε α β : Type} {failure : ε → Failure}

theorem checked_bind {c : Except Fault α} {a : α} (h : c = .ok a) (g : α → Logged Failure β) :
    (checked c >>= g) = g a := by
  subst h
  rfl

theorem settled_eq {y : CheckedM ε α} {x : Except ε α} (h : Passes y x) :
    settled failure y = EStateM.adaptExcept failure (MonadExcept.ofExcept x) := by
  rw [settled, checked_bind h]
  cases x with
  | ok a => rfl
  | error e => rfl

theorem adaptExcept_bind (x : Logged ε α) (f : α → Logged ε β) :
    EStateM.adaptExcept failure (x >>= f)
      = EStateM.adaptExcept failure x >>= fun a => EStateM.adaptExcept failure (f a) := by
  funext journal
  show EStateM.adaptExcept failure (EStateM.bind x f) journal
    = EStateM.bind (EStateM.adaptExcept failure x) _ journal
  unfold EStateM.adaptExcept EStateM.bind
  dsimp only
  cases x journal with
  | ok a journal => rfl
  | error e journal => rfl

theorem stage_adaptExcept (x : Logged ε α) :
    Session.stage id (EStateM.adaptExcept failure x) = Session.stage failure x := by
  funext s
  unfold Session.stage EStateM.adaptExcept
  cases x s.journal with
  | ok a journal => rfl
  | error e journal => rfl

theorem stage_checked {c : Except Fault α} {a : α} (h : c = .ok a) :
    Session.stage id (checked c) = pure a := by
  subst h
  rfl

end Stages

theorem parseLogged_eq (text : String) : parseLogged text
    = EStateM.adaptExcept (.error ∘ .program) (Program.parseLogged text) := by
  rw [parseLogged, settled_eq (passes_parseProgram text), Program.parseLogged, adaptExcept_bind]
  rfl

theorem compileLogged_eq (text : String) : compileLogged text
    = EStateM.adaptExcept (.error ∘ .ctl) (Ctl.Formula.compileLogged text) := by
  rw [compileLogged, settled_eq (passes_compile text), Ctl.Formula.compileLogged, adaptExcept_bind]
  rfl

theorem buildLogged_eq (names statements : List String) : buildLogged names statements
    = EStateM.adaptExcept (.error ∘ .program) (ControlTable.buildLogged names statements) := by
  rw [buildLogged, checked_bind (passes_entriesOf names statements), ControlTable.buildLogged]
  cases Block.parse names statements with
  | error e => rfl
  | ok block =>
      show (MonadExcept.ofExcept ((ofEntries? (ControlTable.ofBlock _ block).entries).mapError _)
        >>= _) = _
      dsimp only
      rw [ofEntries?_ofBlock, adaptExcept_bind]
      cases ControlTable.ofBlock? names.length block with
      | ok table => rfl
      | error e => rfl

theorem start_eq (numVars cacheBits : Nat) : start numVars cacheBits
    = EStateM.adaptExcept .fault (Manager.start numVars cacheBits) := by
  let empty : UniqueTable Node := .empty initialTableBits
  have htable : UniqueTable.new? initialTableBits = .ok empty := rfl
  have htake : take empty default .held = .ok (empty.alloc default) := by
    rw [take, ensure_bind (.inr (by decide))]
    refine ensure_bind (fun i hi => ?_) _ _
    cases hi
  obtain ⟨⟨one, table⟩, halloc⟩ : ∃ p, empty.alloc default = p := ⟨_, rfl⟩
  have hone : one = Handle.one.index := (congrArg Prod.fst halloc).symm
  rw [halloc] at htake
  rw [start, Manager.start, adaptExcept_bind]
  refine bind_congr fun _ => ?_
  rw [checked_bind htable, checked_bind htake, new?]
  dsimp only
  rw [halloc, checked_bind (ensure_eq hone _)]
  cases ResultCache.new? cacheBits with
  | ok cache => rfl
  | error e => rfl

theorem decodeLogged_eq (e : Encoding) (text : String) (limit : Nat) : decodeLogged e text limit
    = EStateM.adaptExcept (.error ∘ .verify) (e.decodeLogged text limit) := by
  rw [decodeLogged, settled_eq (passes_readCubes e.halfWidth text), Encoding.decodeLogged]
  cases hread : BranchingTime.readCubes e.halfWidth text with
  | error cause => rfl
  | ok cubes =>
      have hexamples := examples_eq limit fun cube hmem => length_of_mem_readAll hread hmem
      show (checked (examples e limit cubes) >>= _) = _
      rw [checked_bind hexamples]
      rfl

/-! ## The tables of programs -/

/-- Statements write to declared variables. -/
theorem lt_of_mem_layout {names l : List String} {pc : Nat} {known : List Descriptor} {P : Block}
    (h : Block.Reads names l P) : ∀ entry ∈ P.layout pc known,
      ∀ var ∈ entry.action.target?, var < names.length := by
  have hnone : ∀ var ∈ (none : Option Nat), var < names.length := by simp
  have hsome {name : String} {var : Nat} (hvar : names.idxOf? name = some var) :
      ∀ v ∈ some var, v < names.length :=
    fun v hv => Option.some.inj hv ▸ (List.idxOf?_eq_some_iff.mp hvar).1
  induction h generalizing pc known with
  | done => simp [Block.layout]
  | ignored _ _ ih => exact ih
  | read _ hvar _ ih =>
      simp only [Block.layout, List.forall_mem_cons]
      exact ⟨hsome hvar, ih⟩
  | assign _ hvar _ _ ih =>
      simp only [Block.layout, List.forall_mem_cons]
      exact ⟨hsome hvar, ih⟩
  | ifThen _ _ _ _ ihb ih =>
      simp only [Block.layout, List.forall_mem_cons, List.forall_mem_append]
      exact ⟨⟨hnone, ihb⟩, hnone, ih⟩
  | ifElse _ _ _ _ _ ihb ihb' ih =>
      simp only [Block.layout, List.forall_mem_cons, List.forall_mem_append]
      exact ⟨⟨⟨hnone, ihb⟩, hnone, hnone, ihb'⟩, hnone, ih⟩
  | loop _ _ _ _ ihb ih =>
      simp only [Block.layout, List.forall_mem_cons, List.forall_mem_append]
      exact ⟨⟨hnone, ihb⟩, hnone, ih⟩

theorem scoped_of_build {names statements : List String} {table : ControlTable}
    (h : ControlTable.build names statements = .ok table) : Scoped table names.length := by
  obtain ⟨P, hP, -, rfl⟩ := ControlTable.build_eq_ok_iff.mp h
  exact lt_of_mem_layout hP

/-! ## The session -/

/-- The witness of an outcome is a diagram of the manager. -/
def Readable (s : Session) : Prop :=
  ∀ m verdict witness e, s.manager? = some m →
    s.verifier.outcome? = some (.checked verdict witness e) →
    Sound m ∧ m.Reduced ∧ m.Valid witness

theorem examplesOf_eq {v : Verifier} {m : Manager} (n : Int)
    (h : ∀ verdict witness e, v.outcome? = some (.checked verdict witness e) →
      Sound m ∧ m.Reduced ∧ m.Valid witness) :
    examplesOf v m n = EStateM.adaptExcept (.error ∘ .verify) (v.counterexamples m n) := by
  unfold examplesOf Verifier.counterexamples
  rw [adaptExcept_bind]
  cases exampleLimit n v.maxExamples with
  | error cause => rfl
  | ok limit =>
      cases houtcome : v.outcome? with
      | none => rfl
      | some outcome =>
          cases outcome with
          | empty => rfl
          | checked verdict witness e =>
              obtain ⟨hm, hr, hw⟩ := h verdict witness e houtcome
              show (if witness = .zero then pure [] else _)
                = EStateM.adaptExcept _ (if witness = .zero then pure [] else _)
              split
              · rfl
              · rw [checked_bind (cubesText_eq hm.toGrounded hr hw limit), adaptExcept_bind,
                  decodeLogged_eq]
                rfl

theorem counterexamples_eq {s : Session} (h : Readable s) (n : Int) :
    counterexamples n s = Session.counterexamples n s := by
  have hget : ∀ f : Session → SessionM (List String), (get >>= f) s = f s s := fun _ => rfl
  unfold counterexamples Session.counterexamples
  rw [hget, hget]
  cases hmanager : s.manager? with
  | none => rfl
  | some m =>
      dsimp only
      rw [hget, hget, examplesOf_eq n fun verdict witness e => h m verdict witness e hmanager,
        stage_adaptExcept]

/-- Counterexamples are shown, or an error in the request is. -/
theorem ends_counterexamples_error (n : Int) (s : Session) :
    Ends (Session.counterexamples n) s (fun _ _ => True) fun e _ => ∃ cause, e = .error cause := by
  unfold Session.counterexamples
  simp only [ends_bind, ends_get]
  split
  · simp only [ends_bind, ends_get, ends_stage]
    exact ends_true.mono (fun _ _ _ => trivial) fun e _ _ => ⟨.verify e, rfl⟩
  · simp only [ends_bind, ends_get]
    split
    · exact ends_throw.mpr ⟨_, rfl⟩
    · exact ends_throw.mpr ⟨_, rfl⟩

/-- A stage ended because the arena of its manager is full. -/
def OutOfCells {α : Type} (r : EStateM.Result Failure Session α) : Prop :=
  ∃ s m, r = .error (.fault .full) s ∧ s.manager? = some m
    ∧ UniqueTable.maxCells ≤ m.table.cells.size

/-- From `s`, the stage `y` ends as `x` does, or because the arena is full. If
`x` returns then with `Q`. -/
structure Mirrors {α : Type} (x y : SessionM α) (s : Session) (Q : α → Session → Prop) : Prop where
  run_eq : y s = x s ∨ OutOfCells (y s)
  ends : Ends x s Q fun _ _ => True

section Rules

variable {α β : Type} {x y : SessionM α} {s : Session} {P : α → Session → Prop}
  {Q : β → Session → Prop} {E : Failure → Session → Prop}

theorem OutOfCells.bind {g : α → SessionM β} (h : OutOfCells (y s)) :
    OutOfCells ((y >>= g) s) := by
  obtain ⟨s', m, hy, hs'⟩ := h
  exact ⟨s', m, bind_of_error hy, hs'⟩

theorem mirrors_self (h : Ends x s P E) : Mirrors x x s P :=
  ⟨.inl rfl, h.mono (fun _ _ ha => ha) fun _ _ _ => trivial⟩

theorem mirrors_bind {f g : α → SessionM β} (h : Mirrors x y s P)
    (hgo : ∀ a s', P a s' → Mirrors (f a) (g a) s' Q) : Mirrors (x >>= f) (y >>= g) s Q := by
  refine ⟨?_, ends_bind.mpr (h.ends.imp fun a s' ha => (hgo a s' ha).ends)⟩
  rcases h.run_eq with hsame | hfull
  · cases hrun : x s with
    | ok a s' =>
        rw [bind_of_ok hrun, bind_of_ok (hsame.trans hrun)]
        exact (hgo a s' (h.ends.of_ok hrun)).run_eq
    | error e s' =>
        rw [bind_of_error hrun, bind_of_error (hsame.trans hrun)]
        exact .inl rfl
  · exact .inr hfull.bind

/-- Going on in different ways from the same stage. -/
theorem mirrors_after {f g : α → SessionM β}
    (hgo : ∀ a s', x s = .ok a s' → Mirrors (f a) (g a) s' Q) : Mirrors (x >>= f) (x >>= g) s Q :=
  mirrors_bind (mirrors_self ends_self) hgo

/-- What a stage returned. -/
theorem ok_of_stage {ε : Type} {failure : ε → Failure} {x : Logged ε α} {a : α} {s' : Session}
    {P : α → Journal → Prop} {E : ε → Journal → Prop}
    (hrun : Session.stage failure x s = .ok a s') (h : Ends x s.journal P E) : P a s'.journal := by
  have hstage : Ends (Session.stage failure x) s (fun a s' => P a s'.journal) fun _ _ => True :=
    ends_stage.mpr (h.mono (fun _ _ ha => ha) fun _ _ _ => trivial)
  exact hstage.of_ok hrun

theorem mirrors_onManager {m : Manager} {x y : ExceptT SessionError DiagramM α}
    {P : Except SessionError α → Manager → Prop} (h : Tracks x.run y.run m P) :
    Mirrors (Session.onManager m x) (Session.onManager m y) s fun a s' =>
      ∃ m', s' = { s with manager? := some m', journal := m'.journal } ∧ P (.ok a) m' := by
  refine ⟨?_, ends_onManager.mpr (h.ends.imp fun r m' hr => ?_)⟩
  · unfold Session.onManager Manager.run
    rcases h.run_eq with hsame | ⟨n, hfull, hn⟩
    · rw [hsame]
      exact .inl rfl
    · rw [hfull]
      exact .inr ⟨_, n, rfl, rfl, hn⟩
  · cases r with
    | ok a => exact ⟨m', rfl, hr⟩
    | error e => trivial

end Rules

theorem ends_start_sound {numVars cacheBits : Nat} {journal : Journal} :
    Ends (Manager.start numVars cacheBits) journal (fun m _ => Sound m) fun _ _ => True := by
  unfold Manager.start
  simp only [ends_bind, ends_ofExcept, ends_logged_record, ends_get, ends_pure]
  cases h : Manager.new? numVars cacheBits with
  | error e => trivial
  | ok m =>
      refine ⟨((coherent_new? h).withJournal _).2, ?_⟩
      obtain ⟨-, rfl⟩ := new?_eq_ok_iff.mp h
      simp [ResultCache.empty]

theorem readable_recordEmpty {s : Session} :
    Ends Session.recordEmpty s (fun _ => Readable) fun _ _ => True := by
  unfold Session.recordEmpty Verifier.recordEmpty
  simp only [ends_bind, ends_get, ends_session_record, ends_modify, ends_pure]
  intro m verdict witness e _ houtcome
  cases houtcome

theorem mirrors_run (program : String) (conditions : List String) (formula : String)
    (s : Session)
    (hvars : ∀ p, Program.parse program = .ok p → (Encoding.mk p.names).numVars < wordBound) :
    Mirrors (Session.run program conditions formula)
      (run program conditions formula) s fun _ => Readable := by
  unfold run Session.run
  simp only [parseLogged_eq, compileLogged_eq, buildLogged_eq, start_eq, stage_adaptExcept]
  refine mirrors_after fun _ s1 _ => mirrors_after fun p s2 hparse => mirrors_after fun f s3 _ => ?_
  have hwords := hvars p (ok_of_stage hparse ends_parseLogged)
  split
  · exact mirrors_self readable_recordEmpty
  refine mirrors_after fun table s4 hbuild => ?_
  have htable := ok_of_stage hbuild ends_buildLogged
  refine mirrors_after fun _ s5 _ => mirrors_after fun _ s6 _ => ?_
  split
  · exact mirrors_self readable_recordEmpty
  next hne =>
  refine mirrors_after fun s7 s8 _ => ?_
  rw [stage_checked (numVars_eq hwords), pure_bind]
  refine mirrors_after fun m s9 hstart => ?_
  have hm := ok_of_stage hstart ends_start_sound
  obtain ⟨hwf, hn⟩ := ok_of_stage hstart ends_start
  refine mirrors_after fun s10 s11 _ => ?_
  rw [stage_checked (compileAll_eq ..), pure_bind]
  refine mirrors_after fun _ s12 _ => ?_
  have hspec := Predicate.compileAll_spec p.names s10.nextId conditions
  have hps : ∀ ps, (Predicate.compileAll p.names s10.nextId conditions).2 = .ok ps →
      ∀ p ∈ ps, p.states = .zero := by
    intro ps hps
    rw [hps] at hspec
    exact hspec.2
  have hr := ControlTable.inRange_of_build htable
  have htracks := (tracks_investigate s7.settings.gcThreshold f hr (e := ⟨p.names⟩)
    (scoped_of_build htable) hwords (Bool.eq_false_iff.mpr hne) hps hm hwf hn.ge).and
    (returns_investigate s7.settings.gcThreshold f hr (Bool.eq_false_iff.mpr hne) hps hwf hn.ge)
  refine mirrors_bind (mirrors_onManager htracks) ?_
  rintro outcome _ ⟨m', rfl, hm', ps, t, -, -, -, hwf', verdict, witness, rfl, hwitness, -⟩
  refine mirrors_self (E := fun _ _ => True) (ends_bind.mpr (ends_modify.mpr (ends_pure.mpr ?_)))
  intro m'' verdict' witness' e hmanager houtcome
  cases hmanager
  cases houtcome
  exact ⟨hm', hwf'.toReduced, hwitness.valid⟩

theorem verify_eq {program : String} {conditions : List String} {formula : String} {s : Session}
    (hvars : ∀ p, Program.parse program = .ok p → (Encoding.mk p.names).numVars < wordBound) :
    verify program conditions formula s = Session.verify program conditions formula s
      ∨ OutOfCells (verify program conditions formula s) := by
  rcases (mirrors_run program conditions formula s hvars).run_eq with hsame | ⟨s', m, hrun, hs'⟩
  · refine .inl ?_
    unfold verify Session.verify
    cases hplain : Session.run program conditions formula s with
    | ok v s' => rw [hsame.trans hplain]
    | error e s' =>
        cases e with
        | error cause => rw [hsame.trans hplain]
        | fault cause => rw [hsame.trans hplain]
  · refine .inr ⟨s', m, ?_, hs'⟩
    unfold verify
    rw [hrun]

theorem readable_verify {program : String} (conditions : List String) (formula : String)
    (s : Session)
    (hvars : ∀ p, Program.parse program = .ok p → (Encoding.mk p.names).numVars < wordBound) :
    Ends (Session.verify program conditions formula) s (fun _ => Readable) fun _ => Readable := by
  have hverify := ends_verify_of_run (mirrors_run program conditions formula s hvars).ends
    fun _ _ _ _ => trivial
  refine (hverify.and (ends_verify_session program conditions formula)).mono (fun _ _ h => h.1)
    fun _ s' ⟨_, _, hfails⟩ m verdict witness e _ houtcome => ?_
  -- a failure leaves no outcome
  cases hfails.outcome.symm.trans houtcome

end Guarded

/-! ## No fault is reached -/

/-- The ending of a call that gave a result or an error, and is no fault. -/
def Session.ended {α : Type} : Except SessionError α → Session → EStateM.Result Failure Session α
  | .ok a, s => .ok a s
  | .error cause, s => .error (.error cause) s

theorem exists_ended {α : Type} {x : SessionM α} {s : Session} {Q : α → Session → Prop}
    (h : Ends x s Q fun e _ => ∃ cause, e = .error cause) : ∃ r s', x s = Session.ended r s' := by
  cases hrun : x s with
  | ok a s' => exact ⟨.ok a, s', rfl⟩
  | error e s' =>
      obtain ⟨cause, rfl⟩ := h.of_error hrun
      exact ⟨.error cause, s', rfl⟩

/-- A verification and the request for counterexamples after it both give a
result or an error, in any session with an allowed cache, whatever its history
and whatever the number and the texts, as long as the variables of two states
fit in a word. Neither ends in a fault, and neither fails a check: with all
guards they end in the same way and leave the same session. Only the arena of
the manager may become full; it has `2 ^ 31` cells then. -/
theorem Session.never_faults (program : String) (conditions : List String) (formula : String)
    (n : Int) {s : Session} (hbits : s.settings.cacheBits ≤ 31)
    (hvars : ∀ p, Program.parse program = .ok p → 2 * (8 + 16 * p.names.length) < 2 ^ 31) :
    ∃ (verdict : Except SessionError Verdict) (s₁ : Session)
      (examples : Except SessionError (List String)) (s₂ : Session),
      (Session.verify program conditions formula s = ended verdict s₁
        ∧ (Guarded.verify program conditions formula s = ended verdict s₁
          ∨ Guarded.OutOfCells (Guarded.verify program conditions formula s)))
      ∧ Session.counterexamples n s₁ = ended examples s₂
      ∧ Guarded.counterexamples n s₁ = ended examples s₂ := by
  have hends : Ends (Session.verify program conditions formula) s (fun _ _ => True) fun e _ =>
      ∃ cause, e = .error cause := by
    refine (ends_verify_session program conditions formula).mono (fun _ _ _ => trivial) ?_
    rintro (cause | fault) s' ⟨-, hfails⟩
    · exact ⟨cause, rfl⟩
    · exact absurd (hfails.fault fault rfl) (Nat.not_lt.mpr hbits)
  obtain ⟨verdict, s₁, hverify⟩ := exists_ended hends
  obtain ⟨examples, s₂, hexamples⟩ := exists_ended (Guarded.ends_counterexamples_error n s₁)
  have hreadable : Guarded.Readable s₁ := by
    have hends := Guarded.readable_verify conditions formula s hvars
    cases verdict with
    | ok v => exact hends.of_ok hverify
    | error cause => exact hends.of_error hverify
  refine ⟨verdict, s₁, examples, s₂, ⟨hverify, ?_⟩, hexamples, ?_⟩
  · exact (Guarded.verify_eq hvars).imp_left fun hsame => hsame.trans hverify
  · rw [Guarded.counterexamples_eq hreadable, hexamples]

/-- Counting down what was read, with one slot in the cache and a collection
after every step. -/
theorem Session.never_faults_countdown : (Session.new ⟨0, 0, 3⟩).settings.cacheBits ≤ 31
    ∧ (∀ p, Program.parse "int x; read(x); while (x > 0) \x7b x = x - 1; \x7d" = .ok p →
      2 * (8 + 16 * p.names.length) < 2 ^ 31)
    ∧ ∃ (verdict : Except SessionError Verdict) (s₁ : Session)
      (examples : Except SessionError (List String)) (s₂ : Session),
      (Session.verify "int x; read(x); while (x > 0) \x7b x = x - 1; \x7d" ["x == 0"] "AF 0"
          (Session.new ⟨0, 0, 3⟩) = ended verdict s₁
        ∧ (Guarded.verify "int x; read(x); while (x > 0) \x7b x = x - 1; \x7d" ["x == 0"] "AF 0"
            (Session.new ⟨0, 0, 3⟩) = ended verdict s₁
          ∨ Guarded.OutOfCells (Guarded.verify
            "int x; read(x); while (x > 0) \x7b x = x - 1; \x7d" ["x == 0"] "AF 0"
            (Session.new ⟨0, 0, 3⟩))))
      ∧ Session.counterexamples (-1) s₁ = ended examples s₂
      ∧ Guarded.counterexamples (-1) s₁ = ended examples s₂ := by
  have hvars : ∀ p, Program.parse "int x; read(x); while (x > 0) \x7b x = x - 1; \x7d" = .ok p →
      2 * (8 + 16 * p.names.length) < 2 ^ 31 := by
    intro p hp
    have hnames : (Program.parse "int x; read(x); while (x > 0) \x7b x = x - 1; \x7d").map
        (fun p => p.names.length) = .ok 1 := by decide +kernel
    rw [hp] at hnames
    have hlength : p.names.length = 1 := Except.ok.inj hnames
    rw [hlength]
    decide
  exact ⟨by decide, hvars, Session.never_faults _ _ _ _ (by decide) hvars⟩

end BranchingTime
