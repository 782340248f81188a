import BranchingTime.Proofs.Collection
import BranchingTime.Proofs.Continuations
import BranchingTime.Proofs.IteDenotation
import BranchingTime.Proofs.StateBits

/-!
# The transition system of a program is exact

The work-list of an unfolding is described by the continuations that are
done. `Search` says how they, the work-list and the visited set hang
together; `Collected` says that the diagrams denote exactly what the done
continuations contribute. Expanding a continuation preserves both
(`returns_expand`), with a garbage collection or without, so they hold when
the work-list is empty, and then everything reached is done.
-/

namespace BranchingTime

open Diagram Manager

variable {m m' : Manager} {e : Encoding} {c next : Continuation} {done : List Continuation}

/-! ## Predicates -/

theorem Predicate.holdsAt_iff {p : Predicate} {binding : Binding} :
    p.holdsAt binding = true ↔ p.expr.evaluate binding = .ok (.bool true) := by
  unfold holdsAt
  split
  · next h => simp [h]
  · next h =>
      constructor
      · intro h'
        cases h'
      · intro h'
        exact absurd h' h

/-- `p'` is the predicate `p` after `c`: what `c` covers is added to its states
if the condition is true there. -/
structure Gains (m : Manager) (e : Encoding) (c : Continuation) (m' : Manager)
    (p p' : Predicate) : Prop where
  id_eq : p'.id = p.id
  expr_eq : p'.expr = p.expr
  states : m'.Denotes p'.states fun a => m.eval p.states a = true
    ∨ p.holdsAt c.binding = true ∧ c.Covers (e.stateOf (e.halfOf .current a))

/-- Labelling with one continuation. The predicates are read in `m`, and
labelled in an extension of it. -/
theorem returns_label {t : Unfolding} {ps : List Predicate} (built? : Option Handle)
    (hm : m.WellFormed) (hext : m.Extends m') (hm' : m'.WellFormed)
    (hvars : t.encoding.numVars ≤ m'.numVars) (hpc : c.pc < 256)
    (hbuilt : ∀ s, built? = some s →
      m'.Denotes s fun a => c.Covers (t.encoding.stateOf (t.encoding.halfOf .current a)))
    (hps : ∀ p ∈ ps, m.Valid p.states) :
    Returns (t.label c built? ps) m' fun ps' m'' => (m'.Extends m'' ∧ m''.WellFormed)
      ∧ List.Forall₂ (Gains m t.encoding c m'') ps ps' := by
  induction ps generalizing m' built? with
  | nil => exact ends_pure.mpr ⟨⟨.refl m', hm'⟩, .nil⟩
  | cons p ps ih =>
      obtain ⟨hp, hps⟩ := List.forall_mem_cons.mp hps
      rw [Unfolding.label]
      by_cases hc : p.holdsAt c.binding = true
      · -- the state is taken from before or built now; then it is there for the rest
        have hrest : ∀ {m₁ : Manager} {state : Handle}, m'.Extends m₁ → m₁.WellFormed →
            (m₁.Denotes state fun a =>
              c.Covers (t.encoding.stateOf (t.encoding.halfOf .current a))) →
            Returns (do
                let states ← disj p.states state
                return { p with states } :: (← t.label c (some state) ps)) m₁
              fun ps' m'' => (m'.Extends m'' ∧ m''.WellFormed)
                ∧ List.Forall₂ (Gains m t.encoding c m'') (p :: ps) ps' := by
          intro m₁ state ext₁ hm₁ hstate
          have hold := hext.trans ext₁
          refine ends_bind.mpr (Ends.imp (returns_disj hm₁ (hold.valid hp) hstate.valid) ?_)
          intro states m₂ y₂
          have ext₂ := ext₁.trans y₂.extends_
          refine ends_bind.mpr (Ends.imp (ih _ (hext.trans ext₂) y₂.wellFormed
            (ext₂.numVars_eq ▸ hvars) ?_ hps) ?_)
          · intro s hs
            obtain rfl := Option.some.inj hs
            exact hstate.mono y₂.extends_ hm₁ y₂.wellFormed
          · rintro ps' m₃ ⟨⟨ext₃, hm₃⟩, hps'⟩
            refine ends_pure.mpr ⟨⟨ext₂.trans ext₃, hm₃⟩, .cons ⟨rfl, rfl, ?_⟩ hps'⟩
            refine (y₂.denotes.mono ext₃ y₂.wellFormed hm₃).congr fun a => ?_
            rw [hold.eval_eq hm.toReduced hm₁.toReduced hp, hstate.eval_iff]
            simp only [hc, true_and]
        rw [if_pos hc]
        cases built? with
        | some state => exact hrest (.refl m') hm' (hbuilt state rfl)
        | none =>
            refine ends_bind.mpr (Ends.imp (returns_state hm' hvars .current hpc) ?_)
            intro state m₁ y₁
            exact hrest y₁.extends_ y₁.wellFormed y₁.denotes
      · rw [if_neg hc]
        refine ends_bind.mpr (Ends.imp (ih _ hext hm' hvars hbuilt hps) ?_)
        rintro ps' m₁ ⟨⟨ext₁, hm₁⟩, hps'⟩
        refine ends_pure.mpr ⟨⟨ext₁, hm₁⟩, .cons ⟨rfl, rfl, (hext.trans ext₁).valid hp, fun a => ?_⟩
          hps'⟩
        rw [(hext.trans ext₁).eval_eq hm.toReduced hm₁.toReduced hp]
        simp [hc]

/-- `p` is the predicate `p₀`, labelled with some continuations: its states
are those that one of them covers at which the condition is true. -/
structure Labelled (m : Manager) (e : Encoding) (among : Continuation → Prop)
    (p₀ p : Predicate) : Prop where
  id_eq : p.id = p₀.id
  expr_eq : p.expr = p₀.expr
  states : m.Denotes p.states fun a => ∃ c, among c
    ∧ p₀.expr.evaluate c.binding = .ok (.bool true)
    ∧ c.Covers (e.stateOf (e.halfOf .current a))

namespace Labelled

variable {p₀ p p' : Predicate}

theorem mono (h : Labelled m e (· ∈ done) p₀ p) (hext : m.Extends m') (hm : m.WellFormed)
    (hm' : m'.WellFormed) : Labelled m' e (· ∈ done) p₀ p :=
  ⟨h.id_eq, h.expr_eq, h.states.mono hext hm hm'⟩

theorem holdsAt_iff (h : Labelled m e (· ∈ done) p₀ p) {binding : Binding} :
    p.holdsAt binding = true ↔ p₀.expr.evaluate binding = .ok (.bool true) := by
  rw [Predicate.holdsAt_iff, h.expr_eq]

theorem gain (h : Labelled m e (· ∈ done) p₀ p) (hp : Gains m e c m' p p') :
    Labelled m' e (· ∈ c :: done) p₀ p' := by
  refine ⟨hp.id_eq.trans h.id_eq, hp.expr_eq.trans h.expr_eq, hp.states.congr fun a => ?_⟩
  rw [h.states.eval_iff, h.holdsAt_iff, List.exists_mem_cons_iff]
  exact or_comm

end Labelled

theorem valid_of_labelled {among : Continuation → Prop} {ps₀ ps : List Predicate}
    (h : List.Forall₂ (Labelled m e among) ps₀ ps) : ∀ p ∈ ps, m.Valid p.states :=
  ((List.forall₂_and_left ps ps₀).mp (h.flip.imp fun _ _ hp => ⟨hp.states.valid, hp⟩)).1

theorem labelled_gain {ps₀ ps ps' : List Predicate}
    (h : List.Forall₂ (Labelled m e (· ∈ done)) ps₀ ps)
    (hps : List.Forall₂ (Gains m e c m') ps ps') :
    List.Forall₂ (Labelled m' e (· ∈ c :: done)) ps₀ ps' := by
  induction h generalizing ps' with
  | nil =>
      cases hps
      exact .nil
  | cons hp _ ih =>
      cases hps with
      | cons hp' hps' => exact .cons (hp.gain hp') (ih hps')

/-! ## Collections on the way -/

/-- `m'` is well formed, and the roots denote in it what they denoted in
`m`. -/
structure Manager.Preserves (m : Manager) (roots : List Handle) (m' : Manager) : Prop where
  wellFormed : m'.WellFormed
  numVars_eq : m'.numVars = m.numVars
  denotes : ∀ {f φ}, f ∈ roots → m.Denotes f φ → m'.Denotes f φ

theorem Manager.Keeps.preserves {roots : List Handle} (h : m.Keeps roots m')
    (hm : m.WellFormed) : m.Preserves roots m' where
  wellFormed := h.wellFormed
  numVars_eq := h.extends_.numVars_eq.symm
  denotes hf hd := by
    have hv := h.valid hd.valid (Or.inr (.root hf))
    exact ⟨hv, fun a => by rw [h.eval_eq hm hv, hd.eval_iff]⟩

theorem Manager.Alike.preserves {roots : List Handle} (h : m.Alike m') (hm : m.WellFormed) :
    m.Preserves roots m' where
  wellFormed := h.wellFormed hm
  numVars_eq := h.numVars_eq
  denotes _ hd := hd.mono h.extends_ hm (h.wellFormed hm)

theorem Manager.Preserves.trans {roots : List Handle} {m'' : Manager}
    (h : m.Preserves roots m') (h' : m'.Preserves roots m'') : m.Preserves roots m'' where
  wellFormed := h'.wellFormed
  numVars_eq := h'.numVars_eq.trans h.numVars_eq
  denotes hf hd := h'.denotes hf (h.denotes hf hd)

/-- The diagrams that an unfolding still needs. -/
def Unfolding.roots (t : Unfolding) (p : Progress) : List Handle :=
  t.start :: p.transitions :: p.predicates.map Predicate.states

/-- Tidying changes the threshold at most, and preserves what is needed. -/
theorem returns_tidy (t : Unfolding) (p : Progress) (hm : m.WellFormed) :
    Returns (t.tidy p) m fun p' m' => m.Preserves (t.roots p) m'
      ∧ ∃ threshold, p' = { p with threshold } := by
  unfold Unfolding.tidy
  simp only [ends_bind, ends_get]
  split
  · exact ends_pure.mpr ⟨(m.alike_journal m.journal).preserves hm, p.threshold, rfl⟩
  · refine ends_bind.mpr (Ends.imp (returns_collectGarbage hm _) ?_)
    intro dropped m1 hkeep
    have hpres : m.Preserves (t.roots p) m1 := hkeep.preserves hm
    simp only [ends_bind, ends_get]
    split
    · exact ends_pure.mpr ⟨hpres, p.threshold, rfl⟩
    · simp only [ends_bind, ends_record, ends_pure]
      exact ⟨hpres.trans ((m1.alike_journal _).preserves hpres.wellFormed), _, rfl⟩

/-! ## The search -/

/-- How the work-list and the visited set hang together with what is done. -/
structure Search (table : ControlTable) (numVars : Nat) (done : List Continuation)
    (p : Progress) : Prop where
  visited_iff : ∀ c, p.visited.contains c = true ↔ c ∈ done ++ p.worklist
  nodup : (done ++ p.worklist).Nodup
  reached : ∀ c ∈ done ++ p.worklist, table.Reached numVars c
  start_mem : Continuation.start numVars ∈ done ++ p.worklist
  closed : ∀ c ∈ done, ∃ next, table.step c = .ok next
    ∧ ∀ c', table.Leads c c' → c' ∈ done ++ p.worklist

theorem Progress.visit_spec {p : Progress} (known : List Continuation) {c : Continuation}
    (hv : ∀ c, p.visited.contains c = true ↔ c ∈ known ++ p.worklist)
    (hnd : (known ++ p.worklist).Nodup) :
    (∀ c', (p.visit c).visited.contains c' = true ↔ c' ∈ known ++ (p.visit c).worklist)
      ∧ (known ++ (p.visit c).worklist).Nodup
      ∧ ∀ c', c' ∈ known ++ (p.visit c).worklist ↔ c' ∈ known ++ p.worklist ∨ c' = c := by
  unfold visit
  split
  · next hc =>
      refine ⟨hv, hnd, fun c' => ⟨Or.inl, fun h => ?_⟩⟩
      rcases h with h | rfl
      · exact h
      · exact (hv c').mp hc
  · next hc =>
      have hmem : ∀ c', c' ∈ known ++ c :: p.worklist ↔ c' ∈ known ++ p.worklist ∨ c' = c := by
        intro c'
        simp only [List.mem_append, List.mem_cons]
        tauto
      refine ⟨fun c' => ?_, ?_, hmem⟩
      · rw [hmem, Std.HashSet.contains_insert, Bool.or_eq_true, hv, beq_iff_eq]
        tauto
      · rw [List.nodup_middle, List.nodup_cons, ← hv]
        exact ⟨hc, hnd⟩

/-- Visiting continuations in turn adds those that are new. -/
theorem Progress.foldl_visit_spec {p : Progress} {known : List Continuation}
    (l : List Continuation) (hv : ∀ c, p.visited.contains c = true ↔ c ∈ known ++ p.worklist)
    (hnd : (known ++ p.worklist).Nodup) :
    (∀ c, (l.foldl visit p).visited.contains c = true ↔ c ∈ known ++ (l.foldl visit p).worklist)
      ∧ (known ++ (l.foldl visit p).worklist).Nodup
      ∧ ∀ c, c ∈ known ++ (l.foldl visit p).worklist ↔ c ∈ known ++ p.worklist ∨ c ∈ l := by
  induction l generalizing p with
  | nil => exact ⟨hv, hnd, fun c => by simp⟩
  | cons c l ih =>
      obtain ⟨hv', hnd', hmem⟩ := visit_spec known (c := c) hv hnd
      obtain ⟨hv'', hnd'', hmem'⟩ := ih hv' hnd'
      refine ⟨hv'', hnd'', fun c' => ?_⟩
      rw [List.foldl_cons, hmem', hmem, List.mem_cons]
      tauto

/-- The diagrams and the count are not touched by it. -/
theorem Progress.foldl_visit_diagrams (p : Progress) (l : List Continuation) :
    (l.foldl visit p).transitions = p.transitions
      ∧ (l.foldl visit p).predicates = p.predicates
      ∧ (l.foldl visit p).expanded = p.expanded := by
  induction l generalizing p with
  | nil => exact ⟨rfl, rfl, rfl⟩
  | cons c l ih =>
      have hkeep : (p.visit c).transitions = p.transitions
          ∧ (p.visit c).predicates = p.predicates ∧ (p.visit c).expanded = p.expanded := by
        unfold visit
        split <;> exact ⟨rfl, rfl, rfl⟩
      obtain ⟨ht, hp, he⟩ := ih (p.visit c)
      exact ⟨ht.trans hkeep.1, hp.trans hkeep.2.1, he.trans hkeep.2.2⟩

theorem Search.congr {table : ControlTable} {numVars : Nat} {p q : Progress}
    (h : Search table numVars done p) (hv : q.visited = p.visited)
    (hw : q.worklist = p.worklist) : Search table numVars done q := by
  obtain ⟨hvisited, hnodup, hreached, hstart, hclosed⟩ := h
  rw [← hv, ← hw] at hvisited
  rw [← hw] at hnodup hreached hstart hclosed
  exact ⟨hvisited, hnodup, hreached, hstart, hclosed⟩

/-- The search after one more continuation is done. -/
theorem Search.expand {table : ControlTable} {numVars : Nat} {p q : Progress}
    {rest : List Continuation} (h : Search table numVars done p) (hp : p.worklist = c :: rest)
    (hstep : table.step c = .ok next) (hv : q.visited = p.visited) (hw : q.worklist = rest) :
    Search table numVars (c :: done) ((table.successors c next).foldl Progress.visit q) := by
  have hmem : ∀ c', c' ∈ (c :: done) ++ q.worklist ↔ c' ∈ done ++ p.worklist := by
    intro c'
    rw [hp, hw]
    simp only [List.mem_append, List.mem_cons]
    tauto
  have hnd : ((c :: done) ++ q.worklist).Nodup := by
    have := h.nodup
    rw [hp, List.nodup_middle] at this
    rwa [hw, List.cons_append]
  obtain ⟨hv', hnd', hmem'⟩ := Progress.foldl_visit_spec (p := q)
    (table.successors c next) (fun c' => by rw [hv, h.visited_iff, hmem]) hnd
  generalize (table.successors c next).foldl Progress.visit q = p' at hv' hnd' hmem'
  have hold : ∀ c', c' ∈ done ++ p.worklist → c' ∈ (c :: done) ++ p'.worklist :=
    fun c' hc' => (hmem' c').mpr (Or.inl ((hmem c').mpr hc'))
  have hsucc : ∀ c', table.Leads c c' → c' ∈ (c :: done) ++ p'.worklist :=
    fun c' hl => (hmem' c').mpr (Or.inr ((ControlTable.mem_successors hstep).mpr hl))
  have hc : table.Reached numVars c := h.reached c (by simp [hp])
  refine ⟨hv', hnd', fun c' hc' => ?_, hold _ h.start_mem, fun c' hc' => ?_⟩
  · rcases (hmem' c').mp hc' with hc' | hc'
    · exact h.reached c' ((hmem c').mp hc')
    · exact hc.tail ((ControlTable.mem_successors hstep).mp hc')
  · rcases List.mem_cons.mp hc' with rfl | hc'
    · exact ⟨next, hstep, hsucc⟩
    · obtain ⟨next', hstep', hclosed⟩ := h.closed c' hc'
      exact ⟨next', hstep', fun c'' hl => hold c'' (hclosed c'' hl)⟩

/-- When nothing is left to expand, everything reached is done. -/
theorem Search.mem_iff_reached {table : ControlTable} {numVars : Nat} {p : Progress}
    (h : Search table numVars done p) (hp : p.worklist = []) :
    c ∈ done ↔ table.Reached numVars c := by
  have happ : done ++ p.worklist = done := by rw [hp, List.append_nil]
  constructor
  · intro hc
    exact h.reached c (happ.symm ▸ hc)
  · intro hr
    induction hr with
    | refl => exact happ ▸ h.start_mem
    | @tail b c _ hl ih =>
        obtain ⟨-, -, hclosed⟩ := h.closed b ih
        exact happ ▸ hclosed c hl

/-! ## Expanding a continuation -/

/-- The pairs of states that the steps of some continuations join. -/
def EdgeOf (table : ControlTable) (e : Encoding) (among : Continuation → Prop)
    (a : Assignment) : Prop :=
  ∃ c, among c ∧ ∃ next, table.step c = .ok next
    ∧ c.Covers (e.stateOf (e.halfOf .current a)) ∧ next.Covers (e.stateOf (e.halfOf .next a))

/-- The diagrams denote what the done continuations contribute. -/
structure Collected (t : Unfolding) (ps₀ : List Predicate) (done : List Continuation)
    (p : Progress) (m : Manager) : Prop where
  wellFormed : m.WellFormed
  vars_le : t.encoding.numVars ≤ m.numVars
  start : m.Denotes t.start fun a =>
    (Continuation.start t.encoding.names.length).Covers
      (t.encoding.stateOf (t.encoding.halfOf .current a))
  transitions : m.Denotes p.transitions (EdgeOf t.table t.encoding (· ∈ done))
  predicates : List.Forall₂ (Labelled m t.encoding (· ∈ done)) ps₀ p.predicates

theorem gains_of_denotes {m'' : Manager} {ps ps' : List Predicate}
    (h : List.Forall₂ (Gains m e c m') ps ps')
    (hd : ∀ q ∈ ps', ∀ φ, m'.Denotes q.states φ → m''.Denotes q.states φ) :
    List.Forall₂ (Gains m e c m'') ps ps' := by
  induction h with
  | nil => exact .nil
  | cons hq _ ih =>
      exact .cons ⟨hq.id_eq, hq.expr_eq, hd _ (by simp) _ hq.states⟩
        (ih fun q hq => hd q (List.mem_cons_of_mem _ hq))

/-- What the expansion of `c` makes of some progress: its states, and the
transitions from them to those of `next`, are added, and its successors are
visited. -/
structure Unfolding.Expanded (t : Unfolding) (c next : Continuation) (p : Progress) (m : Manager)
    (p' : Progress) (m' : Manager) : Prop where
  wellFormed : m'.WellFormed
  numVars_eq : m'.numVars = m.numVars
  start : ∀ {φ}, m.Denotes t.start φ → m'.Denotes t.start φ
  transitions : m'.Denotes p'.transitions fun a => m.eval p.transitions a = true
    ∨ c.Covers (t.encoding.stateOf (t.encoding.halfOf .current a))
      ∧ next.Covers (t.encoding.stateOf (t.encoding.halfOf .next a))
  predicates : List.Forall₂ (Gains m t.encoding c m') p.predicates p'.predicates
  progress_eq : ∃ threshold, p' = { (t.table.successors c next).foldl Progress.visit { p with
    transitions := p'.transitions, predicates := p'.predicates, expanded := p.expanded + 1 } with
    threshold }

/-- An expansion fails only if the step does. -/
theorem returns_expanded {t : Unfolding} {p : Progress} (hr : t.table.InRange)
    (hfits : c.Fits t.encoding.names.length) (hm : m.WellFormed)
    (hvars : t.encoding.numVars ≤ m.numVars) (htransitions : m.Valid p.transitions)
    (hps : ∀ q ∈ p.predicates, m.Valid q.states) :
    Returns (t.expand p c).run m fun r m' => match r with
      | .ok p' => ∃ next, t.table.step c = .ok next ∧ t.Expanded c next p m p' m'
      | .error err => t.table.step c = .error err := by
  unfold Unfolding.expand
  simp only [ends_except_bind, ends_except_lift, ends_except_ofExcept]
  refine Ends.imp (returns_label none hm (.refl m) hm hvars hfits.pc_lt
    (fun s hs => by cases hs) hps) ?_
  rintro predicates m₁ ⟨⟨ext₁, hm₁⟩, hpreds⟩
  cases hstep : t.table.step c with
  | error err => rfl
  | ok next =>
      have hnext := hr.fits_step hfits hstep
      simp only
      refine Ends.imp (returns_edge hm₁ (ext₁.numVars_eq ▸ hvars) hfits.pc_lt hnext.pc_lt) ?_
      intro edge m₂ y₂
      have ext₂ := ext₁.trans y₂.extends_
      refine Ends.imp (returns_disj y₂.wellFormed (ext₂.valid htransitions) y₂.valid) ?_
      intro transitions m₃ y₃
      have ext₃ := ext₂.trans y₃.extends_
      refine Ends.imp (returns_tidy t _ y₃.wellFormed) ?_
      rintro p' m₄ ⟨hpres, threshold, hp'⟩
      obtain ⟨ht, hq, -⟩ := Progress.foldl_visit_diagrams
        { p with transitions, predicates, expanded := p.expanded + 1 } (t.table.successors c next)
      have ht' : p'.transitions = transitions := hp' ▸ ht
      have hq' : p'.predicates = predicates := hp' ▸ hq
      rw [Unfolding.roots, ht, hq] at hpres
      refine ⟨next, rfl, hpres.wellFormed, hpres.numVars_eq.trans ext₃.numVars_eq, fun hstart => ?_,
        ht' ▸ ?_, hq' ▸ ?_, threshold, by rw [ht', hq']; exact hp'⟩
      · exact hpres.denotes (by simp) (hstart.mono ext₃ hm y₃.wellFormed)
      · refine hpres.denotes (by simp) (y₃.denotes.congr fun a => ?_)
        rw [ext₂.eval_eq hm.toReduced y₂.wellFormed.toReduced htransitions, y₂.eval_iff]
      · refine gains_of_denotes hpreds fun q hq φ hd => hpres.denotes ?_
          (hd.mono (y₂.extends_.trans y₃.extends_) hm₁ y₃.wellFormed)
        exact List.mem_cons_of_mem _ (List.mem_cons_of_mem _ (List.mem_map_of_mem hq))

/-- The search after an expansion. -/
theorem Search.of_expanded {t : Unfolding} {p p' : Progress} {rest : List Continuation}
    {numVars : Nat} (h : Search t.table numVars done p) (hp : p.worklist = c :: rest)
    (hstep : t.table.step c = .ok next)
    (hexpand : t.Expanded c next { p with worklist := rest } m p' m') :
    Search t.table numVars (c :: done) p' := by
  obtain ⟨threshold, hp'⟩ := hexpand.progress_eq
  have hsearch := h.expand (q := ⟨p'.transitions, p'.predicates, p.visited, rest, p.threshold,
    p.expanded + 1⟩) hp hstep rfl rfl
  exact hsearch.congr ((congrArg Progress.visited hp').trans rfl)
    ((congrArg Progress.worklist hp').trans rfl)

/-- Expanding a continuation adds what it contributes, and fails only if
its step does. -/
theorem returns_expand {t : Unfolding} {ps₀ : List Predicate} {p : Progress}
    {rest : List Continuation} (hr : t.table.InRange)
    (hs : Search t.table t.encoding.names.length done p) (hp : p.worklist = c :: rest)
    (hcol : Collected t ps₀ done p m) :
    Returns (t.expand { p with worklist := rest } c).run m fun r m' => match r with
      | .ok p' => Search t.table t.encoding.names.length (c :: done) p'
          ∧ Collected t ps₀ (c :: done) p' m'
      | .error err => t.table.step c = .error err := by
  have hfits := hr.fits_reached (hs.reached c (by simp [hp]))
  refine Ends.imp (returns_expanded hr hfits hcol.wellFormed hcol.vars_le hcol.transitions.valid
    (valid_of_labelled hcol.predicates)) ?_
  intro r m' hexpand
  cases r with
  | error err => exact hexpand
  | ok p' =>
      obtain ⟨next, hstep, hp'⟩ := hexpand
      refine ⟨hs.of_expanded hp hstep hp', hp'.wellFormed, hp'.numVars_eq ▸ hcol.vars_le,
        hp'.start hcol.start, hp'.transitions.congr fun a => ?_,
        labelled_gain hcol.predicates hp'.predicates⟩
      rw [hcol.transitions.eval_iff]
      simp only [EdgeOf, List.exists_mem_cons_iff, hstep, Except.ok.injEq, exists_eq_left']
      exact or_comm

/-! ## The whole unfolding -/

/-- An unfolding ends when everything reached is done, or at a reached
continuation whose step fails. -/
theorem returns_runWithin {t : Unfolding} {ps₀ : List Predicate} (hr : t.table.InRange)
    (fuel : Nat) {p : Progress} {m : Manager} {done : List Continuation}
    (hs : Search t.table t.encoding.names.length done p) (hcol : Collected t ps₀ done p m)
    (hfuel : Unfolding.continuationBound t.encoding < done.length + fuel) :
    Returns (t.runWithin fuel p).run m fun r m' => match r with
      | .ok p' => ∃ done', (∀ c, c ∈ done' ↔ t.table.Reached t.encoding.names.length c)
          ∧ (∀ c ∈ done', ∃ next, t.table.step c = .ok next) ∧ Collected t ps₀ done' p' m'
      | .error err => ∃ c, t.table.Reached t.encoding.names.length c
          ∧ t.table.step c = .error err := by
  induction fuel generalizing p m done with
  | zero =>
      -- there are not that many continuations
      have hle := length_le_continuationBound (e := t.encoding) (hs.nodup.sublist
        (List.sublist_append_left done p.worklist)) fun c hc =>
          hr.fits_reached (hs.reached c (List.mem_append_left _ hc))
      omega
  | succ fuel ih =>
      rw [Unfolding.runWithin]
      cases hp : p.worklist with
      | nil =>
          refine ends_except_pure.mpr ⟨done, fun c => hs.mem_iff_reached hp, fun c hc => ?_, hcol⟩
          obtain ⟨next, hnext, -⟩ := hs.closed c hc
          exact ⟨next, hnext⟩
      | cons c rest =>
          refine ends_except_bind.mpr ?_
          refine Ends.imp (returns_expand hr hs hp hcol) ?_
          intro r m1 hexpand
          cases r with
          | error err => exact ⟨c, hs.reached c (by simp [hp]), hexpand⟩
          | ok p' => exact ih hexpand.1 hexpand.2 (by simp only [List.length_cons]; omega)

/-- The diagrams of a model denote the transition system of a table. -/
structure Model.Exact (table : ControlTable) (e : Encoding) (ps₀ : List Predicate) (K : Model)
    (m : Manager) : Prop where
  encoding_eq : K.encoding = e
  wellFormed : m.WellFormed
  vars_le : e.numVars ≤ m.numVars
  start : m.Denotes K.start fun a => (e.stateOf (e.halfOf .current a)).pc = 0
  transitions : m.Denotes K.transitions (EdgeOf table e (table.Reached e.names.length))
  predicates : List.Forall₂ (Labelled m e (table.Reached e.names.length)) ps₀ K.predicates

/-- The start knows nothing but its counter. -/
theorem Continuation.covers_start {numVars : Nat} {s : State numVars} :
    (Continuation.start numVars).Covers s ↔ s.pc = 0 := by
  constructor
  · intro h
    exact Fin.ext h.1.symm
  · intro h
    refine ⟨by simp [start, h], fun i value hi => ?_⟩
    simp [start] at hi

theorem search_start (table : ControlTable) (numVars threshold : Nat) (ps : List Predicate) :
    Search table numVars []
      (Progress.visit ⟨.zero, ps, ∅, [], threshold, 0⟩ (.start numVars)) := by
  obtain ⟨hv, hnd, hmem⟩ := Progress.visit_spec (p := ⟨.zero, ps, ∅, [], threshold, 0⟩) []
    (c := .start numVars) (fun c => by simp) List.nodup_nil
  refine ⟨hv, hnd, fun c hc => ?_, (hmem _).mpr (Or.inr rfl), fun c hc => by cases hc⟩
  rcases (hmem c).mp hc with hc | rfl
  · cases hc
  · exact .refl

/-- Before anything is done, nothing is denoted but the start. -/
theorem collected_start {table : ControlTable} {ps₀ : List Predicate} {start : Handle}
    (threshold : Nat) (hps : ∀ p ∈ ps₀, p.states = .zero) (hm : m.WellFormed)
    (hvars : e.numVars ≤ m.numVars) (hstart : m.Denotes start fun a =>
      (Continuation.start e.names.length).Covers (e.stateOf (e.halfOf .current a))) :
    Collected ⟨table, e, start⟩ ps₀ []
      (Progress.visit ⟨.zero, ps₀, ∅, [], threshold, 0⟩ (.start e.names.length)) m := by
  obtain ⟨ht, hp, -⟩ := Progress.foldl_visit_diagrams ⟨.zero, ps₀, ∅, [], threshold, 0⟩
    [.start e.names.length]
  have hempty : ∀ φ : Assignment → Prop, (∀ a, ¬ φ a) → m.Denotes .zero φ :=
    fun φ hφ => ⟨m.valid_zero, fun a => by simp [hφ a]⟩
  refine ⟨hm, hvars, hstart, ht ▸ hempty _ ?_, hp ▸ ?_⟩
  · rintro a ⟨c, hc, -⟩
    cases hc
  · refine List.forall₂_same.mpr fun p hp => ⟨rfl, rfl, hps p hp ▸ hempty _ ?_⟩
    rintro a ⟨c, hc, -⟩
    cases hc

theorem returns_unfold {table : ControlTable} {ps₀ : List Predicate} (threshold : Nat)
    (hr : table.InRange) (hne : table.isEmpty = false) (hps : ∀ p ∈ ps₀, p.states = .zero)
    (hm : m.WellFormed) (hvars : e.numVars ≤ m.numVars) :
    Returns (Model.unfold table e threshold ps₀).run m fun r m' => match r with
      | .ok K => (∀ c, table.Reached e.names.length c → ∃ next, table.step c = .ok next)
          ∧ K.Exact table e ps₀ m'
      | .error err => ∃ c, table.Reached e.names.length c ∧ table.step c = .error err := by
  unfold Model.unfold
  simp only [hne, Bool.false_eq_true, if_false, ends_except_bind, ends_except_lift]
  refine Ends.imp (returns_state (c := .start e.names.length) hm hvars .current
    (ControlTable.fits_start _).pc_lt) ?_
  intro start m1 y1
  refine Ends.imp (returns_runWithin hr _ (search_start table _ threshold ps₀)
    (collected_start threshold hps y1.wellFormed (y1.extends_.numVars_eq ▸ hvars) y1.denotes)
    (by simp)) ?_
  intro r m2 hrun
  cases r with
  | error err => exact hrun
  | ok p =>
      obtain ⟨done, hdone, hsteps, hcol2⟩ := hrun
      simp only [ends_except_get, ends_except_record, ends_except_pure]
      have hmem : (· ∈ done) = table.Reached e.names.length := funext fun c => propext (hdone c)
      have hlike := m2.alike_journal
        (m2.journal.push (.unfolded p.expanded (m2.nodeCount p.transitions)))
      have hwf := hlike.wellFormed hcol2.wellFormed
      refine ⟨fun c hc => hsteps c ((hdone c).mpr hc), rfl, hwf, hcol2.vars_le, ?_, ?_, ?_⟩
      · refine (hcol2.start.mono hlike.extends_ hcol2.wellFormed hwf).congr fun a => ?_
        exact Continuation.covers_start
      · exact hmem ▸ hcol2.transitions.mono hlike.extends_ hcol2.wellFormed hwf
      · refine hmem ▸ hcol2.predicates.imp fun _ _ hl => ?_
        exact hl.mono hlike.extends_ hcol2.wellFormed hwf

theorem Predicate.states_of_compile {id : Nat} {text : String} {names : List String}
    {p : Predicate} (h : Predicate.compile id text names = .ok p) : p.states = .zero := by
  unfold compile at h
  split at h
  · obtain rfl := Except.ok.inj h
    rfl
  · cases h

/-- The unfolding of a program that was laid out in a table, from any
well-formed manager and with any threshold, gives a model exactly when no
step of a reached continuation fails. Its start is the states with counter
`0`, its transitions are the union of the steps of the reached
continuations, and the states of a predicate are those that a reached
continuation covers at which the condition is true. -/
theorem Model.unfold_exact {names statements : List String} {table : ControlTable}
    {predicates : List Predicate} (threshold : Nat)
    (hbuild : ControlTable.build names statements = .ok table) (hne : table.isEmpty = false)
    (hpreds : ∀ p ∈ predicates, ∃ id text, Predicate.compile id text names = .ok p)
    (hm : m.WellFormed) (hvars : Encoding.numVars ⟨names⟩ ≤ m.numVars) :
    ∃ r m', (Model.unfold table ⟨names⟩ threshold predicates).run m = .ok r m'
      ∧ ((∃ K, r = .ok K) ↔
          ∀ c, table.Reached names.length c → ∃ next, table.step c = .ok next)
      ∧ ∀ K, r = .ok K →
        (m'.Denotes K.start fun a =>
            (Encoding.stateOf ⟨names⟩ (Encoding.halfOf ⟨names⟩ .current a)).pc = 0)
        ∧ (m'.Denotes K.transitions fun a => ∃ c, table.Reached names.length c
            ∧ ∃ next, table.step c = .ok next
            ∧ c.Covers (Encoding.stateOf ⟨names⟩ (Encoding.halfOf ⟨names⟩ .current a))
            ∧ next.Covers (Encoding.stateOf ⟨names⟩ (Encoding.halfOf ⟨names⟩ .next a)))
        ∧ List.Forall₂ (fun p₀ p => p.id = p₀.id ∧ p.expr = p₀.expr
            ∧ m'.Denotes p.states fun a => ∃ c, table.Reached names.length c
              ∧ p₀.expr.evaluate c.binding = .ok (.bool true)
              ∧ c.Covers (Encoding.stateOf ⟨names⟩ (Encoding.halfOf ⟨names⟩ .current a)))
            predicates K.predicates := by
  have hzero : ∀ p ∈ predicates, p.states = .zero := fun p hp => by
    obtain ⟨id, text, hc⟩ := hpreds p hp
    exact Predicate.states_of_compile hc
  obtain ⟨r, m', hrun, hr⟩ := (returns_unfold threshold (ControlTable.inRange_of_build hbuild)
    hne hzero hm hvars).exists_ok
  refine ⟨r, m', hrun, ?_⟩
  cases r with
  | error err =>
      obtain ⟨c, hc, hstep⟩ := hr
      refine ⟨⟨fun ⟨_, hK⟩ => (nomatch hK), fun hall => ?_⟩, fun _ hK => (nomatch hK)⟩
      obtain ⟨next, hnext⟩ := hall c hc
      rw [hstep] at hnext
      cases hnext
  | ok K =>
      refine ⟨⟨fun _ => hr.1, fun _ => ⟨K, rfl⟩⟩, fun K' hK => ?_⟩
      obtain rfl := Except.ok.inj hK
      exact ⟨hr.2.start, hr.2.transitions,
        hr.2.predicates.imp fun p₀ p hl => ⟨hl.id_eq, hl.expr_eq, hl.states⟩⟩

/-- The program that reads a variable, labelled with a condition on it,
unfolds in a new manager. -/
theorem Model.unfold_exact_read : ∃ (table : ControlTable) (p : Predicate) (m : Manager),
    ControlTable.build ["x"] ["read(x)"] = .ok table ∧ table.isEmpty = false
      ∧ Predicate.compile 0 "x > 0" ["x"] = .ok p
      ∧ m.WellFormed ∧ Encoding.numVars ⟨["x"]⟩ ≤ m.numVars
      ∧ ∃ K m', (Model.unfold table ⟨["x"]⟩ 0 [p]).run m = .ok (.ok K) m'
        ∧ m'.Denotes K.start fun a =>
          (Encoding.stateOf ⟨["x"]⟩ (Encoding.halfOf ⟨["x"]⟩ .current a)).pc = 0 := by
  have hbuild : ControlTable.build ["x"] ["read(x)"]
      = .ok ⟨[⟨0, [.undefined], [.defined], 1, .read 0⟩]⟩ := by decide +kernel
  have hcompile : Predicate.compile 0 "x > 0" ["x"]
      = .ok ⟨0, ⟨"x > 0", [.var 0 "x", .num 0, .binary .gt]⟩, .zero⟩ := by decide +kernel
  obtain ⟨m, hnew⟩ : ∃ m, Manager.new? 48 4 = .ok m := ⟨_, rfl⟩
  obtain ⟨hm, hn⟩ := Manager.wellFormed_new? hnew
  have hvars : Encoding.numVars ⟨["x"]⟩ ≤ m.numVars := by
    rw [hn]
    decide
  obtain ⟨r, m', hrun, hiff, hall⟩ := Model.unfold_exact 0 hbuild rfl
    (fun p hp => ⟨0, "x > 0", (List.mem_singleton.mp hp) ▸ hcompile⟩) hm hvars
  -- a `read` always has a step, and so has the end
  obtain ⟨K, rfl⟩ := hiff.mpr fun c _ => by
    rcases c with ⟨_ | pc, binding⟩
    · exact ⟨_, rfl⟩
    · exact ⟨⟨pc + 1, binding⟩, by simp [ControlTable.step, ControlTable.entry?]⟩
  exact ⟨_, _, m, hbuild, rfl, hcompile, hm, hvars, K, m', hrun, (hall K rfl).1⟩

end BranchingTime
