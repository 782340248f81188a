import BranchingTime.Proofs.Collection
import BranchingTime.Proofs.QuantifierDenotation
import BranchingTime.Proofs.RenamingDenotation

/-!
# One handle for one function

A history starts with a new manager and goes on with operations and
collections in any order. The handles that are alive in it are the results
of earlier operations that every later collection had to keep. Every
operation on live handles yields its function (`Operation.ends_perform`),
so all managers of a history are well formed, and well-formed managers are
canonical: live handles are equal exactly when their functions are.
-/

namespace BranchingTime

open Diagram Manager

/-! ## Operations -/

/-- What may be asked of a manager, collections apart. -/
inductive Operation
  | var (v : Nat)
  | cube (literals : List Int)
  | ite (f g h : Handle)
  | conj (f g : Handle)
  | disj (f g : Handle)
  | xor (f g : Handle)
  | iff (f g : Handle)
  | imp (f g : Handle)
  | not (f : Handle)
  | existsVars (vars : List Nat) (f : Handle)
  | andExists (vars : List Nat) (f g : Handle)
  | rename (map : VarMap) (f : Handle)

namespace Operation

/-- The diagrams that an operation works on. -/
def args : Operation → List Handle
  | var _ | cube _ => []
  | ite f g h => [f, g, h]
  | conj f g | disj f g | xor f g | iff f g | imp f g | andExists _ f g => [f, g]
  | not f | existsVars _ f | rename _ f => [f]

/-- Runs an operation. -/
def perform : Operation → DiagramM Handle
  | var v => mkVar v
  | cube literals => Diagram.cube literals
  | ite f g h => Diagram.ite f g h
  | conj f g => Diagram.conj f g
  | disj f g => Diagram.disj f g
  | xor f g => Diagram.xor f g
  | iff f g => Diagram.iff f g
  | imp f g => Diagram.imp f g
  | not f => pure (-f)
  | existsVars vars f => Diagram.existsVars vars f
  | andExists vars f g => Diagram.andExists vars f g
  | rename map f => Diagram.rename map f

/-- A cube is asked for with literals over different variables, all of
which exist. Other operations check their variables themselves. -/
def Admissible (numVars : Nat) : Operation → Prop
  | cube literals => (∀ l ∈ literals, l ≠ 0 ∧ l.natAbs ≤ numVars)
      ∧ (literals.map Int.natAbs).Nodup
  | _ => True

/-- The function that an operation is to denote. -/
def Denotes (m : Manager) : Operation → Assignment → Prop
  | var v, a => a v = true
  | cube literals, a => ∀ l ∈ literals, a.satisfies l = true
  | ite f g h, a => m.iteEval f g h a = true
  | conj f g, a => m.eval f a = true ∧ m.eval g a = true
  | disj f g, a => m.eval f a = true ∨ m.eval g a = true
  | xor f g, a => (m.eval f a ^^ m.eval g a) = true
  | iff f g, a => m.eval f a = m.eval g a
  | imp f g, a => m.eval f a = true → m.eval g a = true
  | not f, a => ¬ m.eval f a = true
  | existsVars vars f, a => m.Possible vars f a
  | andExists vars f g, a => PossibleBoth m vars f g a
  | rename map f, a => m.eval f (a.through map) = true

variable {m : Manager}

/-- Every operation on diagrams of a well-formed manager yields its
function, or faults and leaves a well-formed extension. -/
theorem ends_perform (op : Operation) (hm : m.WellFormed) (hargs : ∀ f ∈ op.args, m.Valid f)
    (hadm : op.Admissible m.numVars) :
    Ends op.perform m (m.Yields (op.Denotes m)) (fun _ m' => m.Extends m' ∧ m'.WellFormed) := by
  cases op with
  | var v =>
      refine Ends.mono (ends_mkVar v hm) (fun r m' y => y) ?_
      rintro e m' ⟨rfl, -⟩
      exact ⟨.refl _, hm⟩
  | cube literals =>
      exact (returns_cube hm (fun l hl => (hadm.1 l hl).1) (fun l hl => (hadm.1 l hl).2)
        hadm.2).ends fun r m' y => y
  | ite f g h =>
      exact (returns_ite hm (hargs f (by simp [args])) (hargs g (by simp [args]))
        (hargs h (by simp [args]))).ends fun r m' y => y
  | conj f g =>
      exact (returns_conj hm (hargs f (by simp [args])) (hargs g (by simp [args]))).ends
        fun r m' y => y
  | disj f g =>
      exact (returns_disj hm (hargs f (by simp [args])) (hargs g (by simp [args]))).ends
        fun r m' y => y
  | xor f g =>
      exact (returns_xor hm (hargs f (by simp [args])) (hargs g (by simp [args]))).ends
        fun r m' y => y
  | iff f g =>
      exact (returns_iff hm (hargs f (by simp [args])) (hargs g (by simp [args]))).ends
        fun r m' y => y
  | imp f g =>
      exact (returns_imp hm (hargs f (by simp [args])) (hargs g (by simp [args]))).ends
        fun r m' y => y
  | not f => exact ends_pure.mpr (Yields.refl hm (hargs f (by simp [args]))).neg
  | existsVars vars f =>
      refine Ends.mono (ends_existsVars vars hm (hargs f (by simp [args]))) (fun r m' y => y) ?_
      rintro e m' ⟨h, -⟩
      exact ⟨h.extends_, h.wellFormed hm⟩
  | andExists vars f g =>
      refine Ends.mono (ends_andExists vars hm (hargs f (by simp [args]))
        (hargs g (by simp [args]))) (fun r m' y => y) ?_
      rintro e m' ⟨h, -⟩
      exact ⟨h.extends_, h.wellFormed hm⟩
  | rename map f =>
      exact Ends.mono (ends_rename map hm (hargs f (by simp [args]))) (fun r m' y => y)
        (fun e m' h => h.1)

end Operation

/-! ## Histories -/

/-- The managers that come out of a new one by operations on live handles
and by collections, each with the handles that are alive then. -/
inductive History (numVars cacheBits : Nat) : Manager → (Handle → Prop) → Prop
  /-- A new manager has the constants only. -/
  | start {m} (h : new? numVars cacheBits = .ok m) :
      History numVars cacheBits m fun f => f = .one ∨ f = .zero
  /-- The result of an operation comes alive. -/
  | result {m live} (op : Operation) {r m'} (before : History numVars cacheBits m live)
      (hadm : op.Admissible numVars) (hargs : ∀ f ∈ op.args, live f)
      (h : op.perform m = .ok r m') : History numVars cacheBits m' fun f => live f ∨ f = r
  /-- A fault brings nothing alive. -/
  | fault {m live} (op : Operation) {e m'} (before : History numVars cacheBits m live)
      (hadm : op.Admissible numVars) (hargs : ∀ f ∈ op.args, live f)
      (h : op.perform m = .error e m') : History numVars cacheBits m' live
  /-- After a collection, the handles that its roots need stay alive. -/
  | collect {m live} (roots : List Handle) {n m'} (before : History numVars cacheBits m live)
      (h : collectGarbage roots m = .ok n m') : History numVars cacheBits m'
        fun f => live f ∧ (f.isTerminal = true ∨ m.Needed roots f.index)

/-- A well-formed manager over `numVars` variables in which every live
handle is valid. -/
structure Manager.Hosts (m : Manager) (numVars : Nat) (live : Handle → Prop) : Prop where
  wellFormed : m.WellFormed
  numVars_eq : m.numVars = numVars
  valid : ∀ f, live f → m.Valid f

namespace Manager.Hosts

variable {numVars : Nat} {m m' : Manager} {live : Handle → Prop} {op : Operation} {f r : Handle}

theorem ends_perform (h : m.Hosts numVars live) (hadm : op.Admissible numVars)
    (hargs : ∀ f ∈ op.args, live f) :
    Ends op.perform m (m.Yields (op.Denotes m)) (fun _ m' => m.Extends m' ∧ m'.WellFormed) :=
  op.ends_perform h.wellFormed (fun f hf => h.valid f (hargs f hf)) (h.numVars_eq ▸ hadm)

theorem of_extends (h : m.Hosts numVars live) (hext : m.Extends m') (hwf : m'.WellFormed) :
    m'.Hosts numVars live :=
  ⟨hwf, hext.numVars_eq.trans h.numVars_eq, fun f hf => hext.valid (h.valid f hf)⟩

/-- A result comes alive. -/
theorem of_yields {φ : Assignment → Prop} (h : m.Hosts numVars live) (y : m.Yields φ r m') :
    m'.Hosts numVars fun f => live f ∨ f = r := by
  have h' := h.of_extends y.extends_ y.wellFormed
  refine ⟨h'.wellFormed, h'.numVars_eq, fun f hf => ?_⟩
  rcases hf with hf | rfl
  · exact h'.valid f hf
  · exact y.valid

/-- A collection leaves what its roots need alive. -/
theorem of_keeps {roots : List Handle} (h : m.Hosts numVars live) (hkeep : m.Keeps roots m') :
    m'.Hosts numVars fun f => live f ∧ (f.isTerminal = true ∨ m.Needed roots f.index) :=
  ⟨hkeep.wellFormed, hkeep.extends_.numVars_eq.symm.trans h.numVars_eq, fun f hf =>
    hkeep.valid (h.valid f hf.1) (hf.2.imp_left Handle.isTerminal_iff.mp)⟩

end Manager.Hosts

namespace History

variable {numVars cacheBits : Nat} {m : Manager} {live : Handle → Prop} {f g : Handle}

/-- Managers of a history are well formed, and live handles are valid. -/
theorem sound (h : History numVars cacheBits m live) : m.Hosts numVars live := by
  induction h with
  | start h =>
      obtain ⟨hwf, hn⟩ := wellFormed_new? h
      refine ⟨hwf, hn, fun f hf => ?_⟩
      rcases hf with rfl | rfl
      · exact valid_one _
      · exact valid_zero _
  | result op _ hadm hargs h ih => exact ih.of_yields ((ih.ends_perform hadm hargs).of_ok h)
  | fault op _ hadm hargs h ih =>
      obtain ⟨hext, hwf⟩ := (ih.ends_perform hadm hargs).of_error h
      exact ih.of_extends hext hwf
  | collect roots _ h ih => exact ih.of_keeps ((returns_collectGarbage ih.wellFormed roots).of_ok h)

end History

/-! ## Canonicity -/

namespace Manager

variable {m : Manager} {f g : Handle} {i : Nat}

/-- Valid handles are complements of each other exactly when their
functions are. -/
theorem Reduced.eq_neg_iff_eval (hr : m.Reduced) (hf : m.Valid f) (hg : m.Valid g) :
    f = -g ↔ ∀ a, m.eval f a = !m.eval g a := by
  rw [hr.eq_iff_eval hf hg.neg]
  simp only [hr.eval_neg hg]

/-- The first variable of a child that is not a constant lies below. -/
theorem lt_topVar_of_lt_level {x : Handle} {v : Nat} (hlt : v < m.level x)
    (ht : x.isTerminal = false) : v < m.topVar x := by
  simpa [level, ht] using hlt

end Manager

/-- In every manager of a history, each stored node has a variable that
exists and lies above those of its children, two different children, and a
regular high edge, and is stored once. Live handles lead to stored nodes
only, and they are equal, or complements, exactly when their functions are. -/
theorem History.canonical {numVars cacheBits : Nat} {m : Manager} {live : Handle → Prop}
    (h : History numVars cacheBits m live) :
    (∀ i n, m.Stores i n → (1 ≤ n.var ∧ n.var ≤ numVars)
      ∧ (n.low.isTerminal = false → n.var < m.topVar n.low)
      ∧ (n.high.isTerminal = false → n.var < m.topVar n.high)
      ∧ n.low ≠ n.high ∧ n.high.isComplemented = false)
    ∧ (∀ i j n, m.Stores i n → m.Stores j n → i = j)
    ∧ (∀ f, live f → ∀ i, m.Needed [f] i → i = Handle.one.index ∨ ∃ n, m.Stores i n)
    ∧ (∀ f g, live f → live g → (f = g ↔ ∀ a, m.eval f a = m.eval g a)
      ∧ (f = -g ↔ ∀ a, m.eval f a = !m.eval g a)) := by
  obtain ⟨hwf, rfl, hlive⟩ := h.sound
  refine ⟨fun i n hn => ?_, fun i j n hi hj => hwf.table.unique hi hj,
    fun f hf i hi => hwf.stores_of_needed (by simpa using hlive f hf) hi, fun f g hf hg => ?_⟩
  · have hp := hwf.proper hn
    exact ⟨⟨hp.var_pos, hp.var_le⟩, lt_topVar_of_lt_level hp.var_lt_low,
      lt_topVar_of_lt_level hp.var_lt_high, hp.low_ne_high, hp.high_regular⟩
  · exact ⟨hwf.eq_iff_eval (hlive f hf) (hlive g hg),
      hwf.eq_neg_iff_eval (hlive f hf) (hlive g hg)⟩

/-- A history with two variables: one is asked for and kept by a
collection. Its handle is not that of a constant, since its function is
none. -/
theorem History.canonical_of_variable : ∃ m live f, History 2 4 m live ∧ (live f ∧ live .one)
    ∧ (f = .one ↔ ∀ a, m.eval f a = m.eval .one a) ∧ f ≠ .one := by
  obtain ⟨m0, h0⟩ : ∃ m, new? 2 4 = .ok m := ⟨_, rfl⟩
  obtain ⟨hwf, hn⟩ := wellFormed_new? h0
  have hvar : Returns (mkVar 1) m0 (m0.Yields fun a => a 1 = true) :=
    Ends.mono (ends_mkVar 1 hwf) (fun _ _ y => y) fun _ _ hbad => hbad.2 (by omega)
  obtain ⟨f, m1, h1, y⟩ := hvar.exists_ok
  obtain ⟨n, m2, h2, hkeep⟩ := (returns_collectGarbage y.wellFormed [f]).exists_ok
  have hist : History 2 4 m2 _ :=
    .collect [f] (.result (.var 1) (.start h0) trivial (by simp [Operation.args]) h1) h2
  have hf : m1.Needed [f] f.index := .root (by simp)
  refine ⟨m2, _, f, hist, ⟨⟨Or.inr rfl, Or.inr hf⟩, Or.inl (Or.inl rfl), Or.inl rfl⟩, ?_, ?_⟩
  · exact (hist.canonical.2.2.2 f .one ⟨Or.inr rfl, Or.inr hf⟩
      ⟨Or.inl (Or.inl rfl), Or.inl rfl⟩).1
  · rintro rfl
    have := y.eval_iff fun _ => false
    simp at this

end BranchingTime
