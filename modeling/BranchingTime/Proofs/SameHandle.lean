import BranchingTime.Proofs.Canonicity

/-!
# Asking again later

Handles stay comparable over time. `Later` follows a manager through any
further operations, faults and collections, as long as the collections keep
the handles that are looked at; those then mean what they meant
(`Later.sound`). Two computations of one function, asked at different times,
therefore return one handle (`answersAlike_of_yields`), although many
cells may have been freed and taken again in between.

The relational product has a recursion of its own, and still returns the
handle that quantifying the conjunction does, whichever of the two is asked
first. Renaming remembers cells and not handles, and still returns the
complement for the complement.
-/

namespace BranchingTime

open Diagram Manager

/-! ## Later managers -/

/-- The managers that come out of `m₀` by operations on live handles and by
collections that keep the handles in `kept`, each with the handles that are
alive then. -/
inductive Later (numVars : Nat) (kept : Handle → Prop) (m₀ : Manager) (live₀ : Handle → Prop) :
    Manager → (Handle → Prop) → Prop
  | refl : Later numVars kept m₀ live₀ m₀ live₀
  | result {m live} (op : Operation) {r m'} (before : Later numVars kept m₀ live₀ m live)
      (hadm : op.Admissible numVars) (hargs : ∀ f ∈ op.args, live f)
      (h : op.perform m = .ok r m') : Later numVars kept m₀ live₀ m' fun f => live f ∨ f = r
  | fault {m live} (op : Operation) {e m'} (before : Later numVars kept m₀ live₀ m live)
      (hadm : op.Admissible numVars) (hargs : ∀ f ∈ op.args, live f)
      (h : op.perform m = .error e m') : Later numVars kept m₀ live₀ m' live
  | collect {m live} (roots : List Handle) {n m'} (before : Later numVars kept m₀ live₀ m live)
      (hkept : ∀ f, kept f → f.isTerminal = true ∨ m.Needed roots f.index)
      (h : collectGarbage roots m = .ok n m') : Later numVars kept m₀ live₀ m'
        fun f => live f ∧ (f.isTerminal = true ∨ m.Needed roots f.index)

section Later

variable {numVars : Nat} {kept live₀ live : Handle → Prop} {m₀ m : Manager}

/-- Later managers host what is alive, and kept handles mean what they meant. -/
theorem Later.sound (h : Later numVars kept m₀ live₀ m live) (h₀ : m₀.Hosts numVars live₀)
    (hkept : ∀ f, kept f → m₀.Valid f) :
    m.Hosts numVars live ∧ ∀ f, kept f → m.Valid f ∧ ∀ a, m.eval f a = m₀.eval f a := by
  -- what growing does to a kept handle
  have hgrow : ∀ {m m' : Manager}, m.WellFormed → m.Extends m' → m'.WellFormed →
      (∀ f, kept f → m.Valid f ∧ ∀ a, m.eval f a = m₀.eval f a) →
      ∀ f, kept f → m'.Valid f ∧ ∀ a, m'.eval f a = m₀.eval f a := by
    intro m m' hm hext hm' ih f hf
    obtain ⟨hv, heval⟩ := ih f hf
    refine ⟨hext.valid hv, fun a => ?_⟩
    rw [hext.eval_eq hm.toReduced hm'.toReduced hv, heval]
  induction h with
  | refl => exact ⟨h₀, fun f hf => ⟨hkept f hf, fun _ => rfl⟩⟩
  | result op _ hadm hargs hrun ih =>
      obtain ⟨hm, ih⟩ := ih
      have y := (hm.ends_perform hadm hargs).of_ok hrun
      exact ⟨hm.of_yields y, hgrow hm.wellFormed y.extends_ y.wellFormed ih⟩
  | fault op _ hadm hargs hrun ih =>
      obtain ⟨hm, ih⟩ := ih
      obtain ⟨hext, hwf⟩ := (hm.ends_perform hadm hargs).of_error hrun
      exact ⟨hm.of_extends hext hwf, hgrow hm.wellFormed hext hwf ih⟩
  | collect roots _ hneed hrun ih =>
      obtain ⟨hm, ih⟩ := ih
      have hkeep := (returns_collectGarbage hm.wellFormed roots).of_ok hrun
      refine ⟨hm.of_keeps hkeep, fun f hf => ?_⟩
      have hv := hkeep.valid (ih f hf).1 ((hneed f hf).imp_left Handle.isTerminal_iff.mp)
      refine ⟨hv, fun a => ?_⟩
      rw [hkeep.eval_eq hm.wellFormed hv, (ih f hf).2]

/-- Where a later handle denotes the function of a kept one, it is that
handle. -/
theorem Later.eq_of_eval_eq {f r : Handle} (h : Later numVars kept m₀ live₀ m live)
    (h₀ : m₀.Hosts numVars live₀) (hkept : ∀ f, kept f → m₀.Valid f) (hf : kept f)
    (hr : m.Valid r) (heval : ∀ a, m.eval r a = m₀.eval f a) : r = f := by
  obtain ⟨hm, hsame⟩ := h.sound h₀ hkept
  refine (hm.wellFormed.eq_iff_eval hr (hsame f hf).1).mpr fun a => ?_
  rw [heval, (hsame f hf).2]

end Later

/-! ## Computations with one answer -/

/-- Asked of `m`, the computation `x` returns a handle of `φ`; and at any
later time that kept this handle and `args`, the computation `y` returns the
same handle. -/
def AnswersAlike (numVars : Nat) (m : Manager) (live : Handle → Prop) (args : List Handle)
    (φ : Assignment → Prop) (x y : DiagramM Handle) : Prop :=
  ∃ r m₁, x m = .ok r m₁ ∧ m.Yields φ r m₁ ∧
    ∀ m₂ live₂, Later numVars (· ∈ r :: args) m₁ (fun f => live f ∨ f = r) m₂ live₂ →
      ∃ m₃, y m₂ = .ok r m₃

section AnswersAlike

variable {numVars : Nat} {m : Manager} {live : Handle → Prop} {args : List Handle}
  {φ : Assignment → Prop} {x y : DiagramM Handle}

/-- Computations of one function answer alike. -/
theorem answersAlike_of_yields (hm : m.Hosts numVars live) (hargs : ∀ f ∈ args, m.Valid f)
    (hx : Returns x m (m.Yields φ))
    (hy : ∀ m₂, m₂.WellFormed → m₂.numVars = numVars →
      (∀ f ∈ args, m₂.Valid f ∧ ∀ a, m₂.eval f a = m.eval f a) → Returns y m₂ (m₂.Yields φ)) :
    AnswersAlike numVars m live args φ x y := by
  obtain ⟨r, m₁, hrun, y₁⟩ := hx.exists_ok
  refine ⟨r, m₁, hrun, y₁, fun m₂ live₂ hlater => ?_⟩
  have hkept : ∀ f, f ∈ r :: args → m₁.Valid f := by
    intro f hf
    rcases List.mem_cons.mp hf with rfl | hf
    · exact y₁.valid
    · exact y₁.extends_.valid (hargs f hf)
  obtain ⟨hm₂, hsame⟩ := hlater.sound (hm.of_yields y₁) hkept
  obtain ⟨r', m₃, hrun', y₃⟩ := (hy m₂ hm₂.wellFormed hm₂.numVars_eq fun f hf => by
    obtain ⟨hv, heval⟩ := hsame f (List.mem_cons_of_mem r hf)
    exact ⟨hv, fun a => by rw [heval, y₁.old_eval_eq hm.wellFormed (hargs f hf)]⟩).exists_ok
  obtain ⟨hr, heval⟩ := hsame r (List.mem_cons_self ..)
  refine ⟨m₃, ?_⟩
  rw [hrun', (y₃.wellFormed.eq_iff_eval y₃.valid (y₃.extends_.valid hr)).mpr fun a => ?_]
  rw [Bool.eq_iff_iff, y₃.eval_iff, y₃.old_eval_eq hm₂.wellFormed hr, heval, y₁.eval_iff]

end AnswersAlike

/-! ## The relational product -/

namespace Diagram

variable {m : Manager} {f g : Handle} {v : Nat} {vars : List Nat}

theorem returns_mkVar (hm : m.WellFormed) (hv : 1 ≤ v ∧ v ≤ m.numVars) :
    Returns (mkVar v) m (m.Yields fun a => a v = true) :=
  Ends.mono (ends_mkVar v hm) (fun _ _ y => y) fun _ _ hbad => hbad.2 hv

theorem returns_existsVars (hm : m.WellFormed) (hf : m.Valid f)
    (hvars : ∀ v ∈ vars, 1 ≤ v ∧ v ≤ m.numVars) :
    Returns (existsVars vars f) m (m.Yields (m.Possible vars f)) :=
  Ends.mono (ends_existsVars vars hm hf) (fun _ _ y => y) fun _ _ hbad => hbad.2 hvars

theorem returns_andExists (hm : m.WellFormed) (hf : m.Valid f) (hg : m.Valid g)
    (hvars : ∀ v ∈ vars, 1 ≤ v ∧ v ≤ m.numVars) :
    Returns (andExists vars f g) m (m.Yields (PossibleBoth m vars f g)) :=
  Ends.mono (ends_andExists vars hm hf hg) (fun _ _ y => y) fun _ _ hbad => hbad.2 hvars

/-- Quantifying the conjunction. -/
theorem returns_existsVars_conj (hm : m.WellFormed) (hf : m.Valid f) (hg : m.Valid g)
    (hvars : ∀ v ∈ vars, 1 ≤ v ∧ v ≤ m.numVars) :
    Returns (conj f g >>= existsVars vars) m (m.Yields (PossibleBoth m vars f g)) := by
  refine ends_bind.mpr (Ends.imp (returns_conj hm hf hg) fun c m₁ y₁ => ?_)
  refine Ends.imp (returns_existsVars y₁.wellFormed y₁.valid fun v hv => ?_) fun r m₂ y₂ => ?_
  · rw [y₁.extends_.numVars_eq]
    exact hvars v hv
  · exact (y₂.of_extends y₁.extends_).congr fun a => project_congr y₁.eval_iff

end Diagram

/-- In every manager of a history, quantifying a live handle denotes its
projection, and the relational product of two live handles is the handle
that quantifying their conjunction returns, whichever is asked first and
whatever happens in between. The variables may come in any order, any number
of times. -/
theorem History.quantifiers_agree {numVars cacheBits : Nat} {m : Manager} {live : Handle → Prop}
    (hist : History numVars cacheBits m live) {f g : Handle} (hf : live f) (hg : live g)
    {vars : List Nat} (hvars : ∀ v ∈ vars, 1 ≤ v ∧ v ≤ numVars) :
    (∃ r m', existsVars vars f m = .ok r m'
      ∧ m.Yields (Project vars fun b => m.eval f b = true) r m')
    ∧ AnswersAlike numVars m live [f, g]
      (Project vars fun b => m.eval f b = true ∧ m.eval g b = true)
      (conj f g >>= existsVars vars) (andExists vars f g)
    ∧ AnswersAlike numVars m live [f, g]
      (Project vars fun b => m.eval f b = true ∧ m.eval g b = true)
      (andExists vars f g) (conj f g >>= existsVars vars) := by
  have hm := hist.sound
  obtain ⟨hwf, rfl, hlive⟩ := hist.sound
  have hargs : ∀ h ∈ [f, g], m.Valid h := by simpa using ⟨hlive f hf, hlive g hg⟩
  -- at any later time the two denote what they denote now
  have hsame : ∀ {m₂ : Manager}, (∀ h ∈ [f, g], m₂.Valid h ∧ ∀ a, m₂.eval h a = m.eval h a) →
      m₂.Valid f ∧ m₂.Valid g
      ∧ ∀ a, PossibleBoth m₂ vars f g a ↔ PossibleBoth m vars f g a := by
    intro m₂ h
    obtain ⟨vf, ef⟩ := h f (by simp)
    obtain ⟨vg, eg⟩ := h g (by simp)
    exact ⟨vf, vg, fun a => project_congr fun b => by rw [ef, eg]⟩
  refine ⟨(returns_existsVars hwf (hlive f hf) hvars).exists_ok, ?_, ?_⟩
  · refine answersAlike_of_yields hm hargs
      (returns_existsVars_conj hwf (hlive f hf) (hlive g hg) hvars) fun m₂ hwf₂ hn h => ?_
    obtain ⟨vf, vg, hφ⟩ := hsame h
    exact Ends.imp (returns_andExists hwf₂ vf vg (hn ▸ hvars)) fun r m₃ y => y.congr hφ
  · refine answersAlike_of_yields hm hargs
      (returns_andExists hwf (hlive f hf) (hlive g hg) hvars) fun m₂ hwf₂ hn h => ?_
    obtain ⟨vf, vg, hφ⟩ := hsame h
    exact Ends.imp (returns_existsVars_conj hwf₂ vf vg (hn ▸ hvars)) fun r m₃ y => y.congr hφ

/-- A manager with two variables in it. -/
theorem History.exists_variables : ∃ m live f g, History 2 4 m live ∧ (live f ∧ live g)
    ∧ (∀ a, m.eval f a = a 1) ∧ ∀ a, m.eval g a = a 2 := by
  obtain ⟨m0, h0⟩ : ∃ m, new? 2 4 = .ok m := ⟨_, rfl⟩
  obtain ⟨hm0, hn⟩ := wellFormed_new? h0
  obtain ⟨f, m1, h1, y1⟩ := (returns_mkVar (v := 1) hm0 (by omega)).exists_ok
  obtain ⟨g, m2, h2, y2⟩ := (returns_mkVar (v := 2) y1.wellFormed (by
    rw [y1.extends_.numVars_eq]
    omega)).exists_ok
  have hist : History 2 4 m2 _ :=
    .result (.var 2) (.result (.var 1) (.start h0) trivial (by simp [Operation.args]) h1) trivial
      (by simp [Operation.args]) h2
  refine ⟨m2, _, f, g, hist, by simp, fun a => ?_, fun a => ?_⟩
  · rw [y2.old_eval_eq y1.wellFormed y1.valid, y1.eval_eq]
  · rw [y2.eval_eq]

/-- Two variables, of which the second is quantified, twice: the relational
product is the first variable, and so is the quantified conjunction when it
is asked for after that. -/
theorem History.quantifiers_agree_of_variables : ∃ m live f g, History 2 4 m live
    ∧ (live f ∧ live g) ∧ (∀ v ∈ [2, 2], 1 ≤ v ∧ v ≤ 2) ∧ f ≠ g
    ∧ ∃ m₁, andExists [2, 2] f g m = .ok f m₁
      ∧ ∃ m₂, (conj f g >>= existsVars [2, 2]) m₁ = .ok f m₂ := by
  obtain ⟨m, live, f, g, hist, ⟨hf, hg⟩, ef, eg⟩ := exists_variables
  have hvalid := hist.sound.valid f hf
  have hvars : ∀ v ∈ [2, 2], 1 ≤ v ∧ v ≤ 2 := by decide
  obtain ⟨-, -, r, m₁, hrun, y, hlater⟩ := hist.quantifiers_agree hf hg hvars
  -- the second variable can always be chosen true
  obtain rfl : r = f := by
    refine (y.wellFormed.eq_iff_eval y.valid (y.extends_.valid hvalid)).mpr fun a => ?_
    rw [Bool.eq_iff_iff, y.eval_iff, y.old_eval_eq hist.sound.wellFormed hvalid, ef]
    constructor
    · rintro ⟨b, hb, hfb, -⟩
      rwa [ef, hb 1 (by decide)] at hfb
    · intro ha
      refine ⟨Function.update a 2 true, fun v hv => ?_, ?_, ?_⟩
      · exact Function.update_of_ne (by simpa using hv) ..
      · rwa [ef, Function.update_of_ne (by decide)]
      · rw [eg, Function.update_self]
  refine ⟨m, live, r, g, hist, ⟨hf, hg⟩, hvars, ?_, m₁, hrun, hlater m₁ _ .refl⟩
  rintro rfl
  have h12 := eg fun v => v == 1
  rw [ef] at h12
  simp at h12

/-! ## Renaming -/

theorem Diagram.returns_rename {m : Manager} {f : Handle} {map : VarMap} (hm : m.WellFormed)
    (hf : m.Valid f) (hmap : m.Places map f) :
    Returns (rename map f) m (m.Yields fun a => m.eval f (a.through map) = true) :=
  Ends.mono (ends_rename map hm hf) (fun _ _ y => y) fun _ _ hbad => hbad.2 hmap

theorem Diagram.returns_neg {m : Manager} {x : DiagramM Handle} {φ : Assignment → Prop}
    (h : Returns x m (m.Yields φ)) :
    Returns (Neg.neg <$> x) m (m.Yields fun a => ¬ φ a) := by
  rw [map_eq_pure_bind]
  exact ends_bind.mpr (Ends.imp h fun r m' y => ends_pure.mpr y.neg)

/-- In every manager of a history, renaming a live handle by any map that
sends its variables to variables that exist denotes simultaneous
substitution, and renaming the complement returns the complement, whichever
is asked first and whatever happens in between. -/
theorem History.rename_exact {numVars cacheBits : Nat} {m : Manager} {live : Handle → Prop}
    (hist : History numVars cacheBits m live) {f : Handle} (hf : live f) {map : VarMap}
    (hmap : ∀ v, m.Occurs f v → 1 ≤ map.getD v v ∧ map.getD v v ≤ numVars) :
    AnswersAlike numVars m live [f] (fun a => m.eval f (fun v => a (map.getD v v)) = true)
      (rename map f) (Neg.neg <$> rename map (-f))
    ∧ AnswersAlike numVars m live [f] (fun a => ¬ m.eval f (fun v => a (map.getD v v)) = true)
      (rename map (-f)) (Neg.neg <$> rename map f) := by
  have hm := hist.sound
  obtain ⟨hwf, rfl, hlive⟩ := hist.sound
  have hargs : ∀ h ∈ [f], m.Valid h := by simpa using hlive f hf
  -- both signs denote what they are to denote, now and at any later time
  have hreturns : ∀ m₂ : Manager, m₂.WellFormed → m₂.numVars = m.numVars →
      (∀ h ∈ [f], m₂.Valid h ∧ ∀ a, m₂.eval h a = m.eval h a) →
      Returns (rename map f) m₂ (m₂.Yields fun a => m.eval f (a.through map) = true)
      ∧ Returns (rename map (-f)) m₂ (m₂.Yields fun a => ¬ m.eval f (a.through map) = true) := by
    intro m₂ hwf₂ hn h
    obtain ⟨hv, heval⟩ := h f (List.mem_singleton_self f)
    have hplaces : m₂.Places map f :=
      Places.congr hmap hwf.toReduced hwf₂.toReduced hn (hlive f hf) hv heval
    constructor
    · refine Ends.imp (returns_rename hwf₂ hv hplaces) fun r m₃ y => y.congr fun a => ?_
      rw [heval]
    · refine Ends.imp (returns_rename hwf₂ hv.neg fun v ho => hplaces v ?_)
        fun r m₃ y => y.congr fun a => ?_
      · exact Handle.neg_neg f ▸ ho.neg
      · rw [hwf₂.eval_neg hv, heval]
        simp
  have hnow := hreturns m hwf rfl fun h hh => ⟨hargs h hh, fun _ => rfl⟩
  refine ⟨answersAlike_of_yields hm hargs hnow.1 fun m₂ hwf₂ hn h => ?_,
    answersAlike_of_yields hm hargs hnow.2 fun m₂ hwf₂ hn h => ?_⟩
  · exact Ends.imp (returns_neg (hreturns m₂ hwf₂ hn h).2) fun r m₃ y =>
      y.congr fun a => not_not
  · exact returns_neg (hreturns m₂ hwf₂ hn h).1

/-- Two variables that change places, in "the first and not the second": the
result is "the second and not the first", and the complement gives the
complement. -/
theorem History.rename_exact_of_swap : ∃ m live f, ∃ map : VarMap, History 2 4 m live ∧ live f
    ∧ (∀ v, m.Occurs f v → 1 ≤ map.getD v v ∧ map.getD v v ≤ 2)
    ∧ (∀ a, m.eval f a = (a 1 && !a 2))
    ∧ ∃ r m₁, rename map f m = .ok r m₁ ∧ (∀ a, m₁.eval r a = (a 2 && !a 1))
      ∧ ∃ m₂, (Neg.neg <$> rename map (-f)) m₁ = .ok r m₂ := by
  obtain ⟨m0, h0⟩ : ∃ m, new? 2 4 = .ok m := ⟨_, rfl⟩
  obtain ⟨hm0, hn⟩ := wellFormed_new? h0
  have hadm : (Operation.cube [1, -2]).Admissible 2 := by
    unfold Operation.Admissible
    decide
  obtain ⟨f, m1, h1, y1⟩ := (returns_cube hm0 (fun l hl => (hadm.1 l hl).1)
    (fun l hl => hn ▸ (hadm.1 l hl).2) hadm.2).exists_ok
  have hist : History 2 4 m1 _ :=
    .result (.cube [1, -2]) (.start h0) hadm (by simp [Operation.args]) h1
  have ef : ∀ a, m1.eval f a = (a 1 && !a 2) := fun a => by
    rw [Bool.eq_iff_iff, y1.eval_iff]
    simp [Assignment.satisfies]
  let map : VarMap := (∅ : VarMap).insert 1 2 |>.insert 2 1
  have hmap : ∀ v, m1.Occurs f v → 1 ≤ map.getD v v ∧ map.getD v v ≤ 2 := by
    intro v hv
    have hrange := hist.sound.wellFormed.occurs_range hv
    rw [hist.sound.numVars_eq] at hrange
    simp only [map, Std.HashMap.getD_insert, Std.HashMap.getD_empty]
    split_ifs <;> omega
  obtain ⟨⟨r, m2, hrun, y2, hlater⟩, -⟩ := hist.rename_exact (Or.inr rfl) hmap
  refine ⟨m1, _, f, map, hist, Or.inr rfl, hmap, ef, r, m2, hrun, fun a => ?_,
    hlater m2 _ .refl⟩
  rw [y2.eval_eq, ef]
  simp [map, Std.HashMap.getD_insert]

end BranchingTime
