import BranchingTime.Proofs.Canonicity

/-!
# The connectives after any history

Whatever was asked of a manager before, and whatever its cache happens to
hold or to have forgotten by then, if-then-else and the connectives return
what they are to denote. Diagrams of before mean what they meant, and all
that the cache remembers afterwards is right, so the next call is as good
as this one.
-/

namespace BranchingTime

open Diagram Manager

/-- `r` denotes `φ` in `m'`, where the diagrams of `m` mean what they meant
and everything remembered is right. -/
structure Manager.Delivers (m : Manager) (φ : Assignment → Bool) (r : Handle) (m' : Manager) :
    Prop where
  valid : m'.Valid r
  eval_eq : ∀ a, m'.eval r a = φ a
  keeps : ∀ x, m.Valid x → m'.Valid x ∧ ∀ a, m'.eval x a = m.eval x a
  cache : ∀ k r, some (k, r) ∈ m'.cache.slots → m'.Remembers k r

/-- An operation that yields a function delivers it. -/
theorem Manager.WellFormed.exists_delivers {m : Manager} {x : DiagramM Handle}
    {φ : Assignment → Prop} {value : Assignment → Bool} (hm : m.WellFormed)
    (h : Returns x m (m.Yields φ)) (hφ : ∀ a, φ a ↔ value a = true) :
    ∃ r m', x m = .ok r m' ∧ m.Delivers value r m' := by
  obtain ⟨r, m', hrun, y⟩ := h.exists_ok
  refine ⟨r, m', hrun, y.valid, fun a => (y.congr hφ).eval_eq a, fun x hx => ?_, fun k r hk => ?_⟩
  · exact ⟨y.extends_.valid hx, y.old_eval_eq hm hx⟩
  · exact y.wellFormed.cache hk

/-- In every manager of a history, live handles are valid, and on valid
handles if-then-else and the connectives return the handle of what they
denote. -/
theorem History.connectives_correct {numVars cacheBits : Nat} {m : Manager}
    {live : Handle → Prop} (hist : History numVars cacheBits m live) :
    (∀ x, live x → m.Valid x) ∧ ∀ f g h, m.Valid f → m.Valid g → m.Valid h →
      (∃ r m', Diagram.ite f g h m = .ok r m'
        ∧ m.Delivers (fun a => if m.eval f a then m.eval g a else m.eval h a) r m')
      ∧ (∃ r m', conj f g m = .ok r m' ∧ m.Delivers (fun a => m.eval f a && m.eval g a) r m')
      ∧ (∃ r m', disj f g m = .ok r m' ∧ m.Delivers (fun a => m.eval f a || m.eval g a) r m')
      ∧ (∃ r m', xor f g m = .ok r m' ∧ m.Delivers (fun a => m.eval f a ^^ m.eval g a) r m')
      ∧ (∃ r m', iff f g m = .ok r m' ∧ m.Delivers (fun a => m.eval f a == m.eval g a) r m')
      ∧ (∃ r m', imp f g m = .ok r m'
        ∧ m.Delivers (fun a => !m.eval f a || m.eval g a) r m') := by
  obtain ⟨hm, -, hlive⟩ := hist.sound
  refine ⟨hlive, fun f g h hf hg hh => ⟨?_, ?_, ?_, ?_, ?_, ?_⟩⟩
  · exact hm.exists_delivers (returns_ite hm hf hg hh) fun a => Iff.rfl
  · exact hm.exists_delivers (returns_conj hm hf hg) fun a => by simp
  · exact hm.exists_delivers (returns_disj hm hf hg) fun a => by simp
  · exact hm.exists_delivers (returns_xor hm hf hg) fun a => Iff.rfl
  · exact hm.exists_delivers (returns_iff hm hf hg) fun a => by simp
  · exact hm.exists_delivers (returns_imp hm hf hg) fun a => by
      cases m.eval f a <;> simp

/-- A history in which a conjunction was asked for already: asked again,
with its result in the cache, it denotes the conjunction, and so does its
first result. -/
theorem History.connectives_correct_again : ∃ m live f g r, History 2 4 m live
    ∧ (live f ∧ live g ∧ live r)
    ∧ ∃ r' m', conj f g m = .ok r' m' ∧ m.Delivers (fun a => m.eval f a && m.eval g a) r' m'
      ∧ ∀ a, m'.eval r a = (a 1 && a 2) ∧ m'.eval r' a = (a 1 && a 2) := by
  obtain ⟨m0, h0⟩ : ∃ m, new? 2 4 = .ok m := ⟨_, rfl⟩
  obtain ⟨hm0, hn⟩ := wellFormed_new? h0
  have hvar : ∀ {m : Manager} (v : Nat), m.WellFormed → 1 ≤ v ∧ v ≤ m.numVars →
      Returns (mkVar v) m (m.Yields fun a => a v = true) := fun v hm hv =>
    Ends.mono (ends_mkVar v hm) (fun _ _ y => y) fun _ _ hbad => hbad.2 hv
  obtain ⟨f, m1, h1, y1⟩ := (hvar 1 hm0 (by omega)).exists_ok
  obtain ⟨g, m2, h2, y2⟩ := (hvar 2 y1.wellFormed (by
    rw [y1.extends_.numVars_eq]
    omega)).exists_ok
  have hf := y2.extends_.valid y1.valid
  obtain ⟨r, m3, h3, y3⟩ := (returns_conj y2.wellFormed hf y2.valid).exists_ok
  have hist : History 2 4 m3 _ :=
    .result (.conj f g) (.result (.var 2) (.result (.var 1) (.start h0) trivial
      (by simp [Operation.args]) h1) trivial (by simp [Operation.args]) h2) trivial
      (by simp [Operation.args]) h3
  have hr : ∀ a, m3.eval r a = (a 1 && a 2) := by
    intro a
    rw [Bool.eq_iff_iff, y3.eval_iff, y2.old_eval_eq y1.wellFormed y1.valid, y1.eval_iff,
      y2.eval_iff]
    simp
  obtain ⟨hlive, hall⟩ := hist.connectives_correct
  obtain ⟨-, ⟨r', m', hrun, hd⟩, -⟩ := hall f g .one (y3.extends_.valid hf)
    (y3.extends_.valid y2.valid) m3.valid_one
  refine ⟨m3, _, f, g, r, hist, by simp, r', m', hrun, hd, fun a => ⟨?_, ?_⟩⟩
  · rw [(hd.keeps r y3.valid).2, hr]
  · rw [hd.eval_eq, y3.old_eval_eq y2.wellFormed hf, y3.old_eval_eq y2.wellFormed y2.valid,
      Bool.eq_iff_iff, Bool.and_eq_true, y2.old_eval_eq y1.wellFormed y1.valid, y1.eval_iff,
      y2.eval_iff]
    simp

end BranchingTime
