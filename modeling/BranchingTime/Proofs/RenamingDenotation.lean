import BranchingTime.Diagram.Substitution
import BranchingTime.Proofs.IteDenotation
import BranchingTime.Proofs.Occurrence

/-!
# Renaming denotes composition

A renamed diagram is true of an assignment exactly when the diagram is
true of the assignment read through the map (`Assignment.through`). The
results are remembered for cells, not for handles, so the memo speaks of
the stored functions and the sign is put on afterwards.

A map may send a variable out of range. If that variable occurs in the
diagram, renaming faults half way; the manager has grown by that time, but
is still well formed. Variables that do not occur may go anywhere.
-/

namespace BranchingTime

/-- The assignment that gives a variable the value of the one that takes
its place. -/
def Assignment.through (map : VarMap) (a : Assignment) : Assignment :=
  fun v => a (map.getD v v)

/-- The map keeps the variables `1` to `n` in range. -/
def VarMap.Within (map : VarMap) (n : Nat) : Prop :=
  ∀ v, 1 ≤ v → v ≤ n → 1 ≤ map.getD v v ∧ map.getD v v ≤ n

/-- The map sends the variables that occur in `f` to variables that exist. -/
def Manager.Places (m : Manager) (map : VarMap) (f : Handle) : Prop :=
  ∀ v, m.Occurs f v → 1 ≤ map.getD v v ∧ map.getD v v ≤ m.numVars

section Places

variable {m m' : Manager} {f g : Handle} {map : VarMap}

theorem VarMap.Within.places (h : map.Within m.numVars) (hr : m.Reduced) : m.Places map f :=
  fun v hv => h v (hr.occurs_range hv).1 (hr.occurs_range hv).2

theorem Manager.Places.of_child {n : Node} (h : m.Places map f) (hr : m.Reduced)
    (hn : m.Stores f.index n) (hg : g = n.low ∨ g = n.high) : m.Places map g := by
  intro v hv
  refine h v ((hr.occurs_stores hn).mpr (Or.inr ?_))
  rcases hg with rfl | rfl
  · exact Or.inl hv
  · exact Or.inr hv

theorem Manager.Places.congr (h : m.Places map f) (hr : m.Reduced) (hr' : m'.Reduced)
    (hn : m'.numVars = m.numVars) (hf : m.Valid f) (hf' : m'.Valid f)
    (heval : ∀ a, m'.eval f a = m.eval f a) : m'.Places map f := by
  intro v hv
  rw [hn]
  exact h v ((occurs_congr hr hr' hf hf' heval).mp hv)

theorem Manager.Places.mono (h : m.Places map f) (hext : m.Extends m') (hm : m.WellFormed)
    (hm' : m'.WellFormed) (hf : m.Valid f) : m'.Places map f :=
  h.congr hm.toReduced hm'.toReduced hext.numVars_eq hf (hext.valid hf)
    (hext.eval_eq hm.toReduced hm'.toReduced hf)

end Places

namespace Diagram

open Manager

variable {m m' : Manager} {f r : Handle} {map : VarMap}

/-- `r` is what renaming the function stored in cell `i` gives. -/
structure Renames (m : Manager) (map : VarMap) (i : Nat) (r : Handle) : Prop where
  valid : m.Valid (.ofIndex i)
  result_valid : m.Valid r
  eval_eq : ∀ a, m.eval r a = m.eval (.ofIndex i) (a.through map)

theorem Renames.mono {i : Nat} (hq : Renames m map i r) (h : m.Extends m') (hr : m.Reduced)
    (hr' : m'.Reduced) : Renames m' map i r where
  valid := h.valid hq.valid
  result_valid := h.valid hq.result_valid
  eval_eq a := by rw [h.eval_eq hr hr' hq.result_valid, h.eval_eq hr hr' hq.valid, hq.eval_eq]

/-- A remembered cell answers for both signs. -/
theorem Renames.yields (hm : m.WellFormed) (hq : Renames m map f.index r) :
    m.Yields (fun a => m.eval f (a.through map) = true) (r.complementIf f.isComplemented) m := by
  refine (Yields.refl hm (hq.result_valid.complementIf _)).congr fun a => ?_
  rw [hm.eval_complementIf hq.result_valid, hq.eval_eq, ← hm.eval_complementIf hq.valid,
    Handle.complementIf_ofIndex]

/-- The memo of a renaming holds right results. -/
abbrev Renamed (m : Manager) (map : VarMap) : Std.HashMap Nat Handle → Prop :=
  MemoHolds (Renames m map)

theorem Renamed.mono {memo : Std.HashMap Nat Handle} (hq : Renamed m map memo)
    (h : m.Extends m') (hm : m.WellFormed) (hm' : m'.WellFormed) : Renamed m' map memo :=
  MemoHolds.imp hq fun _ _ hr => hr.mono h hm.toReduced hm'.toReduced

/-- Some variable of `f` goes out of range; the manager is still well formed. -/
def RenameFaults (m : Manager) (map : VarMap) (f : Handle) (m' : Manager) : Prop :=
  (m.Extends m' ∧ m'.WellFormed) ∧ ¬ m.Places map f

/-- The last step of a renaming: choosing by the new variable. -/
theorem renames_of_ite {m1 : Manager} {i : Nat} {n : Node} {x t e : Handle} (hr : m.Reduced)
    (hn : m.Stores i n) (hext : m.Extends m1)
    (hx : ∀ a, m1.eval x a = true ↔ a (map.getD n.var n.var) = true)
    (ht : ∀ a, m1.eval t a = true ↔ m.eval n.high (a.through map) = true)
    (he : ∀ a, m1.eval e a = true ↔ m.eval n.low (a.through map) = true)
    (y : m1.Yields (fun a => m1.iteEval x t e a = true) r m') : Renames m' map i r := by
  have hext' := hext.trans y.extends_
  have hv : m.Valid (.ofIndex i) := Or.inr ⟨n, by rwa [Handle.index_ofIndex]⟩
  refine ⟨hext'.valid hv, y.valid, fun a => ?_⟩
  rw [y.eval_eq, hext'.eval_eq hr y.wellFormed.toReduced hv, hr.eval_ofIndex hn, iteEval,
    Bool.eq_iff_iff.mpr (hx a), Bool.eq_iff_iff.mpr (ht a), Bool.eq_iff_iff.mpr (he a)]
  rfl

theorem ends_renameWithin (map : VarMap) (depth : Nat) {m : Manager} {f : Handle}
    {memo : Std.HashMap Nat Handle} (hm : m.WellFormed) (hf : m.Valid f)
    (hmemo : Renamed m map memo) (hdepth : m.numVars + 1 < depth + m.level f) :
    Ends (StateT.run (renameWithin map depth f) memo) m
      (fun p m' => m.Yields (fun a => m.eval f (a.through map) = true) p.1 m'
        ∧ Renamed m' map p.2)
      (fun _ m' => RenameFaults m map f m') := by
  induction depth generalizing m f memo with
  | zero =>
      have := hm.level_le hf
      omega
  | succ depth ih =>
      rw [renameWithin]
      cases ht : f.isTerminal with
      | true =>
          refine ends_pure.mpr ⟨(Yields.refl hm hf).congr fun a => ?_, hmemo⟩
          rw [eval_of_terminal ht, eval_of_terminal ht]
      | false =>
          simp only [Bool.false_eq_true, if_false, StateT.run_bind, StateT.run_get, ends_bind,
            ends_pure]
          cases hfound : memo[f.index]? with
          | some r =>
              exact ends_pure.mpr ⟨(hmemo _ r hfound).yields hm, hmemo⟩
          | none =>
              obtain ⟨n, hn⟩ := hf.stores ht
              have hp := hm.proper hn
              have hlevel := hm.level_of_stores hn
              have := hp.var_lt_low
              have := hp.var_lt_high
              simp only [getThe, StateT.run_bind, ends_bind, ends_run_get, hm.node_eq hn]
              refine Ends.mono (ih hm hp.low_valid hmemo (by omega)) ?_
                (fun _ _ h => ⟨h.1, fun hw => h.2 (hw.of_child hm.toReduced hn (Or.inl rfl))⟩)
              rintro ⟨e, memo1⟩ m1 ⟨y1, hmemo1⟩
              have ext1 := y1.extends_
              refine Ends.mono (ih y1.wellFormed (ext1.valid hp.high_valid) hmemo1 (by
                rw [ext1.numVars_eq, ext1.level_eq hm.toReduced hp.high_valid]
                omega)) ?_ (fun _ _ h => ⟨⟨ext1.trans h.1.1, h.1.2⟩, fun hw => h.2
                  ((hw.of_child hm.toReduced hn (Or.inr rfl)).mono ext1 hm y1.wellFormed
                    hp.high_valid)⟩)
              rintro ⟨t, memo2⟩ m2 ⟨y2, hmemo2⟩
              have ext2 := ext1.trans y2.extends_
              simp only [StateT.run_pure, StateT.run_modify, ends_run_lift, ends_pure]
              refine Ends.mono (ends_mkVar _ y2.wellFormed) ?_ ?_
              · intro x m3 y3
                have ext3 := ext2.trans y3.extends_
                refine (returns_ite y3.wellFormed y3.valid (y3.extends_.valid y2.valid)
                  (y3.extends_.valid (y2.extends_.valid y1.valid))).ends fun r m4 y4 => ?_
                have hr : Renames m4 map f.index r := by
                  refine renames_of_ite hm.toReduced hn ext3 y3.eval_iff (fun a => ?_)
                    (fun a => ?_) y4
                  · rw [y3.old_eval_eq y2.wellFormed y2.valid, y2.eval_iff,
                      y1.old_eval_eq hm hp.high_valid]
                  · rw [y3.old_eval_eq y2.wellFormed (y2.extends_.valid y1.valid),
                      y2.old_eval_eq y1.wellFormed y1.valid, y1.eval_iff]
                have ext4 := ext3.trans y4.extends_
                refine ⟨((hr.yields y4.wellFormed).of_extends ext4).congr fun a => ?_, ?_⟩
                · rw [ext4.eval_eq hm.toReduced y4.wellFormed.toReduced hf]
                · refine MemoHolds.insert (Renamed.mono hmemo2 ?_ y2.wellFormed y4.wellFormed) hr
                  exact y3.extends_.trans y4.extends_
              · rintro e' m3 ⟨rfl, hbad⟩
                refine ⟨⟨ext2, y2.wellFormed⟩, fun hw => hbad ?_⟩
                rw [ext2.numVars_eq]
                exact hw n.var ((hm.occurs_stores hn).mpr (Or.inl rfl))

/-- `rename` denotes the function read through the map, and faults only
when the map sends some variable of `f` out of range. -/
theorem ends_rename (map : VarMap) (hm : m.WellFormed) (hf : m.Valid f) :
    Ends (rename map f) m (m.Yields fun a => m.eval f (a.through map) = true)
      (fun _ m' => RenameFaults m map f m') := by
  unfold rename
  simp only [ends_bind, ends_record, ends_get]
  have hlike := m.alike_journal (m.journal.push (.substituting f map.size))
  generalize { m with journal := m.journal.push (.substituting f map.size) } = m1 at hlike
  have hwf := hlike.wellFormed hm
  have hf1 := hlike.extends_.valid hf
  have hdepth : m1.numVars + 1 < m1.depthBound + m1.level f := by
    have := hwf.level_pos hf1
    unfold depthBound
    omega
  refine Ends.mono (ends_renameWithin map _ hwf hf1 .empty hdepth) (fun p m' y => ?_)
    (fun _ _ h => ⟨⟨hlike.extends_.trans h.1.1, h.1.2⟩, fun hw => h.2
      (hw.mono hlike.extends_ hm hwf hf)⟩)
  refine ends_pure.mpr ((y.1.of_extends hlike.extends_).congr fun a => ?_)
  rw [hlike.extends_.eval_eq hm.toReduced hwf.toReduced hf]

end Diagram

end BranchingTime
