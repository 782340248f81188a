import BranchingTime.Diagram.Quantifier
import BranchingTime.Proofs.IteDenotation

/-!
# Quantification denotes projection

`Project vars p` is the projection of a set of assignments along some
variables. Quantification goes down a diagram level by level, and at each
level projection does one of three things: it does not reach that far
(`project_iff_of_agree`), it joins the two halves (`project_split`), or it
passes through to the half that is chosen (`project_choice`).

Each operation remembers what it found; the memo invariants `Quantified`
and `Conjoined` say that it is right.
-/

namespace BranchingTime

/-! ## Projection -/

/-- `p` holds for some values of `vars`. -/
def Project (vars : List Nat) (p : Assignment → Prop) (a : Assignment) : Prop :=
  ∃ b : Assignment, (∀ v, v ∉ vars → b v = a v) ∧ p b

section Project

variable {vars : List Nat} {p q r : Assignment → Prop} {a : Assignment} {v : Nat}

theorem project_congr (h : ∀ a, p a ↔ q a) : Project vars p a ↔ Project vars q a :=
  exists_congr fun b => and_congr_right fun _ => h b

/-- What the values of `vars` do not change, projection does not either. -/
theorem project_iff_of_agree (h : ∀ b, (∀ v, v ∉ vars → b v = a v) → (p b ↔ p a)) :
    Project vars p a ↔ p a := by
  constructor
  · rintro ⟨b, hb, hp⟩
    exact (h b hb).mp hp
  · intro hp
    exact ⟨a, fun _ _ => rfl, hp⟩

/-- Projection keeps independence of a variable. -/
theorem project_update {w : Nat} {x : Bool}
    (h : ∀ a b, p (Function.update a w b) ↔ p a) :
    Project vars p (Function.update a w x) ↔ Project vars p a := by
  have hone : ∀ {a : Assignment} {x : Bool}, Project vars p (Function.update a w x) →
      Project vars p a := by
    rintro a x ⟨b, hb, hp⟩
    refine ⟨Function.update b w (a w), fun v hv => ?_, (h b _).mpr hp⟩
    by_cases hw : v = w
    · subst hw
      exact Function.update_self ..
    · rw [Function.update_of_ne hw, hb v hv, Function.update_of_ne hw]
  refine ⟨hone, fun hp => hone (x := a w) ?_⟩
  rwa [Function.update_idem, Function.update_eq_self]

/-- A quantified choice is possible when one of its sides is. -/
theorem project_split (hv : v ∈ vars) (h : ∀ a, p a ↔ if a v then q a else r a)
    (hq : ∀ a b, q (Function.update a v b) ↔ q a) (hr : ∀ a b, r (Function.update a v b) ↔ r a) :
    Project vars p a ↔ Project vars r a ∨ Project vars q a := by
  have hagree : ∀ {b : Assignment} {x : Bool}, (∀ v, v ∉ vars → b v = a v) →
      ∀ w, w ∉ vars → Function.update b v x w = a w := by
    intro b x hb w hw
    have hne : w ≠ v := by
      rintro rfl
      exact hw hv
    rw [Function.update_of_ne hne, hb w hw]
  constructor
  · rintro ⟨b, hb, hp⟩
    rw [h] at hp
    split at hp
    · exact Or.inr ⟨b, hb, hp⟩
    · exact Or.inl ⟨b, hb, hp⟩
  · rintro (⟨b, hb, hp⟩ | ⟨b, hb, hp⟩)
    · refine ⟨Function.update b v false, hagree hb, (h _).mpr ?_⟩
      rw [if_neg (by simp)]
      exact (hr b false).mpr hp
    · refine ⟨Function.update b v true, hagree hb, (h _).mpr ?_⟩
      rw [if_pos (by simp)]
      exact (hq b true).mpr hp

/-- A choice that is not quantified stays a choice. -/
theorem project_choice (hv : v ∉ vars) (h : ∀ a, p a ↔ if a v then q a else r a) :
    Project vars p a ↔ if a v then Project vars q a else Project vars r a := by
  cases ha : a v with
  | true =>
      rw [if_pos rfl]
      refine exists_congr fun b => and_congr_right fun hb => ?_
      rw [h, hb v hv, ha, if_pos rfl]
  | false =>
      rw [if_neg (by simp)]
      refine exists_congr fun b => and_congr_right fun hb => ?_
      rw [h, hb v hv, ha, if_neg (by simp)]

end Project

/-! ## Bounds -/

namespace Bound

variable {vars : List Nat} {v : Nat}

theorem contains_ofList : (ofList vars).contains v = true ↔ v ∈ vars := by
  simp [contains, ofList, Std.HashSet.contains_ofList]

theorem le_foldl_max (l : List Nat) (x : Nat) : x ≤ l.foldl max x ∧ ∀ v ∈ l, v ≤ l.foldl max x := by
  induction l generalizing x with
  | nil => exact ⟨Nat.le_refl _, fun v hv => by cases hv⟩
  | cons y l ih =>
      obtain ⟨hx, hl⟩ := ih (max x y)
      rw [List.foldl_cons]
      refine ⟨by omega, fun v hv => ?_⟩
      rcases List.mem_cons.mp hv with rfl | hv
      · omega
      · exact hl v hv

theorem le_last (hv : v ∈ vars) : v ≤ (ofList vars).last := (le_foldl_max vars 0).2 v hv

end Bound

namespace Manager

variable {m m' : Manager} {f g : Handle} {vars : List Nat} {a : Assignment} {v : Nat}

/-- The set of assignments that make `f` true for some values of `vars`. -/
abbrev Possible (m : Manager) (vars : List Nat) (f : Handle) : Assignment → Prop :=
  Project vars fun a => m.eval f a = true

theorem Extends.possible_iff (h : m.Extends m') (hr : m.Reduced) (hr' : m'.Reduced)
    (hf : m.Valid f) : m'.Possible vars f a ↔ m.Possible vars f a :=
  project_congr fun a => by rw [h.eval_eq hr hr' hf]

/-- Below the last quantified variable nothing is quantified. -/
theorem Reduced.possible_of_last_lt (hr : m.Reduced) (hf : m.Valid f)
    (h : (Bound.ofList vars).last < m.level f) :
    m.Possible vars f a ↔ m.eval f a = true := by
  refine project_iff_of_agree fun b hb => ?_
  rw [hr.eval_congr hf fun v hv => hb v fun hmem => ?_]
  have := Bound.le_last hmem
  omega

end Manager

namespace Diagram

open Manager

variable {m m' : Manager} {f g r : Handle} {vars : List Nat}

/-! ## Joining the halves of a level -/

section Join

variable {p q s : Assignment → Prop} {e t : Handle} {v : Nat}

/-- A choice between `q` and `s` at `v`, where neither depends on `v` or on
a variable above it. -/
structure ChoiceAt (v : Nat) (p q s : Assignment → Prop) : Prop where
  iff_ite : ∀ a, p a ↔ if a v then q a else s a
  high_update : ∀ w < v + 1, ∀ a b, q (Function.update a w b) ↔ q a
  low_update : ∀ w < v + 1, ∀ a b, s (Function.update a w b) ↔ s a

/-- At a quantified level, the halves are joined by disjunction. -/
theorem returns_join_disj (hm : m.WellFormed) (hc : ChoiceAt v p q s) (hv : v ∈ vars)
    (he : m.Valid e) (ht : m.Valid t) (hee : ∀ a, m.eval e a = true ↔ Project vars s a)
    (hte : ∀ a, m.eval t a = true ↔ Project vars q a) :
    Returns (disj e t) m (m.Yields (Project vars p)) := by
  refine Ends.imp (returns_disj hm he ht) (fun r m' y => y.congr fun a => ?_)
  rw [hee, hte, project_split hv hc.iff_ite (hc.high_update v (by omega))
    (hc.low_update v (by omega))]

/-- At a quantified level, one half may be enough. -/
theorem yields_join_one (hm : m.WellFormed) (hc : ChoiceAt v p q s) (hv : v ∈ vars)
    (hee : ∀ a, Project vars s a) : m.Yields (Project vars p) .one m := by
  refine (Yields.refl hm m.valid_one).congr fun a => ?_
  rw [project_split hv hc.iff_ite (hc.high_update v (by omega)) (hc.low_update v (by omega))]
  simp [hee a]

/-- At any other level, they are put under a node. -/
theorem returns_join_mkNode (hm : m.WellFormed) (hc : ChoiceAt v p q s) (hv : v ∉ vars)
    (hpos : 1 ≤ v) (hle : v ≤ m.numVars) (he : m.Valid e) (ht : m.Valid t)
    (hee : ∀ a, m.eval e a = true ↔ Project vars s a)
    (hte : ∀ a, m.eval t a = true ↔ Project vars q a) :
    Returns (mkNode v e t) m (m.Yields (Project vars p)) := by
  have hlevel : ∀ {x : Handle} {u : Assignment → Prop}, m.Valid x →
      (∀ a, m.eval x a = true ↔ Project vars u a) →
      (∀ w < v + 1, ∀ a b, u (Function.update a w b) ↔ u a) → v + 1 ≤ m.level x := by
    intro x u hx hxu hu
    refine hm.le_level_of_forall_update hx (by omega) fun w hw a b => ?_
    rw [Bool.eq_iff_iff, hxu, hxu, project_update (hu w hw)]
  refine Ends.imp (returns_mkNode hm hpos hle he ht (hlevel he hee hc.low_update)
    (hlevel ht hte hc.high_update)) (fun r m' y => y.congr fun a => ?_)
  rw [project_choice hv hc.iff_ite, ← hee, ← hte]
  split <;> rfl

/-- The two ways to join, as the quantifiers choose between them. -/
theorem returns_join (vars : List Nat) (hm : m.WellFormed) (hc : ChoiceAt v p q s) (hpos : 1 ≤ v)
    (hle : v ≤ m.numVars) (he : m.Valid e) (ht : m.Valid t)
    (hee : ∀ a, m.eval e a = true ↔ Project vars s a)
    (hte : ∀ a, m.eval t a = true ↔ Project vars q a) :
    Returns (if (Bound.ofList vars).contains v then disj e t else mkNode v e t) m
      (m.Yields (Project vars p)) := by
  split
  · next h => exact returns_join_disj hm hc (Bound.contains_ofList.mp h) he ht hee hte
  · next h =>
      exact returns_join_mkNode hm hc (fun hv => h (Bound.contains_ofList.mpr hv)) hpos hle he ht
        hee hte

end Join

/-- A diagram is a choice between its children. -/
theorem choiceAt_children (hr : m.Reduced) (hf : m.Valid f) (ht : f.isTerminal = false) :
    ChoiceAt (m.level f) (fun a => m.eval f a = true) (fun a => m.eval (m.high f) a = true)
      fun a => m.eval (m.low f) a = true := by
  have llow := hr.level_lt_low hf ht
  have lhigh := hr.level_lt_high hf ht
  refine ⟨fun a => ?_, fun w hw a b => ?_, fun w hw a b => ?_⟩
  · rw [hr.eval_step hf ht]
    split <;> rfl
  · rw [hr.eval_update_above (hr.high_valid hf ht) (by omega)]
  · rw [hr.eval_update_above (hr.low_valid hf ht) (by omega)]

/-! ## Quantification -/

/-- `r` is what quantifying `f` gives. -/
structure Quantifies (m : Manager) (vars : List Nat) (f r : Handle) : Prop where
  valid : m.Valid f
  result_valid : m.Valid r
  eval_iff : ∀ a, m.eval r a = true ↔ m.Possible vars f a

theorem Quantifies.mono (hq : Quantifies m vars f r) (h : m.Extends m') (hr : m.Reduced)
    (hr' : m'.Reduced) : Quantifies m' vars f r where
  valid := h.valid hq.valid
  result_valid := h.valid hq.result_valid
  eval_iff a := by
    rw [h.eval_eq hr hr' hq.result_valid, h.possible_iff hr hr' hq.valid, hq.eval_iff]

/-- The memo of a quantification holds right results. -/
abbrev Quantified (m : Manager) (vars : List Nat) : Std.HashMap Handle Handle → Prop :=
  MemoHolds (Quantifies m vars)

theorem Quantified.mono {memo : Std.HashMap Handle Handle} (hq : Quantified m vars memo)
    (h : m.Extends m') (hm : m.WellFormed) (hm' : m'.WellFormed) : Quantified m' vars memo :=
  MemoHolds.imp hq fun _ _ hr => hr.mono h hm.toReduced hm'.toReduced

/-- What a quantification with a memo leaves behind. -/
def QuantifyYields (m : Manager) (vars : List Nat) (φ : Assignment → Prop)
    (p : Handle × Std.HashMap Handle Handle) (m' : Manager) : Prop :=
  m.Yields φ p.1 m' ∧ Quantified m' vars p.2

/-- What is found for `f` is remembered, and returned. -/
theorem QuantifyYields.remember {memo : Std.HashMap Handle Handle} (hm : m.WellFormed)
    (hf : m.Valid f) (y : m.Yields (m.Possible vars f) r m') (hmemo : Quantified m' vars memo) :
    QuantifyYields m vars (m.Possible vars f) (r, memo.insert f r) m' := by
  refine ⟨y, hmemo.insert ⟨y.extends_.valid hf, y.valid, fun a => ?_⟩⟩
  rw [y.eval_iff, y.extends_.possible_iff hm.toReduced y.wellFormed.toReduced hf]

theorem returns_existsWithin (depth : Nat) {m : Manager} {f : Handle}
    {memo : Std.HashMap Handle Handle} (hm : m.WellFormed) (hf : m.Valid f)
    (hmemo : Quantified m vars memo) (hdepth : m.numVars + 1 < depth + m.level f) :
    Returns (StateT.run (existsWithin (.ofList vars) depth f) memo) m
      (QuantifyYields m vars (m.Possible vars f)) := by
  induction depth generalizing m f memo with
  | zero =>
      have := hm.level_le hf
      omega
  | succ depth ih =>
      rw [existsWithin]
      cases ht : f.isTerminal with
      | true =>
          refine ends_pure.mpr ⟨(Yields.refl hm hf).congr fun a => ?_, hmemo⟩
          rw [Possible, project_iff_of_agree fun b _ => ?_]
          rw [eval_of_terminal ht, eval_of_terminal ht]
      | false =>
          have htop : m.topVar f = m.level f := by simp [level, ht]
          have hlow := hm.low_valid hf ht
          have hhigh := hm.high_valid hf ht
          have llow := hm.level_lt_low hf ht
          have lhigh := hm.level_lt_high hf ht
          have hle := hm.level_lt_of_not_terminal hf ht
          have hchoice := choiceAt_children hm.toReduced hf ht
          simp only [Bool.false_eq_true, if_false, getThe, StateT.run_bind, ends_bind,
            ends_run_get, htop]
          by_cases hlast : (Bound.ofList vars).last < m.level f
          · rw [if_pos hlast]
            refine ends_pure.mpr ⟨(Yields.refl hm hf).congr fun a => ?_, hmemo⟩
            exact (hm.possible_of_last_lt hf hlast).symm
          rw [if_neg hlast]
          simp only [StateT.run_bind, StateT.run_get, ends_bind, ends_pure]
          cases hfound : memo[f]? with
          | some r =>
              have hr := hmemo f r hfound
              exact ends_pure.mpr ⟨(Yields.refl hm hr.result_valid).congr hr.eval_iff, hmemo⟩
          | none =>
              simp only [StateT.run_bind, ends_bind, ends_run_get]
              refine Ends.imp (ih hm hlow hmemo (by omega)) ?_
              rintro ⟨e, memo1⟩ m1 ⟨y1, hmemo1⟩
              have ext1 := y1.extends_
              by_cases hone : ((Bound.ofList vars).contains (m.level f) && e = .one) = true
              · -- the low half is always possible, so the high half does not matter
                obtain ⟨hmem, he⟩ := (Bool.and_eq_true _ _).mp hone
                rw [if_pos hone]
                simp only [StateT.run_bind, StateT.run_pure, StateT.run_modify, ends_bind,
                  ends_pure]
                refine .remember hm hf ((yields_join_one y1.wellFormed hchoice
                  (Bound.contains_ofList.mp hmem) fun a => ?_).of_extends ext1) hmemo1
                exact (y1.eval_iff a).mp (by rw [of_decide_eq_true he, eval_one])
              · rw [if_neg hone]
                simp only [StateT.run_bind, ends_bind]
                refine Ends.imp (ih y1.wellFormed (ext1.valid hhigh) hmemo1 (by
                  rw [ext1.numVars_eq, ext1.level_eq hm.toReduced hhigh]
                  omega)) ?_
                rintro ⟨t, memo2⟩ m2 ⟨y2, hmemo2⟩
                have hjoin := returns_join vars y2.wellFormed hchoice (hm.level_pos hf)
                  (by rw [y2.extends_.numVars_eq, ext1.numVars_eq]; exact hle)
                  (y2.extends_.valid y1.valid) y2.valid
                  (fun a => by rw [y2.old_eval_eq y1.wellFormed y1.valid, y1.eval_iff])
                  (fun a => by
                    rw [y2.eval_iff, ext1.possible_iff hm.toReduced y1.wellFormed.toReduced hhigh])
                have hdone : ∀ r m3, m2.Yields (m.Possible vars f) r m3 →
                    QuantifyYields m vars (m.Possible vars f) (r, memo2.insert f r) m3 :=
                  fun r m3 y3 => .remember hm hf (y3.of_extends (ext1.trans y2.extends_))
                    (Quantified.mono hmemo2 y3.extends_ y2.wellFormed y3.wellFormed)
                split at hjoin <;> next hmem =>
                  simp only [hmem, if_true, Bool.false_eq_true, if_false, StateT.run_bind,
                    StateT.run_pure, StateT.run_modify, ends_bind, ends_pure, ends_run_lift]
                  exact Ends.imp hjoin hdone

/-- Checking variables changes nothing, and faults when one is out of
range. -/
theorem ends_forM_checkVariable (vars : List Nat) (m : Manager) :
    Ends (vars.forM checkVariable) m (fun _ m' => m' = m ∧ ∀ v ∈ vars, 1 ≤ v ∧ v ≤ m.numVars)
      (fun _ m' => m' = m ∧ ¬ ∀ v ∈ vars, 1 ≤ v ∧ v ≤ m.numVars) := by
  induction vars with
  | nil => exact ends_pure.mpr ⟨rfl, by simp⟩
  | cons v vars ih =>
      simp only [List.forM_eq_forM, List.forM_cons, ends_bind, ends_checkVariable] at ih ⊢
      rw [List.forall_mem_cons]
      split
      · next h => simpa [h] using ih
      · next h => exact ⟨trivial, fun hall => h hall.1⟩

/-- `existsVars` denotes the projection, and faults on variables that are
out of range only. -/
theorem ends_existsVars (vars : List Nat) (hm : m.WellFormed) (hf : m.Valid f) :
    Ends (existsVars vars f) m (m.Yields (m.Possible vars f))
      (fun _ m' => m.Alike m' ∧ ¬ ∀ v ∈ vars, 1 ≤ v ∧ v ≤ m.numVars) := by
  unfold existsVars
  simp only [ends_bind, ends_record]
  have hlike := m.alike_journal (m.journal.push (.quantifying f vars.length))
  generalize { m with journal := m.journal.push (.quantifying f vars.length) } = m1 at hlike
  refine Ends.mono (ends_forM_checkVariable vars m1) ?_ ?_
  · rintro - m2 ⟨rfl, -⟩
    have hwf := hlike.wellFormed hm
    have hf2 := hlike.extends_.valid hf
    simp only [ends_get]
    refine (returns_existsWithin _ hwf hf2 .empty ?_).ends fun p m' y => ?_
    · have := hwf.level_pos hf2
      unfold depthBound
      omega
    · refine ends_pure.mpr ((y.1.of_extends hlike.extends_).congr fun a => ?_)
      exact hlike.extends_.possible_iff hm.toReduced hwf.toReduced hf
  · rintro e m2 ⟨rfl, hbad⟩
    exact ⟨hlike, hlike.numVars_eq ▸ hbad⟩

/-! ## Quantified conjunction -/

/-- The set of assignments that make `f` and `g` true for some values of
`vars`. -/
abbrev PossibleBoth (m : Manager) (vars : List Nat) (f g : Handle) : Assignment → Prop :=
  Project vars fun a => m.eval f a = true ∧ m.eval g a = true

theorem possibleBoth_comm {a : Assignment} :
    PossibleBoth m vars f g a ↔ PossibleBoth m vars g f a :=
  project_congr fun _ => and_comm

theorem possibleBoth_of_last_lt (hr : m.Reduced) (hf : m.Valid f) (hg : m.Valid g)
    (hlast : (Bound.ofList vars).last < min (m.level f) (m.level g)) :
    PossibleBoth m vars f g a ↔ m.eval f a = true ∧ m.eval g a = true := by
  refine project_iff_of_agree fun b hb => ?_
  have hagree : ∀ w, min (m.level f) (m.level g) ≤ w → b w = a w := fun w hw =>
    hb w fun hmem => by
      have := Bound.le_last hmem
      omega
  rw [hr.eval_congr hf fun w hw => hagree w (by omega),
    hr.eval_congr hg fun w hw => hagree w (by omega)]

theorem possibleBoth_mono (h : m.Extends m') (hr : m.Reduced) (hr' : m'.Reduced)
    (hf : m.Valid f) (hg : m.Valid g) (a : Assignment) :
    PossibleBoth m' vars f g a ↔ PossibleBoth m vars f g a :=
  project_congr fun a => by rw [h.eval_eq hr hr' hf, h.eval_eq hr hr' hg]

/-- The conjunction of two diagrams is a choice between the conjunctions of
their cofactors. -/
theorem choiceAt_cofactors {v : Nat} (hr : m.Reduced) (hf : m.Valid f) (hg : m.Valid g)
    (hvf : v ≤ m.level f) (hvg : v ≤ m.level g) (hvn : v ≤ m.numVars) :
    ChoiceAt v (fun a => m.eval f a = true ∧ m.eval g a = true)
      (fun a => m.eval (m.cofactors f v).2 a = true ∧ m.eval (m.cofactors g v).2 a = true)
      fun a => m.eval (m.cofactors f v).1 a = true ∧ m.eval (m.cofactors g v).1 a = true := by
  obtain ⟨⟨vf0, vf1⟩, ⟨lf0, lf1⟩, ef⟩ := cofactors_spec hr hf hvf hvn
  obtain ⟨⟨vg0, vg1⟩, ⟨lg0, lg1⟩, eg⟩ := cofactors_spec hr hg hvg hvn
  refine ⟨fun a => ?_, fun w hw a b => ?_, fun w hw a b => ?_⟩
  · rw [ef, eg]
    split <;> rfl
  · rw [hr.eval_update_above vf1 (by omega), hr.eval_update_above vg1 (by omega)]
  · rw [hr.eval_update_above vf0 (by omega), hr.eval_update_above vg0 (by omega)]

/-- `r` is what quantifying the conjunction of the pair `k` gives. -/
structure Conjoins (m : Manager) (vars : List Nat) (k : Handle × Handle) (r : Handle) : Prop where
  left_valid : m.Valid k.1
  right_valid : m.Valid k.2
  result_valid : m.Valid r
  eval_iff : ∀ a, m.eval r a = true ↔ PossibleBoth m vars k.1 k.2 a

theorem Conjoins.mono {k : Handle × Handle} (hq : Conjoins m vars k r) (h : m.Extends m')
    (hr : m.Reduced) (hr' : m'.Reduced) : Conjoins m' vars k r where
  left_valid := h.valid hq.left_valid
  right_valid := h.valid hq.right_valid
  result_valid := h.valid hq.result_valid
  eval_iff a := by
    rw [h.eval_eq hr hr' hq.result_valid, possibleBoth_mono h hr hr' hq.left_valid hq.right_valid,
      hq.eval_iff]

/-- The order in which a pair is remembered does not matter. -/
theorem conjoins_pairKey : Conjoins m vars (pairKey f g) r ↔ Conjoins m vars (f, g) r := by
  unfold pairKey
  split
  · exact Iff.rfl
  · exact ⟨fun h => ⟨h.right_valid, h.left_valid, h.result_valid,
        fun a => (h.eval_iff a).trans possibleBoth_comm⟩,
      fun h => ⟨h.right_valid, h.left_valid, h.result_valid,
        fun a => (h.eval_iff a).trans possibleBoth_comm⟩⟩

/-- The memo of a quantified conjunction holds right results. -/
abbrev Conjoined (m : Manager) (vars : List Nat) :
    Std.HashMap (Handle × Handle) Handle → Prop :=
  MemoHolds (Conjoins m vars)

theorem Conjoined.mono {pairs : Std.HashMap (Handle × Handle) Handle}
    (hc : Conjoined m vars pairs) (h : m.Extends m') (hm : m.WellFormed) (hm' : m'.WellFormed) :
    Conjoined m' vars pairs :=
  MemoHolds.imp hc fun _ _ hr => hr.mono h hm.toReduced hm'.toReduced

/-- What a quantified conjunction with its two memos leaves behind. -/
def ConjoinYields (m : Manager) (vars : List Nat) (φ : Assignment → Prop)
    (p : (Handle × Std.HashMap (Handle × Handle) Handle) × Std.HashMap Handle Handle)
    (m' : Manager) : Prop :=
  m.Yields φ p.1.1 m' ∧ Conjoined m' vars p.1.2 ∧ Quantified m' vars p.2

theorem ConjoinYields.congr {φ ψ : Assignment → Prop}
    {p : (Handle × Std.HashMap (Handle × Handle) Handle) × Std.HashMap Handle Handle}
    (h : ConjoinYields m vars φ p m') (hφ : ∀ a, φ a ↔ ψ a) : ConjoinYields m vars ψ p m' :=
  ⟨h.1.congr hφ, h.2⟩

theorem ConjoinYields.remember {pairs : Std.HashMap (Handle × Handle) Handle}
    {memo : Std.HashMap Handle Handle} (hm : m.WellFormed) (hf : m.Valid f) (hg : m.Valid g)
    (y : m.Yields (PossibleBoth m vars f g) r m') (hpairs : Conjoined m' vars pairs)
    (hmemo : Quantified m' vars memo) :
    ConjoinYields m vars (PossibleBoth m vars f g) ((r, pairs.insert (pairKey f g) r), memo)
      m' := by
  refine ⟨y, hpairs.insert (conjoins_pairKey.mpr ⟨y.extends_.valid hf, y.extends_.valid hg,
    y.valid, fun a => ?_⟩), hmemo⟩
  rw [y.eval_iff, possibleBoth_mono y.extends_ hm.toReduced y.wellFormed.toReduced hf hg]

/-- A conjunction of which one side is left is quantified alone. -/
theorem returns_existsWithin_alone {depth : Nat}
    {pairs : Std.HashMap (Handle × Handle) Handle} {memo : Std.HashMap Handle Handle}
    (hm : m.WellFormed) (hf : m.Valid f) (hpairs : Conjoined m vars pairs)
    (hmemo : Quantified m vars memo) (hdepth : m.numVars + 1 < depth + m.level f) :
    Returns (StateT.run (StateT.run
      (liftM (existsWithin (.ofList vars) depth f) : ConjoinM Handle) pairs) memo) m
      (ConjoinYields m vars (m.Possible vars f)) := by
  show Ends (existsWithin (.ofList vars) depth f memo >>= fun p => pure ((p.1, pairs), p.2)) m _ _
  refine ends_bind.mpr ?_
  refine Ends.imp (returns_existsWithin depth hm hf hmemo hdepth) (fun p m' y => ?_)
  exact ends_pure.mpr ⟨y.1, Conjoined.mono hpairs y.1.extends_ hm y.1.wellFormed, y.2⟩

/-- `andExistsWithin` is right for diagrams that the constants are less
than `depth` levels below. -/
def AndExistsReturns (vars : List Nat) (depth : Nat) : Prop :=
  ∀ {m : Manager} {f g : Handle} {pairs : Std.HashMap (Handle × Handle) Handle}
    {memo : Std.HashMap Handle Handle}, m.WellFormed → m.Valid f → m.Valid g →
    Conjoined m vars pairs → Quantified m vars memo →
    m.numVars + 1 < depth + min (m.level f) (m.level g) →
    Returns (StateT.run (StateT.run (andExistsWithin (.ofList vars) depth f g) pairs) memo) m
      (ConjoinYields m vars (PossibleBoth m vars f g))

theorem returns_conjoin_split {depth v : Nat} (ih : AndExistsReturns vars depth)
    {pairs : Std.HashMap (Handle × Handle) Handle} {memo : Std.HashMap Handle Handle}
    (hm : m.WellFormed) (hf : m.Valid f) (hg : m.Valid g) (hpairs : Conjoined m vars pairs)
    (hmemo : Quantified m vars memo) (hv : v = min (m.level f) (m.level g))
    (hvn : v ≤ m.numVars) (hdepth : m.numVars + 1 < depth + 1 + v) :
    Returns (StateT.run (StateT.run (do
        let r ←
          if (Bound.ofList vars).last < v then
            (conj f g : DiagramM Handle)
          else do
            let e ← andExistsWithin (.ofList vars) depth (m.cofactors f v).1 (m.cofactors g v).1
            if (Bound.ofList vars).contains v && e = .one then
              pure .one
            else do
              let t ← andExistsWithin (.ofList vars) depth (m.cofactors f v).2 (m.cofactors g v).2
              if (Bound.ofList vars).contains v then (disj e t : DiagramM Handle)
              else (mkNode v e t : DiagramM Handle)
        modify (·.insert (pairKey f g) r)
        return r : ConjoinM Handle) pairs) memo) m
      (ConjoinYields m vars (PossibleBoth m vars f g)) := by
  obtain ⟨⟨vf0, vf1⟩, ⟨lf0, lf1⟩, -⟩ := cofactors_spec hm.toReduced hf (v := v) (by omega) hvn
  obtain ⟨⟨vg0, vg1⟩, ⟨lg0, lg1⟩, -⟩ := cofactors_spec hm.toReduced hg (v := v) (by omega) hvn
  have hchoice := choiceAt_cofactors hm.toReduced hf hg (v := v) (by omega) (by omega) hvn
  by_cases hlast : (Bound.ofList vars).last < v
  · simp only [if_pos hlast, StateT.run_bind, StateT.run_modify, StateT.run_pure, ends_bind,
      ends_pure, ends_run_run_lift]
    refine Ends.imp (returns_conj hm hf hg) fun r m' y => ?_
    refine .remember hm hf hg (y.congr fun a => ?_)
      (Conjoined.mono hpairs y.extends_ hm y.wellFormed)
      (Quantified.mono hmemo y.extends_ hm y.wellFormed)
    exact (possibleBoth_of_last_lt hm.toReduced hf hg (hv ▸ hlast)).symm
  · simp only [if_neg hlast, StateT.run_bind, ends_bind]
    refine Ends.imp (ih hm vf0 vg0 hpairs hmemo (by omega)) ?_
    rintro ⟨⟨e, pairs1⟩, memo1⟩ m1 ⟨y1, hpairs1, hmemo1⟩
    have ext1 := y1.extends_
    by_cases hone : ((Bound.ofList vars).contains v && e = .one) = true
    · obtain ⟨hmem, he⟩ := (Bool.and_eq_true _ _).mp hone
      simp only [if_pos hone, StateT.run_bind, StateT.run_pure, StateT.run_modify, ends_bind,
        ends_pure]
      refine .remember hm hf hg ((yields_join_one y1.wellFormed hchoice
        (Bound.contains_ofList.mp hmem) fun a => ?_).of_extends ext1) hpairs1 hmemo1
      exact (y1.eval_iff a).mp (by rw [of_decide_eq_true he, eval_one])
    · simp only [if_neg hone, StateT.run_bind, ends_bind]
      refine Ends.imp (ih y1.wellFormed (ext1.valid vf1) (ext1.valid vg1) hpairs1 hmemo1 (by
        rw [ext1.numVars_eq, ext1.level_eq hm.toReduced vf1, ext1.level_eq hm.toReduced vg1]
        omega)) ?_
      rintro ⟨⟨t, pairs2⟩, memo2⟩ m2 ⟨y2, hpairs2, hmemo2⟩
      have hpos : 1 ≤ v := by
        have := hm.level_pos hf
        have := hm.level_pos hg
        omega
      have hjoin := returns_join vars y2.wellFormed hchoice hpos
        (by rw [y2.extends_.numVars_eq, ext1.numVars_eq]; exact hvn)
        (y2.extends_.valid y1.valid) y2.valid
        (fun a => by rw [y2.old_eval_eq y1.wellFormed y1.valid, y1.eval_iff])
        (fun a => by
          rw [y2.eval_iff, possibleBoth_mono ext1 hm.toReduced y1.wellFormed.toReduced vf1 vg1])
      have hdone : ∀ r m3, m2.Yields (PossibleBoth m vars f g) r m3 →
          ConjoinYields m vars (PossibleBoth m vars f g)
            ((r, pairs2.insert (pairKey f g) r), memo2) m3 :=
        fun r m3 y3 => .remember hm hf hg (y3.of_extends (ext1.trans y2.extends_))
          (Conjoined.mono hpairs2 y3.extends_ y2.wellFormed y3.wellFormed)
          (Quantified.mono hmemo2 y3.extends_ y2.wellFormed y3.wellFormed)
      split at hjoin <;> next hmem =>
        simp only [hmem, if_true, Bool.false_eq_true, if_false, StateT.run_bind, StateT.run_pure,
          StateT.run_modify, ends_bind, ends_pure, ends_run_run_lift]
        exact Ends.imp hjoin hdone

theorem returns_andExistsWithin (vars : List Nat) (depth : Nat) : AndExistsReturns vars depth := by
  induction depth with
  | zero =>
      intro m f g pairs memo hm hf hg hpairs hmemo hdepth
      have := hm.level_le hf
      omega
  | succ depth ih =>
      intro m f g pairs memo hm hf hg hpairs hmemo hdepth
      rw [andExistsWithin]
      by_cases hzero : (f = .zero || g = .zero || f = -g) = true
      · rw [if_pos hzero]
        refine ends_pure.mpr ⟨(Yields.refl hm m.valid_zero).congr fun a => ?_, hpairs, hmemo⟩
        rw [eval_zero]
        constructor
        · intro h
          cases h
        rintro ⟨b, -, hb⟩
        simp only [Bool.or_eq_true, decide_eq_true_eq] at hzero
        rcases hzero with (rfl | rfl) | rfl
        · simp at hb
        · simp at hb
        · rw [hm.eval_neg hg] at hb
          simp at hb
      rw [if_neg hzero]
      by_cases hone : (f = .one || f = g) = true
      · rw [if_pos hone]
        simp only [Bool.or_eq_true, decide_eq_true_eq] at hone
        refine Ends.imp (returns_existsWithin_alone hm hg hpairs hmemo (by omega))
          (fun p m' y => y.congr fun a => project_congr fun a => ?_)
        rcases hone with rfl | rfl <;> simp
      rw [if_neg hone]
      by_cases hone' : g = .one
      · rw [if_pos hone']
        refine Ends.imp (returns_existsWithin_alone hm hf hpairs hmemo (by omega))
          (fun p m' y => y.congr fun a => project_congr fun a => ?_)
        simp [hone']
      rw [if_neg hone']
      simp only [StateT.run_bind, StateT.run_get, StateT.run_pure, ends_bind, ends_pure, getThe]
      cases hfound : pairs[pairKey f g]? with
      | some r =>
          have hr := conjoins_pairKey.mp (hpairs _ r hfound)
          exact ends_pure.mpr
            ⟨(Yields.refl hm hr.result_valid).congr hr.eval_iff, hpairs, hmemo⟩
      | none =>
          simp only [StateT.run_bind, ends_bind, ends_run_run_get]
          simp only [Bool.or_eq_true, decide_eq_true_eq, not_or] at hzero hone
          have htf : f.isTerminal = false := Handle.isTerminal_eq_false hone.1 hzero.1.1
          have htg : g.isTerminal = false := Handle.isTerminal_eq_false hone' hzero.1.2
          have htop : min (m.topVar f) (m.topVar g) = min (m.level f) (m.level g) := by
            simp [level, htf, htg]
          rw [htop]
          have hle := hm.level_lt_of_not_terminal hf htf
          exact returns_conjoin_split ih hm hf hg hpairs hmemo rfl (by omega) (by omega)

/-- `andExists` denotes the projection of the conjunction, and faults on
variables that are out of range only. -/
theorem ends_andExists (vars : List Nat) (hm : m.WellFormed) (hf : m.Valid f) (hg : m.Valid g) :
    Ends (andExists vars f g) m (m.Yields (PossibleBoth m vars f g))
      (fun _ m' => m.Alike m' ∧ ¬ ∀ v ∈ vars, 1 ≤ v ∧ v ≤ m.numVars) := by
  unfold andExists
  simp only [ends_bind, ends_record]
  have hlike := m.alike_journal (m.journal.push (.conjoining f g vars.length))
  generalize { m with journal := m.journal.push (.conjoining f g vars.length) } = m1 at hlike
  refine Ends.mono (ends_forM_checkVariable vars m1) ?_ ?_
  · rintro - m2 ⟨rfl, -⟩
    have hwf := hlike.wellFormed hm
    have hf2 := hlike.extends_.valid hf
    have hg2 := hlike.extends_.valid hg
    simp only [ends_get]
    have hdepth : m2.numVars + 1 < 2 * m2.depthBound + min (m2.level f) (m2.level g) := by
      have := hwf.level_pos hf2
      have := hwf.level_pos hg2
      unfold depthBound
      omega
    have hwithin := returns_andExistsWithin vars _ hwf hf2 hg2 .empty .empty hdepth
    refine Returns.ends hwithin fun p m' y => ?_
    refine ends_pure.mpr ((y.1.of_extends hlike.extends_).congr fun a => ?_)
    exact possibleBoth_mono hlike.extends_ hm.toReduced hwf.toReduced hf hg a
  · rintro e m2 ⟨rfl, hbad⟩
    exact ⟨hlike, hlike.numVars_eq ▸ hbad⟩

end Diagram

end BranchingTime
