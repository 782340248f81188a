import Mathlib.Data.List.Pairwise
import BranchingTime.Diagram.Path
import BranchingTime.Proofs.Occurrence

/-!
# Paths are cubes

Every assignment goes down one path of a diagram, the one whose literals it
makes true. So the paths to the constant true are disjoint cubes, any two of
which disagree about a variable (`Reduced.paths_opposed`), and together they
are the diagram (`Reduced.eval_iff_meets`). Their literals ascend, and they are
about variables on which the diagram depends.

What the paths are is a matter of the function alone: diagrams of two
managers with the same values have the same paths, in the same order
(`Reduced.paths_eq_of_eval_eq`).
-/

namespace BranchingTime

/-- The assignment makes all the literals true. -/
def Assignment.Meets (a : Assignment) (p : Literals) : Prop := ∀ l ∈ p, a.satisfies l = true

/-- Some variable is true in the one cube and false in the other. -/
def Opposed (p q : Literals) : Prop := ∃ l ∈ p, l ≠ 0 ∧ -l ∈ q

theorem Opposed.cons {p q : Literals} (h : Opposed p q) (l : Int) :
    Opposed (l :: p) (l :: q) := by
  obtain ⟨k, hp, hne, hq⟩ := h
  exact ⟨k, List.mem_cons_of_mem l hp, hne, List.mem_cons_of_mem l hq⟩

instance : Std.Symm Opposed where
  symm p q h := by
    obtain ⟨l, hlp, hl, hlq⟩ := h
    exact ⟨-l, hlq, by omega, by rwa [Int.neg_neg]⟩

theorem Opposed.not_meets {p q : Literals} {a : Assignment} (h : Opposed p q)
    (hp : a.Meets p) : ¬ a.Meets q := by
  intro hq
  obtain ⟨l, hlp, hne, hlq⟩ := h
  have hpos := of_decide_eq_true (hp l hlp)
  have hneg := of_decide_eq_true (hq (-l) hlq)
  rw [Int.natAbs_neg, hpos, decide_eq_decide] at hneg
  omega

namespace Manager

variable {m m' : Manager} {f f' : Handle} {p : Literals} {a : Assignment}

/-- Looking for the first paths only finds them. -/
theorem pathsUpToWithin_eq_take (depth count : Nat) (f : Handle) :
    m.pathsUpToWithin depth count f = (m.pathsWithin depth f).take count := by
  induction depth generalizing count f with
  | zero => simp [pathsUpToWithin, pathsWithin]
  | succ depth ih =>
      rw [pathsUpToWithin, pathsWithin]
      by_cases hcount : count = 0
      · simp [hcount]
      rw [if_neg hcount]
      split
      · rw [List.take_of_length_le (by simp; omega)]
      split
      · rw [List.take_nil]
      simp only [ih, List.take_append, List.map_take, List.length_take, List.length_map]
      congr 2
      omega

theorem pathsUpTo_eq_take (count : Nat) (f : Handle) :
    m.pathsUpTo count f = (m.paths f).take count :=
  pathsUpToWithin_eq_take _ count f

theorem cubesText_eq (limit? : Option Nat) (f : Handle) : m.cubesText limit? f
    = String.join ((limit?.elim (m.paths f) (m.paths f).take).map cubeText) := by
  cases limit? with
  | none => rfl
  | some count => rw [cubesText, pathsUpTo_eq_take, Option.elim_some]

/-- What stands among the first elements stands in the list. -/
theorem mem_of_mem_elim_take {l : List Literals} {limit? : Option Nat}
    (hp : p ∈ limit?.elim l l.take) : p ∈ l := by
  cases limit? with
  | none => exact hp
  | some count => exact List.mem_of_mem_take hp

namespace Reduced

/-! ## Paths without depth -/

theorem pathsWithin_stable (hr : m.Reduced) {d d' : Nat} (h : m.Valid f)
    (hd : m.numVars + 2 ≤ d + m.level f) (hd' : m.numVars + 2 ≤ d' + m.level f) :
    m.pathsWithin d f = m.pathsWithin d' f := by
  induction d generalizing f d' with
  | zero =>
      have := hr.level_le h
      omega
  | succ d ih =>
      cases d' with
      | zero =>
          have := hr.level_le h
          omega
      | succ d' =>
          rw [pathsWithin, pathsWithin]
          split
          · rfl
          next hone =>
          split
          · rfl
          next hzero =>
          have hf := Handle.isTerminal_eq_false hone hzero
          have hlow := hr.level_lt_low h hf
          have hhigh := hr.level_lt_high h hf
          have hhighEq : m.pathsWithin d (m.high f) = m.pathsWithin d' (m.high f) :=
            ih (hr.high_valid h hf) (by omega) (by omega)
          have hlowEq : m.pathsWithin d (m.low f) = m.pathsWithin d' (m.low f) :=
            ih (hr.low_valid h hf) (by omega) (by omega)
          rw [hhighEq, hlowEq]

theorem pathsWithin_eq_paths (hr : m.Reduced) {d : Nat} (h : m.Valid f)
    (hd : m.numVars + 2 ≤ d + m.level f) : m.pathsWithin d f = m.paths f := by
  refine hr.pathsWithin_stable h hd ?_
  have := hr.level_pos h
  rw [depthBound]
  omega

theorem paths_node (hr : m.Reduced) (h : m.Valid f) (hf : f.isTerminal = false) :
    m.paths f = (m.paths (m.high f)).map ((m.level f : Int) :: ·)
      ++ (m.paths (m.low f)).map (-(m.level f : Int) :: ·) := by
  have hpos := hr.level_pos h
  have hlow := hr.level_lt_low h hf
  have hhigh := hr.level_lt_high h hf
  have htop : m.topVar f = m.level f := by simp [level, hf]
  have hone : f ≠ .one := by
    rintro rfl
    cases hf
  have hzero : f ≠ .zero := by
    rintro rfl
    cases hf
  rw [paths, depthBound, pathsWithin, if_neg hone, if_neg hzero, htop,
    hr.pathsWithin_eq_paths (hr.high_valid h hf) (by omega),
    hr.pathsWithin_eq_paths (hr.low_valid h hf) (by omega)]

end Reduced

theorem paths_one : m.paths .one = [[]] := by
  rw [paths, depthBound, pathsWithin, if_pos rfl]

theorem paths_zero : m.paths .zero = [] := by
  rw [paths, depthBound, pathsWithin, if_neg (by decide), if_pos rfl]

namespace Reduced

/-- What holds of the paths of the constants, and of paths that go on from a
child, holds of all paths. -/
theorem path_induction (hr : m.Reduced) {P : Handle → Literals → Prop} (one : P .one [])
    (high : ∀ f, m.Valid f → f.isTerminal = false → ∀ p ∈ m.paths (m.high f),
      P (m.high f) p → P f ((m.level f : Int) :: p))
    (low : ∀ f, m.Valid f → f.isTerminal = false → ∀ p ∈ m.paths (m.low f),
      P (m.low f) p → P f (-(m.level f : Int) :: p))
    (h : m.Valid f) (hp : p ∈ m.paths f) : P f p := by
  refine hr.induction (P := fun f => ∀ p ∈ m.paths f, P f p) ?_ ?_ h p hp
  · intro f ht p hp
    rcases Handle.eq_one_or_eq_zero (Handle.isTerminal_iff.mp ht) with rfl | rfl
    · rw [paths_one, List.mem_singleton] at hp
      exact hp ▸ one
    · rw [paths_zero] at hp
      cases hp
  · intro f h hf ihlow ihhigh p hp
    rw [hr.paths_node h hf, List.mem_append, List.mem_map, List.mem_map] at hp
    rcases hp with ⟨p, hp, rfl⟩ | ⟨p, hp, rfl⟩
    · exact high f h hf p hp (ihhigh p hp)
    · exact low f h hf p hp (ihlow p hp)

/-- The literals of a path ascend from the level of the diagram on. -/
theorem path_ascending (hr : m.Reduced) (h : m.Valid f) (hp : p ∈ m.paths f) :
    (p.map Int.natAbs).Pairwise (· < ·) ∧ ∀ l ∈ p, m.level f ≤ l.natAbs := by
  have hstep : ∀ {f g : Handle} {l : Int} {p : Literals}, l.natAbs = m.level f →
      m.level f < m.level g →
      ((p.map Int.natAbs).Pairwise (· < ·) ∧ ∀ l ∈ p, m.level g ≤ l.natAbs) →
      ((l :: p).map Int.natAbs).Pairwise (· < ·) ∧ ∀ l' ∈ l :: p, m.level f ≤ l'.natAbs := by
    intro f g l p hl hlt hp
    obtain ⟨hsorted, hle⟩ := hp
    rw [List.map_cons, List.pairwise_cons, List.forall_mem_map, List.forall_mem_cons]
    exact ⟨⟨fun l' hl' => by have := hle l' hl'; omega, hsorted⟩, hl.ge,
      fun l' hl' => by have := hle l' hl'; omega⟩
  refine hr.path_induction (P := fun f p => (p.map Int.natAbs).Pairwise (· < ·)
    ∧ ∀ l ∈ p, m.level f ≤ l.natAbs) ⟨.nil, nofun⟩ ?_ ?_ h hp
  · intro f h hf p _ ih
    exact hstep (Int.natAbs_natCast _) (hr.level_lt_high h hf) ih
  · intro f h hf p _ ih
    exact hstep (by rw [Int.natAbs_neg, Int.natAbs_natCast]) (hr.level_lt_low h hf) ih

/-- A path decides variables that occur in the diagram. -/
theorem occurs_of_mem_path (hr : m.Reduced) (h : m.Valid f) (hp : p ∈ m.paths f) :
    ∀ l ∈ p, m.Occurs f l.natAbs := by
  refine hr.path_induction (P := fun f p => ∀ l ∈ p, m.Occurs f l.natAbs) (by simp) ?_ ?_ h hp
  · intro f h hf p _ ih
    rw [List.forall_mem_cons, Int.natAbs_natCast]
    have hstep {v : Nat} := hr.occurs_step (v := v) h hf
    exact ⟨hstep.mpr (Or.inl rfl), fun l hl => hstep.mpr (Or.inr (Or.inr (ih l hl)))⟩
  · intro f h hf p _ ih
    rw [List.forall_mem_cons, Int.natAbs_neg, Int.natAbs_natCast]
    have hstep {v : Nat} := hr.occurs_step (v := v) h hf
    exact ⟨hstep.mpr (Or.inl rfl), fun l hl => hstep.mpr (Or.inr (Or.inl (ih l hl)))⟩

/-- A path decides no variable on which the diagram does not depend. -/
theorem natAbs_mem_of_dependsOn (hr : m.Reduced) (h : m.Valid f) (hp : p ∈ m.paths f)
    {vars : Set Nat} (hd : DependsOn (m.eval f) vars) : ∀ l ∈ p, l.natAbs ∈ vars :=
  fun l hl => (hr.dependsOn_iff_occurs h).mp hd _ (hr.occurs_of_mem_path h hp l hl)

/-! ## What paths denote -/

theorem meets_high (hr : m.Reduced) (h : m.Valid f) :
    a.Meets ((m.level f : Int) :: p) ↔ a (m.level f) = true ∧ a.Meets p := by
  have hpos : (0 : Int) < m.level f := by exact_mod_cast hr.level_pos h
  rw [Assignment.Meets, List.forall_mem_cons, Assignment.satisfies, Int.natAbs_natCast,
    decide_eq_true hpos, decide_eq_true_iff]
  rfl

theorem meets_low :
    a.Meets (-(m.level f : Int) :: p) ↔ a (m.level f) = false ∧ a.Meets p := by
  have hneg : ¬ (0 : Int) < -(m.level f : Int) := by omega
  rw [Assignment.Meets, List.forall_mem_cons, Assignment.satisfies, Int.natAbs_neg,
    Int.natAbs_natCast, decide_eq_false hneg, decide_eq_true_iff]
  rfl

/-- A diagram is true where one of its paths is met. -/
theorem eval_iff_meets (hr : m.Reduced) (h : m.Valid f) (a : Assignment) :
    m.eval f a = true ↔ ∃ p ∈ m.paths f, a.Meets p := by
  refine hr.induction (P := fun f => m.eval f a = true ↔ ∃ p ∈ m.paths f, a.Meets p) ?_ ?_ h
  · intro f ht
    rcases Handle.eq_one_or_eq_zero (Handle.isTerminal_iff.mp ht) with rfl | rfl
    · simp [paths_one, Assignment.Meets]
    · simp [paths_zero]
  · intro f h hf ihlow ihhigh
    simp only [hr.paths_node h hf, List.mem_append, List.mem_map]
    rw [hr.eval_step h hf]
    cases ha : a (m.level f) with
    | true =>
        rw [if_pos rfl, ihhigh]
        constructor
        · intro hmeets
          obtain ⟨p, hp, hmeets⟩ := hmeets
          exact ⟨_, .inl ⟨p, hp, rfl⟩, (hr.meets_high h).mpr ⟨ha, hmeets⟩⟩
        · rintro ⟨_, ⟨p, hp, rfl⟩ | ⟨p, hp, rfl⟩, hmeets⟩
          · exact ⟨p, hp, ((hr.meets_high h).mp hmeets).2⟩
          · cases ha.symm.trans (meets_low.mp hmeets).1
    | false =>
        rw [if_neg (by simp), ihlow]
        constructor
        · intro hmeets
          obtain ⟨p, hp, hmeets⟩ := hmeets
          exact ⟨_, .inr ⟨p, hp, rfl⟩, meets_low.mpr ⟨ha, hmeets⟩⟩
        · rintro ⟨_, ⟨p, hp, rfl⟩ | ⟨p, hp, rfl⟩, hmeets⟩
          · cases ha.symm.trans ((hr.meets_high h).mp hmeets).1
          · exact ⟨p, hp, (meets_low.mp hmeets).2⟩

/-- Two paths part at a variable, where they take different branches. -/
theorem paths_opposed (hr : m.Reduced) (h : m.Valid f) : (m.paths f).Pairwise Opposed := by
  refine hr.induction (P := fun f => (m.paths f).Pairwise Opposed) ?_ ?_ h
  · intro f ht
    rcases Handle.eq_one_or_eq_zero (Handle.isTerminal_iff.mp ht) with rfl | rfl
    · simp [paths_one]
    · simp [paths_zero]
  · intro f h hf ihlow ihhigh
    rw [hr.paths_node h hf, List.pairwise_append]
    refine ⟨List.pairwise_map.mpr ?_, List.pairwise_map.mpr ?_, ?_⟩
    · exact ihhigh.imp fun hopp => hopp.cons _
    · exact ihlow.imp fun hopp => hopp.cons _
    · intro p hp q hq
      obtain ⟨p, -, rfl⟩ := List.mem_map.mp hp
      obtain ⟨q, -, rfl⟩ := List.mem_map.mp hq
      have hpos := hr.level_pos h
      exact ⟨m.level f, List.mem_cons_self, by omega, List.mem_cons_self⟩

/-- No assignment meets two paths. -/
theorem paths_disjoint (hr : m.Reduced) (h : m.Valid f) :
    (m.paths f).Pairwise fun p q => ∀ a : Assignment, a.Meets p → ¬ a.Meets q := by
  refine (hr.paths_opposed h).imp ?_
  intro p q hopp a hp
  exact hopp.not_meets hp

/-- So the path that an assignment meets is the only one. -/
theorem eq_of_meets (hr : m.Reduced) (h : m.Valid f) {q : Literals} (hp : p ∈ m.paths f)
    (hq : q ∈ m.paths f) (hmp : a.Meets p) (hmq : a.Meets q) : p = q := by
  by_contra hne
  have hopp : Opposed p q := (hr.paths_opposed h).forall hp hq hne
  exact hopp.not_meets hmp hmq

end Reduced

/-! ## Paths of two managers -/

/-- `f` and `f'` decide the same variable and go on alike. -/
structure NodesAgree (m m' : Manager) (f f' : Handle) : Prop where
  not_terminal : f'.isTerminal = false
  level_eq : m.level f = m'.level f'
  low_eq : m.eval (m.low f) = m'.eval (m'.low f')
  high_eq : m.eval (m.high f) = m'.eval (m'.high f')

namespace Reduced

theorem level_le_of_eval_eq (hr : m.Reduced) (hr' : m'.Reduced) (h : m.Valid f)
    (h' : m'.Valid f') (hf : f.isTerminal = false) (heq : m.eval f = m'.eval f') :
    m'.level f' ≤ m.level f := by
  have hd : DependsOn (m.eval f) {v | m'.level f' ≤ v} := by
    rw [heq]
    exact fun a b hab => hr'.eval_congr h' hab
  exact hr.level_mem_of_dependsOn h hf hd

/-- A diagram with the values of a constant is one. -/
theorem isTerminal_of_eval_eq (hr : m.Reduced) (h : m.Valid f) (hf' : f'.isTerminal = true)
    (heq : m.eval f = m'.eval f') : f = f' := by
  have hconst (g : Handle) (hg : m.Valid g) (hval : m.eval g = m'.eval f') : f = g :=
    (hr.eq_iff_eval h hg).mpr fun a => by rw [heq, hval]
  rcases Handle.eq_one_or_eq_zero (Handle.isTerminal_iff.mp hf') with rfl | rfl
  · exact hconst .one m.valid_one (by funext a; simp)
  · exact hconst .zero m.valid_zero (by funext a; simp)

/-- Where a function decides a variable first, and how it goes on from there, is
the same in all its diagrams. -/
theorem nodesAgree_of_eval_eq (hr : m.Reduced) (hr' : m'.Reduced) (h : m.Valid f)
    (h' : m'.Valid f') (hf : f.isTerminal = false) (heq : m.eval f = m'.eval f') :
    NodesAgree m m' f f' := by
  have hf' : f'.isTerminal = false := by
    refine Bool.eq_false_iff.mpr fun ht => ?_
    rw [hr.isTerminal_of_eval_eq h ht heq, ht] at hf
    cases hf
  have hlevel : m.level f = m'.level f' :=
    Nat.le_antisymm (hr'.level_le_of_eval_eq hr h' h hf' heq.symm)
      (hr.level_le_of_eval_eq hr' h h' hf heq)
  refine ⟨hf', hlevel, ?_, ?_⟩
  · funext a
    rw [← hr.eval_update_low h hf, ← hr'.eval_update_low h' hf', heq, hlevel]
  · funext a
    rw [← hr.eval_update_high h hf, ← hr'.eval_update_high h' hf', heq, hlevel]

/-- The paths of a diagram are those of its function. -/
theorem paths_eq_of_eval_eq (hr : m.Reduced) (hr' : m'.Reduced) (h : m.Valid f)
    (h' : m'.Valid f') (heq : m.eval f = m'.eval f') : m.paths f = m'.paths f' := by
  refine hr.induction (P := fun f => ∀ f', m'.Valid f' → m.eval f = m'.eval f' →
    m.paths f = m'.paths f') ?_ ?_ h f' h' heq
  · intro f ht f' h' heq
    obtain rfl := hr'.isTerminal_of_eval_eq h' ht heq.symm
    rcases Handle.eq_one_or_eq_zero (Handle.isTerminal_iff.mp ht) with rfl | rfl
    · rw [paths_one, paths_one]
    · rw [paths_zero, paths_zero]
  · intro f h hf ihlow ihhigh f' h' heq
    obtain ⟨hf', hlevel, hlow, hhigh⟩ := hr.nodesAgree_of_eval_eq hr' h h' hf heq
    rw [hr.paths_node h hf, hr'.paths_node h' hf', hlevel,
      ihhigh _ (hr'.high_valid h' hf') hhigh, ihlow _ (hr'.low_valid h' hf') hlow]

end Reduced

end Manager

end BranchingTime
