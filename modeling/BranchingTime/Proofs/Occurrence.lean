import Mathlib.Logic.Function.DependsOn
import BranchingTime.Proofs.Collection

/-!
# Variables that occur in a diagram

A variable occurs in a diagram when one of the nodes that the diagram
needs decides it. In a reduced manager no node is there in vain: the
variables that occur are those that the function depends on
(`Reduced.occurs_iff`, `Reduced.dependsOn_iff_occurs`). So it is a matter of
the function alone which variables occur, and not of the manager that holds
its diagram.
-/

namespace BranchingTime.Manager

variable {m : Manager} {f g : Handle} {roots : List Handle} {i v : Nat} {n : Node}
  {vars : Set Nat}

/-! ## Needed cells -/

/-- What a needed cell needs is needed. -/
theorem Needed.trans (h : m.Needed [g] i) (hg : m.Needed roots g.index) : m.Needed roots i := by
  induction h with
  | root hf => exact List.mem_singleton.mp hf ▸ hg
  | low _ hn ih => exact .low ih hn
  | high _ hn ih => exact .high ih hn

/-- What valid roots need is the terminal or stored. -/
theorem Reduced.stores_of_needed (hr : m.Reduced) (hroots : ∀ f ∈ roots, m.Valid f)
    (h : m.Needed roots i) : i = 1 ∨ ∃ n, m.Stores i n := by
  induction h with
  | root hf => exact hroots _ hf
  | low _ hn _ => exact (hr.proper hn).low_valid
  | high _ hn _ => exact (hr.proper hn).high_valid

/-- A constant needs the terminal only. -/
theorem Reduced.needed_of_terminal (hr : m.Reduced) (hf : f.isTerminal = true)
    (h : m.Needed [f] i) : i = 1 := by
  induction h with
  | root hg =>
      obtain rfl := List.mem_singleton.mp hg
      exact Handle.isTerminal_iff.mp hf
  | low _ hn ih => exact absurd ih (hr.ne_one hn)
  | high _ hn ih => exact absurd ih (hr.ne_one hn)

/-- A diagram needs its own cell and what its children need. -/
theorem Reduced.needed_cases (hr : m.Reduced) (hn : m.Stores f.index n) (h : m.Needed [f] i) :
    i = f.index ∨ m.Needed [n.low] i ∨ m.Needed [n.high] i := by
  have hnode : ∀ {k}, m.Stores f.index k → k = n := fun hk => by
    rw [← hr.node_eq hk, hr.node_eq hn]
  induction h with
  | root hg =>
      obtain rfl := List.mem_singleton.mp hg
      exact Or.inl rfl
  | low _ hk ih =>
      rcases ih with rfl | ih | ih
      · exact Or.inr (Or.inl (hnode hk ▸ .root (List.mem_singleton_self _)))
      · exact Or.inr (Or.inl (.low ih hk))
      · exact Or.inr (Or.inr (.low ih hk))
  | high _ hk ih =>
      rcases ih with rfl | ih | ih
      · exact Or.inr (Or.inr (hnode hk ▸ .root (List.mem_singleton_self _)))
      · exact Or.inr (Or.inl (.high ih hk))
      · exact Or.inr (Or.inr (.high ih hk))

/-! ## Occurring variables -/

/-- Some node of the diagram `f` decides `v`. -/
def Occurs (m : Manager) (f : Handle) (v : Nat) : Prop :=
  ∃ i n, m.Needed [f] i ∧ m.Stores i n ∧ n.var = v

/-- What occurs in a needed diagram occurs in the diagram that needs it. -/
theorem Occurs.of_needed (h : m.Occurs g v) (hg : m.Needed [f] g.index) : m.Occurs f v := by
  obtain ⟨i, n, hi, hn, hv⟩ := h
  exact ⟨i, n, hi.trans hg, hn, hv⟩

theorem needed_self (m : Manager) (f : Handle) : m.Needed [f] f.index :=
  .root (List.mem_singleton_self f)

/-- The sign of a diagram does not matter. -/
theorem Occurs.neg (h : m.Occurs f v) : m.Occurs (-f) v :=
  h.of_needed (Handle.index_neg f ▸ m.needed_self (-f))

theorem occurs_complementIf (b : Bool) : m.Occurs (f.complementIf b) v ↔ m.Occurs f v := by
  cases b with
  | false => exact Iff.rfl
  | true => exact ⟨fun h => Handle.neg_neg f ▸ h.neg, Occurs.neg⟩

namespace Reduced

theorem occurs_range (hr : m.Reduced) (h : m.Occurs f v) : 1 ≤ v ∧ v ≤ m.numVars := by
  obtain ⟨i, n, -, hn, rfl⟩ := h
  exact ⟨(hr.proper hn).var_pos, (hr.proper hn).var_le⟩

theorem not_occurs_of_terminal (hr : m.Reduced) (hf : f.isTerminal = true) : ¬ m.Occurs f v := by
  rintro ⟨i, n, hi, hn, -⟩
  exact hr.ne_one hn (hr.needed_of_terminal hf hi)

/-- The first variable of a diagram occurs in it, and what occurs in its
children. -/
theorem occurs_stores (hr : m.Reduced) (hn : m.Stores f.index n) :
    m.Occurs f v ↔ v = n.var ∨ m.Occurs n.low v ∨ m.Occurs n.high v := by
  constructor
  · rintro ⟨i, k, hi, hk, rfl⟩
    rcases hr.needed_cases hn hi with rfl | hi | hi
    · exact Or.inl (by rw [← hr.node_eq hk, hr.node_eq hn])
    · exact Or.inr (Or.inl ⟨i, k, hi, hk, rfl⟩)
    · exact Or.inr (Or.inr ⟨i, k, hi, hk, rfl⟩)
  · rintro (rfl | h | h)
    · exact ⟨f.index, n, m.needed_self f, hn, rfl⟩
    · exact h.of_needed (.low (m.needed_self f) hn)
    · exact h.of_needed (.high (m.needed_self f) hn)

theorem occurs_step (hr : m.Reduced) (hf : m.Valid f) (ht : f.isTerminal = false) :
    m.Occurs f v ↔ v = m.level f ∨ m.Occurs (m.low f) v ∨ m.Occurs (m.high f) v := by
  obtain ⟨n, hn⟩ := hf.stores ht
  rw [hr.occurs_stores hn, hr.level_of_stores hn, hr.low_of_stores hn, hr.high_of_stores hn,
    occurs_complementIf, occurs_complementIf]

/-- A variable that does not occur does not matter. -/
theorem eval_update_of_not_occurs (hr : m.Reduced) (hf : m.Valid f) (hv : ¬ m.Occurs f v)
    (a : Assignment) (b : Bool) : m.eval f (Function.update a v b) = m.eval f a := by
  refine hr.induction (P := fun f => ¬ m.Occurs f v →
    m.eval f (Function.update a v b) = m.eval f a) ?_ ?_ hf hv
  · intro f ht _
    rw [eval_of_terminal ht, eval_of_terminal ht]
  · intro f hf ht ihlow ihhigh hv
    rw [hr.occurs_step hf ht, not_or, not_or] at hv
    rw [hr.eval_step hf ht, hr.eval_step hf ht, Function.update_of_ne (Ne.symm hv.1),
      ihlow hv.2.1, ihhigh hv.2.2]

/-- A variable that occurs matters: where it is decided the two sides
differ, and the variables above can be set so that it is reached. -/
theorem exists_eval_update_ne (hr : m.Reduced) (hf : m.Valid f) (hv : m.Occurs f v) :
    ∃ a b, m.eval f (Function.update a v b) ≠ m.eval f a := by
  refine hr.induction (P := fun f => m.Occurs f v →
    ∃ a b, m.eval f (Function.update a v b) ≠ m.eval f a) ?_ ?_ hf hv
  · exact fun f ht hv => absurd hv (hr.not_occurs_of_terminal ht)
  · intro f hf ht ihlow ihhigh hv
    by_cases hlevel : v = m.level f
    · subst hlevel
      have hne := mt (hr.eq_of_eval_eq (hr.low_valid hf ht) (hr.high_valid hf ht))
        (hr.low_ne_high hf ht)
      obtain ⟨a, ha⟩ := not_forall.mp hne
      refine ⟨Function.update a (m.level f) true, false, ?_⟩
      rwa [Function.update_idem, hr.eval_update_low hf ht, hr.eval_update_high hf ht]
    · rcases ((hr.occurs_step hf ht).mp hv).resolve_left hlevel with hv | hv
      · obtain ⟨a, b, hab⟩ := ihlow hv
        refine ⟨Function.update a (m.level f) false, b, ?_⟩
        rwa [Function.update_comm (Ne.symm hlevel), hr.eval_update_low hf ht,
          hr.eval_update_low hf ht]
      · obtain ⟨a, b, hab⟩ := ihhigh hv
        refine ⟨Function.update a (m.level f) true, b, ?_⟩
        rwa [Function.update_comm (Ne.symm hlevel), hr.eval_update_high hf ht,
          hr.eval_update_high hf ht]

/-- The variables that occur in a diagram are those its function depends on. -/
theorem occurs_iff (hr : m.Reduced) (hf : m.Valid f) :
    m.Occurs f v ↔ ∃ a b, m.eval f (Function.update a v b) ≠ m.eval f a := by
  refine ⟨hr.exists_eval_update_ne hf, ?_⟩
  rintro ⟨a, b, hab⟩
  by_contra hv
  exact hab (hr.eval_update_of_not_occurs hf hv a b)

/-- A diagram depends on some variables at most if no other occurs in it. -/
theorem dependsOn_iff_occurs (hr : m.Reduced) (hf : m.Valid f) :
    DependsOn (m.eval f) vars ↔ ∀ v, m.Occurs f v → v ∈ vars := by
  constructor
  · intro hd v hv
    obtain ⟨a, b, hab⟩ := hr.exists_eval_update_ne hf hv
    by_contra hout
    refine hab (hd fun w hw => Function.update_of_ne ?_ ..)
    rintro rfl
    exact hout hw
  · refine hr.induction (P := fun f => (∀ v, m.Occurs f v → v ∈ vars) →
      DependsOn (m.eval f) vars) ?_ ?_ hf
    · intro f ht _ a b _
      rw [eval_of_terminal ht, eval_of_terminal ht]
    · intro f hf ht ihlow ihhigh hvars a b hab
      have hstep {v : Nat} := hr.occurs_step (v := v) hf ht
      rw [hr.eval_step hf ht, hr.eval_step hf ht, hab _ (hvars _ (hstep.mpr (Or.inl rfl))),
        ihlow (fun v hv => hvars v (hstep.mpr (Or.inr (Or.inl hv)))) hab,
        ihhigh (fun v hv => hvars v (hstep.mpr (Or.inr (Or.inr hv)))) hab]

theorem level_mem_of_dependsOn (hr : m.Reduced) (hf : m.Valid f) (ht : f.isTerminal = false)
    (hd : DependsOn (m.eval f) vars) : m.level f ∈ vars :=
  (hr.dependsOn_iff_occurs hf).mp hd _ ((hr.occurs_step hf ht).mpr (Or.inl rfl))

end Reduced

/-- Diagrams of one function have the same variables, also in different
managers. -/
theorem occurs_congr {m' : Manager} (hr : m.Reduced) (hr' : m'.Reduced) (hf : m.Valid f)
    (hg : m'.Valid g) (h : ∀ a, m'.eval g a = m.eval f a) : m'.Occurs g v ↔ m.Occurs f v := by
  rw [hr.occurs_iff hf, hr'.occurs_iff hg]
  simp only [h]

end BranchingTime.Manager
