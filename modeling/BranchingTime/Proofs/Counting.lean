import Mathlib.Data.Fintype.BigOperators
import Mathlib.Logic.Function.DependsOn
import Mathlib.Order.Interval.Finset.Nat
import Mathlib.Tactic.Ring
import BranchingTime.Proofs.PathEnumeration

/-!
# Counting is exact

`Manager.models n f` are the assignments of the variables `1..=n` that make
`f` true. At its first variable a diagram takes half of either branch
(`Reduced.two_mul_card_models`), and the variables above it double the
number. So a count from the level of a diagram on, doubled for every
variable above, is the number of models (`Counts`), and what is counted at
the root is that number.

Only a node beyond the counted variables stops the count, and its variable
occurs in the diagram (`Reduced.satCount_cases`).

A variable that does not occur doubles the number of models
(`Reduced.card_models_succ`). The count follows as long as the manager has that
variable; over more variables than the manager has it stays what it was
(`WellFormed.satCount_succ_iff`).
-/

namespace BranchingTime

namespace Assignment

variable {n : Nat}

/-- The assignment that gives the variables `1..=n` the given values. -/
def extend (b : Finset.Icc 1 n → Bool) : Assignment :=
  fun v => if h : v ∈ Finset.Icc 1 n then b ⟨v, h⟩ else false

/-- Changes the value of one variable. -/
def flipAt (v : Finset.Icc 1 n) (b : Finset.Icc 1 n → Bool) : Finset.Icc 1 n → Bool :=
  Function.update b v (!b v)

theorem flipAt_involutive (v : Finset.Icc 1 n) : Function.Involutive (flipAt v) := by
  intro b
  simp [flipAt]

theorem extend_flipAt (v : Finset.Icc 1 n) (b : Finset.Icc 1 n → Bool) :
    extend (flipAt v b) = Function.update (extend b) v.val (!b v) := by
  funext w
  by_cases hw : w = v.val
  · subst hw
    simp only [extend, v.property, dif_pos, Function.update_self, flipAt]
  · rw [Function.update_of_ne hw]
    unfold extend
    split
    · exact Function.update_of_ne (fun heq => hw (congrArg Subtype.val heq)) ..
    · rfl

end Assignment

namespace Manager

open Assignment Diagram

variable {m : Manager} {f : Handle} {n : Nat}

/-! ## Models -/

/-- The assignments of the variables `1..=n` that make `f` true. -/
def models (m : Manager) (n : Nat) (f : Handle) : Finset (Finset.Icc 1 n → Bool) :=
  Finset.univ.filter fun b => m.eval f (.extend b) = true

theorem card_models (n : Nat) (f : Handle) :
    (m.models n f).card = ∑ b : Finset.Icc 1 n → Bool, (m.eval f (.extend b)).toNat := by
  rw [models, Finset.card_filter]
  exact Finset.sum_congr rfl fun b _ => by cases m.eval f (.extend b) <;> rfl

theorem card_models_one (n : Nat) : (m.models n .one).card = 2 ^ n := by
  simp [models]

theorem card_models_zero (n : Nat) : (m.models n .zero).card = 0 := by
  simp [models]

/-- An assignment and its neighbour at the first variable go down both
branches, one each. So twice the models are those of the two branches. -/
theorem Reduced.two_mul_card_models (hr : m.Reduced) (h : m.Valid f) (hf : f.isTerminal = false)
    (hle : m.level f ≤ n) :
    2 * (m.models n f).card = (m.models n (m.low f)).card + (m.models n (m.high f)).card := by
  have hmem : m.level f ∈ Finset.Icc 1 n := Finset.mem_Icc.mpr ⟨hr.level_pos h, hle⟩
  have hpair (b : Finset.Icc 1 n → Bool) :
      (m.eval f (.extend b)).toNat + (m.eval f (.extend (flipAt ⟨m.level f, hmem⟩ b))).toNat
        = (m.eval (m.low f) (.extend b)).toNat + (m.eval (m.high f) (.extend b)).toNat := by
    have hvalue : Assignment.extend b (m.level f) = b ⟨m.level f, hmem⟩ := dif_pos hmem
    rw [hr.eval_step h hf, hvalue, extend_flipAt]
    cases b ⟨m.level f, hmem⟩ with
    | false => rw [if_neg Bool.false_ne_true, Bool.not_false, hr.eval_update_high h hf]
    | true => rw [if_pos rfl, Bool.not_true, hr.eval_update_low h hf, Nat.add_comm]
  have hneighbours : ∑ b, (m.eval f (.extend (flipAt ⟨m.level f, hmem⟩ b))).toNat
      = ∑ b, (m.eval f (.extend b)).toNat :=
    Equiv.sum_comp (flipAt_involutive ⟨m.level f, hmem⟩).toPerm
      fun b => (m.eval f (.extend b)).toNat
  simp only [card_models]
  calc 2 * ∑ b, (m.eval f (.extend b)).toNat
      = ∑ b, (m.eval f (.extend b)).toNat
        + ∑ b, (m.eval f (.extend (flipAt ⟨m.level f, hmem⟩ b))).toNat := by
        rw [hneighbours, Nat.two_mul]
    _ = ∑ b, ((m.eval (m.low f) (.extend b)).toNat + (m.eval (m.high f) (.extend b)).toNat) := by
        rw [← Finset.sum_add_distrib]
        exact Finset.sum_congr rfl fun b _ => hpair b
    _ = _ := Finset.sum_add_distrib

/-! ## How counts end -/

section Ends

variable {α β : Type} {x : CountM α} {g : α → CountM β} {memo : Std.HashMap Handle Nat}
  {Q : α → Std.HashMap Handle Nat → Prop} {E E' : Fault → Prop}

/-- From `memo`, counting ends in a result and a memo with `Q`, or in a fault
with `E`. -/
def CountEnds (x : CountM α) (memo : Std.HashMap Handle Nat)
    (Q : α → Std.HashMap Handle Nat → Prop) (E : Fault → Prop) : Prop :=
  (∃ a memo', x memo = .ok (a, memo') ∧ Q a memo') ∨ ∃ e, x memo = .error e ∧ E e

/-- A step that only reads goes on with what it read. -/
theorem countEnds_bind_of_eq {R : β → Std.HashMap Handle Nat → Prop} {a : α}
    {memo' : Std.HashMap Handle Nat} (hx : x memo = .ok (a, memo'))
    (hg : CountEnds (g a) memo' R E) : CountEnds (x >>= g) memo R E := by
  have hrun : (x >>= g) memo = (x memo).bind fun p => g p.1 p.2 := rfl
  unfold CountEnds
  rwa [hrun, hx]

theorem CountEnds.bind {R : β → Std.HashMap Handle Nat → Prop} (hx : CountEnds x memo Q E)
    (hE : ∀ e, E e → E' e) (hg : ∀ a memo', Q a memo' → CountEnds (g a) memo' R E') :
    CountEnds (x >>= g) memo R E' := by
  have hrun : (x >>= g) memo = (x memo).bind fun p => g p.1 p.2 := rfl
  rcases hx with ⟨a, memo', hx, ha⟩ | ⟨e, hx, he⟩
  · exact countEnds_bind_of_eq hx (hg a memo' ha)
  · exact Or.inr ⟨e, by rw [hrun, hx]; rfl, hE e he⟩

theorem countEnds_pure {a : α} (h : Q a memo) : CountEnds (pure a) memo Q E :=
  Or.inl ⟨a, memo, rfl, h⟩

theorem countEnds_throw {e : Fault} (h : E e) : CountEnds (throw e) memo Q E :=
  Or.inr ⟨e, rfl, h⟩

end Ends

/-! ## One count for every diagram -/

/-- All variables of `f` are counted, and `c` is the number of its models, but
for the variables above it. More variables than the manager has are not
counted. -/
structure Counts (m : Manager) (n : Nat) (f : Handle) (c : Nat) : Prop where
  vars_le : ∀ v, m.Occurs f v → v ≤ n
  count_eq : c * 2 ^ (min (m.level f) (n + 1) - 1) = (m.models (min n m.numVars) f).card

/-- A count of `f` meets `v` as the first variable beyond the counted ones. Low
branches are counted first. -/
inductive Exceeds (m : Manager) (n : Nat) : Handle → Nat → Prop
  | here {f : Handle} (hf : f.isTerminal = false) (hlt : n < m.level f) :
      Exceeds m n f (m.level f)
  | low {f : Handle} {v : Nat} (hf : f.isTerminal = false) (hle : m.level f ≤ n)
      (h : Exceeds m n (m.low f) v) : Exceeds m n f v
  | high {f : Handle} {v : Nat} (hf : f.isTerminal = false) (hle : m.level f ≤ n)
      (hlow : ∀ w, m.Occurs (m.low f) w → w ≤ n) (h : Exceeds m n (m.high f) v) :
      Exceeds m n f v

theorem skipped_of_lt {v : Nat} (hlevel : v < m.level f) (hn : v ≤ n) :
    m.skipped n v f = .ok (min (m.level f) (n + 1) - v - 1) := by
  unfold skipped
  rw [if_pos (by omega)]

namespace Reduced

theorem occurs_of_exceeds (hr : m.Reduced) (h : m.Valid f) {v : Nat} (hv : m.Exceeds n f v) :
    m.Occurs f v ∧ n < v := by
  induction hv with
  | here hf hlt => exact ⟨(hr.occurs_step h hf).mpr (Or.inl rfl), hlt⟩
  | low hf _ _ ih =>
      obtain ⟨ho, hlt⟩ := ih (hr.low_valid h hf)
      exact ⟨(hr.occurs_step h hf).mpr (Or.inr (Or.inl ho)), hlt⟩
  | high hf _ _ _ ih =>
      obtain ⟨ho, hlt⟩ := ih (hr.high_valid h hf)
      exact ⟨(hr.occurs_step h hf).mpr (Or.inr (Or.inr ho)), hlt⟩

theorem counts_zero (hr : m.Reduced) : m.Counts n .zero 0 where
  vars_le _ ho := absurd ho (hr.not_occurs_of_terminal rfl)
  count_eq := by rw [card_models_zero, Nat.zero_mul]

theorem counts_one (hr : m.Reduced) : m.Counts n .one 1 where
  vars_le _ ho := absurd ho (hr.not_occurs_of_terminal rfl)
  count_eq := by
    rw [card_models_one, level_one, Nat.one_mul]
    congr 1
    omega

/-- The models of a node are counted from those of its children, each doubled
for every variable that is skipped on the way. -/
theorem counts_node (hr : m.Reduced) (h : m.Valid f) (hf : f.isTerminal = false)
    (hle : m.level f ≤ n) {c0 c1 : Nat} (h0 : m.Counts n (m.low f) c0)
    (h1 : m.Counts n (m.high f) c1) :
    m.Counts n f (c0 * 2 ^ (min (m.level (m.low f)) (n + 1) - m.level f - 1)
      + c1 * 2 ^ (min (m.level (m.high f)) (n + 1) - m.level f - 1)) where
  vars_le v ho := by
    rcases (hr.occurs_step h hf).mp ho with rfl | ho | ho
    · exact hle
    · exact h0.vars_le v ho
    · exact h1.vars_le v ho
  count_eq := by
    have hpos := hr.level_pos h
    have hmax := hr.level_lt_of_not_terminal h hf
    have hlow := hr.level_lt_low h hf
    have hhigh := hr.level_lt_high h hf
    -- the variables above a child are those above the node, the node's own, and the skipped ones
    have hexp : ∀ l, m.level f < l → min l (n + 1) - 1
        = (min l (n + 1) - m.level f - 1) + (m.level f - 1) + 1 := by
      intro l hl
      omega
    have htwice := hr.two_mul_card_models h hf (n := min n m.numVars) (by omega)
    rw [← h0.count_eq, ← h1.count_eq, hexp _ hlow, hexp _ hhigh] at htwice
    have hroot : min (m.level f) (n + 1) = m.level f := by omega
    rw [hroot]
    refine Nat.eq_of_mul_eq_mul_left Nat.two_pos ?_
    rw [htwice]
    ring

/-- Counting, with counts that are right so far, counts right, or meets a
variable beyond the counted ones. -/
theorem countEnds_countWithin (hr : m.Reduced) {depth : Nat} (h : m.Valid f)
    (hdepth : m.numVars + 2 ≤ depth + m.level f) {memo : Std.HashMap Handle Nat}
    (hmemo : MemoHolds (m.Counts n) memo) :
    CountEnds (m.countWithin n depth f) memo
      (fun c memo' => m.Counts n f c ∧ MemoHolds (m.Counts n) memo')
      (fun e => ∃ v, m.Exceeds n f v ∧ e = .beyond v n) := by
  induction depth generalizing f memo with
  | zero =>
      have := hr.level_le h
      omega
  | succ depth ih =>
      rw [countWithin]
      split
      · next hzero => exact countEnds_pure ⟨hzero ▸ hr.counts_zero, hmemo⟩
      next hzero =>
      split
      · next hone => exact countEnds_pure ⟨hone ▸ hr.counts_one, hmemo⟩
      next hone =>
      have hf : f.isTerminal = false := Handle.isTerminal_eq_false hone hzero
      have htop : m.topVar f = m.level f := by simp [level, hf]
      have hlow := hr.level_lt_low h hf
      have hhigh := hr.level_lt_high h hf
      refine countEnds_bind_of_eq (a := memo) rfl ?_
      rw [htop]
      split
      · next c hc => exact countEnds_pure ⟨hmemo f c hc, hmemo⟩
      next hnew =>
      by_cases hbeyond : n < m.level f
      · simp only [if_pos hbeyond]
        exact countEnds_throw ⟨m.level f, .here hf hbeyond, rfl⟩
      have hle : m.level f ≤ n := Nat.not_lt.mp hbeyond
      simp only [if_neg hbeyond, skipped_of_lt hlow hle, skipped_of_lt hhigh hle]
      refine (ih (hr.low_valid h hf) (by omega) hmemo).bind ?_ ?_
      · intro e hv
        obtain ⟨v, hv, he⟩ := hv
        exact ⟨v, .low hf hle hv, he⟩
      intro c0 memo0 hlow0
      obtain ⟨h0, hmemo0⟩ := hlow0
      refine countEnds_bind_of_eq rfl ((ih (hr.high_valid h hf) (by omega) hmemo0).bind ?_ ?_)
      · intro e hv
        obtain ⟨v, hv, he⟩ := hv
        exact ⟨v, .high hf hle h0.vars_le hv, he⟩
      intro c1 memo1 hhigh1
      obtain ⟨h1, hmemo1⟩ := hhigh1
      have hnode := hr.counts_node h hf hle h0 h1
      exact Or.inl ⟨_, _, rfl, hnode, hmemo1.insert hnode⟩

/-- A count is exact, or it stops at the first variable beyond the counted ones. -/
theorem satCount_ends (hr : m.Reduced) (h : m.Valid f) (n : Nat) :
    (m.satCount f n = .ok (m.models (min n m.numVars) f).card ∧ ∀ v, m.Occurs f v → v ≤ n)
      ∨ ∃ v, m.Exceeds n f v ∧ m.satCount f n = .error (.beyond v n) := by
  have hdepth : m.numVars + 2 ≤ m.depthBound + m.level f := by
    have := hr.level_pos h
    rw [depthBound]
    omega
  rcases hr.countEnds_countWithin (n := n) h hdepth MemoHolds.empty with
    ⟨c, memo, hrun, hcounts, -⟩ | ⟨_, hrun, v, hv, rfl⟩
  · left
    rw [satCount, hrun]
    exact ⟨congrArg Except.ok hcounts.count_eq, hcounts.vars_le⟩
  · right
    rw [satCount, hrun]
    exact ⟨v, hv, rfl⟩

/-- A count is exact, or it meets a variable beyond the counted ones. -/
theorem satCount_cases (hr : m.Reduced) (h : m.Valid f) (n : Nat) :
    (m.satCount f n = .ok (m.models (min n m.numVars) f).card ∧ ∀ v, m.Occurs f v → v ≤ n)
      ∨ ∃ v, m.Occurs f v ∧ n < v ∧ m.satCount f n = .error (.beyond v n) := by
  refine (hr.satCount_ends h n).imp_right fun hstop => ?_
  obtain ⟨v, hv, hrun⟩ := hstop
  obtain ⟨ho, hlt⟩ := hr.occurs_of_exceeds h hv
  exact ⟨v, ho, hlt, hrun⟩

/-- A diagram without variables beyond the counted ones is counted over those
of them that the manager has. -/
theorem satCount_eq (hr : m.Reduced) (h : m.Valid f) (hvars : ∀ v, m.Occurs f v → v ≤ n) :
    m.satCount f n = .ok (m.models (min n m.numVars) f).card := by
  rcases hr.satCount_cases h n with ⟨hcount, -⟩ | ⟨v, ho, hv, -⟩
  · exact hcount
  · exact absurd (hvars v ho) (Nat.not_le.mpr hv)

theorem satCount_returns (hr : m.Reduced) (h : m.Valid f)
    (hd : DependsOn (m.eval f) {v | v ≤ n}) : ∃ count, m.satCount f n = .ok count :=
  ⟨_, hr.satCount_eq h ((hr.dependsOn_iff_occurs h).mp hd)⟩

end Reduced

/-- Over variables of a well-formed manager, a diagram without others has as
many models as are counted. Any other diagram is not counted: the fault names
one of its variables that lies beyond. -/
theorem WellFormed.satCount_exact (hm : m.WellFormed) (h : m.Valid f) (hn : n ≤ m.numVars) :
    ((∀ v, m.Occurs f v → v ≤ n) → m.satCount f n = .ok (m.models n f).card)
    ∧ ((∃ v, m.Occurs f v ∧ n < v) →
      ∃ v, m.Occurs f v ∧ n < v ∧ m.satCount f n = .error (.beyond v n)) := by
  have hcases := hm.satCount_cases h n
  rw [min_eq_left hn] at hcases
  constructor
  · intro hvars
    rcases hcases with ⟨hcount, -⟩ | ⟨v, ho, hv, -⟩
    · exact hcount
    · exact absurd (hvars v ho) (Nat.not_le.mpr hv)
  · rintro ⟨v, ho, hv⟩
    rcases hcases with ⟨-, hvars⟩ | hbeyond
    · exact absurd (hvars v ho) (Nat.not_le.mpr hv)
    · exact hbeyond

/-- "The first or the third" of four variables, a complemented diagram that
skips levels: twelve of sixteen assignments make it true, and it is not counted
over two variables. -/
theorem WellFormed.satCount_exact_disjunction : ∃ (m : Manager) (f : Handle),
    m.WellFormed ∧ m.Valid f ∧ m.numVars = 4 ∧ (∀ a, m.eval f a = (a 1 || a 3))
      ∧ m.satCount f 4 = .ok 12 ∧ m.satCount f 2 = .error (.beyond 3 2) := by
  obtain ⟨m0, h0⟩ : ∃ m, new? 4 4 = .ok m := ⟨_, rfl⟩
  obtain ⟨hm0, hn0⟩ := wellFormed_new? h0
  have hcube : Returns (Diagram.cube [-1, -3]) m0 _ :=
    returns_cube hm0 (by decide) (by rw [hn0]; decide) (by decide)
  obtain ⟨r, m, hrun, y⟩ := hcube.exists_ok
  have hn : m.numVars = 4 := y.extends_.numVars_eq.trans hn0
  have heval (a : Assignment) : m.eval (-r) a = (a 1 || a 3) := by
    rw [y.wellFormed.eval_neg y.valid, Bool.eq_iff_iff, Bool.not_eq_true', ← Bool.not_eq_true,
      y.eval_iff]
    cases h1 : a 1 <;> cases h3 : a 3 <;> simp [Assignment.satisfies, h1, h3]
  -- only the two variables matter
  have hoccurs {v : Nat} (hv : m.Occurs (-r) v) : v = 1 ∨ v = 3 := by
    obtain ⟨a, b, hab⟩ := (y.wellFormed.occurs_iff y.valid.neg).mp hv
    by_contra hne
    rw [not_or] at hne
    rw [heval, heval, Function.update_of_ne (Ne.symm hne.1),
      Function.update_of_ne (Ne.symm hne.2)] at hab
    exact hab rfl
  have hthird : m.Occurs (-r) 3 := by
    refine (y.wellFormed.occurs_iff y.valid.neg).mpr ⟨fun _ => false, true, ?_⟩
    rw [heval, heval]
    decide
  refine ⟨m, -r, y.wellFormed, y.valid.neg, hn, heval, ?_, ?_⟩
  · rw [(y.wellFormed.satCount_exact y.valid.neg hn.ge).1 fun v hv => by
      rcases hoccurs hv with rfl | rfl <;> decide]
    simp only [models, heval]
    decide
  · obtain ⟨v, hv, hlt, hbeyond⟩ := (y.wellFormed.satCount_exact (n := 2) y.valid.neg (by omega)).2
      ⟨3, hthird, by decide⟩
    obtain rfl : v = 3 := (hoccurs hv).resolve_left (by omega)
    exact hbeyond

/-! ## One variable more -/

/-- A variable below all those of a diagram doubles its models. -/
theorem Reduced.card_models_succ (hr : m.Reduced) (h : m.Valid f)
    (hvars : ∀ v, m.Occurs f v → v ≤ n) :
    (m.models (n + 1) f).card = 2 * (m.models n f).card := by
  refine hr.induction (P := fun f => (∀ v, m.Occurs f v → v ≤ n) →
    (m.models (n + 1) f).card = 2 * (m.models n f).card) ?_ ?_ h hvars
  · intro f ht _
    rcases Handle.eq_one_or_eq_zero (Handle.isTerminal_iff.mp ht) with rfl | rfl
    · rw [card_models_one, card_models_one, Nat.pow_succ']
    · rw [card_models_zero, card_models_zero]
  · intro f h hf ihlow ihhigh hvars
    have hstep {v : Nat} := hr.occurs_step (v := v) h hf
    have hle : m.level f ≤ n := hvars _ (hstep.mpr (Or.inl rfl))
    have hlow := ihlow fun v hv => hvars v (hstep.mpr (Or.inr (Or.inl hv)))
    have hhigh := ihhigh fun v hv => hvars v (hstep.mpr (Or.inr (Or.inr hv)))
    -- the models of the branches are halved alike on both sides
    have hhalves := hr.two_mul_card_models h hf hle
    have hhalves' := hr.two_mul_card_models (n := n + 1) h hf (by omega)
    omega

/-- The variables of a manager are all that its diagrams depend on, so only the
constant false has no models over them. -/
theorem Reduced.card_models_eq_zero_iff (hr : m.Reduced) (h : m.Valid f) :
    (m.models m.numVars f).card = 0 ↔ f = .zero := by
  constructor
  · intro hcard
    refine (hr.eq_iff_eval h m.valid_zero).mpr fun a => ?_
    let b : Finset.Icc 1 m.numVars → Bool := fun v => a v
    have hd : DependsOn (m.eval f) {v | 1 ≤ v ∧ v ≤ m.numVars} :=
      (hr.dependsOn_iff_occurs h).mpr fun v hv => hr.occurs_range hv
    have hext : m.eval f a = m.eval f (.extend b) := by
      refine hd fun v hv => ?_
      rw [extend, dif_pos (Finset.mem_Icc.mpr hv)]
    have hnot : b ∉ m.models m.numVars f := by
      rw [Finset.card_eq_zero.mp hcard]
      exact Finset.notMem_empty b
    rw [hext, eval_zero]
    simpa [models] using hnot
  · rintro rfl
    exact card_models_zero _

/-- A diagram without variables beyond `n` is counted over `n` and over `n + 1`
variables. The second count is twice the first exactly if the manager has the
variable `n + 1`, or if there is nothing to count; over more variables than the
manager has, the count stays the same. -/
theorem WellFormed.satCount_succ_iff (hm : m.WellFormed) (h : m.Valid f)
    (hvars : ∀ v, m.Occurs f v → v ≤ n) :
    ∃ c, m.satCount f n = .ok c
      ∧ (m.satCount f (n + 1) = .ok (2 * c) ↔ n < m.numVars ∨ f = .zero)
      ∧ (m.numVars ≤ n → m.satCount f (n + 1) = .ok c) := by
  have hr := hm.toReduced
  refine ⟨_, hr.satCount_eq h hvars, ?_⟩
  rw [hr.satCount_eq h fun v hv => Nat.le_succ_of_le (hvars v hv), Except.ok.injEq]
  rcases Nat.lt_or_ge n m.numVars with hn | hn
  · have hmin : min (n + 1) m.numVars = n + 1 := by omega
    rw [hmin, Nat.min_eq_left hn.le, hr.card_models_succ h hvars]
    exact ⟨iff_of_true rfl (Or.inl hn), fun hle => absurd hn (Nat.not_lt.mpr hle)⟩
  · have hmin : min (n + 1) m.numVars = m.numVars := by omega
    rw [hmin, Nat.min_eq_right hn, ← hr.card_models_eq_zero_iff h]
    exact ⟨by omega, fun _ => rfl⟩

/-- The parity of two variables, in a manager that has no others: over a third
variable the count is the same, and not doubled. -/
theorem WellFormed.satCount_succ_iff_parity : parityManager.WellFormed
    ∧ parityManager.Valid (-.ofIndex 3) ∧ (∀ v, parityManager.Occurs (-.ofIndex 3) v → v ≤ 2)
    ∧ parityManager.satCount (-.ofIndex 3) 2 = .ok 2
    ∧ parityManager.satCount (-.ofIndex 3) 3 = .ok 2
    ∧ parityManager.satCount (-.ofIndex 3) 3 ≠ .ok 4 := by
  have hvalid : parityManager.Valid (-.ofIndex 3) := Or.inr ⟨_, rfl⟩
  have hvars (v : Nat) (hv : parityManager.Occurs (-.ofIndex 3) v) : v ≤ 2 :=
    (wellFormed_parityManager.occurs_range hv).2
  have htwo : parityManager.satCount (-.ofIndex 3) 2 = .ok 2 := by
    rw [wellFormed_parityManager.satCount_eq hvalid hvars]
    decide
  obtain ⟨c, hc, hdouble, hsame⟩ := satCount_succ_iff wellFormed_parityManager hvalid hvars
  obtain rfl : c = 2 := Except.ok.inj (hc.symm.trans htwo)
  refine ⟨wellFormed_parityManager, hvalid, hvars, htwo, hsame (by decide), fun hfour => ?_⟩
  exact absurd (hdouble.mp hfour) (by decide)

end Manager

end BranchingTime
