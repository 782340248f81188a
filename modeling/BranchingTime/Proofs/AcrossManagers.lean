import Mathlib.Data.Set.Card
import BranchingTime.Proofs.CollectionExact
import BranchingTime.Proofs.Counting
import BranchingTime.Proofs.SameHandle

/-!
# One diagram for one function, in every manager

Two managers store their nodes in different cells, and a diagram has another
handle in each. What can be read off a diagram is the same in both, as long as
it is the diagram of the same function: its size, its counts, its paths and
their text (`WellFormed.readings_eq`).

For paths and counts the two diagrams are followed side by side, node by node
(`NodesAgree`). The size needs no second manager. A node that a diagram needs
is what is left of its function when the first few variables are fixed
(`Reduced.exists_remainder_of_needed`), and what is left is always such a node
or a constant (`Reduced.exists_needed_of_remainder`). As a cell serves a
function and its complement, the cells of a diagram are the remainders that are
not constant, up to complement (`Reduced.nodeCount_eq`).
-/

namespace BranchingTime

namespace Manager

variable {m m' : Manager} {f f' g : Handle} {i n v : Nat}

/-! ## Counts -/

theorem models_congr (heq : m.eval f = m'.eval f') (n : Nat) : m.models n f = m'.models n f' := by
  rw [models, models, heq]

theorem Exceeds.unique {w : Nat} (h : m.Exceeds n f v) (h' : m.Exceeds n f w)
    (hr : m.Reduced) (hf : m.Valid f) : v = w := by
  induction h with
  | here ht hlt =>
      cases h' with
      | here => rfl
      | low _ hle _ => exact absurd hle (Nat.not_le.mpr hlt)
      | high _ hle _ _ => exact absurd hle (Nat.not_le.mpr hlt)
  | low ht hle hv ih =>
      cases h' with
      | here _ hlt => exact absurd hle (Nat.not_le.mpr hlt)
      | low _ _ hw => exact ih hw (hr.low_valid hf ht)
      | high _ _ hlow _ =>
          obtain ⟨ho, hlt⟩ := hr.occurs_of_exceeds (hr.low_valid hf ht) hv
          exact absurd (hlow _ ho) (Nat.not_le.mpr hlt)
  | high ht hle hlow hv ih =>
      cases h' with
      | here _ hlt => exact absurd hle (Nat.not_le.mpr hlt)
      | low _ _ hw =>
          obtain ⟨ho, hlt⟩ := hr.occurs_of_exceeds (hr.low_valid hf ht) hw
          exact absurd (hlow _ ho) (Nat.not_le.mpr hlt)
      | high _ _ _ hw => exact ih hw (hr.high_valid hf ht)

/-- A count meets the same variable first in every diagram of a function. -/
theorem Exceeds.of_eval_eq (h : m.Exceeds n f v) (hr : m.Reduced) (hr' : m'.Reduced)
    (hf : m.Valid f) (hf' : m'.Valid f') (heq : m.eval f = m'.eval f') : m'.Exceeds n f' v := by
  induction h generalizing f' with
  | here ht hlt =>
      obtain ⟨ht', hlevel, -, -⟩ := hr.nodesAgree_of_eval_eq hr' hf hf' ht heq
      rw [hlevel] at hlt ⊢
      exact .here ht' hlt
  | low ht hle _ ih =>
      obtain ⟨ht', hlevel, hlow, -⟩ := hr.nodesAgree_of_eval_eq hr' hf hf' ht heq
      exact .low ht' (hlevel ▸ hle) (ih (hr.low_valid hf ht) (hr'.low_valid hf' ht') hlow)
  | high ht hle hbelow _ ih =>
      obtain ⟨ht', hlevel, hlow, hhigh⟩ := hr.nodesAgree_of_eval_eq hr' hf hf' ht heq
      refine .high ht' (hlevel ▸ hle) (fun w hw => hbelow w ?_)
        (ih (hr.high_valid hf ht) (hr'.high_valid hf' ht') hhigh)
      exact (occurs_congr hr hr' (hr.low_valid hf ht) (hr'.low_valid hf' ht')
        fun a => (congrFun hlow a).symm).mp hw

/-- Diagrams of one function are counted alike, and where they cannot be
counted, for the same reason. -/
theorem Reduced.satCount_congr (hr : m.Reduced) (hr' : m'.Reduced) (hf : m.Valid f)
    (hf' : m'.Valid f') (hvars : m.numVars = m'.numVars) (heq : m.eval f = m'.eval f') (n : Nat) :
    m.satCount f n = m'.satCount f' n := by
  have hoccurs {w : Nat} : m'.Occurs f' w ↔ m.Occurs f w :=
    occurs_congr hr hr' hf hf' fun a => (congrFun heq a).symm
  rcases hr.satCount_ends hf n with ⟨hcount, hle⟩ | ⟨v, hv, hcount⟩
  · rw [hcount, hr'.satCount_eq hf' fun w hw => hle w (hoccurs.mp hw), hvars,
      models_congr heq]
  · rcases hr'.satCount_ends hf' n with ⟨-, hle⟩ | ⟨w, hw, hcount'⟩
    · obtain ⟨ho, hlt⟩ := hr.occurs_of_exceeds hf hv
      exact absurd (hle v (hoccurs.mpr ho)) (Nat.not_le.mpr hlt)
    · rw [hcount, hcount', (hv.of_eval_eq hr hr' hf hf' heq).unique hw hr' hf']

end Manager

/-! ## What is left of a function -/

/-- What is left of `φ` when the variables `1..=i` have the values that `a`
gives them. -/
def remainder (φ : Assignment → Bool) (i : Nat) (a : Assignment) : Assignment → Bool :=
  fun b => φ fun v => if 1 ≤ v ∧ v ≤ i then a v else b v

/-- A function together with its complement. -/
def upToComplement (g : Assignment → Bool) : Set (Assignment → Bool) := {g, fun a => !g a}

/-- What is left of `φ` when its first variables are fixed, for any number of
them and all their values, without the constants and up to complement. -/
def remainders (φ : Assignment → Bool) : Set (Set (Assignment → Bool)) :=
  {c | ∃ i a, c = upToComplement (remainder φ i a) ∧ ¬ ∃ b, ∀ a', remainder φ i a a' = b}

theorem upToComplement_not (g : Assignment → Bool) :
    upToComplement (fun a => !g a) = upToComplement g := by
  simp only [upToComplement, Bool.not_not]
  exact Set.pair_comm _ _

namespace Manager

variable {m m' : Manager} {f f' g : Handle} {i n v : Nat}

namespace Reduced

/-- The child of `f` for a value of its variable. -/
theorem eval_update_level (hr : m.Reduced) (h : m.Valid f) (hf : f.isTerminal = false)
    (a : Assignment) (b : Bool) :
    m.eval f (Function.update a (m.level f) b) = m.eval (if b then m.high f else m.low f) a := by
  cases b with
  | false => exact hr.eval_update_low h hf a
  | true => exact hr.eval_update_high h hf a

/-- Fixing variables above a diagram changes nothing. -/
theorem remainder_above (hr : m.Reduced) (h : m.Valid f) (hi : i < m.level f) (a : Assignment) :
    remainder (m.eval f) i a = m.eval f := by
  funext b
  refine hr.eval_congr h fun v hv => if_neg ?_
  omega

/-- Fixing the first variable of a diagram leads to one of its children. -/
theorem remainder_below (hr : m.Reduced) (h : m.Valid f) (hf : f.isTerminal = false)
    (hi : m.level f ≤ i) (a : Assignment) :
    remainder (m.eval f) i a
      = remainder (m.eval (if a (m.level f) then m.high f else m.low f)) i a := by
  funext b
  have hvalue : (if 1 ≤ m.level f ∧ m.level f ≤ i then a (m.level f) else b (m.level f))
      = a (m.level f) := if_pos ⟨hr.level_pos h, hi⟩
  rw [remainder, hr.eval_step h hf]
  simp only [hvalue]
  cases a (m.level f) <;> rfl

theorem child_valid (hr : m.Reduced) (h : m.Valid f) (hf : f.isTerminal = false) (b : Bool) :
    m.Valid (if b then m.high f else m.low f) := by
  cases b with
  | false => exact hr.low_valid h hf
  | true => exact hr.high_valid h hf

theorem needed_child (hr : m.Reduced) (h : m.Valid f) (hf : f.isTerminal = false) (b : Bool) :
    m.Needed [f] (if b then m.high f else m.low f).index := by
  obtain ⟨k, hk⟩ := h.stores hf
  cases b with
  | false =>
      rw [if_neg Bool.false_ne_true, hr.low_of_stores hk, Handle.index_complementIf]
      exact .low (m.needed_self f) hk
  | true =>
      rw [if_pos rfl, hr.high_of_stores hk, Handle.index_complementIf]
      exact .high (m.needed_self f) hk

/-- What is left when variables are fixed is a diagram that `f` needs. -/
theorem exists_needed_of_remainder (hr : m.Reduced) (h : m.Valid f) (i : Nat) (a : Assignment) :
    ∃ g, m.Valid g ∧ m.Needed [f] g.index ∧ m.eval g = remainder (m.eval f) i a := by
  refine hr.induction (P := fun f => m.Valid f →
    ∃ g, m.Valid g ∧ m.Needed [f] g.index ∧ m.eval g = remainder (m.eval f) i a) ?_ ?_ h h
  · intro f ht h
    refine ⟨f, h, m.needed_self f, ?_⟩
    funext b
    rw [remainder, eval_of_terminal ht, eval_of_terminal ht]
  · intro f h hf ihlow ihhigh _
    rcases Nat.lt_or_ge i (m.level f) with hi | hi
    · exact ⟨f, h, m.needed_self f, (hr.remainder_above h hi a).symm⟩
    · -- the value of the first variable says which child to go on with
      have ih : ∃ g, m.Valid g
          ∧ m.Needed [if a (m.level f) then m.high f else m.low f] g.index
          ∧ m.eval g = remainder (m.eval (if a (m.level f) then m.high f else m.low f)) i a := by
        cases a (m.level f) with
        | false => exact ihlow (hr.low_valid h hf)
        | true => exact ihhigh (hr.high_valid h hf)
      obtain ⟨g, hg, hneed, heval⟩ := ih
      exact ⟨g, hg, hneed.trans (hr.needed_child h hf _),
        heval.trans (hr.remainder_below h hf hi a).symm⟩

/-- The children of what is left are left when the variables up to the first
one of it are fixed. Those in between do not matter. -/
theorem remainder_child (hr : m.Reduced) (hg : m.Valid g) (ht : g.isTerminal = false)
    {φ : Assignment → Bool} {k : Nat} {a : Assignment} (hk : k < m.level g)
    (h : m.eval g = remainder φ k a) (b : Bool) :
    m.eval (if b then m.high g else m.low g)
      = remainder φ (m.level g) fun v => if v ≤ k then a v else b := by
  funext c
  have hpos := hr.level_pos hg
  have hfix : m.eval g (Function.update c (m.level g) b)
      = m.eval g fun v => if 1 ≤ v ∧ v ≤ m.level g then b else c v := by
    refine hr.eval_congr hg fun v hv => ?_
    rcases Nat.eq_or_lt_of_le hv with rfl | hlt
    · rw [Function.update_self, if_pos ⟨hpos, Nat.le_refl _⟩]
    · rw [Function.update_of_ne (Nat.ne_of_gt hlt), if_neg (by omega)]
  rw [← hr.eval_update_level hg ht, hfix, h]
  refine congrArg φ (funext fun v => ?_)
  show (if 1 ≤ v ∧ v ≤ k then a v else if 1 ≤ v ∧ v ≤ m.level g then b else c v)
    = if 1 ≤ v ∧ v ≤ m.level g then (if v ≤ k then a v else b) else c v
  by_cases hv : 1 ≤ v ∧ v ≤ m.level g
  · rw [if_pos hv, if_pos hv]
    simp only [hv.1, true_and]
  · rw [if_neg hv, if_neg hv, if_neg (by omega)]

/-- A cell that `f` needs is what is left of `f` when some first variables are
fixed, or its complement. -/
theorem exists_remainder_of_needed (hr : m.Reduced) (h : m.Valid f) (hi : m.Needed [f] i) :
    ∃ g, g.index = i ∧ m.Valid g
      ∧ ∃ k a, k < m.level g ∧ m.eval g = remainder (m.eval f) k a := by
  have hchild : ∀ {i n} (b : Bool), m.Stores i n →
      (∃ g, g.index = i ∧ m.Valid g
        ∧ ∃ k a, k < m.level g ∧ m.eval g = remainder (m.eval f) k a) →
      ∃ g, g.index = (if b then n.high else n.low).index ∧ m.Valid g
        ∧ ∃ k a, k < m.level g ∧ m.eval g = remainder (m.eval f) k a := by
    rintro _ n b hn ⟨g, rfl, hg, k, a, hk, heval⟩
    have ht := hr.not_terminal hn
    refine ⟨if b then m.high g else m.low g, ?_, hr.child_valid hg ht b, m.level g, _, ?_,
      hr.remainder_child hg ht hk heval b⟩
    · cases b with
      | false =>
          rw [if_neg Bool.false_ne_true, if_neg Bool.false_ne_true, hr.low_of_stores hn,
            Handle.index_complementIf]
      | true => rw [if_pos rfl, if_pos rfl, hr.high_of_stores hn, Handle.index_complementIf]
    · cases b with
      | false => exact hr.level_lt_low hg ht
      | true => exact hr.level_lt_high hg ht
  induction hi with
  | root hg =>
      obtain rfl := List.mem_singleton.mp hg
      have hpos := hr.level_pos h
      exact ⟨_, rfl, h, 0, fun _ => false, hpos, (hr.remainder_above h hpos _).symm⟩
  | low _ hn ih => exact hchild false hn ih
  | high _ hn ih => exact hchild true hn ih

/-! ## Cells and remainders -/

theorem upToComplement_ofIndex (hr : m.Reduced) (h : m.Valid g) :
    upToComplement (m.eval (.ofIndex g.index)) = upToComplement (m.eval g) := by
  have hv : m.Valid (.ofIndex g.index) := by rwa [Valid, Handle.index_ofIndex]
  have hsign (a : Assignment) :
      m.eval g a = (g.isComplemented ^^ m.eval (.ofIndex g.index) a) := by
    rw [← hr.eval_complementIf hv, Handle.complementIf_ofIndex]
  have heval : m.eval g = fun a => g.isComplemented ^^ m.eval (.ofIndex g.index) a := funext hsign
  rw [heval]
  cases g.isComplemented with
  | false => simp only [Bool.false_xor]
  | true => simp only [Bool.true_xor, upToComplement_not]

/-- Only the terminal cell has constant functions. -/
theorem constant_iff (hr : m.Reduced) (h : m.Valid g) :
    (∃ b, ∀ a, m.eval g a = b) ↔ g.index = 1 := by
  constructor
  · rintro ⟨b, hb⟩
    cases b with
    | false =>
        rw [(hr.eq_iff_eval h m.valid_zero).mpr fun a => (hb a).trans (eval_zero a).symm]
        rfl
    | true =>
        rw [(hr.eq_iff_eval h m.valid_one).mpr fun a => (hb a).trans (eval_one a).symm]
        rfl
  · intro hi
    exact ⟨_, fun a => eval_of_terminal (Handle.isTerminal_iff.mpr hi) a⟩

/-- The remainders of a diagram are the functions of the cells that it needs. -/
theorem remainders_eq_image (hr : m.Reduced) (h : m.Valid f) :
    remainders (m.eval f)
      = Set.image (fun i => upToComplement (m.eval (.ofIndex i))) {i | m.Needed [f] i ∧ i ≠ 1} := by
  ext c
  constructor
  · rintro ⟨i, a, rfl, hconst⟩
    obtain ⟨g, hg, hneed, heval⟩ := hr.exists_needed_of_remainder h i a
    rw [← heval] at hconst ⊢
    exact ⟨g.index, ⟨hneed, mt (hr.constant_iff hg).mpr hconst⟩, hr.upToComplement_ofIndex hg⟩
  · rintro ⟨i, ⟨hneed, hne⟩, rfl⟩
    obtain ⟨g, rfl, hg, k, a, -, heval⟩ := hr.exists_remainder_of_needed h hneed
    refine ⟨k, a, ?_, ?_⟩
    · rw [← heval]
      exact hr.upToComplement_ofIndex hg
    · rw [← heval]
      exact mt (hr.constant_iff hg).mp hne

/-- Cells of one function, or of complements, are one cell. -/
theorem injOn_upToComplement (hr : m.Reduced) (h : m.Valid f) :
    Set.InjOn (fun i => upToComplement (m.eval (.ofIndex i))) {i | m.Needed [f] i ∧ i ≠ 1} := by
  have hvalid {i : Nat} (hi : m.Needed [f] i) : m.Valid (.ofIndex i) := by
    rw [Valid, Handle.index_ofIndex]
    exact hr.stores_of_needed (by simpa using h) hi
  rintro i ⟨hi, -⟩ j ⟨hj, -⟩ heq
  have hmem : m.eval (.ofIndex i) ∈ upToComplement (m.eval (.ofIndex j)) := by
    have heq : upToComplement (m.eval (.ofIndex i)) = upToComplement (m.eval (.ofIndex j)) := heq
    exact heq ▸ Or.inl rfl
  rcases hmem with hsame | hneg
  · have := (hr.eq_iff_eval (hvalid hi) (hvalid hj)).mpr (congrFun hsame)
    simpa using congrArg Handle.index this
  · have := (hr.eq_neg_iff_eval (hvalid hi) (hvalid hj)).mpr (congrFun hneg)
    simpa using congrArg Handle.index this

end Reduced

/-! ## Sizes -/

/-- Marks are counted one by one. -/
theorem ncard_marks (l : List Bool) : {i : Nat | l[i]? = some true}.ncard = l.count true := by
  induction l using List.reverseRecOn with
  | nil => simp
  | append_singleton l b ih =>
      have hmem (i : Nat) :
          (l ++ [b])[i]? = some true ↔ l[i]? = some true ∨ i = l.length ∧ b = true := by
        rcases Nat.lt_trichotomy i l.length with hi | rfl | hi
        · rw [List.getElem?_append_left hi]
          simp [Nat.ne_of_lt hi]
        · simp
        · rw [List.getElem?_eq_none (by simpa using hi), List.getElem?_eq_none hi.le]
          simp [Nat.ne_of_gt hi]
      rw [List.count_append, ← ih]
      cases b with
      | false => simp [hmem]
      | true =>
          have hmore : {i : Nat | (l ++ [true])[i]? = some true}
              = insert l.length {i : Nat | l[i]? = some true} := by
            ext i
            rw [Set.mem_insert_iff, Set.mem_ofPred_eq, hmem]
            simp [or_comm]
          have hfinite : {i : Nat | l[i]? = some true}.Finite :=
            (Set.finite_lt_nat l.length).subset fun i hi => (List.getElem?_eq_some_iff.mp hi).1
          rw [hmore, Set.ncard_insert_of_notMem (by simp) hfinite]
          rfl

/-- The marked cells are the terminal and those that the roots need. -/
theorem Reduced.reach_eq_true_iff {roots : List Handle} (hr : m.Reduced)
    (hroots : ∀ f ∈ roots, m.Valid f) :
    (m.reach roots)[i]? = some true ↔ i = 1 ∨ m.Needed roots i := by
  refine ⟨hr.needed_of_reach hroots, fun hi => ?_⟩
  have hone : (m.reach roots)[1]? = some true :=
    (m.reach_spec roots).2.2 1 (Array.getElem?_eq_some_iff.mp hr.terminal).1 (Or.inl rfl)
  rcases hi with rfl | hi
  · exact hone
  · rcases hr.stores_of_needed hroots hi with rfl | ⟨k, hk⟩
    · exact hone
    · exact hr.reach_of_needed hi hk

/-- A diagram has the terminal node, and a node for everything that is left of
its function when first variables are fixed, constants apart and up to
complement. -/
theorem Reduced.nodeCount_eq (hr : m.Reduced) (h : m.Valid f) :
    m.nodeCount f = 1 + (remainders (m.eval f)).ncard := by
  have hmarked : {i : Nat | (m.reach [f]).toList[i]? = some true}
      = insert 1 {i | m.Needed [f] i ∧ i ≠ 1} := by
    ext i
    have hroots : ∀ g ∈ [f], m.Valid g := by simpa using h
    rw [Set.mem_ofPred_eq, Array.getElem?_toList, hr.reach_eq_true_iff hroots, Set.mem_insert_iff,
      Set.mem_ofPred_eq]
    by_cases hi : i = 1 <;> simp [hi]
  have hfinite : {i | m.Needed [f] i ∧ i ≠ 1}.Finite := by
    refine (Set.finite_lt_nat m.table.cells.size).subset fun i hi => ?_
    obtain ⟨k, hk⟩ := (hr.stores_of_needed (by simpa using h) hi.1).resolve_left hi.2
    exact hk.lt_size
  rw [nodeCount, ← Array.count_toList, ← ncard_marks, hmarked,
    Set.ncard_insert_of_notMem (by simp) hfinite, hr.remainders_eq_image h,
    (hr.injOn_upToComplement h).ncard_image, Nat.add_comm]

/-! ## All that can be read off -/

/-- Diagrams of one function in two managers over the same variables have the
same size, the same counts, the same paths in the same order, and the same
text. Their size is that of the function: one more than the number of
functions that are left of it when the variables `1..=i` are fixed, for all `i`,
without the constants and up to complement. -/
theorem WellFormed.readings_eq (hm : m.WellFormed) (hm' : m'.WellFormed)
    (hvars : m.numVars = m'.numVars) (hf : m.Valid f) (hf' : m'.Valid f')
    (heq : ∀ a, m.eval f a = m'.eval f' a) :
    m.nodeCount f = m'.nodeCount f'
      ∧ (∀ n, m.satCount f n = m'.satCount f' n)
      ∧ (∀ limit?, m.paths? limit? f = m'.paths? limit? f')
      ∧ (∀ limit?, m.cubesText limit? f = m'.cubesText limit? f')
      ∧ m.nodeCount f = 1 + (remainders (m.eval f)).ncard := by
  have hr := hm.toReduced
  have hr' := hm'.toReduced
  have heq : m.eval f = m'.eval f' := funext heq
  have hpaths := hr.paths_eq_of_eval_eq hr' hf hf' heq
  refine ⟨?_, hr.satCount_congr hr' hf hf' hvars heq, fun limit? => ?_, fun limit? => ?_,
    hr.nodeCount_eq hf⟩
  · rw [hr.nodeCount_eq hf, hr'.nodeCount_eq hf', heq]
  · rw [hr.paths?_eq hf, hr'.paths?_eq hf', hpaths]
  · rw [cubesText_eq, cubesText_eq, hpaths]

theorem eval_parityManager (a : Assignment) :
    parityManager.eval (-.ofIndex 3) a = (a 1 ^^ a 2) := by
  have hr := wellFormed_parityManager.toReduced
  have hsecond : parityManager.Valid (.ofIndex 2) := Or.inr ⟨_, rfl⟩
  have hboth : parityManager.Valid (-.ofIndex 3) := Or.inr ⟨_, rfl⟩
  have hvar : parityManager.eval (.ofIndex 2) a = a 2 := by
    rw [hr.eval_step hsecond rfl]
    show (if a 2 then parityManager.eval .one a else parityManager.eval .zero a) = a 2
    simp
  rw [hr.eval_step hboth rfl]
  show (if a 1 then parityManager.eval (-.ofIndex 2) a else parityManager.eval (.ofIndex 2) a) = _
  rw [hr.eval_neg hsecond, hvar]
  cases a 1 <;> simp

/-- Two variables that differ, in a manager that computed the diagram from the
two variables and in one that was laid out by hand. -/
theorem WellFormed.readings_eq_parity : ∃ (m : Manager) (f : Handle),
    m.WellFormed ∧ parityManager.WellFormed
    ∧ m.numVars = parityManager.numVars ∧ m.Valid f ∧ parityManager.Valid (-.ofIndex 3)
    ∧ (∀ a, m.eval f a = parityManager.eval (-.ofIndex 3) a)
    ∧ m.nodeCount f = parityManager.nodeCount (-.ofIndex 3)
    ∧ m.satCount f 2 = .ok 2
    ∧ m.paths? none f = [[1, -2], [-1, 2]]
    ∧ m.cubesText none f = "<0:1, 1:0><0:0, 1:1>" := by
  obtain ⟨m, live, x, y, hist, ⟨hx, hy⟩, ex, ey⟩ := History.exists_variables
  have hm := hist.sound.wellFormed
  obtain ⟨f, m', -, hf⟩ := (Diagram.returns_xor hm (hist.sound.valid x hx)
    (hist.sound.valid y hy)).exists_ok
  have hr := wellFormed_parityManager.toReduced
  have hvalid : parityManager.Valid (-.ofIndex 3) := Or.inr ⟨_, rfl⟩
  have heq (a : Assignment) : m'.eval f a = parityManager.eval (-.ofIndex 3) a := by
    rw [Bool.eq_iff_iff, hf.eval_iff, ex, ey, eval_parityManager]
  have hvars : m'.numVars = parityManager.numVars := by
    rw [hf.extends_.numVars_eq, hist.sound.numVars_eq]
    rfl
  have hpaths : parityManager.paths (-.ofIndex 3) = [[1, -2], [-1, 2]] := by decide
  obtain ⟨hsize, hcount, hsame, htext, -⟩ :=
    readings_eq hf.wellFormed wellFormed_parityManager hvars hf.valid hvalid heq
  refine ⟨m', f, hf.wellFormed, wellFormed_parityManager, hvars, hf.valid, hvalid, heq, hsize,
    ?_, ?_, ?_⟩
  · rw [hcount, hr.satCount_eq (n := 2) hvalid fun v hv => (hr.occurs_range hv).2]
    decide
  · rw [hsame, hr.paths?_eq hvalid, hpaths]
    rfl
  · rw [htext, cubesText_eq, hpaths]
    decide

end Manager

end BranchingTime
