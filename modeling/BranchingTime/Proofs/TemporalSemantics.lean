import Mathlib.Data.Set.Lattice
import Mathlib.Logic.Relation
import Mathlib.Order.CompletePartialOrder
import Mathlib.Tactic.Choose
import BranchingTime.Ctl.Formula

/-!
# Branching time on structures

What formulas mean in a structure of states and steps, in terms of finite
and infinite paths. Steps need not be total: a state without successors
satisfies `AX f` and `AF f` whatever `f` is, and never `EX f` or `EG f`.

The operators with a horizon are then shown to be what iterating one step
of the operator climbs to (`Climbs`): from the arguments upwards for `EF`,
`AF`, `EU` and `AU`, and downwards for `EG` and `AG`.
-/

namespace BranchingTime.Ctl

/-! ## Formulas as trees -/

/-- A formula as a tree. -/
inductive Tree where
  | operand (index : Nat)
  | unary (op : UnaryOp) (arg : Tree)
  | binary (op : BinaryOp) (left right : Tree)
  deriving DecidableEq, Repr

namespace Tree

/-- The code of a formula: operands before their operators. -/
def postorder : Tree → List Instr
  | operand index => [.operand index]
  | unary op arg => arg.postorder ++ [.unary op]
  | binary op left right => left.postorder ++ right.postorder ++ [.binary op]

/-- Puts an instruction on top of the trees that were built before. -/
def push : List Tree → Instr → Option (List Tree)
  | stack, .operand index => some (.operand index :: stack)
  | arg :: stack, .unary op => some (.unary op arg :: stack)
  | right :: left :: stack, .binary op => some (.binary op left right :: stack)
  | _, _ => none

theorem foldlM_push_postorder (t : Tree) (stack : List Tree) :
    t.postorder.foldlM push stack = some (t :: stack) := by
  induction t generalizing stack with
  | operand index => rfl
  | unary op arg ih =>
      rw [postorder, List.foldlM_append, ih]
      rfl
  | binary op left right ihl ihr =>
      rw [postorder, List.foldlM_append, List.foldlM_append, ihl]
      change ((right.postorder.foldlM push (left :: stack)).bind _) = _
      rw [ihr]
      rfl

/-- The code of the trees of a stack, the deepest first. -/
def codeOf (stack : List Tree) : List Instr := stack.reverse.flatMap postorder

theorem codeOf_push {stack stack' : List Tree} {instr : Instr}
    (h : push stack instr = some stack') : codeOf stack' = codeOf stack ++ [instr] := by
  unfold push at h
  split at h <;> cases h <;> simp [codeOf, postorder]

theorem codeOf_foldlM_push {code : List Instr} {stack stack' : List Tree}
    (h : code.foldlM push stack = some stack') : codeOf stack' = codeOf stack ++ code := by
  induction code generalizing stack with
  | nil =>
      obtain rfl := Option.some.inj h
      rw [List.append_nil]
  | cons instr code ih =>
      rw [List.foldlM_cons] at h
      obtain ⟨stack1, h1, h2⟩ := Option.bind_eq_some_iff.mp h
      rw [ih h2, codeOf_push h1, List.append_assoc, List.singleton_append]

/-- Pushing the code of a formula builds the formula, and no other code
builds it. -/
theorem foldlM_push_eq_iff {code : List Instr} {t : Tree} :
    code.foldlM push [] = some [t] ↔ t.postorder = code := by
  constructor
  · intro h
    simpa [codeOf] using codeOf_foldlM_push h
  · rintro rfl
    exact foldlM_push_postorder t []

/-- A formula is determined by its code. -/
theorem postorder_injective : Function.Injective postorder := by
  intro t u h
  have ht := foldlM_push_eq_iff.mpr h
  rw [foldlM_push_eq_iff.mpr rfl] at ht
  exact (List.cons.inj (Option.some.inj ht)).1.symm

end Tree

/-! ## Structures and paths -/

/-- States with steps between them, labelled with the operands of
formulas. -/
structure Structure (S : Type) where
  Step : S → S → Prop
  Label : Nat → S → Prop

namespace Structure

variable {S : Type} (K : Structure S) {s s' : S} {P : S → Prop} {f g z : Set S}

/-- A finite path whose states have `P`, the last one apart. -/
def Walk (P : S → Prop) : S → S → Prop :=
  Relation.ReflTransGen fun x y => P x ∧ K.Step x y

/-- An infinite path from `s` whose states have `P`. -/
def Run (P : S → Prop) (s : S) : Prop :=
  ∃ path : Nat → S, path 0 = s ∧ ∀ i, P (path i) ∧ K.Step (path i) (path (i + 1))

/-- The states with a successor in `z`. -/
def before (z : Set S) : Set S := {s | ∃ s', K.Step s s' ∧ s' ∈ z}

/-- The states all of whose successors are in `z`. -/
def beforeAll (z : Set S) : Set S := {s | ∀ s', K.Step s s' → s' ∈ z}

/-- The states of a unary operator. -/
def unary : UnaryOp → Set S → Set S
  | .not, f => fᶜ
  | .ex, f => K.before f
  | .ax, f => K.beforeAll f
  | .ef, f => {s | ∃ s', K.Walk (fun _ => True) s s' ∧ s' ∈ f}
  | .ag, f => {s | ∀ s', K.Walk (fun _ => True) s s' → s' ∈ f}
  | .eg, f => {s | K.Run (· ∈ f) s}
  | .af, f => {s | ¬ K.Run (· ∉ f) s}

/-- The states of a binary operator. -/
def binary : BinaryOp → Set S → Set S → Set S
  | .and, f, g => f ∩ g
  | .or, f, g => f ∪ g
  | .xor, f, g => (f \ g) ∪ (g \ f)
  | .eu, f, g => {s | ∃ s', K.Walk (· ∈ f) s s' ∧ s' ∈ g}
  | .au, f, g => {s | ¬ K.Run (· ∉ g) s ∧ ¬ ∃ s', K.Walk (· ∉ g) s s' ∧ s' ∉ g ∧ s' ∉ f}

end Structure

/-- The states of a structure that satisfy a formula. -/
def Tree.states {S : Type} (K : Structure S) : Tree → Set S
  | operand index => {s | K.Label index s}
  | unary op arg => K.unary op (arg.states K)
  | binary op left right => K.binary op (left.states K) (right.states K)

/-! ## Infinite paths -/

namespace Structure

variable {S : Type} {K : Structure S} {s s' : S} {P Q : S → Prop} {f g z z' : Set S}

theorem Run.imp (h : K.Run P s) (hPQ : ∀ s, P s → Q s) : K.Run Q s := by
  obtain ⟨path, h0, hstep⟩ := h
  exact ⟨path, h0, fun i => ⟨hPQ _ (hstep i).1, (hstep i).2⟩⟩

theorem Run.head (h : K.Run P s) : P s := by
  obtain ⟨path, rfl, hstep⟩ := h
  exact (hstep 0).1

theorem Run.tail (h : K.Run P s) : ∃ s', K.Step s s' ∧ K.Run P s' := by
  obtain ⟨path, rfl, hstep⟩ := h
  exact ⟨path 1, (hstep 0).2, fun i => path (i + 1), rfl, fun i => hstep (i + 1)⟩

/-- A set that can always be stayed in holds infinite paths. -/
theorem run_of_closed (hz : ∀ s ∈ z, ∃ s' ∈ z, K.Step s s') (hs : s ∈ z) :
    K.Run (· ∈ z) s := by
  choose next hmem hstep using hz
  let path : Nat → {s // s ∈ z} := fun i =>
    Nat.rec ⟨s, hs⟩ (fun _ x => ⟨next x.1 x.2, hmem x.1 x.2⟩) i
  exact ⟨fun i => (path i).1, rfl, fun i => ⟨(path i).2, hstep (path i).1 (path i).2⟩⟩

theorem before_mono (h : z ⊆ z') : K.before z ⊆ K.before z' :=
  fun _ ⟨s', hstep, hs'⟩ => ⟨s', hstep, h hs'⟩

theorem beforeAll_mono (h : z ⊆ z') : K.beforeAll z ⊆ K.beforeAll z' :=
  fun _ hs s' hstep => h (hs s' hstep)

theorem exists_step_of_notMem_beforeAll (h : s ∉ K.beforeAll z) :
    ∃ s' ∉ z, K.Step s s' := by
  by_contra hno
  exact h fun s' hstep => by_contra fun hs' => hno ⟨s', hs', hstep⟩

end Structure

/-! ## Climbing to a fixpoint -/

/-- Iterating `F` from `first` climbs towards `goal`, and can only stop
there. -/
structure Climbs {α : Type} [PartialOrder α] (F : α → α) (first goal : α) : Prop where
  mono : Monotone F
  rises : first ≤ F first
  first_le : first ≤ goal
  stays : F goal ≤ goal
  least : ∀ z, first ≤ z → F z ≤ z → goal ≤ z

namespace Climbs

variable {α : Type} [PartialOrder α] {F : α → α} {first goal z : α}

/-- What is on the way from `first` to `goal`. -/
structure OnWay (F : α → α) (first goal z : α) : Prop where
  first_le : first ≤ z
  le_goal : z ≤ goal
  rises : z ≤ F z

theorem onWay_first (h : Climbs F first goal) : OnWay F first goal first :=
  ⟨le_refl _, h.first_le, h.rises⟩

theorem onWay_next (h : Climbs F first goal) (hz : OnWay F first goal z) :
    OnWay F first goal (F z) :=
  ⟨hz.first_le.trans hz.rises, (h.mono hz.le_goal).trans h.stays, h.mono hz.rises⟩

theorem eq_goal (h : Climbs F first goal) (hz : OnWay F first goal z) (hfix : F z = z) :
    z = goal :=
  le_antisymm hz.le_goal (h.least z hz.first_le hfix.le)

end Climbs

namespace Structure

variable {S : Type} (K : Structure S) (f g : Set S)

theorem climbs_eu :
    Climbs (fun z => g ∪ (f ∩ K.before z)) g (K.binary .eu f g) where
  mono _ _ h := Set.union_subset_union_right _ (Set.inter_subset_inter_right _ (before_mono h))
  rises := Set.subset_union_left
  first_le := fun s hs => ⟨s, .refl, hs⟩
  stays := by
    rintro s (hs | ⟨hf, s', hstep, t, hwalk, ht⟩)
    · exact ⟨s, .refl, hs⟩
    · exact ⟨t, .head ⟨hf, hstep⟩ hwalk, ht⟩
  least := by
    rintro z hg hz s ⟨t, hwalk, ht⟩
    induction hwalk using Relation.ReflTransGen.head_induction_on with
    | refl => exact hg ht
    | head hstep _ ih => exact hz (Or.inr ⟨hstep.1, _, hstep.2, ih⟩)

theorem subset_au : g ⊆ K.binary .au f g := by
  intro s hs
  refine ⟨fun hrun => hrun.head hs, ?_⟩
  rintro ⟨t, hwalk, htg, -⟩
  rcases Relation.ReflTransGen.cases_head hwalk with rfl | ⟨x, hstep, -⟩
  · exact htg hs
  · exact hstep.1 hs

theorem climbs_au :
    Climbs (fun z => g ∪ (f ∩ K.beforeAll z)) g (K.binary .au f g) where
  mono _ _ h := Set.union_subset_union_right _ (Set.inter_subset_inter_right _ (beforeAll_mono h))
  rises := Set.subset_union_left
  first_le := fun s hs => subset_au K f g hs
  stays := by
    rintro s (hs | ⟨hf, hs⟩)
    · exact subset_au K f g hs
    · constructor
      · intro hrun
        obtain ⟨s', hstep, hrun'⟩ := hrun.tail
        exact (hs s' hstep).1 hrun'
      · rintro ⟨t, hwalk, ht⟩
        rcases Relation.ReflTransGen.cases_head hwalk with rfl | ⟨x, hstep, hwalk'⟩
        · exact ht.2 hf
        · exact (hs x hstep.2).2 ⟨t, hwalk', ht⟩
  least := by
    intro z hg hz s hs
    by_contra hsz
    -- what is reached outside of `z` is in `f`, since it avoids `g`; so one can go on
    have hclosed : ∀ x ∈ {x | x ∉ z ∧ K.Walk (· ∉ g) s x},
        ∃ x' ∈ {x | x ∉ z ∧ K.Walk (· ∉ g) s x}, K.Step x x' := by
      rintro x ⟨hxz, hwalk⟩
      have hxg : x ∉ g := fun h => hxz (hg h)
      have hxf : x ∈ f := by_contra fun h => hs.2 ⟨x, hwalk, hxg, h⟩
      obtain ⟨x', hx', hstep⟩ :=
        exists_step_of_notMem_beforeAll fun h => hxz (hz (Or.inr ⟨hxf, h⟩))
      exact ⟨x', ⟨hx', hwalk.tail ⟨hxg, hstep⟩⟩, hstep⟩
    refine hs.1 ((run_of_closed hclosed ⟨hsz, .refl⟩).imp fun x hx hxg => hx.1 (hg hxg))

/-- Where nothing is asked of the states on the way, what is reached already
may be kept instead of starting afresh. -/
theorem climbs_keeping {G : Set S → Set S} {first goal : Set S} (hG : Monotone G)
    (h : Climbs (fun z => first ∪ (Set.univ ∩ G z)) first goal) :
    Climbs (fun z => z ∪ G z) first goal := by
  simp only [Set.univ_inter] at h
  constructor
  · exact fun _ _ hle => Set.union_subset_union hle (hG hle)
  · exact Set.subset_union_left
  · exact h.first_le
  · exact Set.union_subset le_rfl (Set.subset_union_right.trans h.stays)
  · intro z hfirst hz
    exact h.least z hfirst (Set.union_subset hfirst (Set.subset_union_right.trans hz))

theorem climbs_ef : Climbs (fun z => z ∪ K.before z) f (K.unary .ef f) :=
  climbs_keeping (fun _ _ h => before_mono h) (K.climbs_eu Set.univ f)

theorem climbs_af : Climbs (fun z => z ∪ K.beforeAll z) f (K.unary .af f) := by
  have haf : K.unary .af f = K.binary .au Set.univ f := by
    simp [unary, binary]
  rw [haf]
  exact climbs_keeping (fun _ _ h => beforeAll_mono h) (K.climbs_au Set.univ f)

/-- Iterating `F` from `first` climbs down to `goal`. -/
def Descends (F : Set S → Set S) (first goal : Set S) : Prop :=
  @Climbs (Set S)ᵒᵈ _ F first goal

theorem descends_of {F : Set S → Set S} {first goal : Set S} (mono : Monotone F)
    (falls : F first ⊆ first) (le_first : goal ⊆ first) (stays : goal ⊆ F goal)
    (greatest : ∀ z, z ⊆ first → z ⊆ F z → z ⊆ goal) : Descends F first goal :=
  ⟨mono.dual, falls, le_first, stays, greatest⟩

theorem descends_eg : Descends (fun z => z ∩ K.before z) f (K.unary .eg f) := by
  refine descends_of (fun _ _ h => Set.inter_subset_inter h (before_mono h))
    Set.inter_subset_left (fun s hs => Run.head hs) (fun s hs => ⟨hs, Run.tail hs⟩) ?_
  intro z hf hz s hs
  refine (run_of_closed (fun x hx => ?_) hs).imp fun x hx => hf hx
  obtain ⟨x', hstep, hx'⟩ := (hz hx).2
  exact ⟨x', hx', hstep⟩

theorem descends_ag : Descends (fun z => z ∩ K.beforeAll z) f (K.unary .ag f) := by
  refine descends_of (fun _ _ h => Set.inter_subset_inter h (beforeAll_mono h))
    Set.inter_subset_left (fun s hs => hs s .refl)
    (fun s hs => ⟨hs, fun s' hstep t hwalk => hs t (.head ⟨trivial, hstep⟩ hwalk)⟩) ?_
  intro z hf hz s hs t hwalk
  suffices ht : t ∈ z from hf ht
  induction hwalk with
  | refl => exact hs
  | tail _ hstep ih => exact (hz ih).2 _ hstep.2

end Structure

/-! ## Other names for the states -/

namespace Structure

variable {S S' : Type} {K : Structure S'} {e : S ≃ S'} {s t : S}

/-- The structure over other names for its states. -/
def comap (K : Structure S') (e : S ≃ S') : Structure S where
  Step s t := K.Step (e s) (e t)
  Label index s := K.Label index (e s)

theorem walk_comap {P : S' → Prop} :
    (K.comap e).Walk (fun s => P (e s)) s t ↔ K.Walk P (e s) (e t) := by
  constructor
  · intro h
    induction h with
    | refl => exact .refl
    | tail _ hstep ih => exact ih.tail hstep
  · intro h
    suffices hback : ∀ y, K.Walk P (e s) y → (K.comap e).Walk (fun s => P (e s)) s (e.symm y) by
      simpa using hback _ h
    intro y hy
    induction hy with
    | refl =>
        rw [e.symm_apply_apply]
        exact .refl
    | tail _ hstep ih => exact ih.tail (by simpa [comap] using hstep)

theorem run_comap {P : S' → Prop} :
    (K.comap e).Run (fun s => P (e s)) s ↔ K.Run P (e s) := by
  constructor
  · rintro ⟨path, rfl, h⟩
    exact ⟨fun i => e (path i), rfl, h⟩
  · rintro ⟨path, h0, h⟩
    refine ⟨fun i => e.symm (path i), by simp [h0], fun i => ?_⟩
    simpa [comap] using h i

theorem exists_walk_comap {P : S' → Prop} {Q : S' → Prop} :
    (∃ t, (K.comap e).Walk (fun s => P (e s)) s t ∧ Q (e t)) ↔ ∃ t, K.Walk P (e s) t ∧ Q t := by
  constructor
  · rintro ⟨t, hwalk, ht⟩
    exact ⟨e t, walk_comap.mp hwalk, ht⟩
  · rintro ⟨t, hwalk, ht⟩
    exact ⟨e.symm t, walk_comap.mpr (by simpa using hwalk), by simpa using ht⟩

theorem unary_comap (op : UnaryOp) (f : Set S') :
    (K.comap e).unary op (Set.preimage e f) = Set.preimage e (K.unary op f) := by
  ext s
  cases op with
  | not => rfl
  | ex =>
      constructor
      · rintro ⟨t, hstep, ht⟩
        exact ⟨e t, hstep, ht⟩
      · rintro ⟨t, hstep, ht⟩
        exact ⟨e.symm t, by simpa [comap] using hstep, by simpa using ht⟩
  | ax =>
      constructor
      · intro h t hstep
        simpa using h (e.symm t) (by simpa [comap] using hstep)
      · exact fun h t hstep => h (e t) hstep
  | ef => exact exists_walk_comap (P := fun _ => True) (Q := (· ∈ f))
  | ag =>
      have := not_congr (exists_walk_comap (K := K) (e := e) (s := s) (P := fun _ => True)
        (Q := (· ∉ f)))
      simp only [not_exists, not_and, not_not] at this
      exact this
  | eg => exact run_comap (P := (· ∈ f))
  | af => exact not_congr (run_comap (P := (· ∉ f)))

theorem binary_comap (op : BinaryOp) (f g : Set S') :
    (K.comap e).binary op (Set.preimage e f) (Set.preimage e g)
      = Set.preimage e (K.binary op f g) := by
  ext s
  cases op with
  | and => rfl
  | or => rfl
  | xor => rfl
  | eu => exact exists_walk_comap (P := (· ∈ f)) (Q := (· ∈ g))
  | au =>
      exact and_congr (not_congr (run_comap (P := (· ∉ g))))
        (not_congr (exists_walk_comap (P := (· ∉ g)) (Q := fun t => t ∉ g ∧ t ∉ f)))

/-- Formulas do not see what the states are called. -/
theorem states_comap (K : Structure S') (e : S ≃ S') (t : Tree) :
    t.states (K.comap e) = Set.preimage e (t.states K) := by
  induction t with
  | operand index => rfl
  | unary op arg ih => rw [Tree.states, ih, unary_comap, Tree.states]
  | binary op left right ihl ihr => rw [Tree.states, ihl, ihr, binary_comap, Tree.states]

end Structure

end BranchingTime.Ctl
