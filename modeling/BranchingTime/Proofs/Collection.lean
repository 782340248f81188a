import BranchingTime.Diagram.Reach
import BranchingTime.Proofs.NodeMaking

/-!
# Collections keep what the roots need

The search from the roots keeps one invariant: the children of a marked
cell are marked or still to visit (`MarksClosed`). When nothing is left to
visit the marks are closed, so a sweep leaves no node without its children
and the swept manager is reduced. It is the old manager that extends the
new one then, which is why kept diagrams mean the same in both.
-/

namespace BranchingTime

namespace Manager

variable {m m' : Manager} {f : Handle} {roots : List Handle} {todo : List Nat}
  {marks : Array Bool}

/-! ## Marks -/

/-- Every child of a marked cell is marked or still to visit. The terminal
is marked from the start, and has no children. -/
def MarksClosed (m : Manager) (marks : Array Bool) (todo : List Nat) : Prop :=
  ∀ i, i ≠ 1 → marks[i]? = some true → ∀ j ∈ m.childCells i, j < marks.size →
    marks[j]? = some true ∨ j ∈ todo

theorem MarksClosed.skip {i : Nat} (h : m.MarksClosed marks (i :: todo))
    (hi : i < marks.size → marks[i]? = some true) : m.MarksClosed marks todo := by
  intro k hk hmark j hj hsize
  rcases h k hk hmark j hj hsize with hj | hj
  · exact Or.inl hj
  · rcases List.mem_cons.mp hj with rfl | hj
    · exact Or.inl (hi hsize)
    · exact Or.inr hj

theorem MarksClosed.visit {i : Nat} (h : m.MarksClosed marks (i :: todo)) (hi : i < marks.size) :
    m.MarksClosed (marks.set i true) (m.childCells i ++ todo) := by
  intro k hk hmark j hj hsize
  rw [Array.getElem?_set] at hmark ⊢
  rw [Array.size_set] at hsize
  by_cases hki : i = k
  · subst hki
    exact Or.inr (List.mem_append_left _ hj)
  · rw [if_neg hki] at hmark
    by_cases hij : i = j
    · exact Or.inl (by rw [if_pos hij])
    · rw [if_neg hij]
      rcases h k hk hmark j hj hsize with hj | hj
      · exact Or.inl hj
      · rcases List.mem_cons.mp hj with rfl | hj
        · exact absurd rfl hij
        · exact Or.inr (List.mem_append_right _ hj)

/-- The search ends with closed marks on all it started from. -/
theorem markFrom_spec (m : Manager) (todo : List Nat) (marks : Array Bool)
    (h : m.MarksClosed marks todo) :
    (m.markFrom todo marks).size = marks.size ∧ m.MarksClosed (m.markFrom todo marks) []
      ∧ ∀ i < marks.size, marks[i]? = some true ∨ i ∈ todo →
        (m.markFrom todo marks)[i]? = some true := by
  fun_induction markFrom m todo marks with
  | case1 marks => exact ⟨rfl, h, fun i _ hi => by simpa using hi⟩
  | case2 i todo marks hi hmark ih =>
      have hmark' : marks[i]? = some true := by rw [Array.getElem?_eq_getElem hi, hmark]
      obtain ⟨hsize, hclosed, hkeep⟩ := ih (h.skip fun _ => hmark')
      refine ⟨hsize, hclosed, fun j hj hor => hkeep j hj ?_⟩
      rcases hor with hor | hor
      · exact Or.inl hor
      · rcases List.mem_cons.mp hor with rfl | hor
        · exact Or.inl hmark'
        · exact Or.inr hor
  | case3 i todo marks hi hmark ih =>
      obtain ⟨hsize, hclosed, hkeep⟩ := ih (h.visit hi)
      rw [Array.size_set] at hsize hkeep
      refine ⟨hsize, hclosed, fun j hj hor => hkeep j hj ?_⟩
      rw [Array.getElem?_set]
      by_cases hij : i = j
      · exact Or.inl (by rw [if_pos hij])
      · rw [if_neg hij]
        rcases hor with hor | hor
        · exact Or.inl hor
        · rcases List.mem_cons.mp hor with rfl | hor
          · exact absurd rfl hij
          · exact Or.inr (List.mem_append_right _ hor)
  | case4 i todo marks hi ih =>
      obtain ⟨hsize, hclosed, hkeep⟩ := ih (h.skip fun hlt => absurd hlt hi)
      refine ⟨hsize, hclosed, fun j hj hor => hkeep j hj ?_⟩
      rcases hor with hor | hor
      · exact Or.inl hor
      · rcases List.mem_cons.mp hor with rfl | hor
        · exact absurd hj hi
        · exact Or.inr hor

/-- The cells that the roots need: those of the roots, and the children of
stored nodes that they need. -/
inductive Needed (m : Manager) (roots : List Handle) : Nat → Prop
  | root {f : Handle} (hf : f ∈ roots) : Needed m roots f.index
  | low {i : Nat} {n : Node} (hi : Needed m roots i) (hn : m.Stores i n) :
      Needed m roots n.low.index
  | high {i : Nat} {n : Node} (hi : Needed m roots i) (hn : m.Stores i n) :
      Needed m roots n.high.index

theorem reach_spec (m : Manager) (roots : List Handle) :
    (m.reach roots).size = m.table.cells.size ∧ m.MarksClosed (m.reach roots) []
      ∧ ∀ i < m.table.cells.size, i = 1 ∨ i ∈ roots.map Handle.index →
        (m.reach roots)[i]? = some true := by
  have hclosed : m.MarksClosed ((Array.replicate m.table.cells.size false).setIfInBounds
      Handle.one.index true) (roots.map Handle.index) := by
    intro i hi hmark
    rw [Handle.index_one, Array.getElem?_setIfInBounds_ne (Ne.symm hi),
      Array.getElem?_replicate] at hmark
    split at hmark <;> cases hmark
  obtain ⟨hsize, hclosed', hkeep⟩ := markFrom_spec m _ _ hclosed
  rw [Array.size_setIfInBounds, Array.size_replicate] at hsize hkeep
  refine ⟨hsize, hclosed', fun i hlt hi => hkeep i hlt (hi.imp_left ?_)⟩
  rintro rfl
  rw [Handle.index_one, Array.getElem?_setIfInBounds_self_of_lt (by simpa using hlt)]

variable {i : Nat} {n : Node}

theorem Stores.lt_size (h : m.Stores i n) : i < m.table.cells.size :=
  (Array.getElem?_eq_some_iff.mp h).1

theorem getD_reach : (m.reach roots).getD i false = true ↔ (m.reach roots)[i]? = some true := by
  rw [Array.getD_eq_getD_getElem?]
  cases (m.reach roots)[i]? <;> simp

/-- A stored child of a marked cell is marked. -/
theorem reach_child {j : Nat} {n' : Node} (hnode : m.node i = n) (h1 : i ≠ 1)
    (hi : (m.reach roots)[i]? = some true) (hj : j = n.low.index ∨ j = n.high.index)
    (hn' : m.Stores j n') : (m.reach roots)[j]? = some true := by
  obtain ⟨hsize, hclosed, -⟩ := m.reach_spec roots
  have hmem : j ∈ m.childCells i := by
    rw [childCells, hnode]
    simpa using hj
  exact (hclosed i h1 hi j hmem (hsize ▸ hn'.lt_size)).resolve_right (by simp)

theorem Reduced.reach_child {j : Nat} {n' : Node} (hr : m.Reduced)
    (hi : (m.reach roots)[i]? = some true) (hn : m.Stores i n)
    (hj : j = n.low.index ∨ j = n.high.index) (hn' : m.Stores j n') :
    (m.reach roots)[j]? = some true :=
  Manager.reach_child (hr.node_eq hn) (hr.ne_one hn) hi hj hn'

/-- The search marks what the roots need. -/
theorem Reduced.reach_of_needed (hr : m.Reduced) (hi : m.Needed roots i) (hn : m.Stores i n) :
    (m.reach roots)[i]? = some true := by
  induction hi generalizing n with
  | root hf => exact (m.reach_spec roots).2.2 _ hn.lt_size (Or.inr (List.mem_map_of_mem hf))
  | low _ hparent ih => exact hr.reach_child (ih hparent) hparent (Or.inl rfl) hn
  | high _ hparent ih => exact hr.reach_child (ih hparent) hparent (Or.inr rfl) hn

/-! ## Swept managers -/

/-- Levels agree also when it is the larger manager that is reduced. -/
theorem Extends.level_eq_of_reduced (h : m'.Extends m) (hr : m.Reduced) (hf : m'.Valid f) :
    m'.level f = m.level f := by
  cases ht : f.isTerminal with
  | true => rw [level_of_terminal ht, level_of_terminal ht, h.numVars_eq]
  | false =>
      obtain ⟨n, hn⟩ := hf.stores ht
      have hn' : m'.table.cells[f.index]? = some ⟨n, .shared⟩ := hn
      rw [hr.level_of_stores (h.stores hn)]
      simp [level, ht, topVar, node, UniqueTable.value?, hr.ne_zero (h.stores hn), hn']

/-- Keeping a closed set of nodes keeps a manager reduced. -/
theorem Reduced.of_closed (hr : m.Reduced) (hext : m'.Extends m) (htable : m'.table.Invariant)
    (hterminal : m'.table.cells[1]? = some ⟨default, .held⟩)
    (hclosed : ∀ {i n g}, m'.Stores i n → g = n.low ∨ g = n.high → m.Valid g → m'.Valid g) :
    m'.Reduced := by
  refine ⟨htable, hterminal, fun {i n} hn => ?_⟩
  have hp := hr.proper (hext.stores hn)
  have hlow := hclosed hn (Or.inl rfl) hp.low_valid
  have hhigh := hclosed hn (Or.inr rfl) hp.high_valid
  exact ⟨hp.var_pos, hext.numVars_eq ▸ hp.var_le, hp.low_ne_high, hp.high_regular, hlow, hhigh,
    hext.level_eq_of_reduced hr hlow ▸ hp.var_lt_low,
    hext.level_eq_of_reduced hr hhigh ▸ hp.var_lt_high⟩

/-- `m'` has diagrams of `m` only, and all of those that the roots need. -/
structure Keeps (m : Manager) (roots : List Handle) (m' : Manager) : Prop where
  wellFormed : m'.WellFormed
  extends_ : m'.Extends m
  valid : ∀ {f}, m.Valid f → f.index = 1 ∨ m.Needed roots f.index → m'.Valid f

theorem Keeps.eval_eq (h : m.Keeps roots m') (hm : m.WellFormed) (hf : m'.Valid f)
    (a : Assignment) : m'.eval f a = m.eval f a :=
  (h.extends_.eval_eq h.wellFormed.toReduced hm.toReduced hf a).symm

theorem keeps_of_swept {t : UniqueTable Node} {cache : ResultCache IteKey Handle}
    (hm : m.WellFormed) (ht : t.Invariant)
    (hholds : ∀ {i n}, t.Holds i n ↔ m.Stores i n ∧ (m.reach roots).getD i false = true)
    (hterminal : t.cells[1]? = some ⟨default, .held⟩)
    (hcache : ∀ {k r}, some (k, r) ∉ cache.slots) (journal : Journal) :
    m.Keeps roots { m with table := t, cache, journal } := by
  have hext : Extends { m with table := t, cache, journal } m := ⟨rfl, fun hs => (hholds.mp hs).1⟩
  have hred : Reduced { m with table := t, cache, journal } := by
    refine hm.toReduced.of_closed hext ht hterminal fun {i n g} hn hg hv => ?_
    rcases hv with hv | ⟨n', hn'⟩
    · exact Or.inl hv
    · obtain ⟨hs, hi⟩ := hholds.mp hn
      have hj : g.index = n.low.index ∨ g.index = n.high.index :=
        hg.imp (congrArg Handle.index) (congrArg Handle.index)
      exact Or.inr ⟨n', hholds.mpr ⟨hn',
        getD_reach.mpr (hm.reach_child (getD_reach.mp hi) hs hj hn')⟩⟩
  refine ⟨⟨hred, fun hk => absurd hk hcache⟩, hext, fun {f} hv hneed => ?_⟩
  rcases hv with hv | ⟨n, hn⟩
  · exact Or.inl hv
  · have hneed := hneed.resolve_left (hm.ne_one hn)
    exact Or.inr ⟨n, hholds.mpr ⟨hn, getD_reach.mpr (hm.reach_of_needed hneed hn)⟩⟩

end Manager

namespace Diagram

open Manager

variable {m : Manager}

/-- A collection sweeps the table of the nodes without a mark, and forgets
all results. -/
theorem returns_collectGarbage_swept {t : UniqueTable Node} {dropped : Nat} (roots : List Handle)
    (hsweep : m.table.sweep (fun i => (m.reach roots).getD i false) = (dropped, t)) :
    Returns (collectGarbage roots) m fun k n => k = dropped ∧ n = { m with
      table := t, cache := m.cache.clear,
      journal := m.journal.push (.collected m.table.live t.live dropped) } := by
  unfold collectGarbage
  simp only [ends_bind, ends_get]
  refine ends_modifyGet.mpr fun k n hn => ?_
  generalize m.table.sweep (fun i => (m.reach roots).getD i false) = p at hsweep hn
  subst hsweep
  obtain ⟨rfl, rfl⟩ := Prod.mk.inj hn
  simp only [ends_record, ends_pure, true_and]
  rfl

theorem returns_collectGarbage (hm : m.WellFormed) (roots : List Handle) :
    Returns (collectGarbage roots) m fun _ m' => m.Keeps roots m' := by
  have ht := hm.table.sweep fun i => (m.reach roots).getD i false
  have hholds := @UniqueTable.holds_sweep _ m.table _ fun i => (m.reach roots).getD i false
  have hterminal := UniqueTable.getElem?_sweep m.table (fun i => (m.reach roots).getD i false) 1
  rw [hm.terminal] at hterminal
  refine Ends.imp (returns_collectGarbage_swept roots rfl) ?_
  rintro _ _ ⟨-, rfl⟩
  refine keeps_of_swept hm ht hholds (by simpa using hterminal) (fun {k r} hmem => ?_) _
  simp [ResultCache.clear] at hmem

end Diagram

end BranchingTime
