import Mathlib.Data.Set.Card
import BranchingTime.Proofs.SameHandle
import BranchingTime.Proofs.StoringOnly

/-!
# Collections free exactly what nothing needs

That a collection keeps what its roots need is one half; the other is that
it frees all the rest. For live roots the marks are exactly the cells that
the roots need (`Reduced.reach_iff`), so the nodes that stay are those. The
count of a table includes cells that its index does not know; in a manager
there is one of these, the terminal, since operations only store nodes and
collections only free them (`History.heldAtStart`).
-/

namespace BranchingTime

open Diagram Manager

/-! ## Marks -/

namespace Manager

variable {m : Manager} {roots : List Handle} {i : Nat}

/-- The search marks nothing outside a set that is closed under children and
that it starts in. The terminal is marked before, so its children are never
looked at. -/
theorem markFrom_subset {S : Nat → Prop}
    (hclosed : ∀ i, S i → i ≠ 1 → ∀ j ∈ m.childCells i, S j) (todo : List Nat)
    (marks : Array Bool) (htodo : ∀ i ∈ todo, S i) (hmarks : ∀ i, marks[i]? = some true → S i)
    (hone : 1 < marks.size → marks[1]? = some true) :
    ∀ i, (m.markFrom todo marks)[i]? = some true → S i := by
  fun_induction markFrom m todo marks with
  | case1 marks => exact hmarks
  | case2 i todo marks hi hmark ih =>
      exact ih (fun j hj => htodo j (List.mem_cons_of_mem i hj)) hmarks hone
  | case3 i todo marks hi hmark ih =>
      have hSi : S i := htodo i (List.mem_cons_self ..)
      have hne : i ≠ 1 := by
        rintro rfl
        have := hone hi
        rw [Array.getElem?_eq_getElem hi, hmark] at this
        cases this
      refine ih (fun j hj => ?_) (fun j hj => ?_) (fun hsize => ?_)
      · rcases List.mem_append.mp hj with hj | hj
        · exact hclosed i hSi hne j hj
        · exact htodo j (List.mem_cons_of_mem i hj)
      · rw [Array.getElem?_set] at hj
        split at hj
        · next heq => exact heq ▸ hSi
        · exact hmarks j hj
      · rw [Array.getElem?_set, if_neg hne]
        exact hone (by simpa using hsize)
  | case4 i todo marks hi ih =>
      exact ih (fun j hj => htodo j (List.mem_cons_of_mem i hj)) hmarks hone

/-- The search from valid roots marks the terminal and what they need. -/
theorem Reduced.needed_of_reach (hr : m.Reduced) (hroots : ∀ f ∈ roots, m.Valid f)
    (h : (m.reach roots)[i]? = some true) : i = 1 ∨ m.Needed roots i := by
  refine markFrom_subset (S := fun i => i = 1 ∨ m.Needed roots i) ?_ _ _ ?_ ?_ ?_ i h
  · intro i hi hne j hj
    have hi := hi.resolve_left hne
    obtain ⟨n, hn⟩ := (hr.stores_of_needed hroots hi).resolve_left hne
    rw [childCells, hr.node_eq hn] at hj
    rcases List.mem_cons.mp hj with rfl | hj
    · exact Or.inr (.low hi hn)
    · obtain rfl := List.mem_singleton.mp hj
      exact Or.inr (.high hi hn)
  · intro i hi
    obtain ⟨f, hf, rfl⟩ := List.mem_map.mp hi
    exact Or.inr (.root hf)
  · intro i hi
    rw [Array.getElem?_setIfInBounds, Array.getElem?_replicate] at hi
    split at hi
    · next heq => exact Or.inl heq.symm
    · split at hi <;> cases hi
  · intro hsize
    rw [Array.size_setIfInBounds] at hsize
    rw [Handle.index_one, Array.getElem?_setIfInBounds_self_of_lt hsize]

/-- For a stored node, to be marked is to be needed. -/
theorem Reduced.reach_iff {n : Node} (hr : m.Reduced) (hroots : ∀ f ∈ roots, m.Valid f)
    (hn : m.Stores i n) : (m.reach roots).getD i false = true ↔ m.Needed roots i := by
  rw [getD_reach]
  exact ⟨fun h => (hr.needed_of_reach hroots h).resolve_left (hr.ne_one hn),
    fun h => hr.reach_of_needed h hn⟩

end Manager

/-! ## Cells that the index does not know -/

namespace UniqueTable

variable {α : Type} {t : UniqueTable α} {a : α}

theorem length_sharedCells (t : UniqueTable α) :
    t.sharedCells.length = t.cells.toList.countP fun c => c.use = .shared := by
  have hzip : t.cells.toList.zipIdx.map Prod.fst = t.cells.toList := List.zipIdx_map_fst ..
  rw [sharedCells, List.length_filterMap_eq_countP]
  conv_rhs => rw [← hzip, List.countP_map]
  refine List.countP_congr fun p _ => ?_
  by_cases hp : p.1.use = .shared <;> simp [hp]

variable [Digest α]

/-- A table in order whose only held cells are the sentinel and cell `1`. -/
structure HeldAtStart (t : UniqueTable α) : Prop where
  invariant : t.Invariant
  le_one : ∀ {i a}, t.cells[i]? = some ⟨a, .held⟩ → i ≤ 1

theorem cells_put [DecidableEq α] (t : UniqueTable α) (a : α) :
    (t.put a).2.2.cells = t.cells ∨ (t.put a).2.2.cells = (t.take a .shared).2.cells := by
  cases hf : t.find? a with
  | some i =>
      rw [put_of_find? hf]
      exact Or.inl rfl
  | none => exact Or.inr (put_of_not_found hf).2.cells_eq

theorem HeldAtStart.put [DecidableEq α] (h : t.HeldAtStart) (a : α) :
    (t.put a).2.2.HeldAtStart := by
  refine ⟨h.invariant.put a, fun {i b} hb => ?_⟩
  rcases t.cells_put a with hcells | hcells
  · exact h.le_one (hcells ▸ hb)
  · rw [hcells, getElem?_take h.invariant] at hb
    split at hb
    · cases hb
    · exact h.le_one hb

theorem HeldAtStart.sweep (h : t.HeldAtStart) (keep : Nat → Bool) :
    (t.sweep keep).2.HeldAtStart := by
  refine ⟨h.invariant.sweep keep, fun {i b} hb => ?_⟩
  rw [getElem?_sweep] at hb
  obtain ⟨c, hc, heq⟩ := Option.map_eq_some_iff.mp hb
  split at heq
  · cases heq
  · exact h.le_one (heq ▸ hc)

/-- Apart from the sentinel and cell `1`, every taken cell is shared. -/
theorem HeldAtStart.live_eq (h : t.HeldAtStart) (hone : t.cells[1]? = some ⟨a, .held⟩) :
    t.live = t.sharedCells.length + 1 := by
  obtain ⟨b, hzero⟩ := h.invariant.sentinel
  have hlive := h.invariant.live_eq
  have hheld := @h.le_one
  rw [length_sharedCells]
  rw [← Array.countP_toList] at hlive
  simp only [← Array.getElem?_toList] at hzero hone hheld
  generalize t.cells.toList = l at *
  match l, hzero, hone with
  | c0 :: c1 :: rest, hzero, hone =>
      obtain rfl := Option.some.inj hzero
      obtain rfl := Option.some.inj hone
      have hrest : rest.countP Cell.isTaken = rest.countP fun c => c.use = .shared := by
        refine List.countP_congr fun c hc => ?_
        obtain ⟨i, hi⟩ := List.mem_iff_getElem?.mp hc
        obtain ⟨v, u⟩ := c
        cases u with
        | free => simp [Cell.isTaken]
        | shared => simp [Cell.isTaken]
        | held =>
            have := hheld (i := i + 2) (a := v) (by simpa using hi)
            omega
      rw [List.countP_cons_of_pos rfl, List.countP_cons_of_pos rfl, hrest] at hlive
      rw [List.countP_cons_of_neg (by simp), List.countP_cons_of_neg (by simp)]
      omega

end UniqueTable

/-! ## Counting nodes -/

/-- A set of numbers that a list without duplicates lists has the length of
the list for its size. -/
theorem ncard_eq_length {s : Set Nat} {l : List Nat} (hl : l.Nodup) (h : ∀ i, i ∈ s ↔ i ∈ l) :
    s.ncard = l.length := by
  have hs : s = (l.toFinset : Set Nat) := by
    ext i
    simp [h]
  rw [hs, Set.ncard_coe_finset, List.toFinset_card_of_nodup hl]

/-- The tables of a history hold no cells but the first two. -/
theorem History.heldAtStart {numVars cacheBits : Nat} {m : Manager} {live : Handle → Prop}
    (h : History numVars cacheBits m live) : m.table.HeldAtStart := by
  have hput : ∀ (t : UniqueTable Node) n, t.HeldAtStart → (t.put n).2.2.HeldAtStart :=
    fun t n ht => ht.put n
  induction h with
  | start h =>
      refine ⟨(wellFormed_new? h).1.table, fun {i a} hi => ?_⟩
      rw [cells_new? h] at hi
      exact Nat.lt_succ_iff.mp (Array.getElem?_eq_some_iff.mp hi).1
  | result op _ _ _ h ih => exact (leaves_perform hput op _ ih).of_ok h
  | fault op _ _ _ h ih => exact (leaves_perform hput op _ ih).of_error h
  | collect roots _ h ih =>
      have hswept := ih.sweep
      obtain ⟨-, rfl⟩ := (returns_collectGarbage_swept roots rfl).of_ok h
      exact hswept _

/-- The nodes of a manager are the stored ones and the terminal. -/
theorem History.numNodes_eq {numVars cacheBits : Nat} {m : Manager} {live : Handle → Prop}
    (h : History numVars cacheBits m live) :
    m.numNodes = (insert Handle.one.index {i | ∃ n, m.Stores i n}).ncard := by
  have hr := h.sound.wellFormed.toReduced
  have hmem : ∀ i, i ∈ insert Handle.one.index {i | ∃ n, m.Stores i n} ↔
      i ∈ Handle.one.index :: m.table.sharedCells := by
    intro i
    rw [List.mem_cons, UniqueTable.mem_sharedCells]
    exact Iff.rfl
  have hnodup : (Handle.one.index :: m.table.sharedCells).Nodup := by
    refine List.nodup_cons.mpr ⟨fun hone => ?_, m.table.sharedCells_nodup⟩
    obtain ⟨n, hn⟩ := UniqueTable.mem_sharedCells.mp hone
    exact hr.ne_one hn rfl
  rw [ncard_eq_length hnodup hmem, List.length_cons]
  exact h.heldAtStart.live_eq hr.terminal

/-! ## Collections -/

/-- What a collection does to a manager: it keeps what the roots need, in
its place and with its meaning, and frees every other node; it counts the
freed nodes, forgets all results, and leaves the manager in order. -/
structure Manager.Collects (m : Manager) (roots : List Handle) (dropped : Nat) (m' : Manager) :
    Prop where
  keeps : ∀ f : Handle, f.isTerminal = true ∨ m.Needed roots f.index →
    m'.Valid f ∧ ∀ a, m'.eval f a = m.eval f a
  stores_iff : ∀ i n, m'.Stores i n ↔ m.Stores i n ∧ m.Needed roots i
  dropped_eq : dropped = {i | (∃ n, m.Stores i n) ∧ ¬ m.Needed roots i}.ncard
  numNodes_eq : m'.numNodes = (insert Handle.one.index {i | m.Needed roots i}).ncard
  cache_empty : ∀ slot ∈ m'.cache.slots, slot = none
  wellFormed : m'.WellFormed

/-- The number, the table and the cache that a collection leaves. -/
theorem collectGarbage_ok {m m' : Manager} {roots : List Handle} {dropped : Nat}
    (h : collectGarbage roots m = .ok dropped m') :
    m.table.sweep (fun i => (m.reach roots).getD i false) = (dropped, m'.table)
      ∧ m'.cache = m.cache.clear := by
  generalize hsweep : m.table.sweep (fun i => (m.reach roots).getD i false) = p
  obtain ⟨k, t⟩ := p
  obtain ⟨rfl, rfl⟩ := (returns_collectGarbage_swept roots hsweep).of_ok h
  exact ⟨rfl, rfl⟩

section Collects

variable {numVars cacheBits : Nat} {m m' : Manager} {live : Handle → Prop} {roots : List Handle}
  {dropped : Nat}

/-- The nodes that a collection leaves. -/
theorem History.stores_collected (hist : History numVars cacheBits m live)
    (hroots : ∀ f ∈ roots, live f) (hrun : collectGarbage roots m = .ok dropped m') (i : Nat)
    (n : Node) : m'.Stores i n ↔ m.Stores i n ∧ m.Needed roots i := by
  have hvalid : ∀ f ∈ roots, m.Valid f := fun f hf => hist.sound.valid f (hroots f hf)
  have hholds := @UniqueTable.holds_sweep _ m.table _ (fun i => (m.reach roots).getD i false) i n
  rw [(collectGarbage_ok hrun).1] at hholds
  exact hholds.trans (and_congr_right fun hn => hist.sound.wellFormed.reach_iff hvalid hn)

/-- The number that a collection returns. -/
theorem History.dropped_eq (hist : History numVars cacheBits m live)
    (hroots : ∀ f ∈ roots, live f) (hrun : collectGarbage roots m = .ok dropped m') :
    dropped = {i | (∃ n, m.Stores i n) ∧ ¬ m.Needed roots i}.ncard := by
  have hvalid : ∀ f ∈ roots, m.Valid f := fun f hf => hist.sound.valid f (hroots f hf)
  -- the doomed cells of the sweep
  rw [ncard_eq_length ((m.table.sharedCells_nodup).filter fun i => !(m.reach roots).getD i false)
    fun i => ?_]
  · have hswept := (collectGarbage_ok hrun).1
    rw [UniqueTable.sweep_eq] at hswept
    exact (congrArg Prod.fst hswept).symm
  · rw [List.mem_filter, UniqueTable.mem_sharedCells, Bool.not_eq_true', ← Bool.not_eq_true]
    refine and_congr_right fun hn => ?_
    obtain ⟨n, hn⟩ := hn
    exact not_congr (hist.sound.wellFormed.reach_iff hvalid hn).symm

/-- The number of nodes that a collection leaves. -/
theorem History.numNodes_collected (hist : History numVars cacheBits m live)
    (hroots : ∀ f ∈ roots, live f) (hrun : collectGarbage roots m = .ok dropped m') :
    m'.numNodes = (insert Handle.one.index {i | m.Needed roots i}).ncard := by
  have hstores := hist.stores_collected hroots hrun
  have hsame : insert Handle.one.index {i | ∃ n, m'.Stores i n}
      = insert Handle.one.index {i | m.Needed roots i} := by
    ext i
    constructor
    · rintro (hi | ⟨n, hn⟩)
      · exact Or.inl hi
      · exact Or.inr ((hstores i n).mp hn).2
    · rintro (hi | hi)
      · exact Or.inl hi
      · rcases hist.sound.wellFormed.stores_of_needed
          (fun f hf => hist.sound.valid f (hroots f hf)) hi with hone | ⟨n, hn⟩
        · exact Or.inl hone
        · exact Or.inr ⟨n, (hstores i n).mpr ⟨hn, hi⟩⟩
  rw [(History.collect roots hist hrun).numNodes_eq, hsame]

theorem History.collects (hist : History numVars cacheBits m live) (hroots : ∀ f ∈ roots, live f)
    (hrun : collectGarbage roots m = .ok dropped m') : m.Collects roots dropped m' := by
  have hm := hist.sound.wellFormed
  have hkeep := (returns_collectGarbage hm roots).of_ok hrun
  refine ⟨fun f hf => ?_, hist.stores_collected hroots hrun, hist.dropped_eq hroots hrun,
    hist.numNodes_collected hroots hrun, fun slot hslot => ?_, hkeep.wellFormed⟩
  · have hv : m.Valid f := hf.elim (fun ht => Or.inl (Handle.isTerminal_iff.mp ht))
      (hm.stores_of_needed fun g hg => hist.sound.valid g (hroots g hg))
    have hv' : m'.Valid f := hkeep.valid hv (hf.imp_left Handle.isTerminal_iff.mp)
    exact ⟨hv', hkeep.eval_eq hm hv'⟩
  · rw [(collectGarbage_ok hrun).2] at hslot
    exact (Array.mem_replicate.mp hslot).2

end Collects

/-- In every manager of a history, a collection from live roots frees exactly
the nodes that they do not need, and keeps the rest as it is. Whatever is
asked afterwards, freed cells taken again or not: a result with the function
of a handle that was kept is that handle. -/
theorem History.collectGarbage_exact {numVars cacheBits : Nat} {m : Manager}
    {live : Handle → Prop} (hist : History numVars cacheBits m live) {roots : List Handle}
    (hroots : ∀ f ∈ roots, live f) :
    ∃ dropped m', collectGarbage roots m = .ok dropped m' ∧ m.Collects roots dropped m'
      ∧ ∀ f : Handle, f.isTerminal = true ∨ m.Needed roots f.index → ∀ m₂ live₂,
        Later numVars (· = f) m'
          (fun h => live h ∧ (h.isTerminal = true ∨ m.Needed roots h.index)) m₂ live₂ →
        ∀ r, live₂ r → (∀ a, m₂.eval r a = m.eval f a) → r = f := by
  obtain ⟨dropped, m', hrun, hkeep⟩ :=
    (returns_collectGarbage hist.sound.wellFormed roots).exists_ok
  have hcollects := hist.collects hroots hrun
  refine ⟨dropped, m', hrun, hcollects, fun f hf m₂ live₂ hlater r hr heval => ?_⟩
  have hosts := hist.sound.of_keeps hkeep
  obtain ⟨hv, hsame⟩ := hcollects.keeps f hf
  have hkept : ∀ g, g = f → m'.Valid g := fun g hg => hg ▸ hv
  refine hlater.eq_of_eval_eq hosts hkept rfl ((hlater.sound hosts hkept).1.valid r hr) fun a => ?_
  rw [heval, hsame]

/-- Two variables, of which the first is kept: the second is freed, and is
asked for again, which takes its cell or another. The first is still found
where it was. -/
theorem History.collectGarbage_exact_of_variables : ∃ m live f g, History 2 4 m live
    ∧ (live f ∧ live g) ∧ ∃ dropped m', collectGarbage [f] m = .ok dropped m'
      ∧ (m'.Valid f ∧ ¬ m'.Valid g)
      ∧ ∃ r m₁, mkVar 2 m' = .ok r m₁ ∧ ∃ m₂, mkVar 1 m₁ = .ok f m₂ := by
  obtain ⟨m, live, f, g, hist, ⟨hf, hg⟩, ef, eg⟩ := exists_variables
  have hm := hist.sound.wellFormed
  have hroots : ∀ h ∈ [f], live h := by simpa using hf
  obtain ⟨dropped, m', hrun, hcollects, hlater⟩ := hist.collectGarbage_exact hroots
  -- the node of `g` decides the second variable, which does not occur in `f`
  have hfreed : ¬ m'.Valid g := by
    rintro (hone | ⟨n, hn⟩)
    · have heval := fun b => eg fun _ => b
      simp only [eval_of_terminal (Handle.isTerminal_iff.mpr hone)] at heval
      exact absurd ((heval true).symm.trans (heval false)) (by decide)
    · obtain ⟨hn, hneed⟩ := (hcollects.stores_iff _ n).mp hn
      have hoccurs : m.Occurs g n.var := (hm.occurs_stores hn).mpr (Or.inl rfl)
      obtain ⟨a, b, hab⟩ := (hm.occurs_iff (hist.sound.valid g hg)).mp hoccurs
      have hvar : n.var = 2 := by
        by_contra hne
        rw [eg, eg, Function.update_of_ne (Ne.symm hne)] at hab
        exact hab rfl
      obtain ⟨a, b, hab⟩ := (hm.occurs_iff (hist.sound.valid f hf)).mp
        ⟨g.index, n, hneed, hn, hvar⟩
      rw [ef, ef, Function.update_of_ne (by decide)] at hab
      exact hab rfl
  have hkeep := (returns_collectGarbage hm [f]).of_ok hrun
  have hn' : m'.numVars = 2 := (hist.sound.of_keeps hkeep).numVars_eq
  obtain ⟨r, m₁, h₁, y₁⟩ := (returns_mkVar (v := 2) hcollects.wellFormed (by omega)).exists_ok
  obtain ⟨s, m₂, h₂, y₂⟩ := (returns_mkVar (v := 1) y₁.wellFormed (by
    rw [y₁.extends_.numVars_eq]
    omega)).exists_ok
  have hneed : f.isTerminal = true ∨ m.Needed [f] f.index := Or.inr (m.needed_self f)
  obtain rfl : s = f := by
    refine hlater f hneed m₂ _ (.result (.var 1) (.result (.var 2) .refl trivial
      (by simp [Operation.args]) h₁) trivial (by simp [Operation.args]) h₂) s (Or.inr rfl)
      fun a => ?_
    rw [y₂.eval_eq, ef]
  exact ⟨m, live, s, g, hist, ⟨hf, hg⟩, dropped, m', hrun,
    ⟨(hcollects.keeps s hneed).1, hfreed⟩, r, m₁, h₁, m₂, h₂⟩

end BranchingTime
