import Mathlib.Data.List.Nodup
import BranchingTime.Diagram.UniqueTable

/-!
# The invariant of the unique table

A unique table keeps the same knowledge in several places: the use of
each cell, the chains of the index, the list of spare cells and the count
of taken ones. `UniqueTable.Invariant` says how these agree. It is kept by
everything that changes a table:

- `Invariant.alloc` - taking a cell, whether freed before or new;
- `Invariant.put` - storing a value, with the index growing or not;
- `Invariant.sweep` - freeing cells and building the index anew.

The index may be lost and built anew at any time (`Accounted.relink`); what is
left of the invariant without it is `UniqueTable.Accounted`.

A chain is what the links of its cells make of it. `UniqueTable.Linked` says
which cells one passes on the way, and `UniqueTable.Indexes` which cells the
chains of a table list. Chaining a cell adds it to what is listed, and both
`put` and `relink` come down to that.

Along with it go the facts that users of a table need: `put` returns a
cell that holds the value and disturbs no other taken cell, and after
`sweep` exactly the kept shared cells are still shared.
-/

namespace BranchingTime

/-- Is the cell in use? -/
def Cell.isTaken {α : Type} (c : Cell α) : Bool := c.use != .free

namespace UniqueTable

variable {α : Type}

/-- Cell `i` is indexed and holds `a`. -/
def Holds (t : UniqueTable α) (i : Nat) (a : α) : Prop :=
  t.cells[i]? = some ⟨a, .shared⟩

/-- Following the links from cell `i` on, one passes the cells `l` and comes
to the end. -/
inductive Linked (links : Array Nat) : Nat → List Nat → Prop
  | nil : Linked links 0 []
  | cons {i j : Nat} {l : List Nat} (hi : i ≠ 0) (hj : links[i]? = some j)
      (hl : Linked links j l) : Linked links i (i :: l)

/-- The chain of each bucket lists, once, the cells of `S` whose digest
selects it. -/
def Indexes [Digest α] (t : UniqueTable α) (S : Nat → α → Prop) : Prop :=
  ∀ b < t.buckets.size, ∃ l, Linked t.links (t.buckets.getD b 0) l ∧ l.Nodup
    ∧ ∀ i, i ∈ l ↔ ∃ a, S i a ∧ slotOf t.buckets.size a = b

/-- Spare cells and count agree with the use of the cells, and no two shared
cells hold the same. -/
structure Accounted (t : UniqueTable α) : Prop where
  links_size : t.links.size = t.cells.size
  unique : ∀ {i j a}, t.Holds i a → t.Holds j a → i = j
  mem_spare : ∀ i, i ∈ t.spare ↔ ∃ a, t.cells[i]? = some ⟨a, .free⟩
  spare_nodup : t.spare.Nodup
  sentinel : ∃ a, t.cells[0]? = some ⟨a, .held⟩
  live_eq : t.live + 1 = t.cells.countP Cell.isTaken

/-- Index, spare cells and count agree with the use of the cells. -/
structure Invariant [Digest α] (t : UniqueTable α) : Prop extends t.Accounted where
  buckets_pos : 0 < t.buckets.size
  indexes : t.Indexes t.Holds

theorem Accounted.not_holds_zero {t : UniqueTable α} (h : t.Accounted) {a : α} :
    ¬ t.Holds 0 a := by
  obtain ⟨b, hb⟩ := h.sentinel
  intro h0
  rw [Holds, hb] at h0
  cases Option.some.inj h0

theorem Linked.of_agree {links links' : Array Nat} {i : Nat} {l : List Nat}
    (h : Linked links i l) (heq : ∀ j ∈ l, links'[j]? = links[j]?) : Linked links' i l := by
  induction h with
  | nil => exact .nil
  | cons hi hj _ ih =>
      rw [List.forall_mem_cons] at heq
      exact .cons hi (heq.1.trans hj) (ih heq.2)

theorem Indexes.congr [Digest α] {t : UniqueTable α} {S S' : Nat → α → Prop} (h : t.Indexes S)
    (heq : ∀ i a, S i a ↔ S' i a) : t.Indexes S' := by
  obtain rfl : S = S' := funext fun i => funext fun a => propext (heq i a)
  exact h

/-! ## Taking a cell -/

section Take

variable {t : UniqueTable α} {a : α} {u : Use}

/-- A cell to be taken next is free, or new. -/
theorem take_fst_free [Digest α] (h : t.Invariant) (a : α) (u : Use) {c : Cell α}
    (hc : t.cells[(t.take a u).1]? = some c) : c.use = .free := by
  unfold take at hc
  split at hc
  · next i rest hs =>
      obtain ⟨b, hb⟩ := (h.mem_spare i).mp (hs ▸ List.mem_cons_self ..)
      rw [hb] at hc
      obtain rfl := Option.some.inj hc
      rfl
  · simp at hc

theorem getElem?_take [Digest α] (h : t.Invariant) (a : α) (u : Use) (j : Nat) :
    (t.take a u).2.cells[j]? = if j = (t.take a u).1 then some ⟨a, u⟩ else t.cells[j]? := by
  unfold take
  split
  · next i rest hs =>
      obtain ⟨b, hb⟩ := (h.mem_spare i).mp (hs ▸ List.mem_cons_self ..)
      have hi : i < t.cells.size := (Array.getElem?_eq_some_iff.mp hb).1
      simp only [Array.getElem?_setIfInBounds, hi, if_true]
      by_cases hj : i = j
      · simp [hj]
      · rw [if_neg hj, if_neg (Ne.symm hj)]
  · simp only [Array.getElem?_push]

theorem take_snd_buckets : (t.take a u).2.buckets = t.buckets := by
  unfold take
  split <;> rfl

theorem links_size_take [Digest α] (h : t.Invariant) :
    (t.take a u).2.links.size = (t.take a u).2.cells.size := by
  have hsize := h.links_size
  unfold take
  split
  · simpa only [Array.size_setIfInBounds] using hsize
  · simpa only [Array.size_push, Nat.add_right_cancel_iff] using hsize

theorem take_fst_lt_links [Digest α] (h : t.Invariant) :
    (t.take a u).1 < (t.take a u).2.links.size := by
  have hnew := getElem?_take h a u (t.take a u).1
  rw [if_pos rfl] at hnew
  rw [links_size_take h]
  exact (Array.getElem?_eq_some_iff.mp hnew).1

/-- Only the link of the taken cell changes. -/
theorem getElem?_links_take [Digest α] (h : t.Invariant) {j : Nat} (hj : j ≠ (t.take a u).1) :
    (t.take a u).2.links[j]? = t.links[j]? := by
  have hsize := h.links_size
  unfold take at hj ⊢
  split at hj
  · exact Array.getElem?_setIfInBounds_ne (Ne.symm hj)
  · rw [Array.getElem?_push, if_neg]
    rwa [hsize]

/-- A cell that is not listed may be taken without a change to the index. -/
theorem Indexes.take [Digest α] (h : t.Invariant) {S : Nat → α → Prop} (hS : t.Indexes S)
    (hfree : ∀ b, ¬ S (t.take a u).1 b) : (t.take a u).2.Indexes S := by
  intro b hb
  rw [take_snd_buckets] at hb ⊢
  obtain ⟨l, hl, hnodup, hmem⟩ := hS b hb
  refine ⟨l, hl.of_agree fun j hj => getElem?_links_take h ?_, hnodup, hmem⟩
  rintro rfl
  obtain ⟨c, hc, -⟩ := (hmem _).mp hj
  exact hfree c hc

/-- A taken cell is no longer spare, and no other cell becomes so. -/
theorem mem_spare_take [Digest α] (h : t.Invariant) (a : α) (u : Use) (j : Nat) :
    j ∈ (t.take a u).2.spare ↔ j ∈ t.spare ∧ j ≠ (t.take a u).1 := by
  unfold take
  split
  · next i rest hs =>
      have hnd := hs ▸ h.spare_nodup
      rw [List.nodup_cons] at hnd
      rw [hs, List.mem_cons]
      constructor
      · intro hj
        refine ⟨Or.inr hj, ?_⟩
        rintro rfl
        exact hnd.1 hj
      · rintro ⟨rfl | hj, hne⟩
        · exact absurd rfl hne
        · exact hj
  · next hs => simp [hs]

theorem spare_nodup_take [Digest α] (h : t.Invariant) (a : α) (u : Use) :
    (t.take a u).2.spare.Nodup := by
  unfold take
  split
  · next i rest hs =>
      have hnd := hs ▸ h.spare_nodup
      exact (List.nodup_cons.mp hnd).2
  · exact h.spare_nodup

theorem live_take [Digest α] (h : t.Invariant) (a : α) (hu : u ≠ .free) :
    (t.take a u).2.live + 1 = (t.take a u).2.cells.countP Cell.isTaken := by
  have hlive := h.live_eq
  have hnew : Cell.isTaken ⟨a, u⟩ = true := by simpa [Cell.isTaken] using hu
  unfold take
  split
  · next i rest hs =>
      obtain ⟨b, hb⟩ := (h.mem_spare i).mp (hs ▸ List.mem_cons_self ..)
      obtain ⟨hi, hget⟩ := Array.getElem?_eq_some_iff.mp hb
      have hold : Cell.isTaken t.cells[i] = false := by rw [hget]; rfl
      simp only [Array.setIfInBounds_def, hi, dif_pos, Array.countP_set, hnew, hold, if_true]
      simp
      omega
  · simp only [Array.countP_push, hnew, if_true]
    omega

end Take

/-! ## The index -/

section Index

variable [Digest α] {t r : UniqueTable α} {S : Nat → α → Prop} {a : α} {i k n : Nat}

theorem size_chain (t : UniqueTable α) (i : Nat) (a : α) :
    (t.chain i a).buckets.size = t.buckets.size := by
  simp [chain]

theorem getD_chain (hpos : 0 < t.buckets.size) (i : Nat) (a : α) (b : Nat) :
    (t.chain i a).buckets.getD b 0 =
      if slotOf t.buckets.size a = b then i else t.buckets.getD b 0 := by
  have hlt := slotOf_lt hpos a
  simp only [chain, Array.getD_eq_getD_getElem?, Array.getElem?_setIfInBounds, hlt, if_true]
  split <;> rfl

/-- Chaining a cell that was not listed lists it. -/
theorem Indexes.chain (h : t.Indexes S) (hpos : 0 < t.buckets.size) (hi : i ≠ 0)
    (hlt : i < t.links.size) (hnew : ∀ b, ¬ S i b) (a : α) :
    (t.chain i a).Indexes fun j b => S j b ∨ j = i ∧ b = a := by
  intro b hb
  rw [size_chain] at hb
  obtain ⟨l, hl, hnodup, hmem⟩ := h b hb
  have hnot : i ∉ l := by
    intro hil
    obtain ⟨c, hc, -⟩ := (hmem i).mp hil
    exact hnew c hc
  -- the other links stay, so the old chain is still there
  have hl' : Linked (t.chain i a).links (t.buckets.getD b 0) l := by
    refine hl.of_agree fun j hj => Array.getElem?_setIfInBounds_ne ?_
    rintro rfl
    exact hnot hj
  rw [getD_chain hpos, size_chain]
  by_cases hslot : slotOf t.buckets.size a = b
  · have hhead : (t.chain i a).links[i]? = some (t.buckets.getD b 0) := by
      simp [UniqueTable.chain, hlt, hslot]
    rw [if_pos hslot]
    refine ⟨i :: l, .cons hi hhead hl', List.nodup_cons.mpr ⟨hnot, hnodup⟩, fun j => ?_⟩
    rw [List.mem_cons, hmem]
    constructor
    · rintro (rfl | ⟨c, hc, hslot'⟩)
      · exact ⟨a, .inr ⟨rfl, rfl⟩, hslot⟩
      · exact ⟨c, .inl hc, hslot'⟩
    · rintro ⟨c, hc | ⟨rfl, -⟩, hslot'⟩
      · exact .inr ⟨c, hc, hslot'⟩
      · exact .inl rfl
  · rw [if_neg hslot]
    refine ⟨l, hl', hnodup, fun j => ?_⟩
    rw [hmem]
    constructor
    · rintro ⟨c, hc, hslot'⟩
      exact ⟨c, .inl hc, hslot'⟩
    · rintro ⟨c, hc | ⟨-, rfl⟩, hslot'⟩
      · exact ⟨c, hc, hslot'⟩
      · exact absurd hslot' hslot

/-- The tables differ in their index only. -/
structure Reindexed (t r : UniqueTable α) : Prop where
  cells_eq : r.cells = t.cells
  spare_eq : r.spare = t.spare
  live_eq : r.live = t.live
  links_size : r.links.size = t.links.size

omit [Digest α] in
theorem Reindexed.refl (t : UniqueTable α) : Reindexed t t := ⟨rfl, rfl, rfl, rfl⟩

omit [Digest α] in
theorem Reindexed.holds_iff (h : Reindexed t r) : r.Holds i a ↔ t.Holds i a := by
  rw [Holds, h.cells_eq, Holds]

theorem Reindexed.chain (h : Reindexed t r) (i : Nat) (a : α) : Reindexed t (r.chain i a) :=
  ⟨h.cells_eq, h.spare_eq, h.live_eq, by simpa [UniqueTable.chain] using h.links_size⟩

theorem Reindexed.chainShared (h : Reindexed t r) (cell : Cell α × Nat) :
    Reindexed t (r.chainShared cell) := by
  unfold UniqueTable.chainShared
  split
  · exact h.chain _ _
  · exact h

theorem Reindexed.relink (h : Reindexed t r) (n : Nat) : Reindexed t (r.relink n) := by
  have hgen : ∀ (cells : List (Cell α × Nat)) (r : UniqueTable α), Reindexed t r →
      Reindexed t (cells.foldl UniqueTable.chainShared r) := by
    intro cells
    induction cells with
    | nil => exact fun r h => h
    | cons c cells ih => exact fun r h => ih _ (h.chainShared c)
  exact hgen _ _ ⟨h.cells_eq, h.spare_eq, h.live_eq, h.links_size⟩

theorem size_chainShared (t : UniqueTable α) (cell : Cell α × Nat) :
    (t.chainShared cell).buckets.size = t.buckets.size := by
  unfold chainShared
  split
  · exact size_chain ..
  · rfl

theorem size_relink (t : UniqueTable α) (n : Nat) : (t.relink n).buckets.size = n := by
  have hgen : ∀ (cells : List (Cell α × Nat)) (r : UniqueTable α),
      (cells.foldl chainShared r).buckets.size = r.buckets.size := by
    intro cells
    induction cells with
    | nil => exact fun r => rfl
    | cons c cells ih => exact fun r => (ih _).trans (size_chainShared r c)
  exact (hgen _ _).trans Array.size_replicate

/-- Once the cells before `k` are listed, chaining cell `k` if it is shared
lists those up to it. -/
theorem Indexes.chainShared (h : r.Indexes fun i a => i < k ∧ t.Holds i a)
    (hpos : 0 < r.buckets.size) (hk : k < r.links.size) (hzero : ∀ a, ¬ t.Holds 0 a)
    {c : Cell α} (hc : t.cells[k]? = some c) :
    (r.chainShared (c, k)).Indexes fun i a => i < k + 1 ∧ t.Holds i a := by
  obtain ⟨a, u⟩ := c
  unfold UniqueTable.chainShared
  by_cases hu : u = .shared
  · subst hu
    have hne : k ≠ 0 := by
      rintro rfl
      exact hzero a hc
    rw [if_pos rfl]
    refine (h.chain hpos hne hk (fun b hb => Nat.lt_irrefl k hb.1) a).congr fun i b => ?_
    constructor
    · rintro (⟨hi, hb⟩ | ⟨rfl, rfl⟩)
      · exact ⟨Nat.lt_succ_of_lt hi, hb⟩
      · exact ⟨Nat.lt_succ_self _, hc⟩
    · rintro ⟨hi, hb⟩
      rcases Nat.lt_succ_iff_lt_or_eq.mp hi with hi | rfl
      · exact .inl ⟨hi, hb⟩
      · rw [Holds, hc] at hb
        exact .inr ⟨rfl, (congrArg Cell.value (Option.some.inj hb)).symm⟩
  · rw [if_neg hu]
    refine h.congr fun i b => and_congr_left fun hb => ?_
    have hne : i ≠ k := by
      rintro rfl
      rw [Holds, hc] at hb
      exact hu (congrArg Cell.use (Option.some.inj hb))
    omega

/-- An index that is built anew lists the shared cells. -/
theorem indexes_relink (hlinks : t.links.size = t.cells.size) (hzero : ∀ a, ¬ t.Holds 0 a)
    (hn : 0 < n) : (t.relink n).Indexes t.Holds := by
  -- the cells before `k` are listed, and `l` are the others
  have hgen : ∀ (l : List (Cell α)) (k : Nat) (r : UniqueTable α),
      (∀ j, t.cells[k + j]? = l[j]?) → r.links.size = t.cells.size → 0 < r.buckets.size →
      (r.Indexes fun i a => i < k ∧ t.Holds i a) →
      ((l.zipIdx k).foldl UniqueTable.chainShared r).Indexes t.Holds := by
    intro l
    induction l with
    | nil =>
        intro k r hcells _ _ h
        have hk : t.cells.size ≤ k := by simpa using hcells 0
        refine h.congr fun i a => and_iff_right_of_imp fun ha => ?_
        exact Nat.lt_of_lt_of_le (Array.getElem?_eq_some_iff.mp ha).1 hk
    | cons c l ih =>
        intro k r hcells hsize hpos h
        have hc : t.cells[k]? = some c := by simpa using hcells 0
        have hl : ∀ j, t.cells[k + 1 + j]? = l[j]? := fun j => by
          simpa [Nat.add_assoc, Nat.add_comm 1 j] using hcells (j + 1)
        have hk : k < r.links.size := by
          rw [hsize]
          exact (Array.getElem?_eq_some_iff.mp hc).1
        have hsize' : (r.chainShared (c, k)).links.size = t.cells.size := by
          rw [((Reindexed.refl r).chainShared (c, k)).links_size, hsize]
        have hpos' : 0 < (r.chainShared (c, k)).buckets.size := by rwa [size_chainShared]
        exact ih (k + 1) _ hl hsize' hpos' (h.chainShared hpos hk hzero hc)
  refine hgen t.cells.toList 0 _ (fun j => by simp) hlinks (by simpa using hn) fun b hb => ?_
  rw [Array.size_replicate] at hb
  refine ⟨[], ?_, List.nodup_nil, fun i => by simp⟩
  rw [Array.getD_eq_getD_getElem?, Array.getElem?_replicate, if_pos hb]
  exact .nil

/-- A table whose cells are accounted for is in order with a new index. -/
theorem Accounted.relink (h : t.Accounted) (hn : 0 < n) : (t.relink n).Invariant := by
  have hr := (Reindexed.refl t).relink n
  have hindexes := indexes_relink h.links_size (fun _ => h.not_holds_zero) hn
  refine ⟨⟨?_, fun hi hj => h.unique (hr.holds_iff.mp hi) (hr.holds_iff.mp hj), fun i => ?_,
    ?_, ?_, ?_⟩, (size_relink t n).symm ▸ hn, hindexes.congr fun i a => hr.holds_iff.symm⟩
  · rw [hr.links_size, hr.cells_eq, h.links_size]
  · rw [hr.spare_eq, hr.cells_eq, h.mem_spare]
  · rw [hr.spare_eq]
    exact h.spare_nodup
  · rw [hr.cells_eq]
    exact h.sentinel
  · rw [hr.live_eq, hr.cells_eq]
    exact h.live_eq

end Index

/-- The empty table is in order. -/
theorem Invariant.empty [Digest α] [Inhabited α] (bits : Nat) :
    (empty bits : UniqueTable α).Invariant := by
  have hcell : ∀ (i : Nat) (a : α) (u : Use), u ≠ .held →
      (#[(⟨default, .held⟩ : Cell α)])[i]? ≠ some ⟨a, u⟩ := by
    intro i a u hu hc
    cases i with
    | zero => exact hu (congrArg Cell.use (Option.some.inj hc)).symm
    | succ i => simp at hc
  refine ⟨⟨rfl, fun hi _ => ?_, fun i => ?_, List.nodup_nil, ⟨default, rfl⟩, rfl⟩, ?_,
    fun b hb => ⟨[], ?_, List.nodup_nil, fun i => ?_⟩⟩
  · exact absurd hi (hcell _ _ .shared (by decide))
  · simp only [UniqueTable.empty, List.not_mem_nil, false_iff]
    rintro ⟨a, ha⟩
    exact hcell i a .free (by decide) ha
  · rw [UniqueTable.empty, Array.size_replicate]
    exact Nat.two_pow_pos bits
  · rw [UniqueTable.empty, Array.size_replicate] at hb
    rw [UniqueTable.empty, Array.getD_eq_getD_getElem?, Array.getElem?_replicate, if_pos hb]
    exact .nil
  · simp only [List.not_mem_nil, false_iff]
    rintro ⟨a, ha, -⟩
    exact hcell i a .shared (by decide) ha

/-! ## Storing a value -/

section Put

variable [Digest α] {t : UniqueTable α} {a : α} {i : Nat}

theorem holds_take_iff (h : t.Invariant) {j : Nat} {b : α} :
    (t.take a .shared).2.Holds j b ↔ t.Holds j b ∨ (j = (t.take a .shared).1 ∧ b = a) := by
  unfold Holds
  rw [getElem?_take h]
  by_cases hj : j = (t.take a .shared).1
  · rw [if_pos hj]
    constructor
    · intro hb
      exact Or.inr ⟨hj, (congrArg Cell.value (Option.some.inj hb)).symm⟩
    · rintro (hb | ⟨-, rfl⟩)
      · cases take_fst_free h a .shared (hj ▸ hb)
      · rfl
  · rw [if_neg hj]
    constructor
    · exact Or.inl
    · rintro (hb | ⟨rfl, -⟩)
      · exact hb
      · exact absurd rfl hj

/-- Taking a cell keeps all of the invariant that does not speak of the
index. -/
theorem Invariant.mem_spare_take (h : t.Invariant) {u : Use} (hu : u ≠ .free) (j : Nat) :
    j ∈ (t.take a u).2.spare ↔ ∃ b, (t.take a u).2.cells[j]? = some ⟨b, .free⟩ := by
  rw [UniqueTable.mem_spare_take h, getElem?_take h, h.mem_spare]
  by_cases hj : j = (t.take a u).1
  · rw [if_pos hj]
    constructor
    · rintro ⟨-, hne⟩
      exact absurd hj hne
    · rintro ⟨b, hb⟩
      exact absurd (congrArg Cell.use (Option.some.inj hb)) hu
  · rw [if_neg hj]
    exact ⟨fun hb => hb.1, fun hb => ⟨hb, hj⟩⟩

theorem Invariant.sentinel_take (h : t.Invariant) (u : Use) :
    ∃ b, (t.take a u).2.cells[0]? = some ⟨b, .held⟩ := by
  obtain ⟨b, hb⟩ := h.sentinel
  refine ⟨b, ?_⟩
  rw [getElem?_take h, if_neg, hb]
  intro h0
  cases take_fst_free h a u (h0 ▸ hb)

/-- A cell that the index does not know may be taken at any time. -/
theorem Invariant.alloc (h : t.Invariant) (a : α) : (t.alloc a).2.Invariant := by
  have hholds : ∀ j b, (t.take a .held).2.Holds j b ↔ t.Holds j b := by
    intro j b
    unfold Holds
    rw [getElem?_take h]
    split
    · next hj =>
        constructor
        · intro hb
          cases Option.some.inj hb
        · intro hb
          cases take_fst_free h a .held (hj ▸ hb)
    · exact Iff.rfl
  have hindexes : (t.take a .held).2.Indexes t.Holds :=
    Indexes.take h h.indexes fun b hb => by cases take_fst_free h a .held hb
  refine ⟨⟨links_size_take h, fun hi hj => ?_, h.mem_spare_take (by decide),
    spare_nodup_take h a .held, h.sentinel_take .held, live_take h a (by decide)⟩, ?_,
    hindexes.congr fun i b => (hholds i b).symm⟩
  · exact h.unique ((hholds _ _).mp hi) ((hholds _ _).mp hj)
  · rw [UniqueTable.alloc, take_snd_buckets]
    exact h.buckets_pos

theorem Invariant.take_fst_ne_zero (h : t.Invariant) (u : Use) : (t.take a u).1 ≠ 0 := by
  obtain ⟨b, hb⟩ := h.sentinel
  intro h0
  cases take_fst_free h a u (h0 ▸ hb)

/-- A value that no shared cell holds may be taken a cell for and chained. -/
theorem Invariant.insert (h : t.Invariant) (ha : ∀ i, ¬ t.Holds i a) :
    ((t.take a .shared).2.chain (t.take a .shared).1 a).Invariant := by
  have hpos : 0 < (t.take a .shared).2.buckets.size := by
    rw [take_snd_buckets]
    exact h.buckets_pos
  have hfree : ∀ b, ¬ t.Holds (t.take a .shared).1 b := fun b hb => by
    cases take_fst_free h a .shared hb
  have hindexes := (Indexes.take h h.indexes hfree).chain hpos (h.take_fst_ne_zero .shared)
    (take_fst_lt_links h) hfree a
  refine ⟨⟨?_, fun {i j b} hi hj => ?_, h.mem_spare_take (by decide),
    spare_nodup_take h a .shared, h.sentinel_take .shared, live_take h a (by decide)⟩,
    ?_, hindexes.congr fun i b => (holds_take_iff h).symm⟩
  · simpa [chain] using links_size_take h
  · rcases (holds_take_iff h).mp hi with hold | ⟨rfl, rfl⟩
    · rcases (holds_take_iff h).mp hj with hold' | ⟨-, rfl⟩
      · exact h.unique hold hold'
      · exact absurd hold (ha i)
    · rcases (holds_take_iff h).mp hj with hold' | ⟨rfl, -⟩
      · exact absurd hold' (ha j)
      · rfl
  · rwa [size_chain]

/-- Doubling the buckets changes the index only. -/
theorem Invariant.grow (h : t.Invariant) : t.grow.Invariant :=
  h.toAccounted.relink (Nat.mul_pos (by decide) h.buckets_pos)

theorem Invariant.value?_eq (h : t.Invariant) {b : α} (hb : t.Holds i b) :
    t.value? i = some b := by
  have h0 : i ≠ 0 := by
    rintro rfl
    exact h.not_holds_zero hb
  rw [value?, if_neg h0, show t.cells[i]? = some ⟨b, .shared⟩ from hb]
  rfl

variable [DecidableEq α]

omit [Digest α] in
/-- Searching along a chain that ends soon enough searches all of it. -/
theorem findFrom_eq {l : List Nat} (h : Linked t.links i l) {n : Nat} (hn : l.length ≤ n) :
    t.findFrom a n i = l.find? fun j => t.value? j = some a := by
  induction h generalizing n with
  | nil =>
      cases n with
      | zero => rfl
      | succ n => rfl
  | @cons i j l hi hj _ ih =>
      cases n with
      | zero => exact absurd hn (Nat.not_succ_le_zero _)
      | succ n =>
          have hnext : t.links.getD i 0 = j := by rw [Array.getD_eq_getD_getElem?, hj]; rfl
          rw [findFrom, if_neg hi, hnext, ih (Nat.le_of_succ_le_succ hn), List.find?_cons]
          by_cases hval : t.value? i = some a
          · rw [if_pos hval, decide_eq_true hval]
          · rw [if_neg hval, decide_eq_false hval]

/-- The search for a value is a search of one chain, which lists the shared
cells that may hold it. -/
theorem Invariant.exists_chain (h : t.Invariant) (a : α) :
    ∃ l, Linked t.links (t.buckets.getD (slotOf t.buckets.size a) 0) l
      ∧ l.length ≤ t.cells.size
      ∧ (∀ i, i ∈ l ↔ ∃ b, t.Holds i b ∧ slotOf t.buckets.size b = slotOf t.buckets.size a)
      ∧ t.find? a = l.find? fun i => t.value? i = some a := by
  obtain ⟨l, hl, hnodup, hmem⟩ := h.indexes _ (slotOf_lt h.buckets_pos a)
  have hsub : l ⊆ List.range t.cells.size := by
    intro i hi
    obtain ⟨b, hb, -⟩ := (hmem i).mp hi
    exact List.mem_range.mpr (Array.getElem?_eq_some_iff.mp hb).1
  have hlength := hnodup.length_le_of_subset hsub
  rw [List.length_range] at hlength
  exact ⟨l, hl, hlength, hmem, findFrom_eq hl hlength⟩

theorem find?_eq_some (h : t.Invariant) (hf : t.find? a = some i) : t.Holds i a := by
  obtain ⟨l, -, -, hmem, hfind⟩ := h.exists_chain a
  rw [hfind] at hf
  obtain ⟨b, hb, -⟩ := (hmem i).mp (List.mem_of_find?_eq_some hf)
  have hval : t.value? i = some a := by simpa using List.find?_some hf
  rw [h.value?_eq hb] at hval
  obtain rfl : b = a := Option.some.inj hval
  exact hb

theorem find?_eq_none (h : t.Invariant) (hf : t.find? a = none) : ∀ i, ¬ t.Holds i a := by
  intro i hi
  obtain ⟨l, -, -, hmem, hfind⟩ := h.exists_chain a
  rw [hfind] at hf
  have hval := List.find?_eq_none.mp hf i ((hmem i).mpr ⟨a, hi, rfl⟩)
  exact hval (decide_eq_true (h.value?_eq hi))

/-- What `put` does to the cells of a table, whether it finds the value or
not: cell `i` of `t'` holds it, no taken cell changes, and no other cell
becomes shared. -/
structure Stored (t : UniqueTable α) (a : α) (i : Nat) (t' : UniqueTable α) : Prop where
  holds : t'.Holds i a
  keeps : ∀ {j : Nat} {c : Cell α}, t.cells[j]? = some c → c.use ≠ .free → t'.cells[j]? = some c
  only : ∀ {j : Nat} {b : α}, t'.Holds j b → t.Holds j b ∨ (j = i ∧ b = a)

theorem put_of_find? (hf : t.find? a = some i) : t.put a = (i, none, t) := by
  rw [put, hf]

theorem Invariant.find?_of_holds (h : t.Invariant) (hi : t.Holds i a) : t.find? a = some i := by
  cases hf : t.find? a with
  | none => exact absurd hi (find?_eq_none h hf i)
  | some j => rw [h.unique (find?_eq_some h hf) hi]

theorem Invariant.find?_of_not_holds (h : t.Invariant) (ha : ∀ i, ¬ t.Holds i a) :
    t.find? a = none := by
  cases hf : t.find? a with
  | none => rfl
  | some j => exact absurd (find?_eq_some h hf) (ha j)

/-- A value that is held already is found, and the table stays as it is. -/
theorem put_of_holds (h : t.Invariant) (hi : t.Holds i a) : t.put a = (i, none, t) :=
  put_of_find? (h.find?_of_holds hi)

/-- A value that is not found is put into the cell to be taken next. -/
theorem put_of_not_found (hf : t.find? a = none) :
    (t.put a).1 = (t.take a .shared).1 ∧ Reindexed (t.take a .shared).2 (t.put a).2.2 := by
  have hchain := (Reindexed.refl (t.take a .shared).2).chain (t.take a .shared).1 a
  rw [put, hf]
  dsimp only
  split
  · exact ⟨rfl, hchain.relink _⟩
  · exact ⟨rfl, hchain⟩

theorem put_stored (h : t.Invariant) (a : α) : Stored t a (t.put a).1 (t.put a).2.2 := by
  cases hf : t.find? a with
  | some i =>
      rw [put_of_find? hf]
      exact ⟨find?_eq_some h hf, fun hc _ => hc, fun hb => Or.inl hb⟩
  | none =>
      obtain ⟨hfst, hr⟩ := put_of_not_found hf
      rw [hfst]
      refine ⟨hr.holds_iff.mpr ((holds_take_iff h).mpr (Or.inr ⟨rfl, rfl⟩)), fun hc hu => ?_,
        fun hb => (holds_take_iff h).mp (hr.holds_iff.mp hb)⟩
      rw [hr.cells_eq, getElem?_take h, if_neg, hc]
      rintro rfl
      exact hu (take_fst_free h a .shared hc)

theorem Invariant.put (h : t.Invariant) (a : α) : (t.put a).2.2.Invariant := by
  cases hf : t.find? a with
  | some i =>
      rw [put_of_find? hf]
      exact h
  | none =>
      have hins := h.insert (find?_eq_none h hf)
      rw [UniqueTable.put, hf]
      dsimp only
      split
      · exact hins.grow
      · exact hins

end Put

/-! ## Sweeping -/

section Sweep

variable {t : UniqueTable α}

theorem mem_filterMap_shared (l : List (Cell α)) (k i : Nat) :
    i ∈ (l.zipIdx k).filterMap (fun (c, i) => if c.use = .shared then some i else none) ↔
      ∃ a, k ≤ i ∧ l[i - k]? = some ⟨a, .shared⟩ := by
  simp only [List.mem_filterMap, Prod.exists, List.mem_zipIdx_iff_le_and_getElem?_sub,
    Option.ite_none_right_eq_some, Option.some.injEq]
  constructor
  · rintro ⟨⟨a, u⟩, j, ⟨hk, hc⟩, hu, rfl⟩
    obtain rfl : u = .shared := hu
    exact ⟨a, hk, hc⟩
  · rintro ⟨a, hk, hc⟩
    exact ⟨_, i, ⟨hk, hc⟩, rfl, rfl⟩

theorem mem_sharedCells {i : Nat} : i ∈ t.sharedCells ↔ ∃ a, t.Holds i a := by
  rw [sharedCells, mem_filterMap_shared]
  simp [Holds]

/-- The shared cells are listed in ascending order. -/
theorem sharedCells_sorted (t : UniqueTable α) : t.sharedCells.Pairwise (· < ·) := by
  have hgen : ∀ (l : List (Cell α)) (k : Nat), ((l.zipIdx k).filterMap
      fun (c, i) => if c.use = .shared then some i else none).Pairwise (· < ·) := by
    intro l
    induction l with
    | nil => exact fun _ => .nil
    | cons c l ih =>
        intro k
        rw [List.zipIdx_cons, List.filterMap_cons]
        split
        · exact ih (k + 1)
        · next j hj =>
            have hjk : k = j := by simp at hj; exact hj.2
            refine List.pairwise_cons.mpr ⟨fun i hi => ?_, ih (k + 1)⟩
            obtain ⟨-, hle, -⟩ := (mem_filterMap_shared l (k + 1) i).mp hi
            omega
  exact hgen _ 0

theorem sharedCells_nodup (t : UniqueTable α) : t.sharedCells.Nodup :=
  t.sharedCells_sorted.imp Nat.ne_of_lt

/-- Freeing cells one after the other changes their use and nothing else. -/
theorem getElem?_foldl_free (doomed : List Nat) (cells : Array (Cell α)) (j : Nat) :
    (doomed.foldl (fun cells i => cells.modify i fun c => { c with use := .free }) cells)[j]? =
      cells[j]?.map fun c => if j ∈ doomed then { c with use := .free } else c := by
  induction doomed generalizing cells with
  | nil => simp
  | cons i doomed ih =>
      rw [List.foldl_cons, ih, Array.getElem?_modify]
      by_cases hi : i = j
      · subst hi
        cases cells[i]? with
        | none => simp
        | some c => by_cases hm : i ∈ doomed <;> simp [hm]
      · have hj : ¬ j = i := Ne.symm hi
        simp [hi, hj]

theorem countP_foldl_free (doomed : List Nat) (cells : Array (Cell α)) (hnd : doomed.Nodup)
    (htaken : ∀ i ∈ doomed, ∃ c, cells[i]? = some c ∧ c.isTaken = true) :
    (doomed.foldl (fun cells i => cells.modify i fun c => { c with use := .free })
      cells).countP Cell.isTaken + doomed.length = cells.countP Cell.isTaken := by
  induction doomed generalizing cells with
  | nil => rfl
  | cons i doomed ih =>
      obtain ⟨hi, hnd'⟩ := List.nodup_cons.mp hnd
      obtain ⟨c, hc, htk⟩ := htaken i (List.mem_cons_self ..)
      obtain ⟨hlt, hget⟩ := Array.getElem?_eq_some_iff.mp hc
      have hset : cells.modify i (fun c => { c with use := .free })
          = cells.set i { c with use := .free } := by
        apply Array.ext_getElem?
        intro j
        rw [Array.getElem?_modify, Array.getElem?_set]
        by_cases hj : i = j
        · subst hj
          simp [hc]
        · simp [hj]
      have hrest : ∀ j ∈ doomed, ∃ c', (cells.set i { c with use := .free })[j]? = some c'
          ∧ c'.isTaken = true := by
        intro j hj
        have hij : i ≠ j := by
          rintro rfl
          exact hi hj
        obtain ⟨c', hc', htk'⟩ := htaken j (List.mem_cons_of_mem _ hj)
        exact ⟨c', by rw [Array.getElem?_set_ne hlt hij, hc'], htk'⟩
      have hfreed : Cell.isTaken { c with use := .free } = false := rfl
      have hpos : 0 < cells.countP Cell.isTaken :=
        Array.countP_pos_iff.mpr ⟨c, hget ▸ Array.getElem_mem hlt, htk⟩
      have hcount := ih (cells.set i { c with use := .free }) hnd' hrest
      rw [Array.countP_set hlt, hget, htk, hfreed] at hcount
      rw [List.foldl_cons, hset, List.length_cons]
      simp at hcount
      omega

/-! ### Released cells -/

variable {doomed : List Nat} {i : Nat} {a : α}

theorem size_foldl_of_step {β : Type} {f : Array β → Nat → Array β}
    (hf : ∀ items i, (f items i).size = items.size) (l : List Nat) (items : Array β) :
    (l.foldl f items).size = items.size := by
  induction l generalizing items with
  | nil => rfl
  | cons i l ih => rw [List.foldl_cons, ih, hf]

theorem getElem?_release (t : UniqueTable α) (doomed : List Nat) (j : Nat) :
    (t.release doomed).cells[j]? = t.cells[j]?.map fun c =>
      if j ∈ doomed then { c with use := .free } else c :=
  getElem?_foldl_free doomed t.cells j

theorem holds_release : (t.release doomed).Holds i a ↔ t.Holds i a ∧ i ∉ doomed := by
  rw [Holds, getElem?_release, Holds]
  cases hc : t.cells[i]? with
  | none => simp
  | some c =>
      obtain ⟨b, u⟩ := c
      by_cases hi : i ∈ doomed
      · simp [hi]
      · simp [hi]

/-- The sentinel is not shared and stays when shared cells are released. -/
theorem Accounted.sentinel_release (h : t.Accounted) (hshared : ∀ i ∈ doomed, ∃ a, t.Holds i a) :
    ∃ a, (t.release doomed).cells[0]? = some ⟨a, .held⟩ := by
  have hzero : 0 ∉ doomed := by
    intro h0
    obtain ⟨a, ha⟩ := hshared 0 h0
    exact h.not_holds_zero ha
  obtain ⟨a, ha⟩ := h.sentinel
  refine ⟨a, ?_⟩
  rw [getElem?_release, ha, Option.map_some, if_neg hzero]

theorem countP_release (hnodup : doomed.Nodup) (hshared : ∀ i ∈ doomed, ∃ a, t.Holds i a) :
    (t.release doomed).cells.countP Cell.isTaken + doomed.length
      = t.cells.countP Cell.isTaken := by
  refine countP_foldl_free doomed t.cells hnodup fun i hi => ?_
  obtain ⟨a, ha⟩ := hshared i hi
  exact ⟨_, ha, rfl⟩

/-- No more cells can be released than are taken. -/
theorem Accounted.length_le_live (h : t.Accounted) (hnodup : doomed.Nodup)
    (hshared : ∀ i ∈ doomed, ∃ a, t.Holds i a) : doomed.length ≤ t.live := by
  have hcount := countP_release hnodup hshared
  have hlive := h.live_eq
  have hpos : 0 < (t.release doomed).cells.countP Cell.isTaken := by
    obtain ⟨a, ha⟩ := h.sentinel_release hshared
    obtain ⟨hlt, hget⟩ := Array.getElem?_eq_some_iff.mp ha
    exact Array.countP_pos_iff.mpr ⟨_, hget ▸ Array.getElem_mem hlt, rfl⟩
  omega

/-- Shared cells may be released. -/
theorem Accounted.release (h : t.Accounted) (hnodup : doomed.Nodup)
    (hshared : ∀ i ∈ doomed, ∃ a, t.Holds i a) : (t.release doomed).Accounted := by
  refine ⟨?_, fun hi hj => ?_, fun i => ?_, ?_, h.sentinel_release hshared, ?_⟩
  · rw [UniqueTable.release, size_foldl_of_step fun links i => Array.size_setIfInBounds,
      size_foldl_of_step fun cells i => Array.size_modify, h.links_size]
  · exact h.unique (holds_release.mp hi).1 (holds_release.mp hj).1
  · show i ∈ doomed ++ t.spare ↔ _
    rw [List.mem_append, h.mem_spare, getElem?_release]
    by_cases hi : i ∈ doomed
    · obtain ⟨a, ha⟩ := hshared i hi
      rw [Holds] at ha
      simp [hi, ha]
    · cases hc : t.cells[i]? with
      | none => simp [hi]
      | some c => simp [hi]
  · refine List.nodup_append'.mpr ⟨hnodup, h.spare_nodup, fun i hi hs => ?_⟩
    -- a doomed cell is shared, a spare one is free
    obtain ⟨a, ha⟩ := hshared i hi
    obtain ⟨b, hb⟩ := (h.mem_spare i).mp hs
    rw [Holds, hb] at ha
    cases Option.some.inj ha
  · have hcount := countP_release hnodup hshared
    have hle := h.length_le_live hnodup hshared
    have hlive := h.live_eq
    show t.live - doomed.length + 1 = (t.release doomed).cells.countP Cell.isTaken
    omega

/-! ### Asking about the cells -/

/-- A sweep frees some of the shared cells. -/
theorem swept_shared (h : doomed.Sublist t.sharedCells) :
    doomed.reverse.Nodup ∧ ∀ i ∈ doomed.reverse, ∃ a, t.Holds i a := by
  refine ⟨List.nodup_reverse.mpr (h.nodup t.sharedCells_nodup), fun i hi => ?_⟩
  exact mem_sharedCells.mp (h.subset (List.mem_reverse.mp hi))

/-- Of some cells those whose verdict is `false`. -/
def refused (cells : List Nat) (verdicts : List Bool) : List Nat :=
  ((cells.zip verdicts).filter fun p => !p.2).map Prod.fst

theorem refused_cons (i : Nat) (cells : List Nat) (verdict : Bool) (verdicts : List Bool) :
    refused (i :: cells) (verdict :: verdicts) =
      if verdict then refused cells verdicts else i :: refused cells verdicts := by
  cases verdict <;> rfl

theorem refused_map (keep : Nat → Bool) (cells : List Nat) :
    refused cells (cells.map keep) = cells.filter fun i => !keep i := by
  induction cells with
  | nil => rfl
  | cons i cells ih =>
      rw [List.map_cons, refused_cons, ih, List.filter_cons]
      cases keep i <;> rfl

/-- The cells are asked about one after the other, whatever effects that has. -/
theorem rejected_eq_map {m : Type → Type} [Monad m] [LawfulMonad m] (keep : Nat → m Bool)
    (cells : List Nat) : rejected keep cells =
      (fun verdicts => (refused cells verdicts).reverse) <$> cells.mapM keep := by
  have hgen : ∀ others : List Nat, cells.foldlM (fun others i => do
      return if ← keep i then others else i :: others) others
        = (fun verdicts => (refused cells verdicts).reverse ++ others) <$> cells.mapM keep := by
    induction cells with
    | nil =>
        intro others
        simp [refused]
    | cons i cells ih =>
        intro others
        simp only [List.foldlM_cons, List.mapM_cons, map_bind, bind_assoc, pure_bind, map_pure]
        refine bind_congr fun verdict => ?_
        rw [ih, map_eq_pure_bind]
        refine bind_congr fun verdicts => ?_
        rw [refused_cons]
        cases verdict <;> simp
  have hnil := hgen []
  simp only [List.append_nil] at hnil
  exact hnil

variable [Digest α]

/-- A sweep asks about the shared cells and frees those that it may not keep. -/
theorem sweepM_eq_map {m : Type → Type} [Monad m] [LawfulMonad m] (t : UniqueTable α)
    (keep : Nat → m Bool) : t.sweepM keep = (fun verdicts =>
      ((refused t.sharedCells verdicts).length,
        (t.release (refused t.sharedCells verdicts).reverse).relink t.buckets.size))
      <$> t.sharedCells.mapM keep := by
  rw [sweepM, rejected_eq_map, bind_map_left, map_eq_pure_bind]
  simp only [List.length_reverse]

theorem sweep_eq (t : UniqueTable α) (keep : Nat → Bool) :
    t.sweep keep = ((t.sharedCells.filter fun i => !keep i).length,
      (t.release (t.sharedCells.filter fun i => !keep i).reverse).relink t.buckets.size) := by
  rw [sweep, sweepM_eq_map, List.mapM_pure, map_pure, refused_map]
  rfl

theorem getElem?_sweep (t : UniqueTable α) (keep : Nat → Bool) (j : Nat) :
    (t.sweep keep).2.cells[j]? = t.cells[j]?.map fun c =>
      if c.use = .shared ∧ keep j = false then { c with use := .free } else c := by
  rw [sweep_eq, ((Reindexed.refl _).relink _).cells_eq, getElem?_release]
  cases hc : t.cells[j]? with
  | none => rfl
  | some c =>
      obtain ⟨a, u⟩ := c
      have hmem : j ∈ (t.sharedCells.filter fun i => !keep i).reverse ↔
          u = .shared ∧ keep j = false := by
        rw [List.mem_reverse, List.mem_filter, mem_sharedCells]
        simp [Holds, hc]
      simp only [Option.map_some, hmem]

/-- After a sweep the kept shared cells are shared, and no others. -/
theorem holds_sweep {keep : Nat → Bool} {i : Nat} {a : α} :
    (t.sweep keep).2.Holds i a ↔ t.Holds i a ∧ keep i = true := by
  unfold Holds
  rw [getElem?_sweep]
  cases hc : t.cells[i]? with
  | none => simp
  | some c =>
      obtain ⟨b, u⟩ := c
      cases hk : keep i <;> cases u <;> simp

theorem Invariant.sweep (h : t.Invariant) (keep : Nat → Bool) : (t.sweep keep).2.Invariant := by
  obtain ⟨hnodup, hshared⟩ := swept_shared (t.sharedCells.filter_sublist (p := fun i => !keep i))
  rw [sweep_eq]
  exact (h.toAccounted.release hnodup hshared).relink h.buckets_pos

end Sweep

end UniqueTable

end BranchingTime
