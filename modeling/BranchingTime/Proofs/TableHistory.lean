import Mathlib.Algebra.GroupWithZero.Nat
import BranchingTime.Proofs.TableInvariant

/-!
# Every table is in order

A table is made empty, and after that it is changed by storing values, by
taking cells that the index does not know, and by sweeps whose predicate may
have a state of its own. `UniqueTable.Reaches` tells which tables come about
in this way. Whatever the digests are, all of them satisfy the invariant, and
their number of buckets stays a power of two, so that a digest selects its
bucket by a mask. From there on it is about one more operation:
`UniqueTable.Takes` says what taking a cell does to a table, and
`UniqueTable.Frees` what freeing some does.

The search of a chain has no bound of its own but the end of the chain.
`UniqueTable.Searches` are its steps, and that there is an answer means that
it ends.
-/

namespace BranchingTime
namespace UniqueTable

variable {α : Type}

/-- Looking for `a` from cell `i` on, link by link, ends with an answer. -/
inductive Searches (t : UniqueTable α) (a : α) : Nat → Option Nat → Prop
  | stop : Searches t a 0 none
  | found {i : Nat} {u : Use} (hi : i ≠ 0) (hc : t.cells[i]? = some ⟨a, u⟩) :
      Searches t a i (some i)
  | next {i j : Nat} {c : Cell α} {answer : Option Nat} (hi : i ≠ 0) (hc : t.cells[i]? = some c)
      (hne : c.value ≠ a) (hj : t.links[i]? = some j) (h : Searches t a j answer) :
      Searches t a i answer

/-- Cell `i` is the one to be taken next, and it is taken for `a`. No other
cell changes. -/
structure Takes (t : UniqueTable α) (a : α) (use : Use) (i : Nat) (t' : UniqueTable α) :
    Prop where
  ne_zero : i ≠ 0
  not_taken : t.isTaken? i ≠ some true
  next : i = t.spare.headD t.cells.size
  cells_eq : ∀ j, t'.cells[j]? = if j = i then some ⟨a, use⟩ else t.cells[j]?
  spare_eq : t'.spare = t.spare.tail

/-- The cells `doomed` are freed, to be taken again last freed first. No other
cell changes. -/
structure Frees (t : UniqueTable α) (doomed : List Nat) (t' : UniqueTable α) : Prop where
  cells_eq : ∀ i, t'.cells[i]? = t.cells[i]?.map fun c =>
    if i ∈ doomed then { c with use := .free } else c
  spare_eq : t'.spare = doomed.reverse ++ t.spare

section

variable [Digest α] [DecidableEq α]

/-- The tables that come about from `start` by storing values, taking cells
and sweeping. -/
inductive Reaches (start : UniqueTable α) : UniqueTable α → Prop
  | refl : Reaches start start
  | put {t : UniqueTable α} (h : Reaches start t) (a : α) : Reaches start (t.put a).2.2
  | alloc {t : UniqueTable α} (h : Reaches start t) (a : α) : Reaches start (t.alloc a).2
  | sweep {t : UniqueTable α} {σ : Type} (h : Reaches start t) (keep : Nat → StateM σ Bool)
      (s : σ) : Reaches start (t.sweepM keep s).1.2

end

/-! ## Taking a cell -/

section Take

variable {t : UniqueTable α} {a : α} {u : Use}

theorem take_next (t : UniqueTable α) (a : α) (u : Use) :
    (t.take a u).1 = t.spare.headD t.cells.size ∧ (t.take a u).2.spare = t.spare.tail
      ∧ (t.take a u).2.live = t.live + 1 := by
  unfold take
  split
  · next i rest hs =>
      rw [hs]
      exact ⟨rfl, rfl, rfl⟩
  · next hs =>
      rw [hs]
      exact ⟨rfl, rfl, rfl⟩

theorem Invariant.takes [Digest α] (h : t.Invariant) (a : α) (u : Use) :
    Takes t a u (t.take a u).1 (t.take a u).2 := by
  obtain ⟨hnext, hspare, -⟩ := take_next t a u
  refine ⟨h.take_fst_ne_zero u, fun htaken => ?_, hnext, getElem?_take h a u, hspare⟩
  obtain ⟨c, hc, hu⟩ := Option.map_eq_some_iff.mp htaken
  rw [take_fst_free h a u hc] at hu
  cases hu

/-- What is taken in a table is so in one with another index. -/
theorem Takes.reindexed {i : Nat} {t' r : UniqueTable α} (h : Takes t a u i t')
    (hr : Reindexed t' r) : Takes t a u i r :=
  ⟨h.ne_zero, h.not_taken, h.next, fun j => hr.cells_eq ▸ h.cells_eq j,
    hr.spare_eq.trans h.spare_eq⟩

end Take

/-! ## Storing a value -/

section Put

variable [DecidableEq α] {t : UniqueTable α} {a : α} {i : Nat}

/-- The search of a chain ends, with the first cell of it that holds the value. -/
theorem Linked.searches {l : List Nat} (h : Linked t.links i l)
    (hl : ∀ j ∈ l, ∃ c, t.cells[j]? = some c) :
    Searches t a i (l.find? fun j => t.value? j = some a) := by
  induction h with
  | nil => exact .stop
  | @cons i j l hi hj _ ih =>
      obtain ⟨⟨⟨b, u⟩, hc⟩, hrest⟩ := List.forall_mem_cons.mp hl
      have hval : t.value? i = some b := by
        rw [value?, if_neg hi, hc]
        rfl
      rw [List.find?_cons, hval]
      by_cases hb : b = a
      · subst hb
        rw [decide_eq_true rfl]
        exact .found hi hc
      · rw [decide_eq_false fun hsome => hb (Option.some.inj hsome)]
        exact .next hi hc hb hj (ih hrest)

variable [Digest α]

theorem Invariant.searches (h : t.Invariant) (a : α) :
    Searches t a (t.buckets.getD (slotOf t.buckets.size a) 0) (t.find? a) := by
  obtain ⟨l, hl, -, hmem, hfind⟩ := h.exists_chain a
  rw [hfind]
  refine hl.searches fun j hj => ?_
  obtain ⟨b, hb, -⟩ := (hmem j).mp hj
  exact ⟨_, hb⟩

theorem Invariant.takes_put (h : t.Invariant) (ha : ∀ i, ¬ t.Holds i a) :
    Takes t a .shared (t.put a).1 (t.put a).2.2 := by
  obtain ⟨hfst, hr⟩ := put_of_not_found (h.find?_of_not_holds ha)
  rw [hfst]
  exact (h.takes a .shared).reindexed hr

/-- The number of buckets after a value has been stored. -/
theorem size_put (hf : t.find? a = none) : (t.put a).2.2.buckets.size =
    if 2 * t.buckets.size < t.live + 1 then 2 * t.buckets.size else t.buckets.size := by
  have hsize : ((t.take a .shared).2.chain (t.take a .shared).1 a).buckets.size
      = t.buckets.size := by
    rw [size_chain, take_snd_buckets]
  have hlive : ((t.take a .shared).2.chain (t.take a .shared).1 a).live = t.live + 1 :=
    (take_next t a .shared).2.2
  rw [put, hf]
  dsimp only
  rw [isCrowded, hsize, hlive]
  by_cases h : 2 * t.buckets.size < t.live + 1
  · simp only [h, decide_true, if_true, grow, size_relink, hsize]
  · simp only [h, decide_false, if_false, hsize, Bool.false_eq_true]

end Put

/-! ## Sweeps that ask -/

section Sweep

variable {t : UniqueTable α}

theorem refused_sublist (cells : List Nat) (verdicts : List Bool) :
    (refused cells verdicts).Sublist cells := by
  induction cells generalizing verdicts with
  | nil => exact .slnil
  | cons i cells ih =>
      cases verdicts with
      | nil => exact List.nil_sublist _
      | cons verdict verdicts =>
          rw [refused_cons]
          split
          · exact (ih verdicts).cons i
          · exact (ih verdicts).cons_cons i

variable [Digest α] {σ : Type} {keep : Nat → StateM σ Bool} {s s' : σ} {verdicts : List Bool}

/-- A sweep asks about the shared cells in ascending order, and frees those
that are refused. -/
theorem Invariant.sweepM (h : t.Invariant)
    (hasked : t.sharedCells.mapM keep s = (verdicts, s')) :
    ∃ t', t.sweepM keep s = (((refused t.sharedCells verdicts).length, t'), s')
      ∧ Frees t (refused t.sharedCells verdicts) t' ∧ t'.buckets.size = t.buckets.size
      ∧ t'.Invariant := by
  obtain ⟨hnodup, hshared⟩ := swept_shared (refused_sublist t.sharedCells verdicts)
  generalize hdoomed : refused t.sharedCells verdicts = doomed at hnodup hshared
  have hr := (Reindexed.refl (t.release doomed.reverse)).relink t.buckets.size
  refine ⟨(t.release doomed.reverse).relink t.buckets.size, ?_, ⟨fun i => ?_, hr.spare_eq⟩,
    size_relink _ _, (h.toAccounted.release hnodup hshared).relink h.buckets_pos⟩
  · rw [sweepM_eq_map, ← hdoomed]
    show StateT.map _ _ s = _
    rw [StateT.map, hasked]
    rfl
  · rw [hr.cells_eq, getElem?_release]
    simp only [List.mem_reverse]

end Sweep

/-! ## All tables -/

section Reached

variable {t : UniqueTable α}

theorem countP_eq_countP_range (p : Cell α → Bool) (l : List (Cell α)) :
    l.countP p = (List.range l.length).countP fun i => l[i]?.map p = some true := by
  induction l with
  | nil => rfl
  | cons c l ih =>
      rw [List.countP_cons, ih, List.length_cons, List.range_succ_eq_map, List.countP_cons,
        List.countP_map]
      simp [Function.comp_def]

/-- The count of a table is that of its taken cells from cell `1` on. -/
theorem Accounted.live_eq_countP (h : t.Accounted) :
    t.live = (List.range' 1 t.size).countP fun i => t.isTaken? i = some true := by
  obtain ⟨a, ha⟩ := h.sentinel
  have hlive := h.live_eq
  have hsize : t.cells.toList.length = t.size + 1 := by
    have hpos := (Array.getElem?_eq_some_iff.mp ha).1
    rw [Array.length_toList, size]
    omega
  have hzero : t.isTaken? 0 = some true := by
    rw [isTaken?, ha]
    rfl
  -- the sentinel is the first of the cells that are counted
  rw [← Array.countP_toList, countP_eq_countP_range, hsize, List.range_eq_range',
    List.range'_succ] at hlive
  simp only [Array.getElem?_toList] at hlive
  change _ = (List.countP (fun i => t.isTaken? i = some true) _) at hlive
  rw [List.countP_cons, hzero] at hlive
  simpa using hlive

theorem Accounted.mem_spare_iff (h : t.Accounted) (i : Nat) :
    i ∈ t.spare ↔ 1 ≤ i ∧ t.isTaken? i = some false := by
  rw [h.mem_spare]
  constructor
  · rintro ⟨a, ha⟩
    refine ⟨Nat.one_le_iff_ne_zero.mpr ?_, ?_⟩
    · rintro rfl
      obtain ⟨b, hb⟩ := h.sentinel
      rw [ha] at hb
      cases Option.some.inj hb
    · rw [isTaken?, ha]
      rfl
  · rintro ⟨-, htaken⟩
    obtain ⟨⟨a, u⟩, hc, hu⟩ := Option.map_eq_some_iff.mp htaken
    obtain rfl : u = .free := by simpa using hu
    exact ⟨a, hc⟩

theorem Frees.keeps_held {t' : UniqueTable α} {doomed : List Nat} {i : Nat} {a : α}
    (h : Frees t doomed t') (hsub : doomed ⊆ t.sharedCells)
    (hi : t.cells[i]? = some ⟨a, .held⟩) : t'.cells[i]? = some ⟨a, .held⟩ := by
  have hnot : i ∉ doomed := by
    intro hmem
    obtain ⟨b, hb⟩ := mem_sharedCells.mp (hsub hmem)
    rw [Holds, hi] at hb
    cases Option.some.inj hb
  rw [h.cells_eq, hi, Option.map_some, if_neg hnot]

variable [Digest α]

theorem slotOf_eq_and {n k : Nat} (hn : n = 2 ^ k) (a : α) :
    slotOf n a = (digest a).toNat &&& (n - 1) := by
  rw [hn, Nat.and_two_pow_sub_one_eq_mod, slotOf]

/-- What a sweep with a state of its own makes of a table. -/
theorem Invariant.after_sweepM {σ : Type} (h : t.Invariant) (keep : Nat → StateM σ Bool) (s : σ) :
    (t.sweepM keep s).1.2.Invariant ∧ (t.sweepM keep s).1.2.buckets.size = t.buckets.size
      ∧ ∃ doomed ⊆ t.sharedCells, Frees t doomed (t.sweepM keep s).1.2 := by
  obtain ⟨⟨verdicts, s'⟩, hasked⟩ : ∃ p, t.sharedCells.mapM keep s = p := ⟨_, rfl⟩
  obtain ⟨t', hrun, hfrees, hsize, hinv⟩ := h.sweepM hasked
  rw [hrun]
  exact ⟨hinv, hsize, _, (refused_sublist _ _).subset, hfrees⟩

variable [DecidableEq α] {start : UniqueTable α}

/-- What is made of a table in order is in order. -/
theorem Reaches.invariant (h : Reaches start t) (hstart : start.Invariant) : t.Invariant := by
  induction h with
  | refl => exact hstart
  | put _ a ih => exact ih.put a
  | alloc _ a ih => exact ih.alloc a
  | sweep _ keep s ih => exact (ih.after_sweepM keep s).1

/-- The number of buckets only ever doubles. -/
theorem Reaches.size_buckets (h : Reaches start t) (hstart : start.Invariant) {bits : Nat}
    (hbits : start.buckets.size = 2 ^ bits) : ∃ k, bits ≤ k ∧ t.buckets.size = 2 ^ k := by
  induction h with
  | refl => exact ⟨bits, Nat.le_refl bits, hbits⟩
  | @put t _ a ih =>
      obtain ⟨k, hk, hsize⟩ := ih
      cases hf : t.find? a with
      | some i => exact ⟨k, hk, by rw [put_of_find? hf, hsize]⟩
      | none =>
          rw [size_put hf, hsize]
          split
          · exact ⟨k + 1, Nat.le_succ_of_le hk, (Nat.pow_succ' ..).symm⟩
          · exact ⟨k, hk, rfl⟩
  | alloc _ a ih => rwa [UniqueTable.alloc, take_snd_buckets]
  | sweep hr keep s ih => rwa [((hr.invariant hstart).after_sweepM keep s).2.1]

/-- A cell that the index does not know is taken for good. -/
theorem Reaches.keeps_held (h : Reaches start t) (hstart : start.Invariant) {i : Nat} {a : α}
    (hi : start.cells[i]? = some ⟨a, .held⟩) : t.cells[i]? = some ⟨a, .held⟩ := by
  induction h with
  | refl => exact hi
  | put hr b ih => exact (put_stored (hr.invariant hstart) b).keeps ih (Use.noConfusion ·)
  | @alloc t hr b ih =>
      rw [UniqueTable.alloc, getElem?_take (hr.invariant hstart), if_neg, ih]
      -- the cell is held, so it is not the one to be taken next
      rintro rfl
      cases take_fst_free (hr.invariant hstart) b .held ih
  | sweep hr keep s ih =>
      obtain ⟨-, -, doomed, hsub, hfrees⟩ := (hr.invariant hstart).after_sweepM keep s
      exact hfrees.keeps_held hsub ih

/-- All that holds of a table at any time, for any digest: what its chains,
its spare cells and its count are, what `put` and `alloc` do next, and what
a sweep does. -/
theorem kept_in_order [Inhabited α] {bits : Nat} (hbits : bits ≤ 31) :
    ∃ start : UniqueTable α, new? bits = .ok start ∧ ∀ t, Reaches start t →
      (∃ k, bits ≤ k ∧ t.buckets.size = 2 ^ k)
      ∧ (∀ b < t.buckets.size, ∃ l, Linked t.links (t.buckets.getD b 0) l ∧ l.Nodup
          ∧ ∀ i, i ∈ l ↔ ∃ a, t.Holds i a ∧ (digest a).toNat &&& (t.buckets.size - 1) = b)
      ∧ (∀ i j a, t.Holds i a → t.Holds j a → i = j)
      ∧ t.spare.Nodup
      ∧ (∀ i, i ∈ t.spare ↔ 1 ≤ i ∧ t.isTaken? i = some false)
      ∧ t.live = (List.range' 1 t.size).countP (fun i => t.isTaken? i = some true)
      ∧ (∀ a, let first := t.buckets.getD ((digest a).toNat &&& (t.buckets.size - 1)) 0
          (∀ i, t.Holds i a → Searches t a first (some i) ∧ t.put a = (i, none, t))
          ∧ ((∀ i, ¬ t.Holds i a) → Searches t a first none ∧ ∃ i event t',
              t.put a = (i, event, t') ∧ Takes t a .shared i t'
              ∧ t'.buckets.size = if 2 * t.buckets.size < t.live + 1 then 2 * t.buckets.size
                else t.buckets.size))
      ∧ (∀ a, Takes t a .held (t.alloc a).1 (t.alloc a).2
          ∧ ∀ t', Reaches (t.alloc a).2 t' → t'.cells[(t.alloc a).1]? = some ⟨a, .held⟩)
      ∧ ∀ (σ : Type) (keep : Nat → StateM σ Bool) (s : σ), ∃ asked verdicts s' t',
          asked.Pairwise (· < ·) ∧ (∀ i, i ∈ asked ↔ ∃ a, t.Holds i a)
          ∧ asked.mapM keep s = (verdicts, s')
          ∧ t.sweepM keep s = (((refused asked verdicts).length, t'), s')
          ∧ Frees t (refused asked verdicts) t' := by
  refine ⟨empty bits, if_pos hbits, fun t ht => ?_⟩
  have hstart : (empty bits : UniqueTable α).Invariant := .empty bits
  have h := ht.invariant hstart
  obtain ⟨k, hk, hsize⟩ := ht.size_buckets hstart Array.size_replicate
  refine ⟨⟨k, hk, hsize⟩, ?_, fun i j a => h.unique, h.spare_nodup, h.mem_spare_iff,
    h.live_eq_countP, fun a => ?_, fun a => ?_, fun σ keep s => ?_⟩
  · simp only [← slotOf_eq_and hsize]
    exact h.indexes
  · have hsearches := h.searches a
    rw [slotOf_eq_and hsize] at hsearches
    constructor
    · intro i hi
      have hput := put_of_holds h hi
      rw [h.find?_of_holds hi] at hsearches
      exact ⟨hsearches, hput⟩
    · intro ha
      have hf := h.find?_of_not_holds ha
      rw [hf] at hsearches
      exact ⟨hsearches, _, _, _, rfl, h.takes_put ha, size_put hf⟩
  · have htakes := h.takes a .held
    refine ⟨htakes, fun t' ht' => ht'.keeps_held (h.alloc a) ?_⟩
    exact (htakes.cells_eq _).trans (if_pos rfl)
  · obtain ⟨⟨verdicts, s'⟩, hasked⟩ : ∃ p, t.sharedCells.mapM keep s = p := ⟨_, rfl⟩
    obtain ⟨t', hrun, hfrees, -⟩ := h.sweepM hasked
    exact ⟨_, verdicts, s', t', t.sharedCells_sorted, fun i => mem_sharedCells, hasked, hrun,
      hfrees⟩

end Reached

/-! ## Values that collide -/

/-- Values that all have the same digest. -/
structure Colliding where
  tag : Nat
  deriving DecidableEq, Inhabited

instance : Digest Colliding := ⟨fun _ => 0⟩

/-- Keeps all cells but the first that it is asked about. -/
def allButFirst (_ : Nat) : StateM Bool Bool := modifyGet fun asked => (asked, true)

/-- Three values, stored with one bucket at first. -/
def collided : UniqueTable Colliding :=
  ((((empty 0 : UniqueTable Colliding).put ⟨5⟩).2.2.put ⟨7⟩).2.2.put ⟨11⟩).2.2

/-- The same table without the first of them. -/
def thinned : UniqueTable Colliding := (collided.sweepM allButFirst false).1.2

theorem reaches_thinned : Reaches (empty 0) thinned := by
  have hempty : Reaches (empty 0) (empty 0 : UniqueTable Colliding) := .refl
  have hcollided := ((hempty.put ⟨5⟩).put ⟨7⟩).put ⟨11⟩
  have hthinned := hcollided.sweep allButFirst false
  unfold thinned collided
  exact hthinned

theorem thinned_eq : thinned = ⟨#[⟨⟨0⟩, .held⟩, ⟨⟨5⟩, .free⟩, ⟨⟨7⟩, .shared⟩, ⟨⟨11⟩, .shared⟩],
    #[0, 0, 0, 2], #[3, 0], [1], 2⟩ := by
  rfl

/-- One chain lists the cells that are left. A value that is there is found in
its cell, and one that is not is put into the cell that was freed. -/
theorem kept_in_order_colliding :
    Reaches (empty 0) thinned
      ∧ (∃ l, Linked thinned.links 3 l ∧ l.Nodup ∧ ∀ i, i ∈ l ↔ ∃ a, thinned.Holds i a)
      ∧ thinned.put ⟨7⟩ = (2, none, thinned)
      ∧ ∃ i event t, thinned.put ⟨5⟩ = (i, event, t) ∧ Takes thinned ⟨5⟩ .shared i t ∧ i = 1 := by
  obtain ⟨start, hnew, hall⟩ := @kept_in_order Colliding _ _ _ 0 (Nat.zero_le 31)
  obtain rfl : empty 0 = start := Except.ok.inj hnew
  obtain ⟨-, hchains, -, -, -, -, hput, -⟩ := hall thinned reaches_thinned
  -- what the table is, read off its literal form
  have hkept : thinned.Holds 2 ⟨7⟩ := by
    rw [thinned_eq]
    rfl
  have hfreed : ∀ i, ¬ thinned.Holds i ⟨5⟩ := by
    rw [thinned_eq]
    intro i hi
    rcases i with _ | _ | _ | _ | i <;> cases hi
  have hnext : thinned.spare.headD thinned.cells.size = 1 := by
    rw [thinned_eq]
    rfl
  obtain ⟨l, hl, hnodup, hmem⟩ := hchains 0 (by rw [thinned_eq]; decide)
  obtain ⟨-, i, event, t, hrun, htakes, -⟩ := (hput ⟨5⟩).2 hfreed
  refine ⟨reaches_thinned, ⟨l, ?_, hnodup, fun i => (hmem i).trans (exists_congr fun a => ?_)⟩,
    ((hput ⟨7⟩).1 2 hkept).2, i, event, t, hrun, htakes, htakes.next.trans hnext⟩
  · rw [thinned_eq] at hl ⊢
    exact hl
  · exact and_iff_left (Nat.zero_and _)

end UniqueTable
end BranchingTime
