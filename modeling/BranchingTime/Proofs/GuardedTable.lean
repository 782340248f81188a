import BranchingTime.Diagram.ResultCache
import BranchingTime.Proofs.TableInvariant

/-!
# Tables and caches with guards

Tables and caches are read and written by index, and an index that is out of
bounds goes unnoticed: a read gives a default, a write changes nothing. The
operations of `Guarded` take the same steps, but check every index and every
difference first, and end in a fault where a check fails.

As long as index, spare cells and count of a table agree with its cells, no
check fails, and the guarded operations are the plain ones. Only the arena may
be full (`put_eq`): it has `UniqueTable.maxCells` cells then.
-/

namespace BranchingTime.Guarded

/-- Fails unless `p` holds. -/
def ensure (p : Prop) [Decidable p] (fault : Fault) : Except Fault Unit :=
  if p then .ok () else .error fault

/-- What has to be there. -/
def expect {α : Type} (a? : Option α) : Except Fault α := a?.elim (.error .outOfBounds) .ok

theorem ensure_eq {p : Prop} [Decidable p] (h : p) (fault : Fault) : ensure p fault = .ok () :=
  if_pos h

theorem ensure_bind {β : Type} {p : Prop} [Decidable p] (h : p) (fault : Fault)
    (f : Unit → Except Fault β) : (ensure p fault >>= f) = f () := by
  rw [ensure_eq h]
  rfl

theorem ok_bind {α β : Type} (a : α) (f : α → Except Fault β) : (Except.ok a >>= f) = f a := rfl

/-- A fold whose steps pass their checks, as long as `P` holds. -/
theorem foldlM_eq_foldl {α β : Type} {f : β → α → Except Fault β} {g : β → α → β} (P : β → Prop)
    {l : List α} (hstep : ∀ b, ∀ a ∈ l, P b → f b a = .ok (g b a) ∧ P (g b a)) {b : β}
    (hb : P b) : l.foldlM f b = .ok (l.foldl g b) := by
  induction l generalizing b with
  | nil => rfl
  | cons a l ih =>
      obtain ⟨hf, hg⟩ := hstep b a (List.mem_cons_self ..) hb
      have hl := ih (fun b a ha => hstep b a (List.mem_cons_of_mem _ ha)) hg
      rw [List.foldlM_cons, List.foldl_cons, hf, ok_bind, hl]

theorem mapM_eq_map {α β : Type} {g : α → Except Fault β} {g' : α → β} {l : List α}
    (h : ∀ a ∈ l, g a = .ok (g' a)) : l.mapM g = .ok (l.map g') := by
  induction l with
  | nil => rfl
  | cons a l ih =>
      obtain ⟨ha, hl⟩ := List.forall_mem_cons.mp h
      rw [List.mapM_cons, ha, ok_bind, ih hl]
      rfl

/-! ## Tables -/

section Tables

variable {α : Type}

/-- The value in cell `i`. -/
def value (t : UniqueTable α) (i : Nat) : Except Fault α := expect (t.value? i)

/-- There is a cell to be taken again, or room for a new one. -/
def HasRoom (t : UniqueTable α) : Prop := t.spare ≠ [] ∨ t.cells.size < UniqueTable.maxCells

instance (t : UniqueTable α) : Decidable (HasRoom t) := inferInstanceAs (Decidable (_ ∨ _))

/-- Takes a cell: one to be taken again has to exist. -/
def take (t : UniqueTable α) (a : α) (use : Use) : Except Fault (Nat × UniqueTable α) := do
  ensure (HasRoom t) .full
  ensure (∀ i ∈ t.spare.head?, i < t.cells.size ∧ i < t.links.size) .outOfBounds
  return t.take a use

/-- Frees some cells: they have to exist, and no more can be freed than are
taken. -/
def release (t : UniqueTable α) (doomed : List Nat) : Except Fault (UniqueTable α) := do
  ensure (∀ i ∈ doomed, i < t.cells.size ∧ i < t.links.size) .outOfBounds
  ensure (doomed.length ≤ t.live) .outOfBounds
  return t.release doomed

variable [Digest α]

/-- Puts cell `i`, holding `a`, at the head of its chain. -/
def chain (t : UniqueTable α) (i : Nat) (a : α) : Except Fault (UniqueTable α) := do
  ensure (slotOf t.buckets.size a < t.buckets.size) .outOfBounds
  ensure (i < t.links.size) .outOfBounds
  return t.chain i a

/-- Chains a cell, given with its number, if it is shared. -/
def chainShared (t : UniqueTable α) (cell : Cell α × Nat) : Except Fault (UniqueTable α) :=
  if cell.1.use = .shared then chain t cell.2 cell.1.value else return t

/-- Indexes the shared cells anew by `n` buckets. -/
def relink (t : UniqueTable α) (n : Nat) : Except Fault (UniqueTable α) :=
  t.cells.toList.zipIdx.foldlM chainShared { t with buckets := Array.replicate n 0 }

/-- Frees the shared cells that are not to be kept. -/
def sweep (t : UniqueTable α) (keep : Nat → Bool) : Except Fault (Nat × UniqueTable α) := do
  let doomed := (t.sharedCells.filter fun i => !keep i).reverse
  let swept ← relink (← release t doomed) t.buckets.size
  return (doomed.length, swept)

variable [DecidableEq α]

/-- The first cell that holds `a`, in a chain from cell `i` on. The chain has
to end within `n` cells. -/
def findFrom (t : UniqueTable α) (a : α) : Nat → Nat → Except Fault (Option Nat)
  | 0, i => do
    ensure (i = 0) .outOfBounds
    return none
  | n + 1, i => do
    if i = 0 then return none
    if (← value t i) = a then return some i
    findFrom t a n (← expect t.links[i]?)

/-- The shared cell that holds `a`. -/
def find? (t : UniqueTable α) (a : α) : Except Fault (Option Nat) := do
  findFrom t a t.cells.size (← expect t.buckets[slotOf t.buckets.size a]?)

/-- The cell of `a`: the one that holds it already, or a newly taken one. -/
def put (t : UniqueTable α) (a : α) : Except Fault (Nat × Option Event × UniqueTable α) := do
  match ← find? t a with
  | some i => return (i, none, t)
  | none =>
    let (i, t) ← take t a .shared
    let t ← chain t i a
    if t.isCrowded then
      let t ← relink t (2 * t.buckets.size)
      return (i, some (.tableGrown t.buckets.size), t)
    else return (i, none, t)

end Tables

section Tables

variable {α : Type} {t : UniqueTable α} {a : α} {i n : Nat}

theorem value_eq (h : t.value? i = some a) : value t i = .ok a := by
  rw [value, h]
  rfl

theorem release_eq {doomed : List Nat} (h : t.Accounted) (hnodup : doomed.Nodup)
    (hshared : ∀ i ∈ doomed, ∃ a, t.Holds i a) : release t doomed = .ok (t.release doomed) := by
  have hbounds : ∀ i ∈ doomed, i < t.cells.size ∧ i < t.links.size := by
    intro i hi
    obtain ⟨a, ha⟩ := hshared i hi
    have hlt := (Array.getElem?_eq_some_iff.mp ha).1
    exact ⟨hlt, h.links_size.symm ▸ hlt⟩
  rw [release, ensure_bind hbounds, ensure_bind (h.length_le_live hnodup hshared)]
  rfl

variable [Digest α]

theorem take_eq (h : t.Invariant) (hroom : HasRoom t) (a : α) (use : Use) :
    take t a use = .ok (t.take a use) := by
  rw [take, ensure_bind hroom]
  refine ensure_bind (fun i hi => ?_) _ _
  obtain ⟨b, hb⟩ := (h.mem_spare i).mp (List.mem_of_head? hi)
  have hlt := (Array.getElem?_eq_some_iff.mp hb).1
  exact ⟨hlt, h.links_size.symm ▸ hlt⟩

theorem chain_eq (hpos : 0 < t.buckets.size) (hi : i < t.links.size) (a : α) :
    chain t i a = .ok (t.chain i a) := by
  rw [chain, ensure_bind (slotOf_lt hpos a), ensure_bind hi]
  rfl

theorem relink_eq (hlinks : t.links.size = t.cells.size) (hn : 0 < n) :
    relink t n = .ok (t.relink n) := by
  refine foldlM_eq_foldl (fun r => r.links.size = t.cells.size ∧ 0 < r.buckets.size)
    (fun r cell hcell hr => ?_) ⟨hlinks, by simpa using hn⟩
  obtain ⟨hsize, hpos⟩ := hr
  have hi : cell.2 < r.links.size := by
    rw [hsize, ← Array.length_toList]
    exact List.snd_lt_of_mem_zipIdx hcell
  unfold chainShared UniqueTable.chainShared
  split
  · refine ⟨chain_eq hpos hi _, ?_, ?_⟩
    · rwa [UniqueTable.chain, Array.size_setIfInBounds]
    · rwa [UniqueTable.size_chain]
  · exact ⟨rfl, hsize, hpos⟩

theorem sweep_eq (h : t.Invariant) (keep : Nat → Bool) : sweep t keep = .ok (t.sweep keep) := by
  obtain ⟨hnodup, hshared⟩ :=
    UniqueTable.swept_shared (t.sharedCells.filter_sublist (p := fun i => !keep i))
  have haccounted := h.toAccounted.release hnodup hshared
  rw [sweep, release_eq h.toAccounted hnodup hshared, ok_bind,
    relink_eq haccounted.links_size h.buckets_pos, ok_bind, UniqueTable.sweep_eq,
    List.length_reverse]
  rfl

variable [DecidableEq α]

omit [Digest α] in
theorem findFrom_eq {l : List Nat} (h : UniqueTable.Linked t.links i l) (hn : l.length ≤ n)
    (hl : ∀ i ∈ l, ∃ b, t.value? i = some b) : findFrom t a n i = .ok (t.findFrom a n i) := by
  induction h generalizing n with
  | nil =>
      cases n with
      | zero => rfl
      | succ n => rfl
  | @cons i j l hi hj _ ih =>
      cases n with
      | zero => exact absurd hn (Nat.not_succ_le_zero _)
      | succ n =>
          obtain ⟨⟨b, hb⟩, hrest⟩ := List.forall_mem_cons.mp hl
          have hnext : t.links.getD i 0 = j := by rw [Array.getD_eq_getD_getElem?, hj]; rfl
          rw [findFrom, UniqueTable.findFrom, if_neg hi, if_neg hi, value_eq hb, ok_bind, hb, hj,
            hnext]
          by_cases hba : b = a
          · rw [if_pos hba, if_pos (congrArg some hba)]
            rfl
          · rw [if_neg hba, if_neg fun hsome => hba (Option.some.inj hsome)]
            exact ih (Nat.le_of_succ_le_succ hn) hrest

theorem find?_eq (h : t.Invariant) (a : α) : find? t a = .ok (t.find? a) := by
  have hlt := slotOf_lt h.buckets_pos a
  obtain ⟨l, hl, hlength, hmem, -⟩ := h.exists_chain a
  rw [find?, UniqueTable.find?]
  rw [Array.getD_eq_getD_getElem?, Array.getElem?_eq_getElem hlt] at hl ⊢
  refine findFrom_eq hl hlength fun i hi => ?_
  obtain ⟨b, hb, -⟩ := (hmem i).mp hi
  exact ⟨b, h.value?_eq hb⟩

theorem put_eq_of_room (h : t.Invariant) (hroom : HasRoom t) (a : α) :
    put t a = .ok (t.put a) := by
  unfold put UniqueTable.put
  rw [find?_eq h, ok_bind]
  cases hf : t.find? a with
  | some i => rfl
  | none =>
      have hinvariant := h.insert (UniqueTable.find?_eq_none h hf)
      have hchain : chain (t.take a .shared).2 (t.take a .shared).1 a
          = .ok ((t.take a .shared).2.chain (t.take a .shared).1 a) := by
        refine chain_eq ?_ (UniqueTable.take_fst_lt_links h) a
        rw [UniqueTable.take_snd_buckets]
        exact h.buckets_pos
      simp only [take_eq h hroom, ok_bind, hchain]
      split
      · rw [relink_eq hinvariant.links_size (Nat.mul_pos (by decide) hinvariant.buckets_pos)]
        rfl
      · rfl

/-- A value gets its cell, unless it needs a new one and the arena is full. -/
theorem put_eq (h : t.Invariant) (a : α) : put t a = .ok (t.put a)
    ∨ put t a = .error .full ∧ UniqueTable.maxCells ≤ t.cells.size := by
  by_cases hroom : HasRoom t
  · exact .inl (put_eq_of_room h hroom a)
  · have htake : take t a .shared = .error .full := by
      rw [take, ensure, if_neg hroom]
      rfl
    unfold put UniqueTable.put
    rw [find?_eq h, ok_bind]
    cases t.find? a with
    | some i => exact .inl rfl
    | none =>
        refine .inr ⟨by rw [htake]; rfl, Nat.not_lt.mp fun hlt => hroom (.inr hlt)⟩

end Tables

/-! ## Caches -/

section Caches

variable {κ ν : Type} [Digest κ] {c : ResultCache κ ν}

/-- Stores a result in the slot of its key. -/
def insert (c : ResultCache κ ν) (key : κ) (value : ν) : Except Fault (ResultCache κ ν) := do
  ensure (slotOf c.slots.size key < c.slots.size) .outOfBounds
  return c.insert key value

/-- Looks into the slot of a key. -/
def lookup [DecidableEq κ] (c : ResultCache κ ν) (key : κ) :
    Except Fault (Option ν × ResultCache κ ν) := do
  ensure (slotOf c.slots.size key < c.slots.size) .outOfBounds
  return c.lookup key

theorem insert_eq (h : 0 < c.slots.size) (key : κ) (value : ν) :
    insert c key value = .ok (c.insert key value) :=
  ensure_bind (slotOf_lt h key) _ _

theorem lookup_eq [DecidableEq κ] (h : 0 < c.slots.size) (key : κ) :
    lookup c key = .ok (c.lookup key) :=
  ensure_bind (slotOf_lt h key) _ _

end Caches

end BranchingTime.Guarded
