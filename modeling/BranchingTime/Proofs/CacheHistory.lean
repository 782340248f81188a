import Mathlib.Algebra.GroupWithZero.Nat
import Mathlib.Data.List.Induction
import BranchingTime.Diagram.ResultCache

/-!
# What a cache remembers

A cache forgets, so what it answers depends on all that was done to it, and
on which digests its keys have. `ResultCache.Latest` tells from the log of what
was done what is still there: a value that was stored for a key, with nothing
stored since for a key that falls into the same slot, and without clearing
since. `ResultCache.remembers_latest` says that a lookup finds exactly that.
The proof takes accesses off the end of the log: the last one either stores
the value, or spares what was there before it.
-/

namespace BranchingTime

/-- Do two keys fall into one of `2 ^ bits` slots? The slot of a key is its
digest under the mask of that many bits. -/
def Collide {κ : Type} [Digest κ] (bits : Nat) (k key : κ) : Prop :=
  digest k &&& .ofNat (2 ^ bits - 1) = digest key &&& .ofNat (2 ^ bits - 1)

theorem slotOf_two_pow {κ : Type} [Digest κ] {bits : Nat} (h : bits ≤ 31) (key : κ) :
    slotOf (2 ^ bits) key = (digest key &&& .ofNat (2 ^ bits - 1)).toNat := by
  have hpow : 2 ^ bits ≤ 2 ^ 31 := Nat.pow_le_pow_right (by decide) h
  have hmask : (UInt64.ofNat (2 ^ bits - 1)).toNat = 2 ^ bits - 1 :=
    UInt64.toNat_ofNat_of_lt' (Nat.lt_of_le_of_lt (Nat.sub_le _ _)
      (Nat.lt_of_le_of_lt hpow (by decide)))
  rw [UInt64.toNat_and, hmask, Nat.and_two_pow_sub_one_eq_mod, slotOf]

theorem slotOf_eq_iff_collide {κ : Type} [Digest κ] {bits : Nat} (h : bits ≤ 31) {k key : κ} :
    slotOf (2 ^ bits) k = slotOf (2 ^ bits) key ↔ Collide bits k key := by
  rw [slotOf_two_pow h, slotOf_two_pow h, UInt64.toNat_inj, Collide]

namespace ResultCache

variable {κ ν : Type}

/-! ## Logs -/

/-- What is done to a cache. -/
inductive Access (κ ν : Type) where
  | insert (key : κ) (value : ν)
  | get (key : κ)
  | clear

/-- Is something looked up? -/
def Access.isGet : Access κ ν → Bool
  | get _ => true
  | _ => false

variable [Digest κ]

/-- The access leaves the slot of `key` as it is. -/
def Access.Spares (bits : Nat) (key : κ) : Access κ ν → Prop
  | insert k _ => ¬ Collide bits k key
  | get _ => True
  | clear => False

/-- The log stores `value` for `key`, and spares the slot from then on. -/
def Latest (bits : Nat) (log : List (Access κ ν)) (key : κ) (value : ν) : Prop :=
  ∃ before since, log = before ++ .insert key value :: since
    ∧ ∀ a ∈ since, a.Spares bits key

variable [DecidableEq κ]

/-- The cache after an access. -/
def perform (c : ResultCache κ ν) : Access κ ν → ResultCache κ ν
  | .insert key value => c.insert key value
  | .get key => (c.lookup key).2
  | .clear => c.clear

/-- The cache after the accesses of a log. -/
def after (c : ResultCache κ ν) (log : List (Access κ ν)) : ResultCache κ ν :=
  log.foldl perform c

/-- What the lookups of a log find. -/
def answers (c : ResultCache κ ν) : List (Access κ ν) → List (Option ν)
  | [] => []
  | .get key :: log => (c.lookup key).1 :: (c.lookup key).2.answers log
  | a :: log => (c.perform a).answers log

/-! ## The last access of a log -/

section Latest

variable {bits : Nat} {log : List (Access κ ν)} {a : Access κ ν} {key : κ} {value : ν}

omit [DecidableEq κ] in
theorem not_latest_nil : ¬ Latest bits [] key value := by
  rintro ⟨before, since, h, -⟩
  exact List.append_ne_nil_of_right_ne_nil before (List.cons_ne_nil _ _) h.symm

omit [DecidableEq κ] in
/-- What is there in the end was stored at the end, or was there before the
last access and is spared by it. -/
theorem latest_concat_iff : Latest bits (log ++ [a]) key value ↔
    a = .insert key value ∨ a.Spares bits key ∧ Latest bits log key value := by
  constructor
  · rintro ⟨before, since, h, hsince⟩
    rcases List.eq_nil_or_concat since with rfl | ⟨since, last, rfl⟩
    · exact .inl (List.singleton_inj.mp (List.append_inj' h rfl).2)
    · rw [List.concat_eq_append, ← List.cons_append, ← List.append_assoc] at h
      obtain ⟨hlog, hlast⟩ := List.append_inj' h rfl
      obtain rfl : a = last := List.singleton_inj.mp hlast
      exact .inr ⟨hsince a (by simp), before, since, hlog, fun b hb => hsince b (by simp [hb])⟩
  · rintro (rfl | ⟨hspares, before, since, rfl, hsince⟩)
    · exact ⟨log, [], rfl, List.forall_mem_nil _⟩
    · refine ⟨before, since ++ [a], by simp, ?_⟩
      exact List.forall_mem_append.mpr ⟨hsince, List.forall_mem_singleton.mpr hspares⟩

end Latest

/-! ## One access -/

section Step

variable {c : ResultCache κ ν} {bits : Nat} {a : Access κ ν} {k key : κ} {v value : ν}

theorem find?_insert (h : 0 < c.slots.size) : (c.insert k v).find? key =
    if slotOf c.slots.size k = slotOf c.slots.size key then if k = key then some v else none
    else c.find? key := by
  have hlt := slotOf_lt h k
  simp only [find?, insert, Array.size_setIfInBounds, Array.getD_eq_getD_getElem?,
    Array.getElem?_setIfInBounds, hlt, if_true]
  by_cases hslot : slotOf c.slots.size k = slotOf c.slots.size key
  · simp only [hslot, if_true, Option.getD_some]
  · simp only [hslot, if_false]

theorem find?_of_slots_eq {n : Nat} (h : c.slots = Array.replicate n none) :
    c.find? key = none := by
  simp only [find?, h, Array.getD_eq_getD_getElem?, Array.getElem?_replicate]
  split
  · next hslot => split at hslot <;> cases hslot
  · rfl

theorem lookup_fst : (c.lookup key).1 = c.find? key := by
  unfold lookup
  split <;> simp [*]

theorem lookup_slots : (c.lookup key).2.slots = c.slots := by
  unfold lookup
  split <;> rfl

theorem find?_lookup : (c.lookup k).2.find? key = c.find? key := by
  rw [find?, lookup_slots, find?]

theorem size_perform (c : ResultCache κ ν) (a : Access κ ν) :
    (c.perform a).slots.size = c.slots.size := by
  cases a with
  | insert k v => exact Array.size_setIfInBounds
  | get k => rw [perform, lookup_slots]
  | clear => exact Array.size_replicate

/-- An access stores what is found after it, or spares it. -/
theorem find?_perform_iff (hbits : bits ≤ 31) (hsize : c.slots.size = 2 ^ bits) :
    (c.perform a).find? key = some value ↔
      a = .insert key value ∨ a.Spares bits key ∧ c.find? key = some value := by
  cases a with
  | insert k v =>
      have hpos : 0 < c.slots.size := hsize ▸ Nat.two_pow_pos bits
      rw [perform, find?_insert hpos, hsize, Access.Spares, Access.insert.injEq,
        ← slotOf_eq_iff_collide hbits]
      by_cases hk : k = key
      · subst hk
        simp
      · by_cases hslot : slotOf (2 ^ bits) k = slotOf (2 ^ bits) key <;> simp [hk, hslot]
  | get k => simp [perform, find?_lookup, Access.Spares]
  | clear => simp [perform, find?_of_slots_eq (c := c.clear) rfl, Access.Spares]

/-- A lookup is a hit or a miss, and nothing else counts. -/
theorem counts_lookup (c : ResultCache κ ν) (key : κ) :
    (c.lookup key).2.hits = c.hits + (if (c.lookup key).1.isSome then 1 else 0)
    ∧ (c.lookup key).2.misses = c.misses + (if (c.lookup key).1.isNone then 1 else 0) := by
  unfold lookup
  split <;> exact ⟨rfl, rfl⟩

end Step

/-! ## A whole log -/

section Log

variable {c : ResultCache κ ν} {bits : Nat} {log : List (Access κ ν)} {key : κ} {value : ν}

theorem after_concat (c : ResultCache κ ν) (log : List (Access κ ν)) (a : Access κ ν) :
    c.after (log ++ [a]) = (c.after log).perform a := by
  rw [after, List.foldl_append, List.foldl_cons, List.foldl_nil, after]

theorem size_after (c : ResultCache κ ν) (log : List (Access κ ν)) :
    (c.after log).slots.size = c.slots.size := by
  induction log using List.reverseRecOn with
  | nil => rfl
  | append_singleton log a ih => rw [after_concat, size_perform, ih]

theorem find?_after_iff (hbits : bits ≤ 31) :
    ((empty bits).after log).find? key = some value ↔ Latest bits log key value := by
  induction log using List.reverseRecOn with
  | nil =>
      have hnone : ((empty bits).after ([] : List (Access κ ν))).find? key = none :=
        find?_of_slots_eq rfl
      exact iff_of_false (by simp [hnone]) not_latest_nil
  | append_singleton log a ih =>
      have hsize : ((empty bits : ResultCache κ ν).after log).slots.size = 2 ^ bits := by
        rw [size_after]
        exact Array.size_replicate
      rw [after_concat, find?_perform_iff hbits hsize, ih, latest_concat_iff]

/-- The counts are those of the lookups that found something, and of those
that found nothing. -/
theorem counts_after (c : ResultCache κ ν) (log : List (Access κ ν)) :
    (c.after log).hits = c.hits + (c.answers log).countP Option.isSome
      ∧ (c.after log).misses = c.misses + (c.answers log).countP Option.isNone := by
  induction log generalizing c with
  | nil => exact ⟨rfl, rfl⟩
  | cons a log ih =>
      cases a with
      | insert k v => exact ih (c.insert k v)
      | clear => exact ih c.clear
      | get k =>
          obtain ⟨hhits, hmisses⟩ := counts_lookup c k
          obtain ⟨ihhits, ihmisses⟩ := ih (c.lookup k).2
          rw [answers, List.countP_cons, List.countP_cons]
          constructor
          · rw [after, List.foldl_cons, ← after, perform, ihhits, hhits]
            omega
          · rw [after, List.foldl_cons, ← after, perform, ihmisses, hmisses]
            omega

theorem length_answers (c : ResultCache κ ν) (log : List (Access κ ν)) :
    (c.answers log).length = log.countP Access.isGet := by
  induction log generalizing c with
  | nil => rfl
  | cons a log ih =>
      cases a with
      | insert k v => exact ih (c.insert k v)
      | clear => exact ih c.clear
      | get k => rw [answers, List.length_cons, ih, List.countP_cons_of_pos rfl]

omit [Digest κ] [DecidableEq κ] in
theorem countP_isSome_add_countP_isNone (l : List (Option ν)) :
    l.countP Option.isSome + l.countP Option.isNone = l.length := by
  rw [List.length_eq_countP_add_countP Option.isSome]
  congr 1
  exact List.countP_congr fun a _ => by cases a <;> simp

/-- A lookup finds a value if and only if the last that was stored in the slot
of its key, since the cache was last cleared, is this value for this key. Each
lookup counts as a hit or a miss, by what it finds, and clearing keeps the
counts. -/
theorem remembers_latest (hbits : bits ≤ 31) :
    ∃ c₀ : ResultCache κ ν, new? bits = .ok c₀ ∧ ∀ log : List (Access κ ν),
      (∀ key value, ((c₀.after log).lookup key).1 = some value ↔ Latest bits log key value)
      ∧ (c₀.after log).hits = (c₀.answers log).countP Option.isSome
      ∧ (c₀.after log).misses = (c₀.answers log).countP Option.isNone
      ∧ (c₀.after log).hits + (c₀.after log).misses = log.countP Access.isGet
      ∧ (c₀.after log).clear.hits = (c₀.after log).hits
      ∧ (c₀.after log).clear.misses = (c₀.after log).misses := by
  refine ⟨empty bits, if_pos hbits, ?_⟩
  intro log
  have hfound : ∀ key value, (((empty bits).after log).lookup key).1 = some value
      ↔ Latest bits log key value := by
    intro key value
    rw [lookup_fst, find?_after_iff hbits]
  obtain ⟨hhits, hmisses⟩ := counts_after (empty bits) log
  rw [show (empty bits : ResultCache κ ν).hits = 0 from rfl, Nat.zero_add] at hhits
  rw [show (empty bits : ResultCache κ ν).misses = 0 from rfl, Nat.zero_add] at hmisses
  have htotal : ((empty bits).after log).hits + ((empty bits).after log).misses
      = log.countP Access.isGet := by
    rw [hhits, hmisses, countP_isSome_add_countP_isNone, length_answers]
  exact ⟨hfound, hhits, hmisses, htotal, rfl, rfl⟩

end Log

/-- In a cache of one slot all keys collide, so the second value takes the
place of the first. -/
theorem remembers_latest_one_slot : 0 ≤ 31 ∧ ∃ c₀ : ResultCache (UInt64 × UInt64) Nat,
    new? 0 = .ok c₀
    ∧ ((c₀.after [.insert (1, 2) 5, .insert (3, 4) 7, .get (1, 2)]).lookup (3, 4)).1 = some 7
    ∧ ((c₀.after [.insert (1, 2) 5, .insert (3, 4) 7, .get (1, 2)]).lookup (1, 2)).1 ≠ some 5
    ∧ (c₀.after [.insert (1, 2) 5, .insert (3, 4) 7, .get (1, 2), .clear]).hits
      + (c₀.after [.insert (1, 2) 5, .insert (3, 4) 7, .get (1, 2), .clear]).misses = 1 := by
  have hbits : 0 ≤ 31 := by decide
  obtain ⟨c₀, hc₀, h⟩ := @remembers_latest (UInt64 × UInt64) Nat _ _ 0 hbits
  have hlost : ¬ Latest 0 (([] ++ [.insert (1, 2) 5] ++ [.insert (3, 4) 7])
      ++ [.get ((1, 2) : UInt64 × UInt64)]) (1, 2) 5 := by
    simp only [latest_concat_iff, not_latest_nil]
    simp [Access.Spares, Collide]
  refine ⟨hbits, c₀, hc₀, ((h _).1 _ _).mpr ⟨[.insert (1, 2) 5], [.get (1, 2)], rfl, ?_⟩, ?_,
    (h _).2.2.2.1⟩
  · simp [Access.Spares]
  · exact fun hfound => hlost (((h _).1 _ _).mp hfound)

end ResultCache

end BranchingTime
