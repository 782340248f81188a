import Mathlib.Data.FinEnum
import Mathlib.Data.Nat.Pairing
import Mathlib.Data.Set.Function
import BranchingTime.Hashing

/-!
# Digests of pairs of half words

Two words below `2 ^ 32` are folded into one word without loss, and every
word comes from one such pair: no step of `pairWords` exceeds a word then, so
it is the pairing function of the natural numbers, and the pairs with
components below `n` are those that it sends below `n * n`. Scrambling loses
nothing either. A word can be told from itself mixed with its high bits,
since a word that equals its own shift is zero, and an odd factor has an
inverse. So different pairs of half words have different digests.
-/

namespace BranchingTime

/-- The pairs of words below `2 ^ 32`. -/
def halfWords : Set (UInt64 × UInt64) := {p | p.1.toNat < 2 ^ 32 ∧ p.2.toNat < 2 ^ 32}

/-! ## Pairing -/

section Pairing

variable {a b : UInt64}

/-- Half words are paired as numbers are. -/
theorem toNat_pairWords (ha : a.toNat < 2 ^ 32) (hb : b.toNat < 2 ^ 32) :
    (pairWords a b).toNat = Nat.pair a.toNat b.toNat := by
  have hsq : ∀ {n : Nat}, n < 2 ^ 32 → n * n + 2 * n < 2 ^ 64 := by
    intro n hn
    have hle : n ≤ 2 ^ 32 - 1 := Nat.le_sub_one_of_lt hn
    have hmul : n * n ≤ (2 ^ 32 - 1) * (2 ^ 32 - 1) := Nat.mul_le_mul hle hle
    omega
  have ha' := hsq ha
  have hb' := hsq hb
  unfold pairWords Nat.pair
  by_cases hlt : a.toNat < b.toNat
  · rw [if_pos (UInt64.lt_iff_toNat_lt.mpr hlt), if_pos hlt]
    rw [UInt64.toNat_add, UInt64.toNat_mul, Nat.mod_eq_of_lt (a := b.toNat * b.toNat) (by omega),
      Nat.mod_eq_of_lt (by omega)]
  · rw [if_neg (mt UInt64.lt_iff_toNat_lt.mp hlt), if_neg hlt]
    rw [UInt64.toNat_add, UInt64.toNat_add, UInt64.toNat_mul,
      Nat.mod_eq_of_lt (a := a.toNat * a.toNat) (by omega),
      Nat.mod_eq_of_lt (a := a.toNat * a.toNat + a.toNat) (by omega),
      Nat.mod_eq_of_lt (by omega)]

theorem injOn_pairWords : Set.InjOn (fun p => pairWords p.1 p.2) halfWords := by
  intro p hp q hq heq
  have hpair := congrArg UInt64.toNat heq
  dsimp only at hpair
  rw [toNat_pairWords hp.1 hp.2, toNat_pairWords hq.1 hq.2, Nat.pair_eq_pair] at hpair
  exact Prod.ext (UInt64.toNat_inj.mp hpair.1) (UInt64.toNat_inj.mp hpair.2)

theorem surjOn_pairWords : Set.SurjOn (fun p => pairWords p.1 p.2) halfWords Set.univ := by
  intro w _
  obtain ⟨x, y, hxy⟩ : ∃ x y, Nat.pair x y = w.toNat := ⟨_, _, Nat.pair_unpair w.toNat⟩
  have hw : w.toNat < (2 ^ 32) ^ 2 := w.toNat_lt
  have hmax : max x y ^ 2 < (2 ^ 32) ^ 2 := calc
    max x y ^ 2 ≤ max x y ^ 2 + min x y := Nat.le_add_right _ _
    _ ≤ Nat.pair x y := Nat.max_sq_add_min_le_pair x y
    _ < (2 ^ 32) ^ 2 := hxy ▸ hw
  obtain ⟨hx, hy⟩ := max_lt_iff.mp ((Nat.pow_lt_pow_iff_left two_ne_zero).mp hmax)
  have hx' : (UInt64.ofNat x).toNat = x := UInt64.toNat_ofNat_of_lt' (hx.trans (by decide))
  have hy' : (UInt64.ofNat y).toNat = y := UInt64.toNat_ofNat_of_lt' (hy.trans (by decide))
  refine ⟨(.ofNat x, .ofNat y), ⟨hx'.symm ▸ hx, hy'.symm ▸ hy⟩, UInt64.toNat_inj.mp ?_⟩
  dsimp only
  rw [toNat_pairWords (hx'.symm ▸ hx) (hy'.symm ▸ hy), hx', hy', hxy]

theorem bijOn_pairWords : Set.BijOn (fun p => pairWords p.1 p.2) halfWords Set.univ :=
  ⟨Set.mapsTo_univ _ _, injOn_pairWords, surjOn_pairWords⟩

end Pairing

/-! ## Scrambling -/

section Scrambling

variable {shift factor : UInt64}

/-- Only zero stays the same when it is shifted. -/
theorem eq_zero_of_eq_shiftRight {d : UInt64} (hshift : 0 < shift.toNat % 64)
    (h : d = d >>> shift) : d = 0 := by
  by_contra hd
  have hpos : 0 < d.toNat := by
    rw [Nat.pos_iff_ne_zero]
    exact fun h0 => hd (UInt64.toNat_inj.mp h0)
  have hnat : d.toNat = d.toNat / 2 ^ (shift.toNat % 64) := by
    rw [← Nat.shiftRight_eq_div_pow, ← UInt64.toNat_shiftRight, ← h]
  have hlt := Nat.div_lt_self hpos (Nat.one_lt_two_pow hshift.ne')
  omega

theorem injective_xor_shiftRight (hshift : 0 < shift.toNat % 64) :
    Function.Injective fun z : UInt64 => z ^^^ (z >>> shift) := by
  intro z w h
  -- what the two words differ in equals its own shift
  have hdiff : z ^^^ w = (z ^^^ w) >>> shift := by
    rw [UInt64.shiftRight_xor, ← UInt64.xor_eq_zero_iff]
    have hxor := UInt64.xor_eq_zero_iff.mpr h
    dsimp only at hxor
    rw [← hxor]
    ac_rfl
  exact UInt64.xor_eq_zero_iff.mp (eq_zero_of_eq_shiftRight hshift hdiff)

theorem injective_mul_right (inverse : UInt64) (hunit : factor * inverse = 1) :
    Function.Injective fun z : UInt64 => z * factor := by
  intro z w h
  have hcancel : ∀ x : UInt64, x * factor * inverse = x := by
    intro x
    rw [UInt64.mul_assoc, hunit, UInt64.mul_one]
  have := congrArg (· * inverse) h
  dsimp only at this
  rwa [hcancel, hcancel] at this

theorem injective_scrambleRound (hshift : 0 < shift.toNat % 64) (inverse : UInt64)
    (hunit : factor * inverse = 1) : Function.Injective (scrambleRound shift factor) :=
  (injective_mul_right inverse hunit).comp (injective_xor_shiftRight hshift)

theorem bijective_scramble : Function.Bijective scramble := by
  have hfirst : Function.Injective (scrambleRound 30 0xbf58476d1ce4e5b9) :=
    injective_scrambleRound (by decide) 0x96de1b173f119089 (by decide)
  have hsecond : Function.Injective (scrambleRound 27 0x94d049bb133111eb) :=
    injective_scrambleRound (by decide) 0x319642b2d24d8ec3 (by decide)
  have hlast : Function.Injective fun z : UInt64 => z ^^^ (z >>> 31) :=
    injective_xor_shiftRight (by decide)
  exact Finite.injective_iff_bijective.mp (hlast.comp (hsecond.comp hfirst))

end Scrambling

/-! ## Digests of pairs -/

/-- Pairing words below `2 ^ 32` exceeds no word, and takes every word as its
value once. Scrambling, too, takes every word as its value once. So each word
is the digest of exactly one pair of words below `2 ^ 32`. -/
theorem digest_bijOn_halfWords :
    (∀ p ∈ halfWords, (pairWords p.1 p.2).toNat =
      if p.1.toNat < p.2.toNat then p.2.toNat * p.2.toNat + p.1.toNat
      else p.1.toNat * p.1.toNat + p.1.toNat + p.2.toNat)
    ∧ Set.BijOn (fun p => pairWords p.1 p.2) halfWords Set.univ
    ∧ Function.Bijective scramble
    ∧ Set.InjOn (fun p : UInt64 × UInt64 => digest p) halfWords
    ∧ Set.SurjOn (fun p : UInt64 × UInt64 => digest p) halfWords Set.univ := by
  have hdigest : Set.BijOn (fun p : UInt64 × UInt64 => digest p) halfWords Set.univ :=
    bijective_scramble.bijOn_univ.comp bijOn_pairWords
  exact ⟨fun p hp => toNat_pairWords hp.1 hp.2, bijOn_pairWords, bijective_scramble,
    hdigest.injOn, hdigest.surjOn⟩

/-- The largest pair is folded into the largest word, and the next one wraps. -/
theorem digest_bijOn_halfWords_largest :
    (0xffffffff, 0xffffffff) ∈ halfWords ∧ pairWords 0xffffffff 0xffffffff = 0xffffffffffffffff
      ∧ (0, 0x10000) ∈ halfWords ∧ pairWords 0x100000000 0 = pairWords 0 0x10000 := by
  have hmem : ((0xffffffff, 0xffffffff) : UInt64 × UInt64) ∈ halfWords := by
    constructor <;> decide
  have hvalue := digest_bijOn_halfWords.1 _ hmem
  refine ⟨hmem, UInt64.toNat_inj.mp (hvalue.trans (by decide)), ?_, by decide⟩
  constructor <;> decide

end BranchingTime
