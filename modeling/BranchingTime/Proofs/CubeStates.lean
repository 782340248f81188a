import Mathlib.Algebra.GroupWithZero.Nat
import BranchingTime.Example.Decode
import BranchingTime.Proofs.CubeReading
import BranchingTime.Proofs.PathCubes

/-!
# The states of cubes

Counting through the free bits of a cube gives every state of the cube once
(`Cube.mem_allStates`, `Cube.nodup_allStates`). The paths of a diagram are
disjoint, so counting through them one after the other gives every state of
the diagram once (`Manager.mem_allStates`, `Manager.nodup_allStates`). The
examples that are shown for some limit are the first of these states,
although only so many cubes are looked at (`Encoding.examples_eq_take`): no
cube is empty.
-/

namespace BranchingTime

namespace Cube

variable {cube : Cube} {bits : List Bool} {k k' width : Nat} {l : Int} {p : Literals}

/-! ## Counting through a cube -/

/-- The bits agree with those that are known. -/
def Admits (cube : Cube) (bits : List Bool) : Prop :=
  List.Forall₂ (fun known bit => known = none ∨ known = some bit) cube bits

/-- All states of a cube, in counting order. -/
def allStates (cube : Cube) : List (List Bool) := (List.range cube.stateCount).map cube.fill

theorem states_eq_take (cube : Cube) (limit : Nat) :
    cube.states limit = cube.allStates.take limit := by
  rw [states, allStates, ← List.map_take, List.take_range, Nat.min_comm]

theorem admits_fillReversed (cube : Cube) (k : Nat) : Admits cube (fillReversed cube k) := by
  induction cube generalizing k with
  | nil => exact .nil
  | cons known cube ih =>
      cases known with
      | none => exact .cons (.inl rfl) (ih _)
      | some b => exact .cons (.inr rfl) (ih _)

/-- Every state of a cube has its number. -/
theorem exists_fillReversed (h : Admits cube bits) :
    ∃ k < 2 ^ cube.count none, fillReversed cube k = bits := by
  induction h with
  | nil => exact ⟨0, by simp, rfl⟩
  | @cons known bit cube bits hbit _ ih =>
      obtain ⟨k, hk, hfill⟩ := ih
      rcases hbit with rfl | rfl
      · refine ⟨2 * k + bit.toNat, ?_, ?_⟩
        · have := Bool.toNat_le bit
          rw [List.count_cons_self, Nat.pow_succ]
          omega
        · have hdiv : (2 * k + bit.toNat) / 2 = k := by
            have := Bool.toNat_le bit
            omega
          have hmod : ((2 * k + bit.toNat) % 2 == 1) = bit := by cases bit <;> simp
          rw [fillReversed, hdiv, hmod, hfill]
      · exact ⟨k, by simpa using hk, by rw [fillReversed, hfill]⟩

/-- No two numbers have the same state. -/
theorem fillReversed_inj (hk : k < 2 ^ cube.count none) (hk' : k' < 2 ^ cube.count none)
    (h : fillReversed cube k = fillReversed cube k') : k = k' := by
  induction cube generalizing k k' with
  | nil =>
      simp at hk hk'
      omega
  | cons known cube ih =>
      cases known with
      | none =>
          rw [List.count_cons_self, Nat.pow_succ] at hk hk'
          obtain ⟨hbit, hrest⟩ := List.cons.inj h
          have hdiv := ih (by omega) (by omega) hrest
          rw [Bool.eq_iff_iff, beq_iff_eq, beq_iff_eq] at hbit
          omega
      | some b =>
          rw [List.count_cons_of_ne (by simp)] at hk hk'
          exact ih hk hk' (List.cons.inj h).2

theorem admits_fill (cube : Cube) (k : Nat) : Admits cube (cube.fill k) := by
  have := admits_fillReversed cube.reverse k
  rwa [Admits, ← List.forall₂_reverse_iff, List.reverse_reverse] at this

theorem mem_allStates : bits ∈ cube.allStates ↔ Admits cube bits := by
  have hcount : cube.reverse.count none = cube.count none := List.count_reverse ..
  rw [allStates, List.mem_map]
  constructor
  · rintro ⟨k, -, rfl⟩
    exact admits_fill cube k
  · intro h
    obtain ⟨k, hk, hfill⟩ := exists_fillReversed (List.forall₂_reverse_iff.mpr h)
    rw [hcount] at hk
    refine ⟨k, List.mem_range.mpr hk, ?_⟩
    rw [fill, hfill, List.reverse_reverse]

theorem nodup_allStates (cube : Cube) : cube.allStates.Nodup := by
  have hcount : cube.reverse.count none = cube.count none := List.count_reverse ..
  refine List.nodup_range.map_on fun k hk k' hk' h => ?_
  have hfill : fillReversed cube.reverse k = fillReversed cube.reverse k' :=
    List.reverse_injective h
  refine fillReversed_inj ?_ ?_ hfill
  · rw [hcount]
    exact List.mem_range.mp hk
  · rw [hcount]
    exact List.mem_range.mp hk'

theorem allStates_ne_nil (cube : Cube) : cube.allStates ≠ [] := by
  simp [allStates, stateCount]

/-! ## Cubes of literals -/

theorem length_free (width : Nat) : (free width).length = width :=
  List.length_replicate ..

theorem length_foldl_put (p : Literals) (cube : Cube) :
    (p.foldl put cube).length = cube.length := by
  induction p generalizing cube with
  | nil => rfl
  | cons l p ih => rw [List.foldl_cons, ih, put, List.length_set]

theorem getElem?_foldl_put_of_ne {i : Nat} (cube : Cube) (h : ∀ l ∈ p, l.natAbs - 1 ≠ i) :
    (p.foldl put cube)[i]? = cube[i]? := by
  induction p generalizing cube with
  | nil => rfl
  | cons l p ih =>
      obtain ⟨hl, hp⟩ := List.forall_mem_cons.mp h
      rw [List.foldl_cons, ih _ hp, put, List.getElem?_set_ne hl]

theorem Named.getElem?_foldl_put (hp : Named width p) (hl : l ∈ p) (hc : cube.length = width) :
    (p.foldl put cube)[l.natAbs - 1]? = some (some (decide (0 < l))) := by
  induction p generalizing cube with
  | nil => cases hl
  | cons l₀ p ih =>
      have hpos := hp.pos l hl
      rcases List.mem_cons.mp hl with rfl | hmem
      · have hle := hp.le l List.mem_cons_self
        rw [List.foldl_cons, getElem?_foldl_put_of_ne, put, List.getElem?_set_self (by omega)]
        intro l' hl'
        have := (List.pairwise_cons.mp hp.sorted).1 _ (List.mem_map_of_mem hl')
        omega
      · exact ih hp.tail hmem (by rw [put, List.length_set, hc])

theorem admits_iff : Admits cube bits ↔ cube.length = bits.length
    ∧ ∀ (i : Nat) (b : Bool),
      (cube[i]? : Option (Option Bool)) = some (some b) → bits[i]? = some b := by
  rw [Admits, List.forall₂_iff_get]
  refine and_congr_right fun hlength => ?_
  constructor
  · intro h i b hi
    obtain ⟨hlt, hget⟩ := List.getElem?_eq_some_iff.mp hi
    rcases h i hlt (hlength ▸ hlt) with hnone | hsome
    · cases hnone.symm.trans hget
    · rw [List.getElem?_eq_getElem (hlength ▸ hlt)]
      exact congrArg some (Option.some.inj (hsome.symm.trans hget))
  · intro h i hi hi'
    cases hget : cube.get ⟨i, hi⟩ with
    | none => exact .inl rfl
    | some b =>
        have := h i b (List.getElem?_eq_some_iff.mpr ⟨hi, hget⟩)
        rw [List.getElem?_eq_getElem hi'] at this
        exact .inr (congrArg some (Option.some.inj this).symm)

theorem length_ofLiterals (width : Nat) (p : Literals) : (ofLiterals width p).length = width := by
  rw [ofLiterals, length_foldl_put, length_free]

/-- A bit is known from a literal about it. -/
theorem Named.getElem?_ofLiterals_iff (hp : Named width p) {i : Nat} {b : Bool} :
    (ofLiterals width p)[i]? = some (some b) ↔ ∃ l ∈ p, l.natAbs - 1 = i ∧ decide (0 < l) = b := by
  constructor
  · intro hi
    by_cases hmem : ∃ l ∈ p, l.natAbs - 1 = i
    · obtain ⟨l, hl, rfl⟩ := hmem
      rw [ofLiterals, hp.getElem?_foldl_put hl (length_free width)] at hi
      exact ⟨l, hl, rfl, Option.some.inj (Option.some.inj hi)⟩
    · -- no literal is about this bit, so it is free
      rw [ofLiterals, getElem?_foldl_put_of_ne _ fun l hl heq => hmem ⟨l, hl, heq⟩, free] at hi
      simp [List.getElem?_replicate] at hi
  · rintro ⟨l, hl, rfl, rfl⟩
    exact hp.getElem?_foldl_put hl (length_free width)

/-- A cube of literals admits the bits that the literals ask for. -/
theorem Named.admits_iff (hp : Named width p) : Admits (ofLiterals width p) bits ↔
    bits.length = width ∧ ∀ l ∈ p, bits[l.natAbs - 1]? = some (decide (0 < l)) := by
  rw [Cube.admits_iff, length_ofLiterals, eq_comm]
  refine and_congr_right fun _ => ?_
  constructor
  · intro h l hl
    exact h _ _ (hp.getElem?_ofLiterals_iff.mpr ⟨l, hl, rfl, rfl⟩)
  · intro h i b hi
    obtain ⟨l, hl, rfl, rfl⟩ := hp.getElem?_ofLiterals_iff.mp hi
    exact h l hl

theorem Named.known (hp : Named width p) (hl : l ∈ p) :
    (ofLiterals width p).all Option.isNone = false := by
  have hget := hp.getElem?_foldl_put hl (length_free width)
  rw [List.all_eq_false]
  exact ⟨_, List.mem_of_getElem? hget, by simp⟩

end Cube

/-! ## The states of a diagram -/

/-- The assignment that has the given bits for its first variables. -/
def Assignment.ofBits (bits : List Bool) : Assignment := fun v => bits.getD (v - 1) false

theorem Cube.Named.meets_iff {width : Nat} {p : Literals} {bits : List Bool}
    (hp : Cube.Named width p) (hbits : bits.length = width) :
    (Assignment.ofBits bits).Meets p ↔ ∀ l ∈ p, bits[l.natAbs - 1]? = some (decide (0 < l)) := by
  refine forall₂_congr fun l hl => ?_
  have hpos := hp.pos l hl
  have hle := hp.le l hl
  have hlt : l.natAbs - 1 < bits.length := by omega
  rw [Assignment.satisfies, decide_eq_true_iff, Assignment.ofBits, List.getD_eq_getElem?_getD,
    List.getElem?_eq_getElem hlt, Option.getD_some, Option.some_inj]

namespace Manager

variable {m m' : Manager} {f f' : Handle} {width : Nat} {bits : List Bool} {p : Literals}

/-- The states of a diagram, path by path. -/
def allStates (m : Manager) (width : Nat) (f : Handle) : List (List Bool) :=
  (m.paths f).flatMap fun p => (Cube.ofLiterals width p).allStates

namespace Reduced

theorem named (hr : m.Reduced) (h : m.Valid f) (hd : DependsOn (m.eval f) {v | v ≤ width})
    (hp : p ∈ m.paths f) : Cube.Named width p where
  sorted := (hr.path_ascending h hp).1
  pos l hl := (hr.level_pos h).trans ((hr.path_ascending h hp).2 l hl)
  le := hr.natAbs_mem_of_dependsOn h hp hd

/-- The text of a diagram is read as the cubes of the paths that were written. -/
theorem readCubes_cubesText_eq (hr : m.Reduced) (h : m.Valid f)
    (hd : DependsOn (m.eval f) {v | v ≤ width}) (hwidth : width ≤ Cube.maxIndex)
    (limit? : Option Nat) : readCubes width (m.cubesText limit? f)
      = .ok ((limit?.elim (m.paths f) (m.paths f).take).map (Cube.ofLiterals width)) := by
  rw [cubesText_eq]
  exact readCubes_cubeTexts (fun p hp => hr.named h hd (mem_of_mem_elim_take hp)) hwidth

/-- The states of a path are those that meet it. -/
theorem mem_states_path (hr : m.Reduced) (h : m.Valid f)
    (hd : DependsOn (m.eval f) {v | v ≤ width}) (hp : p ∈ m.paths f) :
    bits ∈ (Cube.ofLiterals width p).allStates ↔
      bits.length = width ∧ (Assignment.ofBits bits).Meets p := by
  have hnamed := hr.named h hd hp
  rw [Cube.mem_allStates, hnamed.admits_iff]
  exact and_congr_right fun hbits => (hnamed.meets_iff hbits).symm

theorem mem_allStates (hr : m.Reduced) (h : m.Valid f)
    (hd : DependsOn (m.eval f) {v | v ≤ width}) :
    bits ∈ m.allStates width f ↔ bits.length = width ∧ m.eval f (.ofBits bits) = true := by
  rw [allStates, List.mem_flatMap, hr.eval_iff_meets h]
  constructor
  · rintro ⟨p, hp, hbits⟩
    obtain ⟨hlength, hmeets⟩ := (hr.mem_states_path h hd hp).mp hbits
    exact ⟨hlength, p, hp, hmeets⟩
  · rintro ⟨hlength, p, hp, hmeets⟩
    exact ⟨p, hp, (hr.mem_states_path h hd hp).mpr ⟨hlength, hmeets⟩⟩

theorem nodup_allStates (hr : m.Reduced) (h : m.Valid f)
    (hd : DependsOn (m.eval f) {v | v ≤ width}) : (m.allStates width f).Nodup := by
  rw [allStates, List.nodup_flatMap]
  refine ⟨fun p _ => Cube.nodup_allStates _, ?_⟩
  refine (hr.paths_disjoint h).imp_of_mem fun hp hq hne => ?_
  intro bits hbits hbits'
  exact hne _ ((hr.mem_states_path h hd hp).mp hbits).2 ((hr.mem_states_path h hd hq).mp hbits').2

end Reduced

end Manager

/-! ## Examples -/

/-- Where nothing is empty, the first parts are enough for the first
elements. -/
theorem take_flatMap_take {α β : Type} {l : List α} {f : α → List β} {j k : Nat}
    (hf : ∀ a ∈ l, f a ≠ []) (hj : j ≤ k) :
    ((l.take k).flatMap f).take j = (l.flatMap f).take j := by
  induction l generalizing j k with
  | nil => simp
  | cons a l ih =>
      obtain ⟨ha, hl⟩ := List.forall_mem_cons.mp hf
      have hpos := List.length_pos_iff.mpr ha
      cases k with
      | zero => simp [Nat.le_zero.mp hj]
      | succ k =>
          rw [List.take_succ_cons, List.flatMap_cons, List.flatMap_cons, List.take_append,
            List.take_append, ih hl (by omega)]

namespace Encoding

/-- Where every cube has a known bit, the examples are the first states. -/
theorem examples_eq_take (e : Encoding) (limit : Nat) {cubes : List Cube}
    (hknown : ∀ cube ∈ cubes, cube.all Option.isNone = false) :
    e.examples limit cubes = ((cubes.flatMap Cube.allStates).map e.render).take limit := by
  induction cubes generalizing limit with
  | nil => simp [examples]
  | cons cube cubes ih =>
      obtain ⟨hcube, hcubes⟩ := List.forall_mem_cons.mp hknown
      rw [examples]
      split
      · next hzero => simp [hzero]
      · have hfound : e.cubeExamples cube limit = (cube.allStates.map e.render).take limit := by
          rw [cubeExamples, hcube, if_neg (by simp), Cube.states_eq_take, List.map_take]
        simp only [hfound, ih _ hcubes]
        rw [List.flatMap_cons, List.map_append, List.take_append, List.length_take]
        congr 2
        omega

/-- As no cube is empty, as many cubes as examples are enough for the examples
of all cubes. -/
theorem examples_eq_take_of_le (e : Encoding) {cubes : List Cube} {limit? : Option Nat}
    {limit : Nat} (hknown : ∀ cube ∈ cubes, cube.all Option.isNone = false)
    (hlimit : ∀ count ∈ limit?, limit ≤ count) :
    e.examples limit (limit?.elim cubes cubes.take)
      = ((cubes.flatMap Cube.allStates).map e.render).take limit := by
  cases limit? with
  | none => exact e.examples_eq_take limit hknown
  | some count =>
      have hfirst : ∀ cube ∈ cubes.take count, cube.all Option.isNone = false :=
        fun cube hcube => hknown cube (List.mem_of_mem_take hcube)
      rw [Option.elim_some, e.examples_eq_take limit hfirst, ← List.map_take,
        take_flatMap_take (fun cube _ => cube.allStates_ne_nil) (hlimit count rfl), List.map_take]

end Encoding

end BranchingTime
