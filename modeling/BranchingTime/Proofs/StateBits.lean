import Mathlib.Algebra.GroupWithZero.Nat
import Mathlib.Data.List.Induction
import BranchingTime.Example.Decode
import BranchingTime.Kripke.Step
import BranchingTime.Proofs.NodeMaking

/-!
# States and their bits

A program state is a counter and a value for every variable. The bits of
one half of an assignment are a state in exactly one way
(`Encoding.stateOf_bijective`), read as the decoder of examples reads
them. The cubes that the encoding builds denote the states that a
continuation covers (`returns_state`, `returns_edge`).
-/

namespace BranchingTime

namespace Encoding

/-! ## Numbers and their bits -/

section Numbers

variable {l l' : List Bool}

theorem ofBits_append (l : List Bool) (b : Bool) :
    ofBits (l ++ [b]) = 2 * ofBits l + b.toNat := by
  simp [ofBits]

theorem ofBits_lt (l : List Bool) : ofBits l < 2 ^ l.length := by
  induction l using List.reverseRecOn with
  | nil => simp [ofBits]
  | append_singleton l b ih =>
      have := Bool.toNat_le b
      rw [ofBits_append, List.length_append, List.length_singleton, Nat.pow_succ]
      omega

/-- Bits of one length are told apart by their numbers. -/
theorem ofBits_inj (h : l.length = l'.length) : ofBits l = ofBits l' ↔ l = l' := by
  refine ⟨fun heq => ?_, fun heq => heq ▸ rfl⟩
  induction l using List.reverseRecOn generalizing l' with
  | nil => exact (List.length_eq_zero_iff.mp h.symm).symm
  | append_singleton l b ih =>
      rcases List.eq_nil_or_concat l' with rfl | ⟨l', b', rfl⟩
      · simp at h
      · rw [List.concat_eq_append] at h heq ⊢
        rw [ofBits_append, ofBits_append] at heq
        have hle := Bool.toNat_le b
        have hle' := Bool.toNat_le b'
        have hbit : ∀ b b' : Bool, b.toNat = b'.toNat → b = b' := by decide
        obtain rfl := hbit b b' (by omega)
        rw [ih (by simpa using h) (by omega)]

theorem bitsOf_succ (width value : Nat) :
    bitsOf (width + 1) value = bitsOf width (value / 2) ++ [value.testBit 0] := by
  unfold bitsOf
  rw [List.range_succ, List.map_append, List.map_singleton, Nat.add_sub_cancel, Nat.sub_self]
  congr 1
  refine List.map_congr_left fun i hi => ?_
  have := List.mem_range.mp hi
  rw [← Nat.testBit_add_one]
  congr 1
  omega

@[simp] theorem length_bitsOf (width value : Nat) : (bitsOf width value).length = width := by
  simp [bitsOf]

theorem ofBits_bitsOf (width value : Nat) : ofBits (bitsOf width value) = value % 2 ^ width := by
  induction width generalizing value with
  | zero => simp [bitsOf, ofBits, Nat.mod_one]
  | succ width ih =>
      rw [bitsOf_succ, ofBits_append, ih, Nat.testBit_zero, Nat.pow_succ', Nat.mod_mul]
      rcases Nat.mod_two_eq_zero_or_one value with h | h <;> simp [h]
      omega

theorem ofBits_wordBits (x : Int16) : ofBits (wordBits x) = x.toBitVec.toNat := by
  rw [wordBits, ofBits_bitsOf]
  exact Nat.mod_eq_of_lt x.toBitVec.isLt

/-- Sixteen bits are read as the word that is written with them. -/
theorem ofNat_ofBits_eq_iff {x : Int16} (h : l.length = variableWidth) :
    Int16.ofNat (ofBits l) = x ↔ l = wordBits x := by
  have hlt : ofBits l < 2 ^ 16 := by
    have := ofBits_lt l
    rwa [h] at this
  rw [← ofBits_inj (by rw [h, wordBits, length_bitsOf]), ofBits_wordBits]
  constructor
  · rintro rfl
    rw [Int16.toBitVec_ofNat', BitVec.toNat_ofNat, Nat.mod_eq_of_lt hlt]
  · intro heq
    apply Int16.toBitVec_inj.mp
    rw [Int16.toBitVec_ofNat', heq, BitVec.ofNat_toNat, BitVec.setWidth_eq]

end Numbers

/-! ## Literals -/

section Literals

variable {a : Assignment} {first : Nat} {bits : List Bool}

theorem natAbs_literalsFrom (first : Nat) (bits : List Bool) :
    (literalsFrom first bits).map Int.natAbs = List.range' first bits.length := by
  apply List.ext_getElem
  · simp [literalsFrom]
  · intro i hi hi'
    simp only [literalsFrom, List.getElem_map, List.getElem_mapIdx, List.getElem_range',
      Nat.one_mul]
    split <;> simp only [Int.natAbs_neg, Int.natAbs_natCast]

/-- The literals of some bits are true where the variables have them. -/
theorem satisfies_literalsFrom (hfirst : 1 ≤ first) :
    (∀ l ∈ literalsFrom first bits, a.satisfies l = true) ↔
      (List.range bits.length).map (fun i => a (first + i)) = bits := by
  have hone : ∀ (i : Nat) (b : Bool), a.satisfies
      (if b then ((first + i : Nat) : Int) else -((first + i : Nat) : Int)) = true ↔
      a (first + i) = b := by
    intro i b
    have hpos : (0 : Int) < (first + i : Nat) := by omega
    have hneg : ¬ (0 : Int) < -((first + i : Nat) : Int) := by omega
    cases b
    · simp only [Assignment.satisfies, Bool.false_eq_true, if_false, Int.natAbs_neg,
        Int.natAbs_natCast, hneg, decide_false, decide_eq_true_eq]
    · simp only [Assignment.satisfies, if_true, Int.natAbs_natCast, hpos, decide_true,
        decide_eq_true_eq]
  constructor
  · intro h
    apply List.ext_getElem
    · simp
    · intro i hi hi'
      rw [List.getElem_map, List.getElem_range, ← hone]
      refine h _ (List.mem_iff_getElem.mpr ⟨i, by simpa [literalsFrom] using hi', ?_⟩)
      simp [literalsFrom]
  · intro h l hl
    obtain ⟨i, hi, rfl⟩ := List.mem_iff_getElem.mp hl
    have hi' : i < bits.length := by simpa [literalsFrom] using hi
    simp only [literalsFrom, List.getElem_mapIdx]
    rw [hone]
    have := congrArg (fun l : List Bool => l[i]?) h
    simpa [hi'] using this

/-- The known variables of a binding have literals in the order of their
fields. -/
theorem natAbs_bindingLiterals (names : List String) (binding : Binding) (first offset : Nat) :
    (((List.zip (names.mapIdx fun i name =>
        (⟨name, offset + variableWidth * i, variableWidth⟩ : Field)) binding).flatMap
      fun (field, value?) =>
        match value? with
        | some value => literalsFrom (first + field.offset) (wordBits value)
        | none => []).map Int.natAbs).Sublist
      (List.range' (first + offset) (variableWidth * names.length)) := by
  induction names generalizing offset binding with
  | nil => simp
  | cons name names ih =>
      cases binding with
      | nil => simp
      | cons value? binding =>
          have hshift : (fun (i : Nat) (name : String) =>
                (⟨name, offset + variableWidth * (i + 1), variableWidth⟩ : Field))
              = fun i name =>
                ⟨name, offset + variableWidth + variableWidth * i, variableWidth⟩ := by
            funext i name
            rw [Nat.mul_succ, Nat.add_assoc offset, Nat.add_comm variableWidth]
          have htail := ih binding (offset + variableWidth)
          rw [← Nat.add_assoc] at htail
          rw [List.mapIdx_cons, hshift, List.zip_cons_cons, List.flatMap_cons, List.map_append,
            List.length_cons, Nat.mul_succ, Nat.add_comm (variableWidth * names.length),
            ← List.range'_append_1]
          refine List.Sublist.append ?_ htail
          cases value? with
          | none => exact List.nil_sublist _
          | some value =>
              simp only [Nat.mul_zero, Nat.add_zero, natAbs_literalsFrom, wordBits, length_bitsOf]
              exact List.Sublist.refl _

theorem natAbs_stateLiterals (e : Encoding) (pc : Nat) (binding : Binding) (half : Half) :
    ((e.stateLiterals pc binding half).map Int.natAbs).Sublist
      (List.range' (e.base half) e.halfWidth) := by
  rw [stateLiterals, List.map_append, natAbs_literalsFrom, length_bitsOf, halfWidth,
    ← List.range'_append_1]
  exact (List.Sublist.refl _).append
    (natAbs_bindingLiterals e.names binding (e.base half) counterWidth)

end Literals

end Encoding

/-! ## States -/

/-- A state of a program: a counter, and a value for every variable. -/
@[ext] structure State (numVars : Nat) where
  pc : Fin 256
  values : Fin numVars → Int16

/-- A continuation covers the states with its counter that agree with what
it knows. -/
def Continuation.Covers {numVars : Nat} (c : Continuation) (s : State numVars) : Prop :=
  c.pc = s.pc ∧ ∀ (i : Fin numVars) (value : Int16),
    c.binding[i.val]? = some (some value) → s.values i = value

namespace Encoding

/-- The bits of a half. -/
abbrev Bits (e : Encoding) : Type := Fin e.halfWidth → Bool

variable (e : Encoding)

@[simp] theorem length_variableFields : e.variableFields.length = e.names.length := by
  simp [variableFields]

theorem variableFields_get (i : Fin e.names.length) :
    e.variableFields.get (i.cast e.length_variableFields.symm) =
      ⟨e.names.get i, counterWidth + variableWidth * i, variableWidth⟩ := by
  simp only [variableFields, List.get_eq_getElem, List.getElem_mapIdx]
  rfl

/-- The state that the bits of a half are, read as examples are. -/
def stateOf (bits : e.Bits) : State e.names.length where
  pc := ⟨ofBits ((List.ofFn bits).take counterWidth), by
    have hlen : ((List.ofFn bits).take counterWidth).length ≤ counterWidth := List.length_take_le ..
    exact Nat.lt_of_lt_of_le (ofBits_lt _) (Nat.pow_le_pow_right Nat.two_pos hlen)⟩
  values i := fieldValue (e.variableFields.get (i.cast e.length_variableFields.symm))
    (List.ofFn bits)

/-- The bits of one half of an assignment. -/
def halfOf (half : Half) (a : Assignment) : e.Bits :=
  fun i => a (e.base half + i)

theorem slice_map_range {f : Nat → Bool} {n offset width : Nat} (h : offset + width ≤ n) :
    (((List.range n).map f).drop offset).take width =
      (List.range width).map fun j => f (offset + j) := by
  apply List.ext_getElem
  · simp
    omega
  · intro i hi hi'
    simp

theorem ofFn_halfOf (half : Half) (a : Assignment) :
    List.ofFn (e.halfOf half a) = (List.range e.halfWidth).map fun i => a (e.base half + i) := by
  apply List.ext_getElem
  · simp
  · intro i hi hi'
    simp [halfOf]

/-- The counter is read from the first bits of a half. -/
theorem stateOf_pc_eq_iff {half : Half} {a : Assignment} {pc : Nat} (hpc : pc < 256) :
    pc = (e.stateOf (e.halfOf half a)).pc ↔
      (List.range counterWidth).map (fun j => a (e.base half + j)) = bitsOf counterWidth pc := by
  have hbits : (List.ofFn (e.halfOf half a)).take counterWidth
      = (List.range counterWidth).map fun j => a (e.base half + j) := by
    rw [ofFn_halfOf, ← List.drop_zero (l := List.map _ _),
      slice_map_range (by rw [halfWidth]; omega)]
    simp only [Nat.zero_add]
  have hmod : pc % 2 ^ counterWidth = pc := Nat.mod_eq_of_lt hpc
  rw [← ofBits_inj (by simp), ofBits_bitsOf, hmod, ← hbits]
  exact eq_comm

/-- A variable is read from the bits of its field. -/
theorem stateOf_values_eq_iff {half : Half} {a : Assignment} {i : Fin e.names.length}
    {value : Int16} :
    (e.stateOf (e.halfOf half a)).values i = value ↔
      (List.range variableWidth).map
        (fun j => a (e.base half + (counterWidth + variableWidth * i) + j)) = wordBits value := by
  have hfit : counterWidth + variableWidth * i + variableWidth ≤ e.halfWidth := by
    have := Nat.mul_le_mul_left variableWidth i.isLt
    rw [Nat.mul_succ] at this
    rw [halfWidth]
    omega
  rw [← ofNat_ofBits_eq_iff (by simp)]
  show fieldValue _ _ = _ ↔ _
  rw [variableFields_get, fieldValue, ofFn_halfOf, slice_map_range hfit]
  simp only [Nat.add_assoc]

theorem base_pos (half : Half) : 1 ≤ e.base half := by
  cases half <;> simp [base]

theorem mem_bindingLiterals {binding : Binding} {half : Half} {l : Int} :
    l ∈ e.bindingLiterals binding half ↔ ∃ (i : Fin e.names.length) (value : Int16),
      binding[i.val]? = some (some value) ∧
      l ∈ literalsFrom (e.base half + (counterWidth + variableWidth * i)) (wordBits value) := by
  have hfield : ∀ i : Fin e.names.length, e.variableFields[i.val]? =
      some ⟨e.names.get i, counterWidth + variableWidth * i, variableWidth⟩ := fun i => by
    rw [← variableFields_get]
    simp
  rw [bindingLiterals, List.mem_flatMap]
  constructor
  · rintro ⟨⟨field, value?⟩, hmem, hl⟩
    obtain ⟨i, hi⟩ := List.mem_iff_getElem?.mp hmem
    obtain ⟨hf, hv⟩ := List.getElem?_zip_eq_some.mp hi
    have hlt : i < e.names.length := by
      have := (List.getElem?_eq_some_iff.mp hf).1
      rwa [length_variableFields] at this
    rw [hfield ⟨i, hlt⟩] at hf
    obtain rfl := Option.some.inj hf
    cases value? with
    | none => simp at hl
    | some value => exact ⟨⟨i, hlt⟩, value, hv, hl⟩
  · rintro ⟨i, value, hi, hl⟩
    exact ⟨(⟨e.names.get i, counterWidth + variableWidth * i, variableWidth⟩, some value),
      List.mem_iff_getElem?.mpr ⟨i, List.getElem?_zip_eq_some.mpr ⟨hfield i, hi⟩⟩, hl⟩

/-- The literals of a state are true where the half is a state that the
continuation covers. -/
theorem satisfies_stateLiterals {c : Continuation} {half : Half} {a : Assignment}
    (hpc : c.pc < 256) :
    (∀ l ∈ e.stateLiterals c.pc c.binding half, a.satisfies l = true) ↔
      c.Covers (e.stateOf (e.halfOf half a)) := by
  have hvalue : ∀ (i : Fin e.names.length) (value : Int16),
      (e.stateOf (e.halfOf half a)).values i = value ↔
      ∀ l ∈ literalsFrom (e.base half + (counterWidth + variableWidth * i)) (wordBits value),
        a.satisfies l = true := by
    intro i value
    have := e.base_pos half
    rw [satisfies_literalsFrom (by omega), stateOf_values_eq_iff, wordBits, length_bitsOf]
  rw [stateLiterals, List.forall_mem_append, satisfies_literalsFrom (e.base_pos half),
    length_bitsOf, ← stateOf_pc_eq_iff e hpc]
  refine and_congr_right fun _ => ?_
  constructor
  · intro h i value hi
    rw [hvalue]
    exact fun l hl => h l (e.mem_bindingLiterals.mpr ⟨i, value, hi, hl⟩)
  · intro h l hl
    obtain ⟨i, value, hi, hl⟩ := e.mem_bindingLiterals.mp hl
    exact (hvalue i value).mp (h i value hi) l hl

/-! ## The variables of a half -/

section Variables

variable {a b : Assignment}

theorem mem_vars {half : Half} {v : Nat} :
    v ∈ e.vars half ↔ ∃ i : Fin e.halfWidth, v = e.base half + i := by
  simp only [vars, List.mem_map, List.mem_range]
  constructor
  · rintro ⟨i, hi, rfl⟩
    exact ⟨⟨i, hi⟩, rfl⟩
  · rintro ⟨i, rfl⟩
    exact ⟨i, i.isLt, rfl⟩

/-- Assignments agree on the variables of a half when the halves are the
same. -/
theorem halfOf_eq_iff {half : Half} :
    e.halfOf half a = e.halfOf half b ↔ ∀ v ∈ e.vars half, a v = b v := by
  constructor
  · intro h v hv
    obtain ⟨i, rfl⟩ := e.mem_vars.mp hv
    exact congrFun h i
  · intro h
    funext i
    exact h _ (e.mem_vars.mpr ⟨i, rfl⟩)

theorem vars_current_le : {v | v ∈ e.vars .current} ⊆ {v | v ≤ e.halfWidth} := by
  intro v hv
  obtain ⟨i, rfl⟩ := e.mem_vars.mp hv
  have := i.isLt
  show e.base .current + i ≤ e.halfWidth
  rw [base]
  omega

theorem mem_vars_next {v : Nat} (h : v ∈ e.vars .next) : 1 ≤ v ∧ v ≤ e.numVars := by
  obtain ⟨i, rfl⟩ := e.mem_vars.mp h
  have := i.isLt
  rw [base, numVars]
  omega

end Variables

/-! ## Every state has its bits -/

/-- The assignment with the given halves. -/
def join (s s' : e.Bits) : Assignment := fun v =>
  if h : v - 1 < e.halfWidth then s ⟨v - 1, h⟩
  else if h : v - 1 - e.halfWidth < e.halfWidth then s' ⟨v - 1 - e.halfWidth, h⟩
  else false

@[simp] theorem halfOf_current_join (s s' : e.Bits) :
    e.halfOf .current (e.join s s') = s := by
  funext i
  simp [halfOf, join, base]

@[simp] theorem halfOf_next_join (s s' : e.Bits) :
    e.halfOf .next (e.join s s') = s' := by
  funext i
  have h1 : 1 + e.halfWidth + i - 1 = e.halfWidth + i := by omega
  have h2 : ¬ e.halfWidth + i < e.halfWidth := by omega
  simp [halfOf, join, base, h1, h2]

/-- The place of a bit: in the counter, or in the field of a variable. -/
theorem place_cases {j : Nat} (hj : j < e.halfWidth) : j < counterWidth ∨
    ∃ (i : Fin e.names.length) (r : Nat), r < variableWidth
      ∧ j = counterWidth + variableWidth * i + r := by
  by_cases h : j < counterWidth
  · exact Or.inl h
  · refine Or.inr ⟨⟨(j - counterWidth) / variableWidth, ?_⟩, (j - counterWidth) % variableWidth,
      Nat.mod_lt _ (by decide), ?_⟩
    · rw [halfWidth] at hj
      exact Nat.div_lt_of_lt_mul (by omega)
    · have := Nat.div_add_mod (j - counterWidth) variableWidth
      show j = counterWidth + variableWidth * ((j - counterWidth) / variableWidth) + _
      omega

theorem stateOf_injective : Function.Injective e.stateOf := by
  intro s s' h
  obtain ⟨a, rfl⟩ : ∃ a, e.halfOf .current a = s := ⟨e.join s s, by simp⟩
  obtain ⟨b, rfl⟩ : ∃ b, e.halfOf .current b = s' := ⟨e.join s' s', by simp⟩
  funext ⟨j, hj⟩
  show a (1 + j) = b (1 + j)
  rcases e.place_cases hj with hlt | ⟨i, r, hr, rfl⟩
  · have hpc := (e.stateOf (e.halfOf .current a)).pc.isLt
    have ha := (e.stateOf_pc_eq_iff hpc).mp rfl
    have hb := (e.stateOf_pc_eq_iff hpc).mp (congrArg (fun s => s.pc.val) h)
    have := congrArg (fun l : List Bool => l[j]?) (ha.trans hb.symm)
    simpa [hlt, base] using this
  · have ha := e.stateOf_values_eq_iff.mp (rfl : (e.stateOf (e.halfOf .current a)).values i = _)
    have hb := e.stateOf_values_eq_iff.mp (congrArg (fun s => s.values i) h).symm
    have := congrArg (fun l : List Bool => l[r]?) (ha.trans hb.symm)
    simpa [hr, base, Nat.add_assoc] using this

/-- The bits of a state. -/
def bitsOfState (s : State e.names.length) (j : Fin e.halfWidth) : Bool :=
  if j.val < counterWidth then s.pc.val.testBit (counterWidth - 1 - j)
  else if h : (j.val - counterWidth) / variableWidth < e.names.length then
    (s.values ⟨(j.val - counterWidth) / variableWidth, h⟩).toBitVec.toNat.testBit
      (variableWidth - 1 - (j.val - counterWidth) % variableWidth)
  else false

theorem stateOf_bitsOfState (s : State e.names.length) : e.stateOf (e.bitsOfState s) = s := by
  have hhalf := e.halfOf_current_join (e.bitsOfState s) (e.bitsOfState s)
  have hbit : ∀ j (hj : j < e.halfWidth), e.join (e.bitsOfState s) (e.bitsOfState s) (1 + j)
      = e.bitsOfState s ⟨j, hj⟩ := fun j hj => congrFun hhalf ⟨j, hj⟩
  rw [← hhalf]
  generalize e.join (e.bitsOfState s) (e.bitsOfState s) = a at hbit
  ext i
  · refine ((e.stateOf_pc_eq_iff s.pc.isLt).mpr ?_).symm
    refine List.map_congr_left fun j hj => ?_
    have hj := List.mem_range.mp hj
    rw [base, hbit j (by rw [halfWidth]; omega), bitsOfState, if_pos hj]
  · refine e.stateOf_values_eq_iff.mpr ?_
    rw [wordBits, bitsOf]
    refine List.map_congr_left fun r hr => ?_
    have hr := List.mem_range.mp hr
    have hi : counterWidth + variableWidth * i + r < e.halfWidth := by
      have := Nat.mul_le_mul_left variableWidth i.isLt
      rw [Nat.mul_succ] at this
      rw [halfWidth]
      omega
    have hsub : counterWidth + variableWidth * i + r - counterWidth = r + variableWidth * i := by
      omega
    have hdiv : (r + variableWidth * i) / variableWidth = i := by
      rw [Nat.add_mul_div_left _ _ (by decide), Nat.div_eq_of_lt hr, Nat.zero_add]
    have hge : ¬ counterWidth + variableWidth * i + r < counterWidth := by omega
    rw [base, Nat.add_assoc, hbit _ hi, bitsOfState, if_neg hge]
    simp only [hsub, hdiv, i.isLt, dif_pos, Nat.add_mul_mod_self_left, Nat.mod_eq_of_lt hr]

/-- The bits of a half are a state in exactly one way. -/
theorem stateOf_bijective : Function.Bijective e.stateOf :=
  ⟨e.stateOf_injective, fun s => ⟨e.bitsOfState s, e.stateOf_bitsOfState s⟩⟩

end Encoding

/-! ## Cubes of states -/

namespace Diagram

open Manager

variable {m : Manager} {e : Encoding} {c c' : Continuation}

/-- A cube whose literals follow the order of some variables. -/
theorem returns_cube_of_sublist {ls : List Int} {first n : Nat} (hm : m.WellFormed)
    (hsub : (ls.map Int.natAbs).Sublist (List.range' first n)) (hfirst : 1 ≤ first)
    (hlast : first + n ≤ m.numVars + 1) :
    Returns (cube ls) m (m.Yields fun a => ∀ l ∈ ls, a.satisfies l = true) := by
  have hrange : ∀ l ∈ ls, 1 ≤ l.natAbs ∧ l.natAbs ≤ m.numVars := by
    intro l hl
    have := List.mem_range'_1.mp (hsub.subset (List.mem_map_of_mem hl))
    omega
  refine returns_cube hm (fun l hl h0 => ?_) (fun l hl => (hrange l hl).2)
    (hsub.nodup List.nodup_range')
  have := (hrange l hl).1
  rw [h0] at this
  cases this

/-- The cube of a continuation denotes the states that it covers. -/
theorem returns_state (hm : m.WellFormed) (hvars : e.numVars ≤ m.numVars) (half : Half)
    (hpc : c.pc < 256) : Returns (e.state c.pc c.binding half) m
      (m.Yields fun a => c.Covers (e.stateOf (e.halfOf half a))) := by
  rw [Encoding.numVars] at hvars
  refine Ends.imp (returns_cube_of_sublist hm (e.natAbs_stateLiterals c.pc c.binding half)
    (e.base_pos half) ?_) (fun r m' y => y.congr fun a => e.satisfies_stateLiterals hpc)
  cases half <;> simp only [Encoding.base] <;> omega

/-- The cube of a step denotes the pairs of states that its two ends
cover. -/
theorem returns_edge (hm : m.WellFormed) (hvars : e.numVars ≤ m.numVars) (hpc : c.pc < 256)
    (hpc' : c'.pc < 256) : Returns (e.edge c.pc c.binding c'.pc c'.binding) m
      (m.Yields fun a => c.Covers (e.stateOf (e.halfOf .current a))
        ∧ c'.Covers (e.stateOf (e.halfOf .next a))) := by
  rw [Encoding.numVars] at hvars
  have hsub : ((e.stateLiterals c.pc c.binding .current
      ++ e.stateLiterals c'.pc c'.binding .next).map Int.natAbs).Sublist
      (List.range' 1 (e.halfWidth + e.halfWidth)) := by
    rw [List.map_append, ← List.range'_append_1]
    exact (e.natAbs_stateLiterals c.pc c.binding .current).append
      (e.natAbs_stateLiterals c'.pc c'.binding .next)
  refine Ends.imp (returns_cube_of_sublist hm hsub (Nat.le_refl 1) (by omega))
    (fun r m' y => y.congr fun a => ?_)
  rw [List.forall_mem_append, e.satisfies_stateLiterals hpc, e.satisfies_stateLiterals hpc']

end Diagram

end BranchingTime
