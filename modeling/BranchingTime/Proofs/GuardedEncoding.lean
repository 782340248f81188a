import BranchingTime.Proofs.GuardedText
import BranchingTime.State.Encoding

/-!
# States with guards

The variables and literals of states, computed in words of 32 bits: every sum
and every product has to fit in a signed word. The fields of a state are read
by their index, bits by a shift, and a binding has a place for every declared
variable.

No check fails as long as two states have less than `2 ^ 31` bits.
-/

namespace BranchingTime.Guarded

/-! ## Definitions -/

/-- Signed words of 32 bits are below this. -/
def wordBound : Nat := Nat.pow 2 31

/-- A number that fits in a signed word. -/
def word (n : Nat) : Except Fault Nat := do
  ensure (n < wordBound) .overflow
  return n

/-- How many diagram variables two states take. -/
def numVars (e : Encoding) : Except Fault Nat := do
  word (2 * (← word e.halfWidth))

/-- The diagram variable of the first bit of a half. -/
def base (e : Encoding) : Half → Except Fault Nat
  | .current => return 1
  | .next => do word (1 + (← word e.halfWidth))

/-- The diagram variables of a half. -/
def vars (e : Encoding) (half : Half) : Except Fault (List Nat) := do
  let first ← base e half
  (List.range (← word e.halfWidth)).mapM fun i => word (first + i)

/-- The next variable of each current one. -/
def toNext (e : Encoding) : Except Fault (List (Nat × Nat)) := do
  let shift ← word e.halfWidth
  (← vars e .current).mapM fun v => return (v, ← word (v + shift))

/-- The fields of the declared variables: all but the first one. -/
def variableFields (e : Encoding) : Except Fault (List Field) :=
  slice e.fields 1 e.fields.length

/-- The literal of one bit of a field, whose first bit is variable `first`. A
word of 16 bits is shifted by less than its width. -/
def bitLiteral (first : Nat) (field : Field) (value bit : Nat) : Except Fault Int := do
  let v ← word (first + bit)
  ensure (1 ≤ field.width ∧ bit ≤ field.width - 1) .outOfBounds
  ensure (field.width - 1 - bit < 16) .overflow
  return if value.testBit (field.width - 1 - bit) then (v : Int) else -(v : Int)

/-- The literals that give the bits of a field a value. -/
def fieldLiterals (e : Encoding) (half : Half) (field : Field) (value : Nat) :
    Except Fault (List Int) := do
  let first ← word ((← base e half) + field.offset)
  (List.range field.width).mapM (bitLiteral first field value)

/-- The literals of a variable, if its value is known. Only integers have
values. -/
def valueLiterals (e : Encoding) (half : Half) (field : Field) :
    Option Int16 → Except Fault (List Int)
  | some value => do
    ensure (field.width = Encoding.variableWidth) .outOfBounds
    fieldLiterals e half field value.toBitVec.toNat
  | none => return []

/-- The literals of a state. The counter is cut to 16 bits. -/
def stateLiterals (e : Encoding) (pc : Nat) (binding : Binding) (half : Half) :
    Except Fault (List Int) := do
  ensure (1 ≤ e.fields.length ∧ binding.length = e.fields.length - 1) .outOfBounds
  let counter ← fieldLiterals e half (← item e.fields 0) (pc % Nat.pow 2 16)
  let known ← (List.zip (← variableFields e) binding).mapM fun p => valueLiterals e half p.1 p.2
  return counter ++ known.flatten

/-! ## No check fails -/

section Encoding

variable {e : Encoding} {field : Field} {half : Half}

theorem word_eq {n : Nat} (h : n < wordBound) : word n = .ok n := ensure_bind h _ _

theorem variableFields_eq : variableFields e = .ok e.variableFields := by
  rw [variableFields, Encoding.fields, List.length_cons, Nat.add_comm]
  exact slice_eq (List.append_nil _).symm (by rw [List.length_cons]; omega)

/-- A field is a part of a state. -/
theorem fits_of_mem_variableFields (h : field ∈ e.variableFields) :
    field.width = Encoding.variableWidth ∧ field.offset + field.width ≤ e.halfWidth := by
  obtain ⟨i, hi, rfl⟩ := List.mem_iff_getElem.mp h
  rw [Encoding.variableFields, List.length_mapIdx] at hi
  simp only [Encoding.variableFields, List.getElem_mapIdx, Encoding.halfWidth,
    Encoding.variableWidth, Encoding.counterWidth, true_and]
  omega

/-- The literals of some bits, one after the other. -/
theorem literalsFrom_bitsOf (first width value : Nat) :
    Encoding.literalsFrom first (Encoding.bitsOf width value) = (List.range width).map fun bit =>
      if value.testBit (width - 1 - bit) then ((first + bit : Nat) : Int)
      else -((first + bit : Nat) : Int) := by
  refine List.ext_getElem (by simp [Encoding.literalsFrom, Encoding.bitsOf]) fun i hi hi' => ?_
  simp [Encoding.literalsFrom, Encoding.bitsOf]

/-- The counter does not need more than its lowest bits. -/
theorem bitsOf_counter (pc : Nat) :
    Encoding.bitsOf Encoding.counterWidth (pc % Nat.pow 2 16)
      = Encoding.bitsOf Encoding.counterWidth pc := by
  refine List.map_congr_left fun i hi => ?_
  have hlt : Encoding.counterWidth - 1 - i < 16 := by
    rw [Encoding.counterWidth]
    omega
  have hmod := Nat.testBit_mod_two_pow pc 16 (Encoding.counterWidth - 1 - i)
  rw [decide_eq_true hlt, Bool.true_and] at hmod
  exact hmod

theorem bindingLiterals_eq (binding : Binding) : e.bindingLiterals binding half
    = (List.zip e.variableFields binding).flatMap fun p => p.2.elim [] fun value =>
      Encoding.literalsFrom (e.base half + p.1.offset) (Encoding.wordBits value) := by
  refine List.flatMap_congr fun p _ => ?_
  obtain ⟨field, value?⟩ := p
  cases value? with
  | none => rfl
  | some value => rw [Option.elim_some]

section Words

variable (hvars : e.numVars < wordBound)

include hvars

theorem halfWidth_lt : 1 + e.halfWidth < wordBound := by
  have hpos : 8 ≤ e.halfWidth := Nat.le_add_right ..
  unfold Encoding.numVars at hvars
  omega

theorem halfWidth_eq : word e.halfWidth = .ok e.halfWidth :=
  word_eq (Nat.lt_of_le_of_lt (Nat.le_add_left ..) (halfWidth_lt hvars))

theorem numVars_eq : numVars e = .ok e.numVars := by
  rw [numVars, halfWidth_eq hvars, ok_bind]
  exact word_eq hvars

theorem base_eq : base e half = .ok (e.base half) := by
  cases half with
  | current => rfl
  | next =>
      rw [base, halfWidth_eq hvars, ok_bind]
      exact word_eq (halfWidth_lt hvars)

/-- The variables of both halves fit. -/
theorem base_add_lt (half : Half) {i : Nat} (hi : i < e.halfWidth) :
    e.base half + i < wordBound := by
  unfold Encoding.numVars at hvars
  unfold Encoding.base
  cases half with
  | current => dsimp only; omega
  | next => dsimp only; omega

theorem vars_eq : vars e half = .ok (e.vars half) := by
  rw [vars, base_eq hvars, ok_bind, halfWidth_eq hvars, ok_bind]
  exact mapM_eq_map fun i hi => word_eq (base_add_lt hvars half (List.mem_range.mp hi))

theorem toNext_eq : toNext e = .ok e.toNext := by
  rw [toNext, halfWidth_eq hvars, ok_bind, vars_eq hvars, ok_bind]
  refine mapM_eq_map fun v hv => ?_
  obtain ⟨i, hi, rfl⟩ := List.mem_map.mp hv
  have hnext := base_add_lt hvars .next (List.mem_range.mp hi)
  have hlt : e.base .current + i + e.halfWidth < wordBound := by
    unfold Encoding.base at hnext ⊢
    dsimp only at hnext ⊢
    omega
  rw [word_eq hlt]
  rfl

theorem fieldLiterals_eq (value : Nat) (hpos : 1 ≤ field.width) (hwidth : field.width ≤ 16)
    (hfits : field.offset + field.width ≤ e.halfWidth) : fieldLiterals e half field value
      = .ok (Encoding.literalsFrom (e.base half + field.offset)
        (Encoding.bitsOf field.width value)) := by
  have hlt {bit : Nat} (hbit : bit < field.width) :
      e.base half + field.offset + bit < wordBound :=
    Nat.add_assoc .. ▸ base_add_lt hvars half (by omega)
  have hfirst : e.base half + field.offset < wordBound := hlt hpos
  rw [fieldLiterals, base_eq hvars, ok_bind, word_eq hfirst, ok_bind, literalsFrom_bitsOf]
  refine mapM_eq_map fun bit hmem => ?_
  have hbit := List.mem_range.mp hmem
  rw [bitLiteral, word_eq (hlt hbit), ok_bind, ensure_bind ⟨hpos, by omega⟩,
    ensure_bind (by omega)]
  rfl

theorem valueLiterals_eq (hfield : field ∈ e.variableFields) (value? : Option Int16) :
    valueLiterals e half field value? = .ok (value?.elim [] fun value =>
      Encoding.literalsFrom (e.base half + field.offset) (Encoding.wordBits value)) := by
  obtain ⟨hwidth, hfits⟩ := fits_of_mem_variableFields hfield
  cases value? with
  | none => rfl
  | some value =>
      rw [valueLiterals, ensure_bind hwidth, fieldLiterals_eq hvars _ (by rw [hwidth]; decide)
        (by rw [hwidth]; decide) hfits, hwidth]
      rfl

theorem stateLiterals_eq (pc : Nat) {binding : Binding}
    (hlen : binding.length = e.names.length) :
    stateLiterals e pc binding half = .ok (e.stateLiterals pc binding half) := by
  have hfields : e.fields.length = e.names.length + 1 := by
    rw [Encoding.fields, List.length_cons, Encoding.variableFields, List.length_mapIdx]
  have hcounter : fieldLiterals e half Encoding.counterField (pc % Nat.pow 2 16)
      = .ok (Encoding.literalsFrom (e.base half) (Encoding.bitsOf Encoding.counterWidth pc)) := by
    rw [← bitsOf_counter]
    exact fieldLiterals_eq hvars _ (by decide) (by decide) (Nat.le_add_right ..)
  have hknown : (List.zip e.variableFields binding).mapM (fun p => valueLiterals e half p.1 p.2)
      = .ok ((List.zip e.variableFields binding).map fun p => p.2.elim [] fun value =>
        Encoding.literalsFrom (e.base half + p.1.offset) (Encoding.wordBits value)) :=
    mapM_eq_map fun p hp => valueLiterals_eq hvars (List.of_mem_zip hp).1 p.2
  have hfirst : item e.fields 0 = .ok Encoding.counterField := rfl
  rw [stateLiterals, ensure_bind ⟨by omega, by omega⟩, hfirst, ok_bind, hcounter, ok_bind,
    variableFields_eq, ok_bind, hknown, ok_bind, ← List.flatMap_def,
    ← bindingLiterals_eq]
  rfl

end Words

end Encoding

end BranchingTime.Guarded
