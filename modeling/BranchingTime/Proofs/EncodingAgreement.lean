import Mathlib.Algebra.BigOperators.Fin
import Mathlib.Data.FinEnum
import Mathlib.Data.Fintype.BigOperators
import BranchingTime.Proofs.ShownStates

/-!
# States are decoded as they are encoded

The two halves of an assignment share out the diagram variables of an encoding
(`vars_append`). The diagram of a step is satisfied where both halves, read
field by field as examples are, have the counters of its ends and the values
that are known there (`agrees_iff_covers`). A diagram of states is decoded to
one example for every way to complete what is known, and there are `65536` ways
for each unknown variable (`ncard_completions`).
-/

namespace BranchingTime

open Diagram Manager

namespace Encoding

variable (e : Encoding) {half : Half} {a : Assignment}

/-! ## Reading the fields of a half -/

/-- The fields of some bits have the counter `pc`, and the values that the
binding knows. -/
def Agrees (bits : List Bool) (pc : Nat) (binding : Binding) : Prop :=
  (fieldValue counterField bits).toInt = pc
    ∧ ∀ (i : Nat) (field : Field) (value : Int16), e.variableFields[i]? = some field →
      binding[i]? = some (some value) → fieldValue field bits = value

theorem map_vars (half : Half) (a : Assignment) :
    (e.vars half).map a = List.ofFn (e.halfOf half a) := by
  rw [ofFn_halfOf, vars, List.map_map]
  rfl

/-- The counter is a small number, so it has no sign. -/
theorem toInt_fieldValue_counterField (bits : e.Bits) :
    (fieldValue counterField (List.ofFn bits)).toInt = ((e.stateOf bits).pc : Nat) := by
  have hpc : ofBits (((List.ofFn bits).drop counterField.offset).take counterField.width)
      = (e.stateOf bits).pc := rfl
  have hlt := (e.stateOf bits).pc.isLt
  rw [fieldValue, hpc, Int16.toInt_ofNat_of_lt (by omega)]

theorem fieldValue_of_getElem? {bits : e.Bits} {i : Fin e.names.length} {field : Field}
    (h : e.variableFields[i.val]? = some field) :
    fieldValue field (List.ofFn bits) = (e.stateOf bits).values i := by
  obtain ⟨hlt, hfield⟩ := List.getElem?_eq_some_iff.mp h
  rw [← hfield]
  rfl

/-- Bits that are read field by field are a state that the continuation
covers. -/
theorem agrees_iff_covers {c : Continuation} :
    e.Agrees ((e.vars half).map a) c.pc c.binding ↔ c.Covers (e.stateOf (e.halfOf half a)) := by
  rw [map_vars, Agrees, toInt_fieldValue_counterField, Int.natCast_inj, eq_comm]
  refine and_congr_right fun _ => ?_
  constructor
  · intro h i value hvalue
    have hfield := List.getElem?_eq_getElem (l := e.variableFields) (i := i.val) (by simp)
    rw [← e.fieldValue_of_getElem? hfield]
    exact h i _ value hfield hvalue
  · intro h i field value hfield hvalue
    have hlt : i < e.names.length := by
      have := (List.getElem?_eq_some_iff.mp hfield).1
      rwa [length_variableFields] at this
    rw [e.fieldValue_of_getElem? (i := ⟨i, hlt⟩) hfield]
    exact h ⟨i, hlt⟩ value hvalue

theorem vars_eq_range' (half : Half) : e.vars half = List.range' (e.base half) e.halfWidth :=
  List.range'_eq_map_range.symm

/-- The halves take all variables, the current one first. -/
theorem vars_append : e.vars .current ++ e.vars .next = List.range' 1 e.numVars := by
  rw [vars_eq_range', vars_eq_range', numVars, Nat.two_mul]
  exact List.range'_append_1

end Encoding

/-! ## Completions of a binding -/

/-- The values that have what a binding knows. -/
def Binding.completions (binding : Binding) (n : Nat) : Set (Fin n → Int16) :=
  {values | ∀ (i : Fin n) (value : Int16),
    binding[i.val]? = some (some value) → values i = value}

/-- The values that a slot allows. -/
def slotValues (slot : Option Int16) : Finset Int16 := slot.elim Finset.univ fun value => {value}

theorem prod_card_slotValues (binding : Binding) :
    (binding.map fun slot => (slotValues slot).card).prod = 65536 ^ binding.count none := by
  induction binding with
  | nil => rfl
  | cons slot binding ih =>
      rw [List.map_cons, List.prod_cons, ih]
      cases slot with
      | none =>
          have hcard : (slotValues none).card = 65536 := by
            rw [slotValues, Option.elim_none, Finset.card_univ, ← FinEnum.card_eq_fintypeCard,
              FinEnum.card_Int16]
            rfl
          rw [hcard, List.count_cons_self, Nat.pow_succ, Nat.mul_comm]
      | some value =>
          rw [slotValues, Option.elim_some, Finset.card_singleton, Nat.one_mul,
            List.count_cons_of_ne (by simp)]

/-- Every unknown slot can be filled in `65536` ways. -/
theorem Binding.ncard_completions {binding : Binding} {n : Nat} (h : binding.length = n) :
    (binding.completions n).ncard = 65536 ^ binding.count none := by
  subst h
  have hset : binding.completions binding.length
      = ↑(Fintype.piFinset fun i : Fin binding.length => slotValues (binding.get i)) := by
    ext values
    rw [Finset.mem_coe, Fintype.mem_piFinset]
    refine forall_congr' fun i => ?_
    rw [List.getElem?_eq_getElem i.isLt]
    cases hslot : binding.get i with
    | none =>
        rw [List.get_eq_getElem] at hslot
        simp [slotValues, hslot]
    | some value =>
        rw [List.get_eq_getElem] at hslot
        simp [slotValues, hslot]
  rw [hset, Set.ncard_coe_finset, Fintype.card_piFinset, ← prod_card_slotValues]
  exact Fin.prod_univ_fun_getElem binding fun slot => (slotValues slot).card

/-! ## Steps and states -/

section Agreement

variable {e : Encoding} {m : Manager} {pc nextPc : Nat} {source : Binding}

/-- The diagram of a continuation stands for the completions of what it
knows. -/
theorem StatesAt.of_covers {r : Handle} {c : Continuation} (hm : m.WellFormed) (hpc : c.pc < 256)
    (hr : m.Denotes r fun a => c.Covers (e.stateOf (e.halfOf .current a))) :
    StatesAt e m r ⟨c.pc, hpc⟩ (c.binding.completions e.names.length) where
  wellFormed := hm
  denotes := by
    refine hr.congr fun a => and_congr ?_ Iff.rfl
    rw [Fin.ext_iff]
    exact eq_comm

/-- Encoder and decoder agree. A step is satisfied where both halves are read
as its ends, and the halves share out the variables. The states of a binding
are decoded to different examples, each with the known values, as many as asked
for or all that there are. -/
theorem Encoding.decode_agrees (hm : m.WellFormed) (hvars : e.numVars ≤ m.numVars)
    (hmax : e.numVars < 2 ^ 31) (hpc : pc ≤ 255) (hnext : nextPc ≤ 255)
    (hsource : source.length = e.names.length) (target : Binding) :
    (∃ r m', e.edge pc source nextPc target m = .ok r m' ∧ m'.WellFormed ∧ m'.Valid r
        ∧ ∀ a, m'.eval r a = true ↔ e.Agrees ((e.vars .current).map a) pc source
          ∧ e.Agrees ((e.vars .next).map a) nextPc target)
      ∧ e.vars .current ++ e.vars .next = List.range' 1 e.numVars
      ∧ (e.vars .current).Disjoint (e.vars .next)
      ∧ ∃ r m', e.state pc source .current m = .ok r m' ∧ m'.WellFormed ∧ m'.Valid r
        ∧ ∀ limit? limit, (∀ count ∈ limit?, limit ≤ count) →
          ∃ shown, e.decode (m'.cubesText limit? r) limit = .ok shown
            ∧ shown.length = min limit (65536 ^ source.count none) ∧ shown.Nodup
            ∧ ∀ text ∈ shown, ∃ values, text = exampleText e.names values
              ∧ ∀ (i : Fin e.names.length) (value : Int16),
                source[i.val]? = some (some value) → values i = value := by
  have hpc : Continuation.pc ⟨pc, source⟩ < 256 := Nat.lt_succ_of_le hpc
  have hnext : Continuation.pc ⟨nextPc, target⟩ < 256 := Nat.lt_succ_of_le hnext
  refine ⟨?_, e.vars_append, ?_, ?_⟩
  · obtain ⟨r, m', hrun, y⟩ := (returns_edge hm hvars hpc hnext).exists_ok
    refine ⟨r, m', hrun, y.wellFormed, y.valid, fun a => ?_⟩
    rw [y.eval_iff, ← e.agrees_iff_covers, ← e.agrees_iff_covers]
  · refine List.disjoint_of_nodup_append ?_
    rw [e.vars_append]
    exact List.nodup_range'
  · obtain ⟨r, m', hrun, y⟩ := (returns_state hm hvars .current hpc).exists_ok
    have hstates := StatesAt.of_covers y.wellFormed hpc y.denotes
    have hwidth : e.halfWidth ≤ Cube.maxIndex := by
      have hlarge : Cube.maxIndex = 18446744073709551615 := rfl
      rw [Encoding.numVars] at hmax
      omega
    refine ⟨r, m', hrun, y.wellFormed, y.valid, fun limit? limit hlimit => ?_⟩
    refine ⟨_, hstates.decode_eq hwidth limit? limit hlimit, ?_, ?_, fun text htext => ?_⟩
    · rw [List.length_take, List.length_map, ← hstates.ncard_eq,
        Binding.ncard_completions hsource]
    · exact (hstates.nodup_witnessValues.map (exampleText_injective _)).sublist
        (List.take_sublist _ _)
    · obtain ⟨values, hvalues, rfl⟩ := List.mem_map.mp (List.mem_of_mem_take htext)
      exact ⟨values, rfl, hstates.mem_witnessValues.mp hvalues⟩

/-- With one known variable and one unknown one, there is an example for every
value of the other. -/
theorem Encoding.decode_agrees_unknown : ∃ m r m' shown, new? 80 4 = .ok m
    ∧ Encoding.state ⟨["x", "y"]⟩ 3 [some (-2), none] .current m = .ok r m'
    ∧ Encoding.decode ⟨["x", "y"]⟩ (m'.cubesText none r) 100000 = .ok shown
    ∧ shown.length = 65536 ∧ shown.Nodup
    ∧ ∀ text ∈ shown, ∃ y : Int16, text = "x=-2, y=" ++ toString y.toInt := by
  obtain ⟨m, hnew⟩ : ∃ m, new? 80 4 = .ok m := ⟨_, rfl⟩
  obtain ⟨hm, hn⟩ := wellFormed_new? hnew
  have hvars : Encoding.numVars ⟨["x", "y"]⟩ = 80 := rfl
  have hpc : 3 ≤ 255 := by decide
  have hsource : List.length [some (-2 : Int16), none] = 2 := rfl
  obtain ⟨-, -, -, r, m', hrun, -, -, hdecode⟩ :=
    Encoding.decode_agrees (e := ⟨["x", "y"]⟩) hm (by omega) (by omega) hpc hpc hsource
      [none, some 7]
  obtain ⟨shown, hshown, hlength, hnodup, htexts⟩ := hdecode none 100000 (by simp)
  refine ⟨m, r, m', shown, hnew, hrun, hshown, hlength, hnodup, fun text htext => ?_⟩
  obtain ⟨values, rfl, hvalues⟩ := htexts text htext
  have hx : values 0 = -2 := hvalues 0 (-2) rfl
  have hpairs : exampleText ["x", "y"] values
      = "x=" ++ Int.repr (-2) ++ ", " ++ ("y=" ++ (values 1).toInt.repr) := by
    simp [exampleText, hx]
  have hstart : "x=" ++ Int.repr (-2) ++ ", " ++ "y=" = "x=-2, y=" := by decide
  refine ⟨values 1, ?_⟩
  rw [hpairs, ← String.append_assoc, hstart]
  rfl

end Agreement

end BranchingTime
