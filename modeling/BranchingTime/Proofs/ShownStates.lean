import Std.Data.String.ToInt
import Mathlib.Data.Set.Card
import BranchingTime.Proofs.CubeStates
import BranchingTime.Proofs.StateBits

/-!
# The states that are shown

The bits of a state are its values, and different values have different texts
(`exampleText_injective`). So where a diagram denotes states with one counter,
its text is decoded to the examples of their values, each of them once
(`StatesAt.decode_eq`, `StatesAt.nodup_witnessValues`). It is enough to write as many
cubes as there are examples to show.
-/

namespace BranchingTime

open Manager

/-! ## The texts of examples -/

/-- The example of some values: `name=value` for every variable, in the
order of their declaration. -/
def exampleText (names : List String) (values : Fin names.length → Int16) : String :=
  ", ".intercalate (List.ofFn fun i => names.get i ++ "=" ++ toString (values i).toInt)

theorem comma_notMem_toString (x : Int) : ',' ∉ (toString x).toList := by
  have hnat (n : Nat) : ',' ∉ n.repr.toList := by
    intro hmem
    rw [Nat.repr_eq_ofList_toDigits, String.toList_ofList] at hmem
    have := Nat.isDigit_of_mem_toDigits (by decide) (by decide) hmem
    cases this
  rw [Int.toString_eq_repr, Int.repr_eq_if]
  split
  · exact hnat _
  · rw [String.toList_append, List.mem_append, not_or]
    exact ⟨by decide, hnat _⟩

/-- A number ends where a comma comes, or the text ends. -/
theorem toString_append_inj {x y : Int} {rest rest' : List Char}
    (hrest : ∀ c ∈ rest.head?, c = ',') (hrest' : ∀ c ∈ rest'.head?, c = ',')
    (h : (toString x).toList ++ rest = (toString y).toList ++ rest') : x = y ∧ rest = rest' := by
  have htake : ∀ (z : Int) {rest : List Char}, (∀ c ∈ rest.head?, c = ',') →
      ((toString z).toList ++ rest).takeWhile (· ≠ ',') = (toString z).toList := by
    intro z rest hrest
    have hdigits : ∀ c ∈ (toString z).toList, decide (c ≠ ',') = true := by
      intro c hc
      refine decide_eq_true fun heq => ?_
      subst heq
      exact comma_notMem_toString z hc
    rw [List.takeWhile_append_of_pos hdigits]
    cases rest with
    | nil => simp
    | cons c rest => simp [hrest c rfl]
  have hdigits : (toString x).toList = (toString y).toList := by
    have := congrArg (List.takeWhile (· ≠ ',')) h
    rwa [htake x hrest, htake y hrest'] at this
  rw [hdigits] at h
  refine ⟨?_, List.append_cancel_left h⟩
  have := String.toList_injective hdigits
  rwa [Int.toString_eq_repr, Int.toString_eq_repr, Int.repr_inj] at this

/-- The text of names with numbers. -/
def pairsText (l : List (String × Int)) : String :=
  ", ".intercalate (l.map fun x => x.1 ++ "=" ++ toString x.2)

/-- What comes after the first pair. -/
def afterFirst (l : List (String × Int)) : List Char :=
  if l.isEmpty then [] else ", ".toList ++ (pairsText l).toList

theorem toList_pairsText_cons (x : String × Int) (l : List (String × Int)) :
    (pairsText (x :: l)).toList
      = x.1.toList ++ ("=".toList ++ ((toString x.2).toList ++ afterFirst l)) := by
  cases l with
  | nil => simp [pairsText, afterFirst]
  | cons y l =>
      rw [pairsText, List.map_cons, List.map_cons, String.intercalate_cons_cons]
      simp only [String.toList_append, List.append_assoc]
      rfl

theorem head?_afterFirst (l : List (String × Int)) : ∀ c ∈ (afterFirst l).head?, c = ',' := by
  cases l with
  | nil => simp [afterFirst]
  | cons x l =>
      intro c hc
      exact (Option.some.inj hc).symm

/-- Pairs with the same names have the same text only if they are equal. -/
theorem eq_of_pairsText_eq {l l' : List (String × Int)} (hnames : l.map Prod.fst = l'.map Prod.fst)
    (h : pairsText l = pairsText l') : l = l' := by
  induction l generalizing l' with
  | nil => exact (List.map_eq_nil_iff.mp hnames.symm).symm
  | cons x l ih =>
      obtain ⟨name, value⟩ := x
      cases l' with
      | nil => cases hnames
      | cons x' l' =>
          obtain ⟨name', value'⟩ := x'
          obtain ⟨hname, hothers⟩ := List.cons.inj hnames
          obtain rfl : name = name' := hname
          have hchars := congrArg String.toList h
          rw [toList_pairsText_cons, toList_pairsText_cons] at hchars
          obtain ⟨rfl, hafter⟩ := toString_append_inj (head?_afterFirst l) (head?_afterFirst l')
            (List.append_cancel_left (List.append_cancel_left hchars))
          refine congrArg _ (ih hothers ?_)
          cases l with
          | nil => rw [List.map_eq_nil_iff.mp hothers.symm]
          | cons y l =>
              cases l' with
              | nil => cases hothers
              | cons y' l' => exact String.toList_injective (List.append_cancel_left hafter)

/-- Different values have different texts. -/
theorem exampleText_injective (names : List String) : Function.Injective (exampleText names) := by
  intro values values' h
  let pairs (values : Fin names.length → Int16) : List (String × Int) :=
    List.ofFn fun i => (names.get i, (values i).toInt)
  have htext (values : Fin names.length → Int16) :
      exampleText names values = pairsText (pairs values) := by
    rw [exampleText, pairsText, List.map_ofFn]
    rfl
  have hnames (values : Fin names.length → Int16) : (pairs values).map Prod.fst = names := by
    rw [List.map_ofFn]
    exact List.ofFn_get names
  rw [htext, htext] at h
  have hpairs := List.ofFn_injective (eq_of_pairsText_eq ((hnames _).trans (hnames _).symm) h)
  funext i
  exact Int16.toInt_inj.mp (Prod.mk.inj (congrFun hpairs i)).2

/-! ## The states of lists of bits -/

namespace Encoding

variable (e : Encoding) {bits bits' : List Bool}

/-- The state of a list of bits. -/
def stateOfList (bits : List Bool) : State e.names.length :=
  e.stateOf (e.halfOf .current (.ofBits bits))

theorem ofFn_halfOf_ofBits (h : bits.length = e.halfWidth) :
    List.ofFn (e.halfOf .current (.ofBits bits)) = bits := by
  rw [ofFn_halfOf]
  refine List.ext_getElem (by simp [h]) fun i hi hi' => ?_
  simp [Assignment.ofBits, base, hi']

/-- The example that is made of the bits is the one of their values. -/
theorem render_eq (h : bits.length = e.halfWidth) :
    e.render bits = exampleText e.names (e.stateOfList bits).values := by
  rw [render, exampleText]
  congr 1
  refine List.ext_getElem (by simp) fun i hi hi' => ?_
  have hlt : i < e.names.length := by simpa using hi
  have hname : (e.variableFields.get ⟨i, by simpa using hlt⟩).name = e.names.get ⟨i, hlt⟩ :=
    congrArg Field.name (e.variableFields_get ⟨i, hlt⟩)
  have hvalue : (e.stateOfList bits).values ⟨i, hlt⟩
      = fieldValue (e.variableFields.get ⟨i, by simpa using hlt⟩) bits :=
    congrArg (fieldValue _) (e.ofFn_halfOf_ofBits h)
  rw [List.getElem_map, List.getElem_ofFn]
  show (e.variableFields.get _).name ++ "="
    ++ toString (fieldValue (e.variableFields.get _) bits).toInt = _
  rw [hname, ← hvalue]

theorem stateOfList_injOn (h : bits.length = e.halfWidth) (h' : bits'.length = e.halfWidth)
    (heq : e.stateOfList bits = e.stateOfList bits') : bits = bits' := by
  rw [← e.ofFn_halfOf_ofBits h, ← e.ofFn_halfOf_ofBits h', e.stateOf_injective heq]

theorem exists_stateOfList (s : State e.names.length) :
    ∃ bits, bits.length = e.halfWidth ∧ e.stateOfList bits = s := by
  refine ⟨List.ofFn (e.bitsOfState s), List.length_ofFn, ?_⟩
  have hlength : (List.ofFn (e.bitsOfState s)).length = e.halfWidth := List.length_ofFn
  rw [stateOfList, List.ofFn_injective (e.ofFn_halfOf_ofBits hlength), stateOf_bitsOfState]

end Encoding

/-! ## Witnesses of states -/

/-- The values of the states that a witness stands for, in order. -/
def Encoding.witnessValues (e : Encoding) (m : Manager) (witness : Handle) :
    List (Fin e.names.length → Int16) :=
  (m.allStates e.halfWidth witness).map fun bits => (e.stateOfList bits).values

/-- A witness denotes the states with the counter `pc` and one of the given
values. -/
structure StatesAt (e : Encoding) (m : Manager) (witness : Handle) (pc : Fin 256)
    (shown : Set (Fin e.names.length → Int16)) : Prop where
  wellFormed : m.WellFormed
  denotes : m.Denotes witness fun a => (e.stateOf (e.halfOf .current a)).pc = pc
    ∧ (e.stateOf (e.halfOf .current a)).values ∈ shown

namespace StatesAt

variable {e : Encoding} {m : Manager} {witness : Handle} {pc : Fin 256}
  {shown : Set (Fin e.names.length → Int16)}

theorem dependsOn (h : StatesAt e m witness pc shown) :
    DependsOn (m.eval witness) {v | v ≤ e.halfWidth} := by
  intro a b hab
  have hhalf : e.halfOf .current a = e.halfOf .current b :=
    e.halfOf_eq_iff.mpr fun v hv => hab v (e.vars_current_le hv)
  rw [Bool.eq_iff_iff, h.denotes.eval_iff, h.denotes.eval_iff, hhalf]

theorem mem_allStates (h : StatesAt e m witness pc shown) {bits : List Bool} :
    bits ∈ m.allStates e.halfWidth witness ↔ bits.length = e.halfWidth
      ∧ (e.stateOfList bits).pc = pc ∧ (e.stateOfList bits).values ∈ shown := by
  rw [h.wellFormed.toReduced.mem_allStates h.denotes.valid h.dependsOn, h.denotes.eval_iff]
  rfl

theorem mem_witnessValues (h : StatesAt e m witness pc shown)
    {values : Fin e.names.length → Int16} :
    values ∈ e.witnessValues m witness ↔ values ∈ shown := by
  rw [Encoding.witnessValues, List.mem_map]
  constructor
  · rintro ⟨bits, hbits, rfl⟩
    exact (h.mem_allStates.mp hbits).2.2
  · intro hshown
    obtain ⟨bits, hlength, hstate⟩ := e.exists_stateOfList ⟨pc, values⟩
    refine ⟨bits, h.mem_allStates.mpr ⟨hlength, ?_⟩, by rw [hstate]⟩
    rw [hstate]
    exact ⟨rfl, hshown⟩

theorem nodup_witnessValues (h : StatesAt e m witness pc shown) :
    (e.witnessValues m witness).Nodup := by
  refine (h.wellFormed.toReduced.nodup_allStates h.denotes.valid h.dependsOn).map_on ?_
  intro bits hbits bits' hbits' hvalues
  obtain ⟨hlength, hpc, -⟩ := h.mem_allStates.mp hbits
  obtain ⟨hlength', hpc', -⟩ := h.mem_allStates.mp hbits'
  exact e.stateOfList_injOn hlength hlength' (State.ext (hpc.trans hpc'.symm) hvalues)

theorem ncard_eq (h : StatesAt e m witness pc shown) :
    shown.ncard = (e.witnessValues m witness).length := by
  have hset : shown = ↑(e.witnessValues m witness).toFinset := by
    ext values
    simp [h.mem_witnessValues]
  rw [hset, Set.ncard_coe_finset, List.toFinset_card_of_nodup h.nodup_witnessValues]

/-- Every path decides something: not all states have the same counter. -/
theorem path_ne_nil (h : StatesAt e m witness pc shown) {p : Literals} (hp : p ∈ m.paths witness) :
    p ≠ [] := by
  rintro rfl
  obtain ⟨bits, -, hstate⟩ := e.exists_stateOfList ⟨pc + 1, fun _ => 0⟩
  have htrue := (h.wellFormed.toReduced.eval_iff_meets h.denotes.valid (.ofBits bits)).mpr
    ⟨[], hp, by simp [Assignment.Meets]⟩
  have hpc : (e.stateOfList bits).pc = pc := ((h.denotes.eval_iff _).mp htrue).1
  rw [hstate] at hpc
  exact absurd hpc (by simp)

/-- What the text of the cubes is decoded to, if it has as many of them as
there are examples to show. -/
theorem decode_eq (h : StatesAt e m witness pc shown) (hwidth : e.halfWidth ≤ Cube.maxIndex)
    (limit? : Option Nat) (limit : Nat) (hlimit : ∀ count ∈ limit?, limit ≤ count) :
    e.decode (m.cubesText limit? witness) limit
      = .ok (((e.witnessValues m witness).map (exampleText e.names)).take limit) := by
  have hr := h.wellFormed.toReduced
  have hread := hr.readCubes_cubesText_eq h.denotes.valid h.dependsOn hwidth limit?
  have hknown : ∀ cube ∈ (m.paths witness).map (Cube.ofLiterals e.halfWidth),
      cube.all Option.isNone = false := by
    intro cube hcube
    obtain ⟨p, hp, rfl⟩ := List.mem_map.mp hcube
    obtain ⟨l, hl⟩ := List.exists_mem_of_ne_nil p (h.path_ne_nil hp)
    exact (hr.named h.denotes.valid h.dependsOn hp).known hl
  have hstates : (m.allStates e.halfWidth witness).map e.render
      = (e.witnessValues m witness).map (exampleText e.names) := by
    rw [Encoding.witnessValues, List.map_map]
    exact List.map_congr_left fun bits hbits => e.render_eq (h.mem_allStates.mp hbits).1
  have hexamples := e.examples_eq_take_of_le hknown hlimit
  rw [List.flatMap_map] at hexamples
  rw [Encoding.decode, hread, ← hstates, Manager.allStates, ← hexamples]
  cases limit? with
  | none => rfl
  | some count => rw [Option.elim_some, Option.elim_some, List.map_take]

end StatesAt

end BranchingTime
