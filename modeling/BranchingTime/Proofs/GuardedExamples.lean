import BranchingTime.Proofs.Continuations
import BranchingTime.Proofs.CubeStates
import BranchingTime.Proofs.GuardedEncoding

/-!
# Examples with guards

The way from the text of some cubes to the examples that are shown. Bits of a
cube are set by their index, once when the cube is read and again for every
state that is counted through, and a variable is a slice of the bits of a
state. What is left of the limit is never below zero.

No check fails, whatever the text is: a cube that was read has all bits of a
state.
-/

namespace BranchingTime.Guarded

/-! ## Definitions -/

section Lengths

variable {cs text text₀ text₁ text₂ text₃ : List Char}

/-- What is left after the end of a cube. -/
theorem length_lt_of_close (h : (Cube.skipSpaces cs).head? = some '>') :
    (Cube.skipSpaces cs).tail.length < cs.length := by
  obtain ⟨rest, hs⟩ := List.head?_eq_some_iff.mp h
  rw [hs]
  exact Cube.length_lt_of_skipSpaces hs

/-- What is left after a literal. -/
theorem length_lt_of_literal (h₀ : text₀.length ≤ (Cube.skipSpaces cs).length)
    (h₁ : text₁.length < text₀.length) (h₂ : text₂.length < text₁.length)
    (h₃ : text₃.length < text₂.length) : text₃.length < cs.length := by
  have := Cube.length_skipSpaces cs
  omega

theorem length_lt_of_further (h : text.length < text₀.length) (h₀ : text₀.length < cs.length) :
    text.length < cs.length :=
  Nat.lt_trans h h₀

end Lengths

/-- Reads the literals of a cube, and its end. Only bits of the cube are
set. -/
def readLiterals (width : Nat) (last? : Option Nat) (cube : Cube) (cs : List Char) :
    CheckedM CubeError (Cube × Cube.Rest cs) := do
  if h : (Cube.skipSpaces cs).head? = some '>' then
    return (cube, ⟨(Cube.skipSpaces cs).tail, length_lt_of_close h⟩)
  let ⟨text, h₀⟩ ← MonadExcept.ofExcept (Cube.readComma last? (Cube.skipSpaces cs))
  let (index, ⟨text, h₁⟩) ← MonadExcept.ofExcept (Cube.readIndex text)
  MonadExcept.ofExcept (Cube.checkIndex width last? index)
  let ⟨text, h₂⟩ ← MonadExcept.ofExcept (Cube.readChar ':' text)
  let (bit, ⟨text, h₃⟩) ← MonadExcept.ofExcept (Cube.readBit text)
  have hlen : text.length < cs.length := length_lt_of_literal h₀ h₁ h₂ h₃
  (ensure (index < cube.length) .outOfBounds : Except Fault Unit)
  let (cube, ⟨text, h₄⟩) ← readLiterals width (some index) (cube.set index (some bit)) text
  return (cube, ⟨text, length_lt_of_further h₄ hlen⟩)
termination_by cs.length

/-- Reads cubes until the text ends. -/
def readAll (width : Nat) (cs : List Char) : CheckedM CubeError (List Cube) := do
  match hs : Cube.skipSpaces cs with
  | c :: rest =>
    let ⟨text, h₁⟩ ← MonadExcept.ofExcept (Cube.readChar '<' (c :: rest))
    let (cube, ⟨text, h₂⟩) ← readLiterals width none (Cube.free width) text
    have : text.length < cs.length := by
      have := Cube.length_skipSpaces cs
      rw [hs] at this
      omega
    return cube :: (← readAll width text)
  | [] => return []
termination_by cs.length

/-- Reads a sequence of cubes over `width` bits. -/
def readCubes (width : Nat) (text : String) : CheckedM CubeError (List Cube) :=
  readAll width text.toList

/-- The free bits of a cube from bit `i` on. -/
def freeFrom (cube : Cube) (i : Nat) : Except Fault (List Nat) := do
  if i < cube.length then
    let known? ← item cube i
    let others ← freeFrom cube (i + 1)
    return if known?.isNone then i :: others else others
  else return []
termination_by cube.length - i

/-- Gives a bit a value. -/
def setBit (bits : List Bool) (i : Nat) (b : Bool) : Except Fault (List Bool) := do
  ensure (i < bits.length) .outOfBounds
  return bits.set i b

/-- Gives the free bits, last one first, the binary digits of `k`, lowest one
first. The others stay as they are. -/
def fillFree (free : List Nat) (k : Nat) (bits : List Bool) : Except Fault (List Bool) :=
  free.reverse.zipIdx.foldlM (fun bits p => setBit bits p.1 (k.testBit p.2)) bits

/-- The value of a variable in a state. -/
def fieldValue (bits : List Bool) (field : Field) : Except Fault Int16 := do
  return .ofNat (Encoding.ofBits (← slice bits field.offset (field.offset + field.width)))

/-- The example that a state is. -/
def render (e : Encoding) (bits : List Bool) : Except Fault String := do
  let shown ← (← variableFields e).mapM fun field =>
    return field.name ++ "=" ++ toString (← fieldValue bits field).toInt
  return ", ".intercalate shown

/-- The example where nothing is known. -/
def renderFree (e : Encoding) : Except Fault String := do
  return ", ".intercalate ((← variableFields e).map fun field => field.name ++ "=*")

/-- The examples of a cube from the `k`-th one on. Each state is written over
the one before. -/
def examplesFrom (e : Encoding) (free : List Nat) :
    Nat → Nat → List Bool → Except Fault (List String)
  | 0, _, _ => return []
  | count + 1, k, bits => do
    let bits ← fillFree free k bits
    return (← render e bits) :: (← examplesFrom e free count (k + 1) bits)

/-- The first `limit` examples of a cube. -/
def cubeExamples (e : Encoding) (cube : Cube) (limit : Nat) : Except Fault (List String) := do
  if cube.all Option.isNone then return [← renderFree e]
  let free ← freeFrom cube 0
  examplesFrom e free (min (Nat.pow 2 free.length) limit) 0 (cube.map (·.getD false))

/-- The first `limit` examples of a sequence of cubes. -/
def examples (e : Encoding) : Nat → List Cube → Except Fault (List String)
  | _, [] => return []
  | limit, cube :: cubes => do
    if limit = 0 then return []
    let found ← cubeExamples e cube limit
    ensure (found.length ≤ limit) .outOfBounds
    return found ++ (← examples e (limit - found.length) cubes)

/-! ## Reading cubes -/

theorem lt_of_checkIndex {width index : Nat} {last? : Option Nat} {u : Unit}
    (h : Cube.checkIndex width last? index = .ok u) : index < width := by
  unfold Cube.checkIndex at h
  split at h
  · cases h
  · next hlt => exact Nat.not_le.mp hlt

/-- The bits that literals are about were checked to be below the width. -/
theorem passes_readLiterals {width : Nat} (last? : Option Nat) {cube : Cube}
    (hcube : cube.length = width) (cs : List Char) :
    Passes (readLiterals width last? cube cs) (Cube.readLiterals width last? cube cs) := by
  induction hn : cs.length using Nat.strong_induction_on generalizing last? cube cs with
  | _ n ih =>
      subst hn
      have hskip := Cube.length_skipSpaces cs
      rw [readLiterals, Cube.readLiterals]
      by_cases h : (Cube.skipSpaces cs).head? = some '>'
      · rw [dif_pos h]
        obtain ⟨rest, hs⟩ := List.head?_eq_some_iff.mp h
        split
        · next rest' hs' =>
            simp only [hs']
            rfl
        · next hno => exact absurd hs (hno rest)
      · rw [dif_neg h]
        split
        · next rest hs => exact absurd (by rw [hs]; rfl) h
        refine passes_bind (passes_ofExcept _) fun ⟨text, h₀⟩ _ => ?_
        refine passes_bind (passes_ofExcept _) fun ⟨index, text₁, h₁⟩ _ => ?_
        refine passes_bind (passes_ofExcept _) fun _ hindex => ?_
        refine passes_bind (passes_ofExcept _) fun ⟨text₂, h₂⟩ _ => ?_
        refine passes_bind (passes_ofExcept _) fun ⟨bit, text₃, h₃⟩ _ => ?_
        refine passes_check (ensure_eq (hcube.symm ▸ lt_of_checkIndex hindex) _) ?_
        have hset : (cube.set index (some bit)).length = width := by rw [List.length_set, hcube]
        exact passes_bind (ih _ (by omega) (some index) hset text₃ rfl) fun _ _ => rfl

theorem passes_readAll (width : Nat) (cs : List Char) :
    Passes (readAll width cs) (Cube.readAll width cs) := by
  induction hn : cs.length using Nat.strong_induction_on generalizing cs with
  | _ n ih =>
      subst hn
      have hskip := Cube.length_skipSpaces cs
      rw [readAll, Cube.readAll]
      split
      · next c rest hs =>
          split
          · next hs' => cases hs.symm.trans hs'
          next c' rest' hs' =>
          cases hs.symm.trans hs'
          rw [hs] at hskip
          refine passes_bind (passes_ofExcept _) fun ⟨text, h₁⟩ _ => ?_
          refine passes_bind (passes_readLiterals none (by simp [Cube.free]) text)
            fun ⟨cube, text', h₂⟩ _ => ?_
          exact passes_bind (ih _ (by omega) text' rfl) fun _ _ => rfl
      · next hs =>
          split
          · rfl
          · next hs' => cases hs.symm.trans hs'

theorem passes_readCubes (width : Nat) (text : String) :
    Passes (readCubes width text) (BranchingTime.readCubes width text) :=
  passes_readAll width text.toList

/-! Cubes that are read have all their bits. -/

theorem length_of_readLiterals {width : Nat} {last? : Option Nat} {cube : Cube} {cs : List Char}
    {r : Cube × Cube.Rest cs} (h : Cube.readLiterals width last? cube cs = .ok r) :
    r.1.length = cube.length := by
  induction hn : cs.length using Nat.strong_induction_on generalizing last? cube cs with
  | _ n ih =>
      subst hn
      rw [Cube.readLiterals] at h
      split at h
      · obtain rfl := Except.ok.inj h
        rfl
      have hskip := Cube.length_skipSpaces cs
      obtain ⟨⟨text, h₀⟩, -, h⟩ := exists_of_bind_eq_ok h
      obtain ⟨⟨index, text₁, h₁⟩, -, h⟩ := exists_of_bind_eq_ok h
      obtain ⟨-, -, h⟩ := exists_of_bind_eq_ok h
      obtain ⟨⟨text₂, h₂⟩, -, h⟩ := exists_of_bind_eq_ok h
      obtain ⟨⟨bit, text₃, h₃⟩, -, h⟩ := exists_of_bind_eq_ok h
      obtain ⟨r', hrest, h⟩ := exists_of_bind_eq_ok h
      obtain rfl := Except.ok.inj h
      exact (ih _ (by omega) hrest rfl).trans (List.length_set ..)

theorem length_of_mem_readAll {width : Nat} {cs : List Char} {cubes : List Cube} {cube : Cube}
    (h : Cube.readAll width cs = .ok cubes) (hmem : cube ∈ cubes) : cube.length = width := by
  induction hn : cs.length using Nat.strong_induction_on generalizing cs cubes with
  | _ n ih =>
      subst hn
      rw [Cube.readAll] at h
      split at h
      · obtain rfl := Except.ok.inj h
        cases hmem
      next c rest hs =>
      have hskip := Cube.length_skipSpaces cs
      rw [hs] at hskip
      obtain ⟨⟨text, h₁⟩, -, h⟩ := exists_of_bind_eq_ok h
      obtain ⟨⟨first, text', h₂⟩, hfirst, h⟩ := exists_of_bind_eq_ok h
      obtain ⟨others, hothers, h⟩ := exists_of_bind_eq_ok h
      obtain rfl := Except.ok.inj h
      rcases List.mem_cons.mp hmem with rfl | hmem
      · exact (length_of_readLiterals hfirst).trans (by simp [Cube.free])
      · exact ih _ (by omega) hothers hmem rfl

/-! ## Examples -/

variable {e : Encoding} {cube rest : Cube} {bits : List Bool} {i k : Nat}

/-- Where the free bits of a cube are that starts at bit `i`. -/
def freeAt : Nat → Cube → List Nat
  | _, [] => []
  | i, known? :: rest => if known?.isNone then i :: freeAt (i + 1) rest else freeAt (i + 1) rest

theorem freeFrom_eq (h : cube.drop i = rest) : freeFrom cube i = .ok (freeAt i rest) := by
  induction rest generalizing i with
  | nil =>
      rw [freeFrom, if_neg (Nat.not_lt.mpr (List.drop_eq_nil_iff.mp h))]
      rfl
  | cons known? rest ih =>
      rw [freeFrom, if_pos (lt_of_drop_eq_cons h), item_eq h, ok_bind, ih (drop_succ h), ok_bind]
      rfl

theorem length_freeAt (i : Nat) (cube : Cube) : (freeAt i cube).length = cube.count none := by
  induction cube generalizing i with
  | nil => rfl
  | cons known? cube ih =>
      cases known? with
      | none => rw [List.count_cons_self, ← ih (i + 1)]; rfl
      | some b => rw [List.count_cons_of_ne (by simp), ← ih (i + 1)]; rfl

theorem fillReversed_concat (cube : Cube) (known? : Option Bool) (k : Nat) :
    Cube.fillReversed (cube ++ [known?]) k
      = Cube.fillReversed cube k ++ [known?.getD (k.testBit (cube.count none))] := by
  induction cube generalizing k with
  | nil =>
      cases known? with
      | none => simp [Cube.fillReversed, Nat.testBit_zero, beq_eq_decide]
      | some b => rfl
  | cons first cube ih =>
      cases first with
      | none =>
          rw [List.count_cons_self, Nat.testBit_succ, List.cons_append, Cube.fillReversed, ih]
          rfl
      | some b =>
          rw [List.count_cons_of_ne (by simp), List.cons_append, Cube.fillReversed, ih]
          rfl

/-- A free bit gets the digit that has as many lower ones as there are free
bits behind it. -/
theorem fill_cons (known? : Option Bool) (rest : Cube) (k : Nat) :
    Cube.fill (known? :: rest) k
      = known?.getD (k.testBit (rest.count none)) :: rest.fill k := by
  rw [Cube.fill, List.reverse_cons, fillReversed_concat, List.count_reverse, List.reverse_append]
  rfl

/-- The first free bit is set last. -/
theorem fillFree_cons (free : List Nat) : fillFree (i :: free) k bits
    = fillFree free k bits >>= fun bits => setBit bits i (k.testBit free.length) := by
  rw [fillFree, List.reverse_cons, List.zipIdx_append, List.foldlM_append, List.length_reverse,
    Nat.zero_add]
  refine bind_congr fun bits => ?_
  rw [List.zipIdx_singleton, List.foldlM_cons]
  exact bind_pure _

/-- The free bits of a part of a cube are set, and no other ones. -/
theorem fillFree_eq (h : Cube.Admits rest (bits.drop i)) :
    fillFree (freeAt i rest) k bits = .ok (bits.take i ++ rest.fill k) := by
  induction rest generalizing i with
  | nil =>
      have hi := List.drop_eq_nil_iff.mp (List.forall₂_nil_left_iff.mp h)
      rw [List.take_of_length_le hi]
      exact congrArg Except.ok (List.append_nil bits).symm
  | cons known? rest ih =>
      obtain ⟨b, back, hb, hback, hdrop⟩ := List.forall₂_cons_left_iff.mp h
      have hnext := ih (i := i + 1) (by rwa [drop_succ hdrop])
      have htake : bits.take (i + 1) = bits.take i ++ [b] := by
        rw [List.take_add_one, ← List.head?_drop, hdrop]
        rfl
      rw [htake, List.append_assoc] at hnext
      rw [fill_cons]
      -- a bit that is known stays as it is; a free one is set when those behind it are
      rcases hb with rfl | rfl
      · have hlength : (bits.take i).length = i :=
          List.length_take_of_le (lt_of_drop_eq_cons hdrop).le
        have hlt : i < (bits.take i ++ ([b] ++ Cube.fill rest k)).length := by simp [hlength]
        show fillFree (i :: freeAt (i + 1) rest) k bits = _
        rw [fillFree_cons, hnext, ok_bind, length_freeAt, setBit, ensure_bind hlt,
          List.set_append_right _ _ hlength.le, hlength, Nat.sub_self]
        rfl
      · exact hnext

theorem fieldValue_eq {field : Field} (hfield : field ∈ e.variableFields)
    (h : bits.length = e.halfWidth) :
    fieldValue bits field = .ok (Encoding.fieldValue field bits) := by
  have hfits := (fits_of_mem_variableFields hfield).2
  rw [fieldValue, slice, ensure_bind ⟨Nat.le_add_right .., h ▸ hfits⟩, Nat.add_sub_cancel_left]
  rfl

/-- A state has all the bits of every variable. -/
theorem render_eq (h : bits.length = e.halfWidth) : render e bits = .ok (e.render bits) := by
  have hshown : e.variableFields.mapM (fun field =>
      return field.name ++ "=" ++ toString (← fieldValue bits field).toInt)
      = .ok (e.variableFields.map fun field =>
        field.name ++ "=" ++ toString (Encoding.fieldValue field bits).toInt) :=
    mapM_eq_map fun field hfield => by rw [fieldValue_eq hfield h]; rfl
  rw [render, variableFields_eq, ok_bind, hshown]
  rfl

theorem renderFree_eq : renderFree e = .ok e.renderFree := by
  rw [renderFree, variableFields_eq]
  rfl

/-- One state after the other is shown. -/
theorem examplesFrom_eq (hcube : cube.length = e.halfWidth) (h : Cube.Admits cube bits)
    (count : Nat) : examplesFrom e (freeAt 0 cube) count k bits
      = .ok ((List.range' k count).map fun k => e.render (cube.fill k)) := by
  induction count generalizing k bits with
  | zero => rfl
  | succ count ih =>
      have hadmits := Cube.admits_fill cube k
      have hfill : fillFree (freeAt 0 cube) k bits = .ok (cube.fill k) := fillFree_eq h
      rw [examplesFrom, hfill, ok_bind, render_eq (hadmits.length_eq.symm.trans hcube), ok_bind,
        ih hadmits]
      rfl

theorem cubeExamples_eq (h : cube.length = e.halfWidth) (limit : Nat) :
    cubeExamples e cube limit = .ok (e.cubeExamples cube limit) := by
  unfold cubeExamples Encoding.cubeExamples
  split
  · rw [renderFree_eq]
    rfl
  · have hstart : Cube.Admits cube (cube.map (·.getD false)) := by
      refine List.forall₂_map_right_iff.mpr (List.forall₂_same.mpr fun known? _ => ?_)
      cases known? with
      | none => exact .inl rfl
      | some b => exact .inr rfl
    rw [freeFrom_eq (Eq.refl (cube.drop 0)), ok_bind]
    rw [List.drop_zero, length_freeAt, examplesFrom_eq h hstart, Cube.states, List.map_map,
      ← List.range_eq_range']
    rfl

theorem length_cubeExamples_le {limit : Nat} (hlimit : limit ≠ 0) :
    (e.cubeExamples cube limit).length ≤ limit := by
  unfold Encoding.cubeExamples
  split
  · exact Nat.one_le_iff_ne_zero.mpr hlimit
  · rw [List.length_map, Cube.states, List.length_map, List.length_range]
    exact Nat.min_le_right ..

theorem examples_eq (limit : Nat) {cubes : List Cube}
    (h : ∀ cube ∈ cubes, cube.length = e.halfWidth) :
    examples e limit cubes = .ok (e.examples limit cubes) := by
  induction cubes generalizing limit with
  | nil => rfl
  | cons cube cubes ih =>
      obtain ⟨hcube, hcubes⟩ := List.forall_mem_cons.mp h
      rw [examples, Encoding.examples]
      split
      · rfl
      · next hlimit =>
          rw [cubeExamples_eq hcube, ok_bind, ensure_bind (length_cubeExamples_le hlimit),
            ih _ hcubes]
          rfl

end BranchingTime.Guarded
