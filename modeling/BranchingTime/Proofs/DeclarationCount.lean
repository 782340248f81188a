import Mathlib.Algebra.GroupWithZero.Nat
import Mathlib.Algebra.Order.BigOperators.Group.List
import Mathlib.Algebra.Order.Group.Nat
import BranchingTime.Example.Cube
import BranchingTime.Proofs.Reparsing
import BranchingTime.State.Encoding

/-!
# How many variables a text declares

The names that a text declares are different from each other. There are only
so many of four characters or fewer, and to declare any other takes nine
characters. So the bits of a state can be numbered with 64 bits, unless a text
has `2 ^ 63` characters (`Program.halfWidth_le`).
-/

namespace BranchingTime

/-! ## The room of a text -/

namespace Text

/-- How much room pieces of a text take, with what is between them. -/
def room (l : List (List Char)) : Nat := (l.map fun p => p.length + 1).sum

theorem room_pieces (sep : Char) (cs : List Char) : room (pieces sep cs) = cs.length + 1 := by
  induction cs with
  | nil => rfl
  | cons c cs ih =>
      rw [pieces]
      cases hp : pieces sep cs with
      | nil =>
          rw [hp] at ih
          simp [room] at ih
      | cons p ps =>
          rw [hp] at ih
          simp only [room, List.map_cons, List.sum_cons] at ih
          show room (if c = sep then [] :: p :: ps else (c :: p) :: ps) = _
          split <;> simp only [room, List.map_cons, List.sum_cons, List.length_cons,
            List.length_nil] <;> omega

theorem room_linesOfPieces (l : List (List Char)) : room (linesOfPieces l) ≤ room l := by
  fun_induction linesOfPieces l with
  | case1 => exact Nat.le_refl _
  | case2 => simp [room]
  | case3 => exact Nat.le_refl _
  | case4 p ps h1 h2 ih =>
      have hdrop : (dropReturn p).length ≤ p.length := by
        unfold dropReturn
        split
        · simp
        · exact Nat.le_refl _
      simp only [room, List.map_cons, List.sum_cons] at ih ⊢
      omega

theorem length_intercalate_le (c : Char) (l : List (List Char)) :
    ([c].intercalate l).length ≤ room l := by
  induction l with
  | nil => simp [room]
  | cons p l ih =>
      cases l with
      | nil => simp [room]
      | cons q l =>
          simp only [room, List.map_cons, List.sum_cons] at ih ⊢
          rw [List.intercalate_cons_cons]
          simp only [List.length_append, List.length_singleton]
          omega

end Text

namespace Program

open Text

/-! ## Short names -/

/-- The characters that a name may have, and some more. -/
def alphabet : List Char := (List.range 128).map Char.ofNat

/-- All texts of that many characters. -/
def words : Nat → List (List Char)
  | 0 => [[]]
  | k + 1 => alphabet.flatMap fun c => (words k).map (c :: ·)

theorem length_words (k : Nat) : (words k).length = 128 ^ k := by
  induction k with
  | zero => rfl
  | succ k ih =>
      have halphabet : alphabet.length = 128 := by
        rw [alphabet, List.length_map, List.length_range]
      simp only [words, List.length_flatMap, List.length_map, ih, List.map_const',
        List.sum_replicate, halphabet, Nat.nsmul_eq_mul, Nat.pow_succ']

theorem mem_alphabet {c : Char} (h : isWordChar c = true) : c ∈ alphabet := by
  have hlt : c.toNat < 128 := by
    rw [Expr.isWordChar_iff, Expr.isAlpha_iff, Expr.isDigit_iff] at h
    have hcode : _ ∨ c.toNat = 95 := h.imp_right (congrArg Char.toNat)
    omega
  exact List.mem_map.mpr ⟨c.toNat, List.mem_range.mpr hlt, Char.ofNat_toNat c⟩

theorem mem_words {cs : List Char} (h : ∀ c ∈ cs, isWordChar c = true) : cs ∈ words cs.length := by
  induction cs with
  | nil => exact List.mem_singleton_self _
  | cons c cs ih =>
      rw [List.forall_mem_cons] at h
      exact List.mem_flatMap.mpr
        ⟨c, mem_alphabet h.1, List.mem_map_of_mem (ih h.2)⟩

/-- There are not many short names. -/
theorem length_filter_short_le {names : List String} (hnodup : names.Nodup)
    (h : ∀ x ∈ names, isIdentifier x.toList = true) :
    (names.filter fun x => x.length ≤ 4).length ≤ 270549121 := by
  have hwords : ((List.range 5).flatMap words).length = 270549121 := by
    simp [length_words, List.range_succ]
  have hsubset : (names.filter fun x => x.length ≤ 4).map String.toList
      ⊆ (List.range 5).flatMap words := by
    intro cs hcs
    obtain ⟨x, hx, rfl⟩ := List.mem_map.mp hcs
    obtain ⟨hmem, hshort⟩ := List.mem_filter.mp hx
    have hlength : x.toList.length < 5 := by
      rw [String.length_toList]
      exact Nat.lt_succ_of_le (of_decide_eq_true hshort)
    exact List.mem_flatMap.mpr ⟨x.toList.length, List.mem_range.mpr hlength,
      mem_words fun c hc => isWordChar_of_isIdentifier (h x hmem) hc⟩
  have hdistinct := (hnodup.filter fun x => x.length ≤ 4).map
    fun _ _ heq => String.toList_injective heq
  have hle := List.Nodup.length_le_of_subset hdistinct hsubset
  rwa [List.length_map, hwords] at hle

/-! ## Long names -/

/-- A declaration of any other name takes nine characters. -/
theorem length_names_mul_le (names : List String) :
    9 * names.length ≤ (names.map fun x => x.length + 4).sum
      + 9 * (names.filter fun x => x.length ≤ 4).length := by
  induction names with
  | nil => exact Nat.zero_le _
  | cons x names ih =>
      rw [List.length_cons, List.map_cons, List.sum_cons, List.filter_cons]
      split
      · rw [List.length_cons]
        omega
      · next hlong =>
          rw [decide_eq_true_eq] at hlong
          omega

/-! ## The length of a text -/

/-- Without its comments a text gets no longer. -/
theorem length_intercalate_dropComment (text : List Char) :
    (['\n'].intercalate ((lines text).map dropComment)).length ≤ text.length + 1 := by
  have hlines : room (lines text) ≤ text.length + 1 :=
    (room_linesOfPieces _).trans (room_pieces '\n' text).le
  have hroom : room ((lines text).map dropComment) ≤ room (lines text) := by
    rw [room, List.map_map]
    exact List.sum_le_sum fun p _ => Nat.add_le_add_right (dropComment_isPrefix p).length_le 1
  exact (length_intercalate_le '\n' _).trans (hroom.trans hlines)

variable {text : String} {p : Program}

theorem size_le_length (h : parse text = .ok p) : p.size ≤ text.length + 1 := by
  have hsize := size_ofParts_parts_le text.toList
  have hlength := length_intercalate_dropComment text.toList
  rw [← (parse_eq_ok_iff.mp h).1, bare, countP_flatMap_isolateBrace] at hsize
  rw [String.length_toList] at hlength
  exact hsize.trans (List.countP_le_length.trans hlength)

/-- The bits of a state can be numbered. -/
theorem halfWidth_le (h : parse text = .ok p) (hshort : text.length < 2 ^ 63) :
    Encoding.halfWidth ⟨p.names⟩ ≤ Cube.maxIndex := by
  have hnames := length_names_mul_le p.names
  have hfew := length_filter_short_le (parse_eq_ok_iff.mp h).2.nodup (isIdentifier_of_mem_names h)
  have hsize := size_le_length h
  rw [size_eq] at hsize
  have hmax : Cube.maxIndex = 18446744073709551615 := rfl
  have hhalf : Encoding.halfWidth ⟨p.names⟩ = 8 + 16 * p.names.length := rfl
  omega

end Program

end BranchingTime
