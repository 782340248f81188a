import BranchingTime.Diagram.Path
import BranchingTime.Example.Cube

/-!
# Cubes are read as they are written

The text of a list of cubes is read back as those cubes, whatever their
literals are, as long as they ascend and name bits that exist
(`readCubes_cubeTexts`). A bit index is followed by a colon, so no digit of
what comes after belongs to it.
-/

namespace BranchingTime

namespace Cube

/-- The cube with the bit of a literal known. -/
def put (c : Cube) (l : Int) : Cube := c.set (l.natAbs - 1) (some (decide (0 < l)))

/-- The cube over `width` bits with the bits of the literals known. -/
def ofLiterals (width : Nat) (p : Literals) : Cube := p.foldl put (free width)

/-- The literals ascend, and they are about bits of a cube. -/
structure Named (width : Nat) (p : Literals) : Prop where
  sorted : (p.map Int.natAbs).Pairwise (· < ·)
  pos : ∀ l ∈ p, 1 ≤ l.natAbs
  le : ∀ l ∈ p, l.natAbs ≤ width

variable {α : Type} {width n : Nat} {last? : Option Nat} {cube : Cube} {l : Int} {p : Literals}
  {cs rest : List Char}

theorem Named.tail (h : Named width (l :: p)) : Named width p where
  sorted := (List.pairwise_cons.mp h.sorted).2
  pos := fun l' hl' => h.pos l' (List.mem_cons_of_mem l hl')
  le := fun l' hl' => h.le l' (List.mem_cons_of_mem l hl')

/-! ## Single steps of the reader -/

/-- A step of the reader gave `a`, and left `rest`. -/
def Gives (x : Except CubeError (α × Rest cs)) (a : α) (rest : List Char) : Prop :=
  ∃ h, x = .ok (a, ⟨rest, h⟩)

theorem bind_of_eq_ok {ε β : Type} {x : Except ε α} {a : α} (h : x = .ok a) (f : α → Except ε β) :
    (x >>= f) = f a := by
  rw [h]
  rfl

theorem readChar_cons (c : Char) (rest : List Char) :
    ∃ h, readChar c (c :: rest) = .ok ⟨rest, h⟩ :=
  ⟨by simp, by simp [readChar]⟩

theorem numeralValue_toDigits (n : Nat) : Text.numeralValue (Nat.toDigits 10 n) = n := by
  have := Nat.ofDigitChars_ten_toDigits (n := n)
  rwa [Nat.ofDigitChars_eq_foldl] at this

theorem readComma_some (last : Nat) {text : List Char} (hskip : skipSpaces rest = text) :
    ∃ h, readComma (some last) (',' :: rest) = .ok ⟨text, h⟩ := by
  subst hskip
  have hlength := length_skipSpaces rest
  obtain ⟨h, hcomma⟩ := readChar_cons ',' rest
  exact ⟨by rw [List.length_cons]; omega, bind_of_eq_ok hcomma _⟩

theorem readIndex_gives (hn : n ≤ maxIndex) (rest : List Char) :
    Gives (readIndex (Nat.toDigits 10 n ++ ':' :: rest)) n (':' :: rest) := by
  have hdigits : ∀ c ∈ Nat.toDigits 10 n, c.isDigit = true := fun c hc =>
    Nat.isDigit_of_mem_toDigits (by decide) (by decide) hc
  have hvalue := numeralValue_toDigits n
  cases hd : Nat.toDigits 10 n with
  | nil => exact absurd hd Nat.toDigits_ne_nil
  | cons c ds =>
      rw [hd] at hdigits hvalue
      have hds : ∀ c ∈ ds, c.isDigit = true := fun c hc => hdigits c (List.mem_cons_of_mem _ hc)
      have htake : (ds ++ ':' :: rest).takeWhile Char.isDigit = ds := by
        rw [List.takeWhile_append_of_pos hds]
        simp
      have hdrop : (ds ++ ':' :: rest).dropWhile Char.isDigit = ':' :: rest := by
        rw [List.dropWhile_append_of_pos hds]
        simp
      refine ⟨by simp only [List.cons_append, List.length_cons, List.length_append]; omega, ?_⟩
      simp only [List.cons_append, readIndex, hdigits c List.mem_cons_self, if_true, htake, hdrop,
        hvalue, hn]

theorem readBit_gives (b : Bool) (rest : List Char) :
    Gives (readBit ((if b then '1' else '0') :: rest)) b rest := by
  refine ⟨by simp, ?_⟩
  cases b <;> simp [readBit]

theorem checkIndex_eq_ok (hwidth : n < width) (hlast : last?.any (n ≤ ·) = false) :
    checkIndex width last? n = .ok () := by
  simp [checkIndex, Nat.not_le.mpr hwidth, hlast]

theorem skipSpaces_cons {c : Char} (hc : c ≠ ' ') : skipSpaces (c :: rest) = c :: rest := by
  simp [skipSpaces, hc]

/-- The reader at the end of a cube. -/
theorem readLiterals_close : Gives (readLiterals width last? cube ('>' :: rest)) cube rest := by
  refine ⟨by simp, ?_⟩
  have hskip : skipSpaces ('>' :: rest) = '>' :: rest := skipSpaces_cons (by decide)
  rw [readLiterals]
  split
  · next rest' hs =>
      rw [hskip] at hs
      obtain rfl := (List.cons.inj hs).2
      rfl
  · next hno => exact absurd hskip (hno rest)

/-- The reader at a literal. -/
theorem readLiterals_literal {bit : Bool} {text : List Char} {cube' : Cube}
    (hopen : ∀ rest, skipSpaces cs ≠ '>' :: rest)
    (hcomma : ∃ h, readComma last? (skipSpaces cs)
      = .ok ⟨Nat.toDigits 10 n ++ ':' :: (if bit then '1' else '0') :: text, h⟩)
    (hn : n ≤ maxIndex) (hcheck : checkIndex width last? n = .ok ())
    (hrest : Gives (readLiterals width (some n) (cube.set n (some bit)) text) cube' rest) :
    Gives (readLiterals width last? cube cs) cube' rest := by
  obtain ⟨h₀, hcomma⟩ := hcomma
  obtain ⟨h₁, hindex⟩ := readIndex_gives hn ((if bit then '1' else '0') :: text)
  obtain ⟨h₂, hcolon⟩ := readChar_cons ':' ((if bit then '1' else '0') :: text)
  obtain ⟨h₃, hbit⟩ := readBit_gives bit text
  obtain ⟨h₄, hrest⟩ := hrest
  have hlength := length_skipSpaces cs
  refine ⟨by omega, ?_⟩
  rw [readLiterals]
  split
  · next rest' hs => exact absurd hs (hopen rest')
  · refine (bind_of_eq_ok hcomma _).trans ?_
    refine (bind_of_eq_ok hindex _).trans ?_
    refine (bind_of_eq_ok hcheck _).trans ?_
    refine (bind_of_eq_ok hcolon _).trans ?_
    refine (bind_of_eq_ok hbit _).trans ?_
    exact bind_of_eq_ok hrest _

/-! ## Cubes -/

/-- A bit index starts with a digit. -/
theorem toDigits_append_ne {n : Nat} {c : Char} (hc : c.isDigit = false) (text rest : List Char) :
    Nat.toDigits 10 n ++ text ≠ c :: rest := by
  cases hd : Nat.toDigits 10 n with
  | nil => exact absurd hd Nat.toDigits_ne_nil
  | cons d ds =>
      have hdigit : d.isDigit = true :=
        Nat.isDigit_of_mem_toDigits (by decide) (by decide) (hd ▸ List.mem_cons_self)
      intro heq
      rw [(List.cons.inj heq).1, hc] at hdigit
      cases hdigit

theorem skipSpaces_toDigits (n : Nat) (text : List Char) :
    skipSpaces (Nat.toDigits 10 n ++ text) = Nat.toDigits 10 n ++ text := by
  cases hd : Nat.toDigits 10 n ++ text with
  | nil => rfl
  | cons d ds =>
      refine skipSpaces_cons fun hspace => ?_
      exact toDigits_append_ne (by decide) text ds (hspace ▸ hd)

/-- A literal, with what follows it. -/
def literalChars (l : Int) (text : List Char) : List Char :=
  Nat.toDigits 10 (l.natAbs - 1) ++ ':' :: (if decide (0 < l) then '1' else '0') :: text

/-- The literals of a cube after the first, and its end. -/
def furtherChars (rest : List Char) : Literals → List Char
  | [] => '>' :: rest
  | l :: p => ',' :: ' ' :: literalChars l (furtherChars rest p)

theorem readLiterals_further {last : Nat} (hp : Named width p) (hwidth : width ≤ maxIndex)
    (hlast : ∀ l ∈ p, last + 1 < l.natAbs) :
    Gives (readLiterals width (some last) cube (furtherChars rest p)) (p.foldl put cube) rest := by
  induction p generalizing last cube with
  | nil => exact readLiterals_close
  | cons l p ih =>
      have hpos := hp.pos l List.mem_cons_self
      have hle := hp.le l List.mem_cons_self
      have hlt := hlast l List.mem_cons_self
      have hskip : skipSpaces (furtherChars rest (l :: p)) = furtherChars rest (l :: p) :=
        skipSpaces_cons (by decide)
      refine readLiterals_literal (n := l.natAbs - 1) (fun _ => ?_) ?_ (by omega)
        (checkIndex_eq_ok (by omega) ?_) (ih hp.tail fun l' hl' => ?_)
      · rw [hskip]
        exact fun h => absurd (List.cons.inj h).1 (by decide)
      · rw [hskip]
        exact readComma_some last (skipSpaces_toDigits _ _)
      · simp
        omega
      · have := (List.pairwise_cons.mp hp.sorted).1 _ (List.mem_map_of_mem hl')
        omega

theorem toList_literalText (l : Int) (text : List Char) :
    (literalText l).toList ++ text = literalChars l text := by
  have hbit : (if 0 < l then "1" else "0").toList = [if decide (0 < l) then '1' else '0'] := by
    by_cases hl : 0 < l <;> simp [hl]
  rw [literalText, String.toList_append, String.toList_append, hbit,
    Nat.toString_eq_ofList_toDigits, String.toList_ofList]
  simp [literalChars]

theorem toList_literals (l : Int) (p : Literals) (rest : List Char) :
    (", ".intercalate ((l :: p).map literalText)).toList ++ '>' :: rest
      = literalChars l (furtherChars rest p) := by
  induction p generalizing l with
  | nil => rw [List.map_singleton, String.intercalate_singleton, toList_literalText, furtherChars]
  | cons l' p ih =>
      rw [List.map_cons, List.map_cons, String.intercalate_cons_cons, ← List.map_cons,
        String.toList_append, String.toList_append, List.append_assoc, List.append_assoc, ih,
        toList_literalText]
      rfl

theorem toList_cubeText (p : Literals) (rest : List Char) :
    (cubeText p).toList ++ rest
      = '<' :: ((", ".intercalate (p.map literalText)).toList ++ '>' :: rest) := by
  simp [cubeText]

theorem readLiterals_gives (hp : Named width p) (hwidth : width ≤ maxIndex) :
    Gives (readLiterals width none (free width)
      ((", ".intercalate (p.map literalText)).toList ++ '>' :: rest))
      (ofLiterals width p) rest := by
  cases p with
  | nil => exact readLiterals_close
  | cons l p =>
      have hpos := hp.pos l List.mem_cons_self
      have hle := hp.le l List.mem_cons_self
      rw [toList_literals]
      refine readLiterals_literal (n := l.natAbs - 1) (fun rest' => ?_) ?_ (by omega)
        (checkIndex_eq_ok (by omega) rfl) (readLiterals_further hp.tail hwidth fun l' hl' => ?_)
      · rw [literalChars, skipSpaces_toDigits]
        exact toDigits_append_ne (by decide) _ _
      · rw [literalChars, skipSpaces_toDigits]
        exact ⟨Nat.le_refl _, rfl⟩
      · have := (List.pairwise_cons.mp hp.sorted).1 _ (List.mem_map_of_mem hl')
        omega

theorem readAll_cons {text : List Char} {cubes : List Cube}
    (hcube : Gives (readLiterals width none (free width) text) cube rest)
    (hrest : readAll width rest = .ok cubes) :
    readAll width ('<' :: text) = .ok (cube :: cubes) := by
  obtain ⟨h, hcube⟩ := hcube
  obtain ⟨h₁, hopen⟩ := readChar_cons '<' text
  have hskip : skipSpaces ('<' :: text) = '<' :: text := skipSpaces_cons (by decide)
  rw [readAll]
  split
  · next hs =>
      rw [hskip] at hs
      cases hs
  · next c rest' hs =>
      rw [hskip] at hs
      cases hs
      refine (bind_of_eq_ok hopen _).trans ?_
      refine (bind_of_eq_ok hcube _).trans ?_
      exact bind_of_eq_ok hrest _

theorem readAll_cubeTexts {ps : List Literals} (hps : ∀ p ∈ ps, Named width p)
    (hwidth : width ≤ maxIndex) :
    readAll width (ps.flatMap fun p => (cubeText p).toList) = .ok (ps.map (ofLiterals width)) := by
  induction ps with
  | nil =>
      rw [List.flatMap_nil, readAll]
      rfl
  | cons p ps ih =>
      obtain ⟨hp, hps⟩ := List.forall_mem_cons.mp hps
      rw [List.flatMap_cons, toList_cubeText]
      exact readAll_cons (readLiterals_gives hp hwidth) (ih hps)

end Cube

/-- What is written as cubes is read as those cubes. -/
theorem readCubes_cubeTexts {width : Nat} {ps : List Literals}
    (hps : ∀ p ∈ ps, Cube.Named width p) (hwidth : width ≤ Cube.maxIndex) :
    readCubes width (String.join (ps.map cubeText)) = .ok (ps.map (Cube.ofLiterals width)) := by
  rw [readCubes, String.toList_join, List.flatMap_map]
  exact Cube.readAll_cubeTexts hps hwidth

end BranchingTime
