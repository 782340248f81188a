import Mathlib.Algebra.GroupWithZero.Nat
import Mathlib.Data.List.Infix
import BranchingTime.Text.Blank
import BranchingTime.Text.Piece

/-!
# Trimmed texts and pieces of texts

A trimmed text has no blank at either end; `trim` gives such a text, and
leaves it as it is. The pieces of a text are the parts of it between the
separators, so the pieces of two texts with a separator between them are
those of the one and those of the other.
-/

namespace BranchingTime.Text

/-! ## Trimmed texts -/

/-- No blank stands at either end. -/
structure Trimmed (cs : List Char) : Prop where
  head : ∀ c, cs.head? = some c → isBlank c = false
  last : ∀ c, cs.getLast? = some c → isBlank c = false

section Trim

variable {cs : List Char} {c : Char}

theorem not_isBlank_of_head?_dropWhile (h : (cs.dropWhile isBlank).head? = some c) :
    isBlank c = false := by
  have := List.head?_dropWhile_not isBlank cs
  rw [h] at this
  exact this

theorem trimEnd_isPrefix (cs : List Char) : trimEnd cs <+: cs := by
  have h := List.reverse_prefix.mpr (List.dropWhile_suffix (l := cs.reverse) isBlank)
  rwa [List.reverse_reverse] at h

theorem trim_isInfix (cs : List Char) : trim cs <:+: cs :=
  (trimEnd_isPrefix _).isInfix.trans (List.dropWhile_suffix isBlank).isInfix

theorem mem_of_mem_trim (h : c ∈ trim cs) : c ∈ cs := (trim_isInfix cs).mem h

theorem trimmed_trim (cs : List Char) : Trimmed (trim cs) where
  head c h := by
    obtain ⟨rest, hrest⟩ := trimEnd_isPrefix (trimStart cs)
    have hstart : (trimStart cs).head? = some c := by
      rw [← hrest, List.head?_append]
      simp [show (trimEnd (trimStart cs)).head? = some c from h]
    exact not_isBlank_of_head?_dropWhile hstart
  last c h := by
    rw [trim, trimEnd, List.getLast?_reverse] at h
    exact not_isBlank_of_head?_dropWhile h

theorem dropWhile_isBlank_eq_self (h : ∀ c, cs.head? = some c → isBlank c = false) :
    cs.dropWhile isBlank = cs := by
  cases cs with
  | nil => rfl
  | cons c cs => rw [List.dropWhile_cons, h c rfl, if_neg Bool.false_ne_true]

theorem Trimmed.trim_eq (h : Trimmed cs) : trim cs = cs := by
  have hend : cs.reverse.dropWhile isBlank = cs.reverse :=
    dropWhile_isBlank_eq_self fun c hc => h.last c (List.head?_reverse ▸ hc)
  rw [trim, trimStart, dropWhile_isBlank_eq_self h.head, trimEnd, hend, List.reverse_reverse]

end Trim

/-! ## Pieces -/

section Pieces

variable {sep c : Char} {cs part u v : List Char}

theorem pieces_ne_nil (sep : Char) (cs : List Char) : pieces sep cs ≠ [] := by
  cases cs with
  | nil => exact List.cons_ne_nil _ _
  | cons c cs =>
      unfold pieces
      split
      · exact List.cons_ne_nil _ _
      · split <;> exact List.cons_ne_nil _ _

theorem pieces_cons_sep (sep : Char) (cs : List Char) :
    pieces sep (sep :: cs) = [] :: pieces sep cs := by
  obtain ⟨p, ps, hp⟩ := List.exists_cons_of_ne_nil (pieces_ne_nil sep cs)
  simp [pieces, hp]

theorem pieces_cons (hc : c ≠ sep) {p : List Char} {ps : List (List Char)}
    (h : pieces sep cs = p :: ps) : pieces sep (c :: cs) = (c :: p) :: ps := by
  simp [pieces, h, hc]

theorem pieces_append_sep (sep : Char) (u v : List Char) :
    pieces sep (u ++ sep :: v) = pieces sep u ++ pieces sep v := by
  induction u with
  | nil => exact pieces_cons_sep sep v
  | cons c u ih =>
      by_cases hc : c = sep
      · subst hc
        rw [List.cons_append, pieces_cons_sep, ih, pieces_cons_sep, List.cons_append]
      · obtain ⟨p, ps, hp⟩ := List.exists_cons_of_ne_nil (pieces_ne_nil sep u)
        rw [hp, List.cons_append] at ih
        rw [List.cons_append, pieces_cons hc ih, pieces_cons hc hp, List.cons_append]

theorem pieces_of_not_mem (h : sep ∉ u) : pieces sep u = [u] := by
  induction u with
  | nil => rfl
  | cons c u ih =>
      rw [List.mem_cons, not_or] at h
      exact pieces_cons (Ne.symm h.1) (ih h.2)

theorem not_mem_of_mem_pieces (h : part ∈ pieces sep cs) : sep ∉ part := by
  induction cs generalizing part with
  | nil =>
      obtain rfl := List.mem_singleton.mp h
      exact List.not_mem_nil
  | cons c cs ih =>
      by_cases hc : c = sep
      · subst hc
        rw [pieces_cons_sep] at h
        rcases List.mem_cons.mp h with rfl | h
        · exact List.not_mem_nil
        · exact ih h
      · obtain ⟨p, ps, hp⟩ := List.exists_cons_of_ne_nil (pieces_ne_nil sep cs)
        rw [pieces_cons hc hp] at h
        rw [hp] at ih
        rcases List.mem_cons.mp h with rfl | h
        · exact List.not_mem_cons_of_ne_of_not_mem (Ne.symm hc) (ih List.mem_cons_self)
        · exact ih (List.mem_cons_of_mem _ h)

/-- How many characters there are apart from the separators. -/
theorem sum_length_pieces (sep : Char) (cs : List Char) :
    ((pieces sep cs).map List.length).sum = cs.countP (· ≠ sep) := by
  induction cs with
  | nil => rfl
  | cons c cs ih =>
      obtain ⟨p, ps, hp⟩ := List.exists_cons_of_ne_nil (pieces_ne_nil sep cs)
      by_cases hc : c = sep
      · subst hc
        simp [pieces_cons_sep, ih]
      · rw [hp, List.map_cons, List.sum_cons] at ih
        rw [pieces_cons hc hp, List.countP_cons_of_pos (by simpa using hc), ← ih]
        simp only [List.map_cons, List.sum_cons, List.length_cons]
        omega

/-- A text without line feeds is one line, unless it is empty. -/
theorem lines_of_not_mem (h : '\n' ∉ cs) : lines cs = if cs = [] then [] else [cs] := by
  rw [lines, pieces_of_not_mem h]
  cases cs with
  | nil => rfl
  | cons c cs => rfl

theorem after?_eq_some_iff {start rest : List Char} :
    after? start cs = some rest ↔ cs = start ++ rest := by
  induction start generalizing cs with
  | nil => simp [after?]
  | cons s start ih =>
      cases cs with
      | nil => simp [after?]
      | cons c cs =>
          by_cases hc : s = c
          · simp [after?, hc, ih]
          · simp [after?, hc, Ne.symm hc]

end Pieces

end BranchingTime.Text
