import BranchingTime.Proofs.BlockGrammar
import BranchingTime.Proofs.GuardedText

/-!
# Finding blocks with guards

Reading a program, `Block.parse` cuts the list of statements where a brace
closes. The braces around a block can also be looked for by their indices, in
the whole list of statements, whatever block the header is in; and so can the
`else` after a block. Each read of a statement is checked here, and so is the
count of open braces.

No check fails, and the same block is found (`Range.passes_findBlock`). What a
scan for a closing brace cuts out closes all its own braces, so no scan that
starts inside of it leaves it, and neither does the look ahead for an `else`
(`Closed`).
-/

namespace BranchingTime.Guarded

/-! ## Statements by index -/

/-- The index of the brace that closes the first one, among statements that
are given with their indices; `depth` braces are open. -/
def closing? : Nat → List (String × Nat) → Except Fault (Option Nat)
  | _, [] => return none
  | depth, (s, i) :: rest => do
    if s = "\x7b" then closing? (depth + 1) rest
    else if s = "\x7d" then
      ensure (1 ≤ depth) .outOfBounds
      if depth - 1 = 0 then return some i else closing? (depth - 1) rest
    else closing? depth rest

/-- The indices of the braces around the block that follows a header. -/
def findBlock (statements : List String) (header : Nat) : CheckedM ProgramError (Nat × Nat) := do
  let text ← (item statements header : Except Fault String)
  let first ← (skipWhile (· = "") statements (header + 1) : Except Fault Nat)
  if statements[first]? = some "\x7b" then
    let last? ← (closing? 0 (statements.zipIdx.drop first) : Except Fault (Option Nat))
    last?.elim (throw (.unclosedBlock text)) fun last => return (first, last)
  else throw (.missingBrace text)

/-! ## Ranges of statements -/

section Ranges

variable {statements l part tail inner after rest : List String} {s : String} {i stop : Nat}

/-- A part of a list ends with the list, or before a brace that closes no
brace of the part. -/
def Closed (part tail : List String) : Prop :=
  tail = [] ∨ Block.Balanced part ∧ tail.head? = some "\x7d"

namespace Closed

theorem of_append (h : Closed (l ++ part) tail) (hl : Block.Balanced l) : Closed part tail :=
  h.imp_right fun hpart => ⟨hl.of_append hpart.1, hpart.2⟩

theorem of_cons (h : Closed (s :: part) tail) (hopen : s ≠ "\x7b") (hclose : s ≠ "\x7d") :
    Closed part tail :=
  h.of_append (l := [s]) (Block.Balanced.nil.cons hopen hclose)

/-- Empty statements are skipped in the part only. -/
theorem dropWhile_eq (h : Closed part tail) :
    (part ++ tail).dropWhile (· = "") = part.dropWhile (· = "") ++ tail := by
  rw [List.dropWhile_append]
  split
  · next hempty =>
      rw [List.isEmpty_iff.mp hempty, List.nil_append]
      rcases h with rfl | ⟨-, hhead⟩
      · rfl
      · obtain ⟨rest, rfl⟩ := List.head?_eq_some_iff.mp hhead
        rfl
  · rfl

/-- What follows the part is not taken for its next statement. -/
theorem head?_ne (h : Closed part tail) (hs : s ≠ "\x7d") : tail.head? ≠ some s := by
  rcases h with rfl | ⟨-, hhead⟩
  · exact Option.some_ne_none s ∘ Eq.symm
  · rw [hhead]
    exact fun heq => hs (Option.some.inj heq).symm

/-- An `else` is looked for in the part only. -/
theorem afterElse?_eq (h : Closed part tail) :
    Block.afterElse? (part ++ tail) = (Block.afterElse? part).map (· ++ tail) := by
  unfold Block.afterElse?
  rw [h.dropWhile_eq]
  cases part.dropWhile (· = "") with
  | nil =>
      cases tail with
      | nil => rfl
      | cons t tail =>
          exact if_neg fun heq => h.head?_ne (s := "else") (by decide) (congrArg some heq)
  | cons t rest =>
      show (if t = "else" then _ else _) = Option.map _ (if t = "else" then _ else _)
      split
      · rfl
      · rfl

/-- The brace that closes a block is one of the part. -/
theorem splitBlock_eq (h : Closed part tail) : Block.splitBlock s (part ++ tail)
    = (fun p => (p.1, p.2 ++ tail)) <$> Block.splitBlock s part := by
  unfold Block.splitBlock
  rw [h.dropWhile_eq]
  cases hdrop : part.dropWhile (· = "") with
  | nil =>
      cases tail with
      | nil => rfl
      | cons t tail =>
          exact if_neg fun heq => h.head?_ne (s := "\x7b") (by decide) (congrArg some heq)
  | cons t rest =>
      by_cases hopen : t = "\x7b"
      · subst hopen
        simp only [List.cons_append, if_true]
        cases hsplit : Block.splitAtClose 0 rest with
        | some p =>
            have hinner := Block.balanced_of_splitAtClose hsplit
            rw [Block.splitAtClose_eq_some hsplit, List.append_assoc, List.cons_append,
              hinner.splitAtClose_eq]
            rfl
        | none =>
            -- the block is not closed at all, as it would have to be in a balanced part
            rcases h with rfl | ⟨hpart, -⟩
            · rw [List.append_nil, hsplit]
              rfl
            · obtain ⟨gap, rfl⟩ := Block.exists_gap hdrop
              obtain ⟨p, hp⟩ := ((Block.Balanced.replicate gap).of_append hpart).exists_splitAtClose
              cases hsplit.symm.trans hp
      · simp only [List.cons_append, if_neg hopen]
        rfl

end Closed

theorem closing?_eq (depth : Nat) (l : List String) (i : Nat) : closing? (depth + 1) (l.zipIdx i)
    = .ok ((Block.splitAtClose depth l).map fun p => i + p.1.length) := by
  induction l generalizing depth i with
  | nil => rfl
  | cons s l ih =>
      have hnext : (fun p : List String × List String => i + 1 + p.1.length)
          = fun p => i + (s :: p.1).length := by
        funext p
        rw [List.length_cons, Nat.add_assoc, Nat.add_comm 1]
      rw [List.zipIdx_cons, closing?]
      by_cases hopen : s = "\x7b"
      · subst hopen
        rw [if_pos rfl, ih, Block.splitAtClose_open, Option.map_map, hnext]
        rfl
      rw [if_neg hopen]
      by_cases hclose : s = "\x7d"
      · subst hclose
        rw [if_pos rfl, ensure_bind (by omega), Nat.add_sub_cancel]
        cases depth with
        | zero => rfl
        | succ depth =>
            rw [if_neg (by omega), ih, Block.splitAtClose_close, Option.map_map, hnext]
            rfl
      · rw [if_neg hclose, ih, Block.splitAtClose_cons hopen hclose, Option.map_map, hnext]
        rfl

-- without the first brace, the count would go below zero
example : closing? 0 ["x", "\x7d"].zipIdx = .error .outOfBounds := rfl

theorem drop_zipIdx (l : List String) (i : Nat) : l.zipIdx.drop i = (l.drop i).zipIdx i :=
  List.ext_getElem? fun j => by simp [List.getElem?_drop, List.getElem?_zipIdx]

/-- The statements from `i` up to `stop` are `part`, and `tail` are those from
there on. -/
structure Range (statements tail : List String) (i stop : Nat) (part : List String) : Prop where
  drop_eq : statements.drop i = part ++ tail
  stop_eq : stop = i + part.length
  closed : Closed part tail

/-- Where the first statement after the one at `i` is that is not empty. -/
def nextStart (statements : List String) (i : Nat) : Nat :=
  i + 1 + ((statements.drop (i + 1)).takeWhile (· = "")).length

theorem skipWhile_nextStart (statements : List String) (i : Nat) :
    skipWhile (· = "") statements (i + 1) = .ok (nextStart statements i) :=
  skipWhile_eq rfl

namespace Range

theorem item_eq (h : Range statements tail i stop (s :: part)) : item statements i = .ok s :=
  Guarded.item_eq h.drop_eq

theorem of_cons (h : Range statements tail i stop (s :: part)) (hopen : s ≠ "\x7b")
    (hclose : s ≠ "\x7d") : Range statements tail (i + 1) stop part where
  drop_eq := drop_succ h.drop_eq
  stop_eq := by rw [h.stop_eq, List.length_cons]; omega
  closed := h.closed.of_cons hopen hclose

section Next

variable (h : Range statements tail (i + 1) stop part)

include h

theorem drop_nextStart :
    statements.drop (nextStart statements i) = (part ++ tail).dropWhile (· = "") := by
  rw [← h.drop_eq]
  exact drop_skipWhile rfl

theorem getElem?_nextStart :
    statements[nextStart statements i]? = ((part ++ tail).dropWhile (· = "")).head? := by
  rw [← h.drop_nextStart, List.head?_drop]

/-- The block of a header is found, whatever the list goes on with. -/
theorem passes_findBlock (hs : item statements i = .ok s) : Passes (findBlock statements i)
    ((fun p => (nextStart statements i, nextStart statements i + 1 + p.1.length))
      <$> Block.splitBlock s part) := by
  have hwhole : Passes (findBlock statements i)
      ((fun p => (nextStart statements i, nextStart statements i + 1 + p.1.length))
        <$> Block.splitBlock s (part ++ tail)) := by
    refine passes_check hs (passes_check (skipWhile_nextStart statements i) ?_)
    rw [h.getElem?_nextStart, Block.splitBlock]
    cases hrest : (part ++ tail).dropWhile (· = "") with
    | nil => rfl
    | cons t rest =>
        rw [List.head?_cons]
        by_cases hopen : t = "\x7b"
        · subst hopen
          have hclosing : closing? 0 (statements.zipIdx.drop (nextStart statements i))
              = .ok ((Block.splitAtClose 0 rest).map
                fun p => nextStart statements i + 1 + p.1.length) := by
            rw [drop_zipIdx, h.drop_nextStart, hrest, List.zipIdx_cons, closing?, if_pos rfl,
              closing?_eq]
          simp only [if_true]
          refine passes_check hclosing ?_
          cases Block.splitAtClose 0 rest with
          | none => rfl
          | some p => rfl
        · rw [if_neg (fun heq => hopen (Option.some.inj heq))]
          simp only [if_neg hopen]
          rfl
  rw [h.closed.splitBlock_eq, Functor.map_map] at hwhole
  exact hwhole

section Found

variable (hsplit : Block.splitBlock s part = .ok (inner, after))

include hsplit

theorem drop_inner :
    statements.drop (nextStart statements i + 1) = inner ++ "\x7d" :: (after ++ tail) := by
  obtain ⟨gap, rfl, -⟩ := Block.splitBlock_eq_ok hsplit
  have hbrace : statements.drop (nextStart statements i)
      = "\x7b" :: (inner ++ "\x7d" :: (after ++ tail)) := by
    rw [h.drop_nextStart]
    simp [Block.braced]
  exact drop_succ hbrace

/-- The statements of a block that was found. -/
theorem inside : Range statements ("\x7d" :: (after ++ tail)) (nextStart statements i + 1)
    (nextStart statements i + 1 + inner.length) inner where
  drop_eq := h.drop_inner hsplit
  stop_eq := rfl
  closed := by
    obtain ⟨gap, -, hbalanced⟩ := Block.splitBlock_eq_ok hsplit
    exact .inr ⟨hbalanced, rfl⟩

/-- The statements after a block that was found. -/
theorem behind :
    Range statements tail (nextStart statements i + 1 + inner.length + 1) stop after where
  drop_eq := drop_succ (drop_add_length (h.drop_inner hsplit))
  stop_eq := by
    have hinner := congrArg List.length (h.drop_inner hsplit)
    have hpart := congrArg List.length h.drop_eq
    have hlength := Block.length_splitBlock hsplit
    have hstop := h.stop_eq
    simp only [List.length_drop, List.length_append, List.length_cons] at hinner hpart hlength
    omega
  closed := by
    obtain ⟨gap, rfl, hbalanced⟩ := Block.splitBlock_eq_ok hsplit
    exact h.closed.of_append (hbalanced.braced gap)

end Found

/-- No `else` is found if the part does not go on with one. -/
theorem getElem?_nextStart_ne (helse : Block.afterElse? part = none) :
    statements[nextStart statements i]? ≠ some "else" := by
  intro hitem
  rw [h.getElem?_nextStart] at hitem
  obtain ⟨rest, hrest⟩ := List.head?_eq_some_iff.mp hitem
  have hwhole : Block.afterElse? (part ++ tail) = some rest := by
    rw [Block.afterElse?, hrest]
    rfl
  rw [h.closed.afterElse?_eq, helse] at hwhole
  cases hwhole

/-- The statements from an `else` on that was found. -/
theorem fromElse (helse : Block.afterElse? part = some rest) :
    Range statements tail (nextStart statements i) stop ("else" :: rest) := by
  obtain ⟨gap, rfl⟩ := Block.afterElse?_eq_some helse
  have hdrop : statements.drop (nextStart statements i) = "else" :: rest ++ tail := by
    rw [h.drop_nextStart]
    simp
  have hstop := h.stop_eq
  have hlength := congrArg List.length hdrop
  have hpart := congrArg List.length h.drop_eq
  simp only [List.length_drop, List.length_append, List.length_cons, List.length_replicate]
    at hstop hlength hpart
  exact {
    drop_eq := hdrop
    stop_eq := by rw [List.length_cons]; omega
    closed := h.closed.of_append (Block.Balanced.replicate gap) }

end Next

end Range

end Ranges

end BranchingTime.Guarded
