import BranchingTime.Ctl.Formula
import BranchingTime.Kripke.Model
import BranchingTime.Program.Source
import BranchingTime.Proofs.GuardedTable
import BranchingTime.Proofs.MaximalMunch

/-!
# Texts with guards

The stages that read texts: a program text is cut into statements, conditions
and right-hand sides are compiled, and so is a formula. Here lines are cut at
a byte, characters are read by their index, words are cut out between two
indices, and the first character of a word is looked at, each with a check.

No check fails, whatever the texts are (`Passes`).
-/

namespace BranchingTime.Guarded

/-! ## Stages -/

/-- Stages that may fail for a reason in a text, or because of a check. -/
abbrev CheckedM (ε : Type) := ExceptT ε (Except Fault)

/-- No check fails in `y`, and its result is `x`. -/
def Passes {ε α : Type} (y : CheckedM ε α) (x : Except ε α) : Prop := y.run = .ok x

section Rules

variable {ε α β γ : Type} {y : CheckedM ε α} {x : Except ε α} {g : α → CheckedM ε β}

theorem passes_ofExcept (x : Except ε α) : Passes (MonadExcept.ofExcept x) x := by
  cases x with
  | ok a => rfl
  | error e => rfl

theorem passes_bind_map {φ : γ → α} {x : Except ε γ} {f : γ → Except ε β}
    (h : Passes y (φ <$> x)) (hgo : ∀ c, x = .ok c → Passes (g (φ c)) (f c)) :
    Passes (y >>= g) (x >>= f) := by
  show (y.run >>= ExceptT.bindCont g) = _
  rw [h]
  cases x with
  | ok c => exact hgo c rfl
  | error e => rfl

theorem passes_bind {f : α → Except ε β} (h : Passes y x)
    (hgo : ∀ a, x = .ok a → Passes (g a) (f a)) : Passes (y >>= g) (x >>= f) :=
  passes_bind_map ((id_map x).symm ▸ h) hgo

theorem passes_check {c : Except Fault α} {a : α} {x : Except ε β} (hc : c = .ok a)
    (h : Passes (g a) x) : Passes ((liftM c : CheckedM ε α) >>= g) x := by
  subst hc
  exact h

theorem passes_lift {c : Except Fault α} {a : α} (hc : c = .ok a) :
    Passes (liftM c : CheckedM ε α) (.ok a) := by
  subst hc
  rfl

theorem passes_ok {a : α} {x : Except ε β} (h : Passes (g a) x) :
    Passes ((MonadExcept.ofExcept (.ok a) : CheckedM ε α) >>= g) x :=
  h

end Rules

/-! ## Lists by index -/

section Index

variable {α : Type} {p : α → Bool} {l front rest : List α} {a : α} {i : Nat}

/-- The item at `i`. -/
def item (l : List α) (i : Nat) : Except Fault α := expect l[i]?

/-- The first index from `i` on at which `p` does not hold. -/
def skipWhile (p : α → Bool) (l : List α) (i : Nat) : Except Fault Nat := do
  if i < l.length then
    if p (← item l i) then skipWhile p l (i + 1) else return i
  else return i
termination_by l.length - i

/-- The items from `start` up to `stop`. -/
def slice (l : List α) (start stop : Nat) : Except Fault (List α) := do
  ensure (start ≤ stop ∧ stop ≤ l.length) .outOfBounds
  return (l.drop start).take (stop - start)

theorem item_eq (h : l.drop i = a :: rest) : item l i = .ok a := by
  rw [item, ← List.head?_drop, h]
  rfl

theorem drop_succ (h : l.drop i = a :: rest) : l.drop (i + 1) = rest := by
  rw [← List.tail_drop, h, List.tail_cons]

theorem drop_add_length (h : l.drop i = front ++ rest) : l.drop (i + front.length) = rest := by
  rw [← List.drop_drop, h, List.drop_left]

theorem lt_of_drop_eq_cons (h : l.drop i = a :: rest) : i < l.length := by
  have hlength := congrArg List.length h
  rw [List.length_drop, List.length_cons] at hlength
  omega

theorem skipWhile_eq (h : l.drop i = rest) :
    skipWhile p l i = .ok (i + (rest.takeWhile p).length) := by
  induction rest generalizing i with
  | nil =>
      rw [skipWhile, if_neg (Nat.not_lt.mpr (List.drop_eq_nil_iff.mp h))]
      rfl
  | cons a rest ih =>
      rw [skipWhile, if_pos (lt_of_drop_eq_cons h), item_eq h, ok_bind, List.takeWhile_cons]
      split
      · rw [ih (drop_succ h), List.length_cons]
        congr 1
        omega
      · rfl

theorem drop_skipWhile (h : l.drop i = rest) :
    l.drop (i + (rest.takeWhile p).length) = rest.dropWhile p :=
  drop_add_length (h.trans List.takeWhile_append_dropWhile.symm)

theorem slice_eq (h : l.drop i = front ++ rest) (hi : i ≤ l.length) :
    slice l i (i + front.length) = .ok front := by
  have hlength := congrArg List.length h
  rw [List.length_drop, List.length_append] at hlength
  rw [slice, ensure_bind ⟨by omega, by omega⟩, Nat.add_sub_cancel_left, h, List.take_left]
  rfl

end Index

/-! ## Program texts -/

/-- The characters before byte `i`, where no character may be cut in two. -/
def sliceTo : List Char → Nat → Except Fault (List Char)
  | _, 0 => return []
  | [], _ + 1 => throw .outOfBounds
  | c :: cs, i + 1 => do
    ensure (c.utf8Size ≤ i + 1) .outOfBounds
    return c :: (← sliceTo cs (i + 1 - c.utf8Size))

/-- The byte at which the comment of a line starts. -/
def commentStart? : List Char → Option Nat
  | [] => none
  | c :: cs =>
    if c = '/' ∧ cs.head? = some '/' then some 0
    else (commentStart? cs).map (c.utf8Size + ·)

/-- The part of a line before its comment. -/
def dropComment (line : List Char) : Except Fault (List Char) :=
  (commentStart? line).elim (return line) (sliceTo line)

/-- The normal form of a program text. -/
def parseProgram (text : String) : CheckedM ProgramError Program := do
  let lines ← ((Text.lines text.toList).mapM dropComment : Except Fault _)
  let bare := (['\n'].intercalate lines).flatMap Program.isolateBrace
  let parts := ((Text.pieces ';' bare).reverse.dropWhile List.isEmpty).reverse
  MonadExcept.ofExcept (parts.foldlM Program.add ⟨[], []⟩)

theorem sliceTo_cons (c : Char) (cs : List Char) (i : Nat) :
    sliceTo (c :: cs) (c.utf8Size + i) = (sliceTo cs i).map (c :: ·) := by
  have hpos : 0 < c.utf8Size := c.utf8Size_pos
  obtain ⟨k, hk⟩ : ∃ k, c.utf8Size + i = k + 1 := ⟨c.utf8Size + i - 1, by omega⟩
  rw [hk, sliceTo, ensure_bind (by omega), ← hk, Nat.add_sub_cancel_left]
  cases sliceTo cs i with
  | ok cs => rfl
  | error e => rfl

theorem dropComment_cons (c : Char) (cs : List Char) : Program.dropComment (c :: cs)
    = if c = '/' ∧ cs.head? = some '/' then [] else c :: Program.dropComment cs := by
  rw [Program.dropComment.eq_def]
  split
  · next h => cases h
  · next h =>
      cases h
      rfl
  · next c' cs' hno h =>
      cases h
      rw [if_neg]
      rintro ⟨rfl, hhead⟩
      obtain ⟨rest, rfl⟩ := List.head?_eq_some_iff.mp hhead
      exact hno rest rfl rfl

theorem dropComment_eq (line : List Char) :
    dropComment line = .ok (Program.dropComment line) := by
  unfold dropComment
  induction line with
  | nil => rfl
  | cons c cs ih =>
      rw [commentStart?, dropComment_cons]
      split
      · rfl
      · cases hstart : commentStart? cs with
        | none =>
            rw [hstart] at ih
            rw [← Except.ok.inj ih]
            rfl
        | some i =>
            rw [hstart] at ih
            show sliceTo (c :: cs) (c.utf8Size + i) = _
            rw [sliceTo_cons, show sliceTo cs i = _ from ih]
            rfl

-- a character of two bytes is not cut in two
example : sliceTo ['ä', '/', '/'] 1 = .error .outOfBounds := rfl

theorem passes_parseProgram (text : String) :
    Passes (parseProgram text) (Program.parse text) :=
  passes_check (mapM_eq_map fun line _ => dropComment_eq line) (passes_ofExcept _)

/-! ## Expressions -/

/-- The lexemes of a text from `i` on. Reading has to end before `fuel` runs
out. -/
def lexFrom (cs : List Char) : Nat → Nat → Except Fault (List Expr.Lexeme)
  | 0, _ => throw .bottomless
  | fuel + 1, i => do
    if cs.length ≤ i then return []
    let c ← item cs i
    if Text.isBlank c then lexFrom cs fuel (i + 1)
    else if Text.isWordChar c then
      let stop ← skipWhile Text.isWordChar cs i
      let word ← slice cs i stop
      return .word (String.ofList word) :: (← lexFrom cs fuel stop)
    else
      match cs[i + 1]?.bind (Expr.pairOperator? c) with
      | some op => return .binary op :: (← lexFrom cs fuel (i + 2))
      | none => return Expr.singleLexeme c :: (← lexFrom cs fuel (i + 1))

/-- Compiles an expression over the given names. -/
def compileExpr (text : String) (names : List String) : CheckedM ExprError Expr := do
  let lexemes ← (lexFrom text.toList (text.toList.length + 1) 0 : Except Fault _)
  return { text, code := ← MonadExcept.ofExcept (Expr.codeOfLexemes names lexemes) }

/-- Compiles predicates in order, numbering them from `first` on. -/
def compileAll (names : List String) :
    Nat → List String → Except Fault (Nat × Except UnfoldError (List Predicate))
  | first, [] => return (first, .ok [])
  | first, text :: texts => do
    match ← (compileExpr text names).run with
    | .error cause => return (first + 1, .error (.predicate text cause))
    | .ok expr =>
      let (next, ps) ← compileAll names (first + 1) texts
      return (next, ps.map (⟨first, expr, .zero⟩ :: ·))

/-- Every lexeme takes a character, so that reading ends. -/
theorem lexFrom_eq {cs rest : List Char} {i : Nat} (fuel : Nat) (h : cs.drop i = rest)
    (hfuel : rest.length < fuel) : lexFrom cs fuel i = .ok (Expr.lex rest) := by
  induction fuel generalizing i rest with
  | zero => exact absurd hfuel (Nat.not_lt_zero _)
  | succ fuel ih =>
      rw [lexFrom]
      have hlength := congrArg List.length h
      rw [List.length_drop] at hlength
      cases rest with
      | nil =>
          rw [if_pos (List.drop_eq_nil_iff.mp h), Expr.lex]
          rfl
      | cons c rest =>
          rw [List.length_cons] at hlength hfuel
          have hnext := drop_succ h
          rw [if_neg (by omega), item_eq h, ok_bind]
          cases hblank : Text.isBlank c with
          | true => rw [if_pos rfl, ih hnext (by omega), Expr.lex_blank hblank]
          | false =>
          rw [if_neg Bool.false_ne_true]
          cases hword : Text.isWordChar c with
          | true =>
              have hstop := skipWhile_eq (p := Text.isWordChar) h
              have hsplit : cs.drop i
                  = (c :: rest.takeWhile Text.isWordChar) ++ rest.dropWhile Text.isWordChar := by
                rw [h, List.cons_append, List.takeWhile_append_dropWhile]
              have hle := (List.dropWhile_suffix Text.isWordChar (l := rest)).length_le
              rw [List.takeWhile_cons_of_pos hword] at hstop
              rw [if_pos rfl, hstop, ok_bind, slice_eq hsplit (by omega), ok_bind,
                ih (drop_add_length hsplit) (by omega), Expr.lex_word hblank hword]
              rfl
          | false =>
              rw [if_neg Bool.false_ne_true, Expr.lex_symbol hblank hword]
              have hhead : cs[i + 1]? = rest.head? := by rw [← List.head?_drop, hnext]
              rw [hhead]
              cases hop : rest.head?.bind (Expr.pairOperator? c) with
              | none =>
                  show (lexFrom cs fuel (i + 1) >>= _) = _
                  rw [ih hnext (by omega)]
                  rfl
              | some op =>
                  have htail : cs.drop (i + 2) = rest.tail := by
                    rw [← List.tail_drop, hnext]
                  have hle : rest.tail.length ≤ rest.length := by simp
                  show (lexFrom cs fuel (i + 2) >>= _) = _
                  rw [ih htail (by omega)]
                  rfl

theorem passes_compileExpr (text : String) (names : List String) :
    Passes (compileExpr text names) (Expr.compile text names) :=
  passes_check (lexFrom_eq _ rfl (Nat.lt_succ_self _))
    (passes_bind (passes_ofExcept _) fun _ _ => rfl)

theorem compileAll_eq (names : List String) (first : Nat) (texts : List String) :
    compileAll names first texts = .ok (Predicate.compileAll names first texts) := by
  induction texts generalizing first with
  | nil => rfl
  | cons text texts ih =>
      have hcompile := passes_compileExpr text names
      unfold Passes at hcompile
      rw [compileAll, Predicate.compileAll, Predicate.compile, hcompile, ok_bind]
      cases Expr.compile text names with
      | error cause => rfl
      | ok expr =>
          show (compileAll names (first + 1) texts >>= _) = _
          rw [ih]
          rfl

/-! ## Formulas -/

/-- Reads one lexeme. A word has a first character. -/
def readLexeme (r : Ctl.Reading) (lexeme : Ctl.Lexeme) : CheckedM CtlError Ctl.Reading := do
  (ensure (lexeme ≠ .word []) .outOfBounds : Except Fault Unit)
  MonadExcept.ofExcept (r.step lexeme)

/-- Compiles a text. -/
def compile (text : String) : CheckedM CtlError Ctl.Formula := do
  let r ← (Ctl.lex text.toList).foldlM readLexeme {}
  return { text, code := ← MonadExcept.ofExcept r.finish }

/-- No word is empty. -/
theorem word_nil_notMem_lexFrom (word : List Char) (prev? : Option Ctl.CharClass)
    (cs : List Char) : .word [] ∉ Ctl.lexFrom word prev? cs := by
  have hend : ∀ {word : List Char} {rest : List Ctl.Lexeme}, .word [] ∉ rest →
      .word [] ∉ Ctl.endWord word rest := by
    intro word rest hrest
    unfold Ctl.endWord
    cases word with
    | nil => exact hrest
    | cons c word => simpa using hrest
  induction cs generalizing word prev? with
  | nil => exact hend List.not_mem_nil
  | cons c cs ih =>
      unfold Ctl.lexFrom
      cases Ctl.CharClass.of? c with
      | none => simp
      | some k =>
          dsimp only
          split
          · simp
          · cases k with
            | letter => exact ih _ _
            | digit => exact ih _ _
            | space => exact hend (ih _ _)
            | openParen => exact hend (by simpa using ih _ _)
            | closeParen => exact hend (by simpa using ih _ _)

theorem passes_readLexeme (r : Ctl.Reading) {lexeme : Ctl.Lexeme} (h : lexeme ≠ .word []) :
    Passes (readLexeme r lexeme) (r.step lexeme) :=
  passes_check (ensure_eq h _) (passes_ofExcept _)

theorem passes_compile (text : String) : Passes (compile text) (Ctl.Formula.compile text) := by
  have hfold : ∀ (lexemes : List Ctl.Lexeme) (r : Ctl.Reading), .word [] ∉ lexemes →
      Passes (lexemes.foldlM readLexeme r) (lexemes.foldlM Ctl.Reading.step r) := by
    intro lexemes
    induction lexemes with
    | nil => exact fun r _ => rfl
    | cons lexeme lexemes ih =>
        intro r hmem
        rw [List.mem_cons, not_or] at hmem
        rw [List.foldlM_cons, List.foldlM_cons]
        exact passes_bind (passes_readLexeme r (Ne.symm hmem.1)) fun r' _ => ih r' hmem.2
  unfold compile Ctl.Formula.compile Ctl.codeOfLexemes
  rw [bind_assoc]
  refine passes_bind (hfold _ _ (word_nil_notMem_lexFrom _ _ _)) fun r _ => ?_
  exact passes_bind (passes_ofExcept _) fun _ _ => rfl

end BranchingTime.Guarded
