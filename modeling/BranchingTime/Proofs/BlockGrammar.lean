import BranchingTime.Proofs.Continuations

/-!
# The grammar of blocks

`Block.Reads` says which block a list of statements is, without a search for
braces: a block in braces is one whose contents are read as a block. Such
contents are balanced, so the brace that the parser finds is the one that
the grammar means, and an `else` can only be the one of the `if` before it.
The parser reads what the grammar says (`Block.parse_eq_ok_iff`).
-/

namespace BranchingTime.Block

/-- A block in braces, with empty statements before it. -/
def braced (gap : Nat) (part : List String) : List String :=
  List.replicate gap "" ++ "\x7b" :: part ++ ["\x7d"]

/-- The block that a list of statements is, over the declared names. -/
inductive Reads (names : List String) : List String → Block → Prop
  | done : Reads names [] .done
  | ignored {s : String} {rest : List String} {b : Block}
      (hs : Statement.classify s = .ok .ignored) (h : Reads names rest b) :
      Reads names (s :: rest) b
  | read {s name : String} {var : Nat} {rest : List String} {b : Block}
      (hs : Statement.classify s = .ok (.read name)) (hvar : names.idxOf? name = some var)
      (h : Reads names rest b) : Reads names (s :: rest) (.read var b)
  | assign {s name rhs : String} {var : Nat} {e : Expr} {rest : List String} {b : Block}
      (hs : Statement.classify s = .ok (.assign name rhs)) (hvar : names.idxOf? name = some var)
      (he : Expr.compile rhs names = .ok e) (h : Reads names rest b) :
      Reads names (s :: rest) (.assign var e b)
  | ifThen {s cond : String} {e : Expr} {gap : Nat} {part rest : List String} {body b : Block}
      (hs : Statement.classify s = .ok (.ifHeader cond)) (he : Expr.compile cond names = .ok e)
      (hbody : Reads names part body) (h : Reads names rest b) :
      Reads names (s :: (braced gap part ++ rest)) (.ifThen e body b)
  | ifElse {s cond : String} {e : Expr} {gap gap' gap'' : Nat} {part part' rest : List String}
      {body body' b : Block}
      (hs : Statement.classify s = .ok (.ifHeader cond)) (he : Expr.compile cond names = .ok e)
      (hbody : Reads names part body) (hbody' : Reads names part' body') (h : Reads names rest b) :
      Reads names
        (s :: (braced gap part
          ++ (List.replicate gap' "" ++ "else" :: (braced gap'' part' ++ rest))))
        (.ifElse e body body' b)
  | loop {s cond : String} {e : Expr} {gap : Nat} {part rest : List String} {body b : Block}
      (hs : Statement.classify s = .ok (.whileHeader cond)) (he : Expr.compile cond names = .ok e)
      (hbody : Reads names part body) (h : Reads names rest b) :
      Reads names (s :: (braced gap part ++ rest)) (.loop e body b)

variable {names l part rest : List String} {s header : String} {gap : Nat} {b : Block}

/-! ## Braces -/

theorem splitAtClose_cons {depth : Nat} (hopen : s ≠ "\x7b") (hclose : s ≠ "\x7d") :
    splitAtClose depth (s :: l) = (splitAtClose depth l).map fun p => (s :: p.1, p.2) := by
  rw [splitAtClose.eq_def]
  simp [hopen, hclose]

theorem splitAtClose_open {depth : Nat} :
    splitAtClose depth ("\x7b" :: l)
      = (splitAtClose (depth + 1) l).map fun p => ("\x7b" :: p.1, p.2) := by
  rw [splitAtClose.eq_def]
  simp

theorem splitAtClose_close {depth : Nat} :
    splitAtClose (depth + 1) ("\x7d" :: l)
      = (splitAtClose depth l).map fun p => ("\x7d" :: p.1, p.2) := by
  rw [splitAtClose]
  rfl

/-- A list that is cut either closes at its first statement, or goes on from
there at the depth which that statement leads to. -/
theorem splitAtClose_cons_eq_some {depth : Nat}
    (h : splitAtClose depth (s :: l) = some (part, rest)) :
    (s = "\x7d" ∧ depth = 0 ∧ part = [] ∧ rest = l)
      ∨ ∃ depth' part', part = s :: part' ∧ splitAtClose depth' l = some (part', rest)
        ∧ ∀ outer l', splitAtClose (outer + depth) (s :: l')
          = (splitAtClose (outer + depth') l').map fun p => (s :: p.1, p.2) := by
  have later {depth' : Nat} (h : (splitAtClose depth' l).map (fun p => (s :: p.1, p.2))
      = some (part, rest)) :
      ∃ part', part = s :: part' ∧ splitAtClose depth' l = some (part', rest) := by
    obtain ⟨⟨part', _⟩, hp, heq⟩ := Option.map_eq_some_iff.mp h
    obtain ⟨rfl, rfl⟩ := Prod.mk.inj heq
    exact ⟨part', rfl, hp⟩
  by_cases hclose : s = "\x7d"
  · subst hclose
    cases depth with
    | zero =>
        rw [splitAtClose, if_pos rfl] at h
        obtain ⟨rfl, rfl⟩ := Prod.mk.inj (Option.some.inj h)
        exact .inl ⟨rfl, rfl, rfl, rfl⟩
    | succ depth =>
        rw [splitAtClose_close] at h
        obtain ⟨part', hpart, hp⟩ := later h
        exact .inr ⟨depth, part', hpart, hp, fun _ _ => splitAtClose_close⟩
  · by_cases hopen : s = "\x7b"
    · subst hopen
      rw [splitAtClose_open] at h
      obtain ⟨part', hpart, hp⟩ := later h
      exact .inr ⟨depth + 1, part', hpart, hp, fun _ _ => splitAtClose_open⟩
    · rw [splitAtClose_cons hopen hclose] at h
      obtain ⟨part', hpart, hp⟩ := later h
      exact .inr ⟨depth, part', hpart, hp, fun _ _ => splitAtClose_cons hopen hclose⟩

theorem splitAtClose_eq_some {depth : Nat} (h : splitAtClose depth l = some (part, rest)) :
    l = part ++ "\x7d" :: rest := by
  induction l generalizing depth part with
  | nil =>
      rw [splitAtClose] at h
      cases h
  | cons s l ih =>
      rcases splitAtClose_cons_eq_some h with ⟨rfl, -, rfl, rfl⟩ | ⟨depth', part', rfl, hp, -⟩
      · rfl
      · rw [ih hp, List.cons_append]

/-- No brace of the list opens or closes what is around it. -/
def Balanced (l : List String) : Prop :=
  ∀ (depth : Nat) (rest : List String),
    splitAtClose depth (l ++ rest) = (splitAtClose depth rest).map fun p => (l ++ p.1, p.2)

namespace Balanced

theorem nil : Balanced [] := fun depth rest => by simp

theorem append {l' : List String} (h : Balanced l) (h' : Balanced l') : Balanced (l ++ l') := by
  intro depth rest
  rw [List.append_assoc, h, h', Option.map_map]
  simp only [Function.comp_def, List.append_assoc]

theorem cons (hopen : s ≠ "\x7b") (hclose : s ≠ "\x7d") (h : Balanced l) : Balanced (s :: l) := by
  intro depth rest
  rw [List.cons_append, splitAtClose_cons hopen hclose, h, Option.map_map]
  rfl

theorem replicate (gap : Nat) : Balanced (List.replicate gap "") := by
  induction gap with
  | zero => exact nil
  | succ gap ih => exact ih.cons (by decide) (by decide)

theorem braced (h : Balanced part) (gap : Nat) : Balanced (braced gap part) := by
  have hbraces : Balanced ("\x7b" :: (part ++ ["\x7d"])) := by
    intro depth rest
    rw [List.cons_append, List.append_assoc, splitAtClose_open, h, List.singleton_append,
      splitAtClose_close]
    simp [Function.comp_def]
  have := (replicate gap).append hbraces
  rwa [← List.cons_append, ← List.append_assoc] at this

theorem of_append {l' : List String} (h : Balanced l) (hl : Balanced (l ++ l')) : Balanced l' := by
  intro depth rest
  have hinj : Function.Injective fun p : List String × List String => (l ++ p.1, p.2) := by
    intro p q hpq
    obtain ⟨hfst, hsnd⟩ := Prod.mk.inj hpq
    exact Prod.ext (List.append_cancel_left hfst) hsnd
  apply Option.map_injective hinj
  rw [← h, ← List.append_assoc, hl, Option.map_map]
  simp only [Function.comp_def, List.append_assoc]

end Balanced

/-- A statement with a meaning of its own is no brace. -/
theorem ne_brace_of_classify {kind : Statement} (hs : Statement.classify s = .ok kind)
    (hopen : kind ≠ .openBrace) (hclose : kind ≠ .closeBrace) : s ≠ "\x7b" ∧ s ≠ "\x7d" := by
  constructor
  · intro heq
    subst heq
    exact hopen (Except.ok.inj (hs.symm.trans (by decide +kernel)))
  · intro heq
    subst heq
    exact hclose (Except.ok.inj (hs.symm.trans (by decide +kernel)))

theorem Reads.balanced (h : Reads names l b) : Balanced l := by
  induction h with
  | done => exact .nil
  | ignored hs _ ih =>
      obtain ⟨hopen, hclose⟩ := ne_brace_of_classify hs nofun nofun
      exact ih.cons hopen hclose
  | read hs _ _ ih =>
      obtain ⟨hopen, hclose⟩ := ne_brace_of_classify hs nofun nofun
      exact ih.cons hopen hclose
  | assign hs _ _ _ ih =>
      obtain ⟨hopen, hclose⟩ := ne_brace_of_classify hs nofun nofun
      exact ih.cons hopen hclose
  | ifThen hs _ _ _ ihb ih =>
      obtain ⟨hopen, hclose⟩ := ne_brace_of_classify hs nofun nofun
      exact ((ihb.braced _).append ih).cons hopen hclose
  | ifElse hs _ _ _ _ ihb ihb' ih =>
      obtain ⟨hopen, hclose⟩ := ne_brace_of_classify hs nofun nofun
      have helse (gap : Nat) := ((ihb'.braced gap).append ih).cons (s := "else") (by decide)
        (by decide)
      exact ((ihb.braced _).append ((Balanced.replicate _).append (helse _))).cons hopen hclose
  | loop hs _ _ _ ihb ih =>
      obtain ⟨hopen, hclose⟩ := ne_brace_of_classify hs nofun nofun
      exact ((ihb.braced _).append ih).cons hopen hclose

theorem dropWhile_gap (hs : s ≠ "") :
    (List.replicate gap "" ++ s :: l).dropWhile (· = "") = s :: l := by
  induction gap with
  | zero => simp [hs]
  | succ gap ih => simpa [List.replicate_succ] using ih

theorem exists_gap (h : l.dropWhile (· = "") = s :: rest) :
    ∃ gap, l = List.replicate gap "" ++ s :: rest := by
  induction l with
  | nil => cases h
  | cons x l ih =>
      by_cases hx : x = ""
      · subst hx
        obtain ⟨gap, rfl⟩ := ih (by simpa using h)
        exact ⟨gap + 1, rfl⟩
      · refine ⟨0, ?_⟩
        simpa [hx] using h

/-- What is cut out at a closing brace closes its own braces, and those that
were open before. -/
theorem splitAtClose_append {depth : Nat} (h : splitAtClose depth l = some (part, rest))
    (outer : Nat) (rest' : List String) : splitAtClose (outer + depth) (part ++ rest')
      = (splitAtClose outer rest').map fun p => (part ++ p.1, p.2) := by
  induction l generalizing depth part with
  | nil =>
      rw [splitAtClose] at h
      cases h
  | cons s l ih =>
      rcases splitAtClose_cons_eq_some h with ⟨-, rfl, rfl, -⟩ | ⟨depth', part', rfl, hp, hstep⟩
      · simp
      · rw [List.cons_append, hstep, ih hp, Option.map_map]
        rfl

theorem balanced_of_splitAtClose (h : splitAtClose 0 l = some (part, rest)) : Balanced part :=
  splitAtClose_append h

/-- Where no brace closes at some depth, a further one closes none that is
further out. -/
theorem splitAtClose_concat_close {depth : Nat} (h : splitAtClose depth l = none) :
    splitAtClose (depth + 1) (l ++ ["\x7d"]) = none := by
  induction l generalizing depth with
  | nil => rw [List.nil_append, splitAtClose_close, splitAtClose, Option.map_none]
  | cons s l ih =>
      rw [List.cons_append]
      by_cases hclose : s = "\x7d"
      · subst hclose
        cases depth with
        | zero =>
            rw [splitAtClose, if_pos rfl] at h
            cases h
        | succ depth =>
            rw [splitAtClose_close, Option.map_eq_none_iff] at h
            rw [splitAtClose_close, ih h, Option.map_none]
      · by_cases hopen : s = "\x7b"
        · subst hopen
          rw [splitAtClose_open, Option.map_eq_none_iff] at h
          rw [splitAtClose_open, ih h, Option.map_none]
        · rw [splitAtClose_cons hopen hclose, Option.map_eq_none_iff] at h
          rw [splitAtClose_cons hopen hclose, ih h, Option.map_none]

/-- In a balanced list, a brace that is opened is closed. -/
theorem Balanced.exists_splitAtClose (h : Balanced ("\x7b" :: l)) :
    ∃ p, splitAtClose 0 l = some p := by
  cases hsplit : splitAtClose 0 l with
  | some p => exact ⟨p, rfl⟩
  | none =>
      -- the brace after the list would have to close the one that is opened first
      have hclose := h 0 ["\x7d"]
      rw [List.cons_append, splitAtClose_open, splitAtClose_concat_close hsplit, splitAtClose,
        if_pos rfl] at hclose
      cases hclose

/-! ## Headers -/

theorem Balanced.splitAtClose_eq (h : Balanced part) :
    splitAtClose 0 (part ++ "\x7d" :: rest) = some (part, rest) := by
  rw [h, splitAtClose, if_pos rfl]
  simp

theorem splitBlock_braced (h : Balanced part) :
    splitBlock header (braced gap part ++ rest) = .ok (part, rest) := by
  have hdrop : (braced gap part ++ rest).dropWhile (· = "")
      = "\x7b" :: (part ++ "\x7d" :: rest) := by
    simp [braced]
  rw [splitBlock, hdrop]
  simp only [if_true, h.splitAtClose_eq]

theorem splitBlock_eq_ok (h : splitBlock header l = .ok (part, rest)) :
    ∃ gap, l = braced gap part ++ rest ∧ Balanced part := by
  unfold splitBlock at h
  split at h
  · cases h
  · next s after hdrop =>
      split at h
      · next hs =>
          subst hs
          split at h
          · next p hp =>
              obtain rfl := Except.ok.inj h
              obtain ⟨gap, rfl⟩ := exists_gap hdrop
              exact ⟨gap, by simp [braced, splitAtClose_eq_some hp], balanced_of_splitAtClose hp⟩
          · cases h
      · cases h

theorem afterElse?_gap : afterElse? (List.replicate gap "" ++ "else" :: rest) = some rest := by
  rw [afterElse?, dropWhile_gap (by decide)]
  rfl

theorem afterElse?_eq_some (h : afterElse? l = some rest) :
    ∃ gap, l = List.replicate gap "" ++ "else" :: rest := by
  unfold afterElse? at h
  split at h
  · cases h
  · next s after hdrop =>
      split at h
      · next hs =>
          subst hs
          obtain rfl := Option.some.inj h
          exact exists_gap hdrop
      · cases h

theorem afterElse?_cons_of_classify {kind : Statement} (hs : Statement.classify s = .ok kind)
    (hignored : kind ≠ .ignored) (helse : kind ≠ .elseHeader) : afterElse? (s :: l) = none := by
  have hempty : s ≠ "" := by
    intro heq
    subst heq
    exact hignored (Except.ok.inj (hs.symm.trans (by decide +kernel)))
  have helse : s ≠ "else" := by
    intro heq
    subst heq
    exact helse (Except.ok.inj (hs.symm.trans (by decide +kernel)))
  simp [afterElse?, hempty, helse]

/-- A block does not start with an `else`. -/
theorem Reads.afterElse?_eq_none (h : Reads names l b) : afterElse? l = none := by
  induction h with
  | done => rfl
  | @ignored s rest b hs _ ih =>
      by_cases hempty : s = ""
      · subst hempty
        simpa [afterElse?] using ih
      · have helse : s ≠ "else" := by
          intro heq
          subst heq
          exact absurd hs (by decide +kernel)
        simp [afterElse?, hempty, helse]
  | read hs => exact afterElse?_cons_of_classify hs (by simp) (by simp)
  | assign hs => exact afterElse?_cons_of_classify hs (by simp) (by simp)
  | ifThen hs => exact afterElse?_cons_of_classify hs (by simp) (by simp)
  | ifElse hs => exact afterElse?_cons_of_classify hs (by simp) (by simp)
  | loop hs => exact afterElse?_cons_of_classify hs (by simp) (by simp)

/-! ## The parser -/

theorem resolve_eq_ok_iff {name : String} {var : Nat} :
    resolve names name = .ok var ↔ names.idxOf? name = some var := by
  unfold resolve
  cases names.idxOf? name with
  | none => exact iff_of_false nofun nofun
  | some i => simp

theorem compileExpr_eq_ok_iff {text : String} {e : Expr} :
    compileExpr names text = .ok e ↔ Expr.compile text names = .ok e := by
  unfold compileExpr
  split
  · next h => simp [h]
  · next h => exact iff_of_false nofun (by simp [h])
  · next h => exact iff_of_false nofun (by simp [h])

/-! The parser by the kind of the first statement. -/

theorem parse_ignored (hs : Statement.classify s = .ok .ignored) :
    parse names (s :: l) = parse names l := by
  rw [parse, hs]
  rfl

theorem parse_read {name : String} (hs : Statement.classify s = .ok (.read name)) :
    parse names (s :: l) = do return .read (← resolve names name) (← parse names l) := by
  rw [parse, hs]
  rfl

theorem parse_assign {name rhs : String} (hs : Statement.classify s = .ok (.assign name rhs)) :
    parse names (s :: l) = do
      return .assign (← resolve names name) (← compileExpr names rhs) (← parse names l) := by
  rw [parse, hs]
  rfl

theorem parse_if {cond : String} (hs : Statement.classify s = .ok (.ifHeader cond)) :
    parse names (s :: l) = do
      let e ← compileExpr names cond
      let (part, after) ← splitBlock s l
      match afterElse? after with
      | none => return .ifThen e (← parse names part) (← parse names after)
      | some rest => do
        let (part', after) ← splitBlock "else" rest
        return .ifElse e (← parse names part) (← parse names part') (← parse names after) := by
  rw [parse, hs]
  change (compileExpr names cond >>= _) = _
  refine bind_congr fun e => ?_
  simp only
  split
  · next hsplit => rw [hsplit]; rfl
  · next part after hsplit =>
      rw [hsplit]
      change _ = (match afterElse? after with | none => _ | some rest => _)
      split
      · next helse => rw [helse]
      · next rest helse =>
          rw [helse]
          simp only
          split
          · next hsplit' => rw [hsplit']; rfl
          · next hsplit' => rw [hsplit']; rfl

theorem parse_while {cond : String} (hs : Statement.classify s = .ok (.whileHeader cond)) :
    parse names (s :: l) = do
      let e ← compileExpr names cond
      let (part, after) ← splitBlock s l
      return .loop e (← parse names part) (← parse names after) := by
  rw [parse, hs]
  change (compileExpr names cond >>= _) = _
  refine bind_congr fun e => ?_
  simp only
  split
  · next hsplit => rw [hsplit]; rfl
  · next hsplit => rw [hsplit]; rfl

theorem reads_of_parse (h : parse names l = .ok b) : Reads names l b := by
  induction hn : l.length using Nat.strong_induction_on generalizing l b with
  | _ n ih =>
    subst hn
    cases l with
    | nil =>
        rw [parse] at h
        obtain rfl := Except.ok.inj h
        exact .done
    | cons s following =>
        have hlt : following.length < (s :: following).length := Nat.lt_succ_self _
        cases hs : Statement.classify s with
        | error cause =>
            rw [parse, hs] at h
            cases h
        | ok kind =>
        cases kind with
        | ignored =>
            rw [parse_ignored hs] at h
            exact .ignored hs (ih _ hlt h rfl)
        | read name =>
            rw [parse_read hs] at h
            obtain ⟨var, hvar, h⟩ := exists_of_bind_eq_ok h
            obtain ⟨rest, hrest, h⟩ := exists_of_bind_eq_ok h
            obtain rfl := Except.ok.inj h
            exact .read hs (resolve_eq_ok_iff.mp hvar) (ih _ hlt hrest rfl)
        | assign name rhs =>
            rw [parse_assign hs] at h
            obtain ⟨var, hvar, h⟩ := exists_of_bind_eq_ok h
            obtain ⟨e, he, h⟩ := exists_of_bind_eq_ok h
            obtain ⟨rest, hrest, h⟩ := exists_of_bind_eq_ok h
            obtain rfl := Except.ok.inj h
            exact .assign hs (resolve_eq_ok_iff.mp hvar) (compileExpr_eq_ok_iff.mp he)
              (ih _ hlt hrest rfl)
        | ifHeader cond =>
            rw [parse_if hs] at h
            obtain ⟨e, he, h⟩ := exists_of_bind_eq_ok h
            obtain ⟨⟨part, after⟩, hsplit, h⟩ := exists_of_bind_eq_ok h
            have hshort : part.length + after.length < following.length := length_splitBlock hsplit
            obtain ⟨gap, hgap, -⟩ := splitBlock_eq_ok hsplit
            simp only at h
            split at h
            · obtain ⟨body, hbody, h⟩ := exists_of_bind_eq_ok h
              obtain ⟨rest, hrest, h⟩ := exists_of_bind_eq_ok h
              obtain rfl := Except.ok.inj h
              rw [hgap]
              exact .ifThen hs (compileExpr_eq_ok_iff.mp he) (ih _ (by omega) hbody rfl)
                (ih _ (by omega) hrest rfl)
            · next rest helse =>
                have helseShort := length_afterElse? helse
                obtain ⟨gap', hgap'⟩ := afterElse?_eq_some helse
                obtain ⟨⟨part', after'⟩, hsplit', h⟩ := exists_of_bind_eq_ok h
                have hshort' : part'.length + after'.length < rest.length :=
                  length_splitBlock hsplit'
                obtain ⟨gap'', hgap'', -⟩ := splitBlock_eq_ok hsplit'
                obtain ⟨body, hbody, h⟩ := exists_of_bind_eq_ok h
                obtain ⟨body', hbody', h⟩ := exists_of_bind_eq_ok h
                obtain ⟨b, hrest, h⟩ := exists_of_bind_eq_ok h
                obtain rfl := Except.ok.inj h
                rw [hgap, hgap', hgap'']
                exact .ifElse hs (compileExpr_eq_ok_iff.mp he) (ih _ (by omega) hbody rfl)
                  (ih _ (by omega) hbody' rfl) (ih _ (by omega) hrest rfl)
        | whileHeader cond =>
            rw [parse_while hs] at h
            obtain ⟨e, he, h⟩ := exists_of_bind_eq_ok h
            obtain ⟨⟨part, after⟩, hsplit, h⟩ := exists_of_bind_eq_ok h
            have hshort : part.length + after.length < following.length := length_splitBlock hsplit
            obtain ⟨gap, hgap, -⟩ := splitBlock_eq_ok hsplit
            obtain ⟨body, hbody, h⟩ := exists_of_bind_eq_ok h
            obtain ⟨rest, hrest, h⟩ := exists_of_bind_eq_ok h
            obtain rfl := Except.ok.inj h
            rw [hgap]
            exact .loop hs (compileExpr_eq_ok_iff.mp he) (ih _ (by omega) hbody rfl)
              (ih _ (by omega) hrest rfl)
        | openBrace =>
            rw [parse, hs] at h
            cases h
        | closeBrace =>
            rw [parse, hs] at h
            cases h
        | elseHeader =>
            rw [parse, hs] at h
            cases h

theorem Reads.parse_eq (h : Reads names l b) : parse names l = .ok b := by
  induction h with
  | done => rw [parse]
  | ignored hs _ ih => rw [parse_ignored hs, ih]
  | read hs hvar _ ih =>
      rw [parse_read hs, resolve_eq_ok_iff.mpr hvar, ih]
      rfl
  | assign hs hvar he _ ih =>
      rw [parse_assign hs, resolve_eq_ok_iff.mpr hvar, compileExpr_eq_ok_iff.mpr he, ih]
      rfl
  | ifThen hs he hbody hrest ihb ih =>
      rw [parse_if hs, compileExpr_eq_ok_iff.mpr he, splitBlock_braced hbody.balanced]
      change (match afterElse? _ with | none => _ | some rest => _) = _
      rw [hrest.afterElse?_eq_none, ihb, ih]
      rfl
  | ifElse hs he hbody hbody' _ ihb ihb' ih =>
      rw [parse_if hs, compileExpr_eq_ok_iff.mpr he, splitBlock_braced hbody.balanced]
      change (match afterElse? _ with | none => _ | some rest => _) = _
      rw [afterElse?_gap]
      change (splitBlock "else" _ >>= _) = _
      rw [splitBlock_braced hbody'.balanced, ihb]
      change (do return Block.ifElse _ _ (← parse names _) (← parse names _)) = _
      rw [ihb', ih]
      rfl
  | loop hs he hbody _ ihb ih =>
      rw [parse_while hs, compileExpr_eq_ok_iff.mpr he, splitBlock_braced hbody.balanced]
      change (do return Block.loop _ (← parse names _) (← parse names _)) = _
      rw [ihb, ih]
      rfl

/-- The parser reads what the grammar says. -/
theorem parse_eq_ok_iff : parse names l = .ok b ↔ Reads names l b :=
  ⟨reads_of_parse, Reads.parse_eq⟩

end BranchingTime.Block
