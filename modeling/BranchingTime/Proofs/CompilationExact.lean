import BranchingTime.Proofs.ParseTree

/-!
# The compiler accepts the sentences and emits their trees

The compiler and the reader of tokens go in step: the output of the one is
the postorder of what the other has built, and its stack holds the frames
without their trees (`Shows`). So a text compiles exactly when its tokens
build a tree, and the code is the postorder of that tree; what is known of
trees and sentences does the rest.
-/

namespace BranchingTime.Expr

/-! ## Operands -/

/-- The operand that a word is, as the compiler has it. -/
def operandOf (names : List String) (word : String) : Option Operand :=
  match Reading.operand names word with
  | .ok (.num value) => some (.num word value)
  | .ok (.var index _) => some (.var index word)
  | _ => none

section Operands

variable {names : List String} {word : String} {o : Operand}

theorem text_operandOf (h : operandOf names word = some o) : o.text = word := by
  unfold operandOf at h
  split at h <;> cases h <;> rfl

theorem numeralValue_eq_decimal (text : String) :
    Text.numeralValue text.toList = Operand.decimal text := by
  simp only [Text.numeralValue, Operand.decimal, Nat.ofDigits_eq_foldr, List.foldr_reverse,
    List.foldl_map, Nat.cast_id, Nat.add_comm]

/-- What the compiler takes for an operand. -/
theorem operand_cases (names : List String) (word : String) :
    (∃ value, Reading.operand names word = .ok (.num value) ∧ Text.isNumeral word.toList = true
      ∧ Text.numeralValue word.toList ≤ 32767 ∧ value = .ofNat (Text.numeralValue word.toList))
    ∨ (∃ c cs index, Reading.operand names word = .ok (.var index word)
      ∧ word.toList = c :: cs ∧ c.isDigit = false ∧ names.idxOf? word = some index)
    ∨ ∃ e, Reading.operand names word = .error e := by
  unfold Reading.operand
  split
  next c cs heq =>
    split_ifs with hdigit hnumeral hle
    · exact .inl ⟨_, rfl, heq ▸ hnumeral, heq ▸ hle, by rw [heq]⟩
    · exact .inr (.inr ⟨_, rfl⟩)
    · exact .inr (.inr ⟨_, rfl⟩)
    · split
      next i hi => exact .inr (.inl ⟨c, cs, i, rfl, heq, by simpa using hdigit, hi⟩)
      next => exact .inr (.inr ⟨_, rfl⟩)
  next => exact .inr (.inr ⟨_, rfl⟩)

/-- Of words, the compiler takes the declared operands. -/
theorem declared_of_operandOf (hword : ∀ c ∈ word.toList, Text.isWordChar c = true)
    (h : operandOf names word = some o) : o.Declared names := by
  unfold operandOf at h
  rcases operand_cases names word with ⟨value, heq, hnumeral, hle, rfl⟩
    | ⟨c, cs, index, heq, hlist, hdigit, hindex⟩ | ⟨e, heq⟩
  · rw [heq] at h
    cases h
    simp only [Text.isNumeral, Bool.and_eq_true, Bool.not_eq_true', List.isEmpty_eq_false_iff,
      List.all_eq_true] at hnumeral
    rw [numeralValue_eq_decimal] at hle ⊢
    refine ⟨?_, hnumeral.2, hle, Int16.toInt_ofNat_of_lt (Nat.lt_succ_of_le hle)⟩
    rintro rfl
    exact hnumeral.1 rfl
  · rw [heq] at h
    cases h
    have hc := hword c (hlist ▸ .head _)
    obtain ⟨hlt, hget, hfirst⟩ := List.idxOf?_eq_some_iff.mp hindex
    refine ⟨⟨c, cs, hlist, ?_⟩, ?_, fun i hi => ?_⟩
    · simpa [isWordChar_iff, hdigit] using hc
    · rw [List.getElem?_eq_getElem hlt, hget]
    · rw [List.getElem?_eq_getElem (hi.trans hlt)]
      exact fun heq => hfirst i hi (Option.some.inj heq)
  · rw [heq] at h
    cases h

theorem isDigit_of_isAlpha {c : Char} (h : c.isAlpha = true) : c.isDigit = false := by
  refine Bool.eq_false_iff.mpr fun hdigit => ?_
  rw [isAlpha_iff] at h
  rw [isDigit_iff] at hdigit
  omega

/-- The compiler takes all declared operands. -/
theorem Operand.Declared.operandOf (h : o.Declared names) :
    operandOf names o.text = some o := by
  cases o with
  | num text value =>
      obtain ⟨hne, hdigits, hle, hvalue⟩ := h
      obtain ⟨c, cs, hlist⟩ := List.exists_cons_of_ne_nil (mt String.toList_eq_nil_iff.mp hne)
      have hnumeral : Text.isNumeral (c :: cs) = true := by
        simpa [Text.isNumeral, hlist] using hdigits
      have hc : c.isDigit = true := hdigits c (hlist ▸ .head _)
      have hdecimal : Text.numeralValue (c :: cs) = decimal text := by
        rw [← hlist, numeralValue_eq_decimal]
      have hofNat : Int16.ofNat (decimal text) = value := by
        rw [← Int16.toInt_inj, hvalue, Int16.toInt_ofNat_of_lt (Nat.lt_succ_of_le hle)]
      simp [Expr.operandOf, Operand.text, Reading.operand, hlist, hnumeral, hc, hdecimal, hle,
        hofNat]
  | var index name =>
      obtain ⟨⟨c, cs, hlist, hc⟩, hget, hfirst⟩ := h
      obtain ⟨hlt, heq⟩ := List.getElem?_eq_some_iff.mp hget
      have hindex : names.idxOf? name = some index := by
        refine List.idxOf?_eq_some_iff.mpr ⟨hlt, heq, fun i hi hname => hfirst i hi ?_⟩
        rw [List.getElem?_eq_getElem (hi.trans hlt), hname]
      have hdigit : c.isDigit = false := by
        rcases hc with hc | rfl
        · exact isDigit_of_isAlpha hc
        · rfl
      simp [Expr.operandOf, Operand.text, Reading.operand, hlist, hdigit, hindex]

end Operands

/-! ## In step with the reader of tokens -/

namespace Building

/-- The code of what is left of the frames' last subtrees, last instruction
first. -/
def outputOf : List Frame → List Instr
  | [] => []
  | .openParen :: fs | .unary _ :: fs => outputOf fs
  | .binary _ l :: fs => l.postorder.reverse ++ outputOf fs

/-- The frames without their trees. -/
def pendingOf : List Frame → List Pending
  | [] => []
  | .openParen :: fs => .openParen :: pendingOf fs
  | .unary op :: fs => .unary op :: pendingOf fs
  | .binary op _ :: fs => .binary op :: pendingOf fs

theorem release_reduce (p : Nat → Bool) (t : Tree) (fs : List Frame) :
    Reading.release p (t.postorder.reverse ++ outputOf fs) (pendingOf fs)
      = ((reduce p t fs).1.postorder.reverse ++ outputOf (reduce p t fs).2,
        pendingOf (reduce p t fs).2) := by
  fun_induction reduce p t fs with
  | case1 t op fs hp ih =>
      simp [Reading.release, outputOf, pendingOf, hp, ← ih, Tree.postorder]
  | case3 t op l fs hp ih =>
      simp [Reading.release, outputOf, pendingOf, hp, ← ih, Tree.postorder]
  | case2 t op fs hp => simp [Reading.release, pendingOf, hp]
  | case4 t op l fs hp => simp [Reading.release, pendingOf, hp]
  | case5 t fs hunary hbinary =>
      rcases fs with _ | ⟨_ | op | ⟨op, l⟩, fs⟩
      · rfl
      · rfl
      · exact absurd rfl (hunary op fs)
      · exact absurd rfl (hbinary op l fs)

end Building

open Building

/-- The compiler has output what was built, and has the rest on its stack. -/
structure Shows (r : Reading) (b : Building) : Prop where
  output_eq : r.output = (b.current.map (·.postorder.reverse)).getD [] ++ outputOf b.frames
  pending_eq : r.pending = pendingOf b.frames
  wants_eq : r.wantsOperand = b.current.isNone

/-- Both fail, or both go on in step. -/
inductive InStep : Except ExprError Reading → Option Building → Prop
  | go {r : Reading} {b : Building} (h : Shows r b) : InStep (.ok r) (some b)
  | fail {e : ExprError} : InStep (.error e) none

section InStep

variable {names : List String} {r : Reading} {b : Building}

theorem InStep.bind {x : Except ExprError Reading} {y : Option Building}
    {f : Reading → Except ExprError Reading} {g : Building → Option Building}
    (h : InStep x y) (hfg : ∀ r b, Shows r b → InStep (f r) (g b)) :
    InStep (x >>= f) (y.bind g) := by
  cases h with
  | go h => exact hfg _ _ h
  | fail => exact .fail

/-! Each kind of lexeme, where it can stand. -/

theorem Shows.word {fs : List Frame} (h : Shows r ⟨fs, none⟩) (text : String) :
    InStep (r.step names (.word text))
      (Building.read (operandOf names) ⟨fs, none⟩ (.word text)) := by
  have hwants : r.wantsOperand = true := h.wants_eq
  simp only [Reading.step, Reading.expect, hwants, if_true, Building.read]
  rcases operand_cases names text with ⟨value, heq, -⟩ | ⟨c, cs, index, heq, -⟩ | ⟨e, heq⟩
  · simp only [operandOf, heq]
    exact .go ⟨congrArg (_ :: ·) h.output_eq, h.pending_eq, rfl⟩
  · simp only [operandOf, heq]
    exact .go ⟨congrArg (_ :: ·) h.output_eq, h.pending_eq, rfl⟩
  · simp only [operandOf, heq]
    exact .fail

theorem Shows.openParen {fs : List Frame} (h : Shows r ⟨fs, none⟩) :
    InStep (r.step names .openParen) (some ⟨.openParen :: fs, none⟩) := by
  have hwants : r.wantsOperand = true := h.wants_eq
  simp only [Reading.step, Reading.expect, hwants, if_true]
  exact .go ⟨h.output_eq, congrArg (_ :: ·) h.pending_eq, rfl⟩

theorem Shows.unary {fs : List Frame} (h : Shows r ⟨fs, none⟩) (op : UnaryOp) :
    InStep (r.unary op) (some ⟨.unary op :: fs, none⟩) := by
  have hwants : r.wantsOperand = true := h.wants_eq
  simp only [Reading.unary, Reading.expect, hwants, if_true]
  exact .go ⟨h.output_eq, congrArg (_ :: ·) h.pending_eq, rfl⟩

theorem Shows.release {fs : List Frame} {last : Tree} (h : Shows r ⟨fs, some last⟩)
    (p : Nat → Bool) :
    Reading.release p r.output r.pending
      = ((reduce p last fs).1.postorder.reverse ++ outputOf (reduce p last fs).2,
        pendingOf (reduce p last fs).2) := by
  rw [h.output_eq, h.pending_eq]
  exact release_reduce p last fs

theorem Shows.binary {fs : List Frame} {last : Tree} (h : Shows r ⟨fs, some last⟩)
    (names : List String) (op : BinaryOp) :
    InStep (r.binary op) (Building.read (operandOf names) ⟨fs, some last⟩ (.binary op)) := by
  have hwants : r.wantsOperand = false := h.wants_eq
  simp only [Reading.binary, Reading.expect, hwants, if_true, h.release]
  exact .go ⟨rfl, rfl, rfl⟩

theorem Shows.close {fs : List Frame} {last : Tree} (h : Shows r ⟨fs, some last⟩)
    (names : List String) :
    InStep r.close (Building.read (operandOf names) ⟨fs, some last⟩ .closeParen) := by
  have hwants : r.wantsOperand = false := h.wants_eq
  simp only [Reading.close, Reading.expect, hwants, if_true, h.release, Building.read]
  generalize reduce (fun _ => true) last fs = reduced
  rcases reduced with ⟨t, _ | ⟨_ | op | ⟨op, l⟩, fs⟩⟩
  · exact .fail
  · exact .go ⟨rfl, rfl, rfl⟩
  · exact .fail
  · exact .fail

/-- One lexeme. -/
theorem Shows.step (h : Shows r b) (l : Lexeme) :
    InStep (r.step names l)
      ((ofLexeme b.current.isNone l).bind (b.read (operandOf names))) := by
  obtain ⟨fs, _ | last⟩ := b
  · have hwants : r.wantsOperand = true := h.wants_eq
    cases l with
    | word text => exact h.word text
    | openParen => exact h.openParen
    | minus =>
        simp only [Reading.step, hwants, if_true]
        exact h.unary .neg
    | bang => exact h.unary .not
    | closeParen =>
        simp only [Reading.step, Reading.close, Reading.expect, hwants]
        exact .fail
    | binary op =>
        simp only [Reading.step, Reading.binary, Reading.expect, hwants]
        exact .fail
    | invalid c => exact .fail
  · have hwants : r.wantsOperand = false := h.wants_eq
    cases l with
    | closeParen => exact h.close names
    | minus =>
        simp only [Reading.step, hwants, Bool.false_eq_true, if_false]
        exact h.binary names .sub
    | binary op => exact h.binary names op
    | word text =>
        simp only [Reading.step, Reading.expect, hwants]
        exact .fail
    | openParen =>
        simp only [Reading.step, Reading.expect, hwants]
        exact .fail
    | bang =>
        simp only [Reading.step, Reading.unary, Reading.expect, hwants]
        exact .fail
    | invalid c => exact .fail

/-- Lexemes turned into tokens one after the other, as they are read. -/
theorem run_ofLexemes_cons {operand? : String → Option Operand} (b : Building) (l : Lexeme)
    (ls : List Lexeme) :
    ((ofLexemes b.current.isNone (l :: ls)).bind fun ts => ts.foldlM (Building.read operand?) b)
      = ((ofLexeme b.current.isNone l).bind (b.read operand?)).bind fun b' =>
        (ofLexemes b'.current.isNone ls).bind fun ts => ts.foldlM (Building.read operand?) b' := by
  rw [ofLexemes]
  cases ofLexeme b.current.isNone l with
  | none => rfl
  | some tok =>
      cases hread : b.read operand? tok with
      | none => cases h : ofLexemes tok.wantsAfter ls <;> simp [h, hread]
      | some b' =>
          rw [Option.bind_some, Option.bind_some, hread, Option.bind_some,
            (step_of_read hread).isNone_current]
          cases h : ofLexemes tok.wantsAfter ls <;> simp [hread]

/-- All lexemes. -/
theorem Shows.run (h : Shows r b) (names : List String) (ls : List Lexeme) :
    InStep (ls.foldlM (Reading.step names) r)
      ((ofLexemes b.current.isNone ls).bind fun ts =>
        ts.foldlM (Building.read (operandOf names)) b) := by
  induction ls generalizing r b with
  | nil => exact .go h
  | cons l ls ih =>
      rw [List.foldlM_cons, run_ofLexemes_cons]
      exact (h.step l).bind fun r b h => ih h

/-- The end. -/
theorem Shows.finish (h : Shows r b) (code : List Instr) :
    r.finish = .ok code ↔ ∃ t, b.finish = some t ∧ code = t.postorder := by
  obtain ⟨fs, _ | last⟩ := b
  · have hphase : r.phase ≠ .operator := by simpa [Reading.wantsOperand] using h.wants_eq
    cases hr : r.phase with
    | operator => exact absurd hr hphase
    | start | operand => simp [Reading.finish, hr, Building.finish]
  · have hphase : r.phase = .operator := by simpa [Reading.wantsOperand] using h.wants_eq
    simp only [Reading.finish, hphase, h.release, Building.finish, Option.bind_some]
    generalize reduce (fun _ => true) last fs = reduced
    rcases reduced with ⟨t, _ | ⟨_ | op | ⟨op, l⟩, fs⟩⟩
    · simp [outputOf, pendingOf, eq_comm]
    · simp [pendingOf]
    · simp [pendingOf]
    · simp [pendingOf]

theorem InStep.finish {x : Except ExprError Reading} {y : Option Building} (h : InStep x y)
    (code : List Instr) :
    (x >>= Reading.finish) = .ok code ↔ ∃ t, y.bind Building.finish = some t
      ∧ code = t.postorder := by
  cases h with
  | go h => exact h.finish code
  | fail =>
      constructor
      · rintro ⟨⟩
      · rintro ⟨t, ⟨⟩, -⟩

end InStep

/-! ## Compilation -/

section Compilation

variable {names : List String} {text : String} {t t' : Tree} {e : Expr}

/-- Lexemes compile to the postorder of the tree that their tokens build. -/
theorem codeOfLexemes_eq_ok_iff {ls : List Lexeme} {code : List Instr} :
    codeOfLexemes names ls = .ok code
      ↔ ∃ ts t, ofLexemes true ls = some ts ∧ build (operandOf names) ts = some t
        ∧ code = t.postorder := by
  have hstart : Shows {} {} := ⟨rfl, rfl, rfl⟩
  refine ((hstart.run names ls).finish code).trans ?_
  simp only [Option.isNone_none, Option.bind_assoc, Option.bind_eq_some_iff]
  constructor
  · rintro ⟨t, ⟨ts, hts, ht⟩, hcode⟩
    exact ⟨ts, t, hts, Option.bind_eq_some_iff.mpr ht, hcode⟩
  · rintro ⟨ts, t, hts, ht, hcode⟩
    exact ⟨t, ⟨ts, hts, Option.bind_eq_some_iff.mp ht⟩, hcode⟩

/-- The tree that a text is over the declared names. -/
structure Parses (names : List String) (text : String) (t : Tree) : Prop where
  reads : Reads true text.toList t.tokens
  proper : t.Proper (Operand.Declared names)

theorem Parses.build (h : Parses names text t) : build (operandOf names) t.tokens = some t :=
  build_tokens (fun _ ho => ho.operandOf) h.proper

theorem Parses.unique (h : Parses names text t) (h' : Parses names text t') : t = t' := by
  have hbuild := h'.build
  rw [← h.reads.unique h'.reads, h.build] at hbuild
  exact Option.some.inj hbuild

theorem parses_of_build {ts : List Token} (hreads : Reads true text.toList ts)
    (h : build (operandOf names) ts = some t) : Parses names text t := by
  have hop (w : String) (o : Operand) (ho : operandOf names w = some o) :
      operandOf names o.text = some o ∧ o.text = w := by
    rw [text_operandOf ho]
    exact ⟨ho, rfl⟩
  obtain ⟨hproper, rfl⟩ := build_sound hop h
  refine ⟨hreads, hproper.operands.imp fun o hmem ho => ?_, hproper.ordered⟩
  exact declared_of_operandOf (fun c hc => hreads.isWordChar_of_mem hmem hc) ho

theorem compile_eq_ok_iff :
    compile text names = .ok e ↔ ∃ t, Parses names text t ∧ e = ⟨text, t.postorder⟩ := by
  have hcompile : compile text names = .ok e
      ↔ ∃ code, codeOfLexemes names (lex text.toList) = .ok code ∧ e = ⟨text, code⟩ := by
    unfold compile
    cases codeOfLexemes names (lex text.toList) with
    | error err => simp [bind, Except.bind]
    | ok code => simp [bind, Except.bind, pure, Except.pure, eq_comm]
  rw [hcompile]
  constructor
  · rintro ⟨code, hcode, rfl⟩
    obtain ⟨ts, t, hts, ht, rfl⟩ := codeOfLexemes_eq_ok_iff.mp hcode
    exact ⟨t, parses_of_build (reads_iff.mpr hts) ht, rfl⟩
  · rintro ⟨t, ht, rfl⟩
    exact ⟨_, codeOfLexemes_eq_ok_iff.mpr ⟨_, t, reads_iff.mp ht.reads, ht.build, rfl⟩, rfl⟩

theorem exists_parses_iff :
    (∃ t, Parses names text t)
      ↔ ∃ ts, Reads true text.toList ts ∧ Sentence (Operand.Declared names) ts := by
  constructor
  · rintro ⟨t, ht⟩
    exact ⟨t.tokens, ht.reads, ht.proper.operands.sentence⟩
  · rintro ⟨ts, hreads, hts⟩
    obtain ⟨t, ht⟩ := hts.exists_build fun _ ho => ho.operandOf
    exact ⟨t, parses_of_build hreads ht⟩

/-- A text compiles exactly when its tokens are a sentence, and then to the
postorder of its one tree with operators in order. -/
theorem compile_exact (text : String) (names : List String) :
    ((∃ e, compile text names = .ok e)
      ↔ ∃ ts, Reads true text.toList ts ∧ Sentence (Operand.Declared names) ts)
    ∧ ∀ e, compile text names = .ok e →
      e.text = text ∧ (∃! t, Parses names text t)
        ∧ ∀ t, Parses names text t → e.code = t.postorder := by
  constructor
  · rw [← exists_parses_iff]
    constructor
    · rintro ⟨e, he⟩
      obtain ⟨t, ht, -⟩ := compile_eq_ok_iff.mp he
      exact ⟨t, ht⟩
    · rintro ⟨t, ht⟩
      exact ⟨_, compile_eq_ok_iff.mpr ⟨t, ht, rfl⟩⟩
  · intro e he
    obtain ⟨t, ht, rfl⟩ := compile_eq_ok_iff.mp he
    exact ⟨rfl, ⟨t, ht, fun t' ht' => ht'.unique ht⟩, fun t' ht' => by rw [ht.unique ht']⟩

/-- A difference, a sign and a product, in the order of their tree. -/
theorem compile_exact_of_signs :
    (∃ ts, Reads true "1--a*2".toList ts ∧ Sentence (Operand.Declared ["a"]) ts)
    ∧ (∃! t, Parses ["a"] "1--a*2" t)
    ∧ ∀ t, Parses ["a"] "1--a*2" t →
      t.postorder = [.num 1, .var 0 "a", .unary .neg, .num 2, .binary .mul, .binary .sub] := by
  have hcompile : compile "1--a*2" ["a"] = .ok ⟨"1--a*2", [.num 1, .var 0 "a", .unary .neg,
      .num 2, .binary .mul, .binary .sub]⟩ := by decide +kernel
  obtain ⟨hgrammar, htree⟩ := compile_exact "1--a*2" ["a"]
  obtain ⟨-, hunique, hcode⟩ := htree _ hcompile
  exact ⟨hgrammar.mp ⟨_, hcompile⟩, hunique, fun t ht => (hcode t ht).symm⟩

end Compilation

end BranchingTime.Expr
