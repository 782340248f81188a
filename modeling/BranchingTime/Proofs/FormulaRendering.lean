import BranchingTime.Ctl.Evaluate
import BranchingTime.Proofs.Diagnosis
import BranchingTime.Proofs.FormulaTokens
import BranchingTime.Proofs.TemporalSemantics

/-!
# Infix forms of formulas

A formula can be written in many ways: parentheses stand where precedence
and association need them, and wherever else one likes (`Renders`). All of
them compile to the code of the formula.

Reading a formula leaves operators pending whose operands are complete but
that may still wait for a looser operator. They are of the formula's own
level or tighter, so whoever ends the formula releases them: what was read
agrees with the whole code of the formula as soon as everything tighter than
its level is released (`Renders.read`).
-/

namespace BranchingTime.Ctl

/-! ## Precedence -/

/-- The binary operators by how tightly they bind, from the loosest. -/
def BinaryOp.tiers : List (List BinaryOp) := [[.or, .xor], [.and], [.au, .eu]]

def BinaryOp.tightness (op : BinaryOp) : Nat := tiers.findIdx (op ∈ ·)

/-- All unary operators bind tighter than all binary ones. -/
def UnaryOp.tightness (_ : UnaryOp) : Nat := BinaryOp.tiers.length

theorem BinaryOp.precedence_eq (op : BinaryOp) : op.precedence = op.tightness + 1 := by
  cases op <;> rfl

theorem BinaryOp.tightness_lt (op : BinaryOp) : op.tightness < tiers.length := by
  cases op <;> decide

/-! ## Renderings -/

/-- The tokens are an infix form of the formula, for a place where operators
must bind at least as tightly as the level says. Binary operators associate
to the left; what is in parentheses may stand anywhere. -/
inductive Renders : Nat → Tree → List Token → Prop
  | operand (level index : Nat) : Renders level (.operand index) [.operand index]
  | parens (level : Nat) {t : Tree} {ts : List Token} (h : Renders 0 t ts) :
      Renders level t (.openParen :: (ts ++ [.closeParen]))
  | unary {level : Nat} (op : UnaryOp) {t : Tree} {ts : List Token} (hlevel : level ≤ op.tightness)
      (h : Renders op.tightness t ts) : Renders level (.unary op t) (.unary op :: ts)
  | binary {level : Nat} (op : BinaryOp) {l r : Tree} {ts ts' : List Token}
      (hlevel : level ≤ op.tightness) (h : Renders op.tightness l ts)
      (h' : Renders (op.tightness + 1) r ts') :
      Renders level (.binary op l r) (ts ++ .binary op :: ts')

/-- The sentences of the infix language, whatever binds tighter. -/
inductive Sentence : List Token → Prop
  | operand (index : Nat) : Sentence [.operand index]
  | parens {ts : List Token} (h : Sentence ts) : Sentence (.openParen :: (ts ++ [.closeParen]))
  | unary (op : UnaryOp) {ts : List Token} (h : Sentence ts) : Sentence (.unary op :: ts)
  | binary (op : BinaryOp) {ts ts' : List Token} (h : Sentence ts) (h' : Sentence ts') :
      Sentence (ts ++ .binary op :: ts')

/-- Is an operand awaited where the token stands? -/
def Token.starts : Token → Bool
  | operand _ | unary _ | openParen => true
  | binary _ | closeParen => false

/-- Is an operand awaited after the token? -/
def Token.continues : Token → Bool
  | unary _ | binary _ | openParen => true
  | operand _ | closeParen => false

/-- Every token is in place, given whether an operand is awaited at first;
none is at the end. -/
def InPlace : Bool → List Token → Prop
  | awaited, [] => awaited = false
  | awaited, t :: ts => t.starts = awaited ∧ InPlace t.continues ts

section Sentences

variable {level : Nat} {t : Tree} {ts rest : List Token}

theorem Sentence.inPlace_append (h : Sentence ts) :
    InPlace true (ts ++ rest) ↔ InPlace false rest := by
  induction h generalizing rest with
  | operand => simp [InPlace, Token.starts, Token.continues]
  | parens h ih => simp [InPlace, Token.starts, Token.continues, ih]
  | unary op h ih => simp [InPlace, Token.starts, Token.continues, ih]
  | binary op h h' ih ih' => simp [InPlace, Token.starts, Token.continues, ih, ih']

theorem Sentence.inPlace (h : Sentence ts) : InPlace true ts := by
  have hplace : InPlace true (ts ++ []) := h.inPlace_append.mpr rfl
  rwa [List.append_nil] at hplace

theorem Renders.sentence (h : Renders level t ts) : Sentence ts := by
  induction h with
  | operand level index => exact .operand index
  | parens level h ih => exact ih.parens
  | unary op hlevel h ih => exact ih.unary op
  | binary op hlevel h h' ih ih' => exact ih.binary op ih'

theorem Renders.operand_mem (h : Renders level t ts) {index : Nat} (hmem : .operand index ∈ ts) :
    .operand index ∈ t.postorder := by
  induction h with
  | operand level index' => simpa [Tree.postorder] using hmem
  | parens level h ih => exact ih (by simpa using hmem)
  | unary op hlevel h ih =>
      rw [Tree.postorder, List.mem_append]
      exact .inl (ih (by simpa using hmem))
  | @binary level op l r ts ts' hlevel h h' ih ih' =>
      have hmem : .operand index ∈ ts ∨ .operand index ∈ ts' := by simpa using hmem
      rw [Tree.postorder, List.mem_append, List.mem_append]
      exact .inl (hmem.imp ih ih')

theorem Renders.small (h : Renders level t ts)
    (hsmall : ∀ index, .operand index ∈ t.postorder → index < 2 ^ 64) : ∀ u ∈ ts, u.Small := by
  intro u hu
  cases u with
  | operand index => exact hsmall index (h.operand_mem hu)
  | unary | binary | openParen | closeParen => trivial

end Sentences

/-! ## Spaces -/

/-- There must be a space between a number, a closing parenthesis or a
keyword and a keyword, and between a keyword and a number. -/
def Token.Crowds : Token → Token → Prop
  | operand _, unary _ | operand _, binary _ => True
  | closeParen, unary _ | closeParen, binary _ => True
  | unary _, unary _ | unary _, binary _ | binary _, unary _ | binary _, binary _ => True
  | unary _, operand _ | binary _, operand _ => True
  | _, _ => False

/-- The other neighbours that the lexer keeps apart are none in a formula. -/
theorem Token.Clashes.crowds {t t' : Token} (h : t.Clashes t') (hplace : t'.starts = t.continues) :
    t.Crowds t' := by
  cases t <;> cases t' <;>
    simp_all [Clashes, Crowds, starts, continues, charClass, CharClass.clash, CharClass.isWord]

theorem Token.Crowds.clashes {t t' : Token} (h : t.Crowds t') : t.Clashes t' := by
  cases t <;> cases t' <;>
    simp_all [Clashes, Crowds, charClass, CharClass.clash, CharClass.isWord]

theorem Spells.imp {Crowds Crowds' : Token → Token → Prop} {ts : List Token} {text : List Char}
    (h : Spells Crowds ts text) (himp : ∀ t t', Crowds' t t' → Crowds t t') :
    Spells Crowds' ts text := by
  induction h with
  | done gap => exact .done gap
  | token gap ht hgap h ih => exact .token gap ht (fun t' ht' hc => hgap t' ht' (himp _ t' hc)) ih

theorem Spells.clashes {ts : List Token} {text : List Char} {awaited : Bool}
    (h : Spells Token.Crowds ts text) (hplace : InPlace awaited ts) :
    Spells Token.Clashes ts text := by
  induction h generalizing awaited with
  | done gap => exact .done gap
  | @token gap t ts pre rest ht hgap h ih =>
      refine .token gap ht (fun t' ht' hclash => ?_) (ih hplace.2)
      obtain ⟨ts', rfl⟩ := List.head?_eq_some_iff.mp ht'
      exact hgap t' ht' (hclash.crowds hplace.2.1)

/-! ## Reading a formula -/

namespace Reading

variable {level : Nat} {out : List Instr} {pend : List Pending}

/-- What is pending waits for a formula of this level. -/
def Awaits (level : Nat) : List Pending → Prop
  | .unary op :: _ => op.tightness ≤ level
  | .binary op :: _ => op.tightness < level
  | _ => True

/-- The readings agree when everything tighter than the level is released. -/
def AgreeAbove (level : Nat) (r r' : Reading) : Prop :=
  ∀ p : Nat → Bool, (∀ m, level < m → p m = true) →
    release p r.output r.pending = release p r'.output r'.pending

theorem Awaits.mono {level' : Nat} (h : Awaits level pend) (hle : level ≤ level') :
    Awaits level' pend := by
  rcases pend with _ | ⟨_ | op | op, pend⟩
  · trivial
  · trivial
  · exact h.trans hle
  · exact Nat.lt_of_lt_of_le h hle

/-- An operator that is loose enough to stand in the formula releases nothing
that waits for the formula. -/
theorem Awaits.release_eq (h : Awaits level pend) {op : BinaryOp} (hle : level ≤ op.tightness) :
    release (op.precedence ≤ ·) out pend = ⟨out, pend⟩ := by
  rcases pend with _ | ⟨_ | op' | op', pend⟩
  · rfl
  · rfl
  · exact absurd (h.trans hle) (Nat.not_le.mpr op.tightness_lt)
  · have hlt : ¬ op.precedence ≤ op'.precedence := by
      rw [op.precedence_eq, op'.precedence_eq]
      exact Nat.not_le.mpr (Nat.succ_lt_succ (Nat.lt_of_lt_of_le h hle))
    simp [release, hlt]

theorem agreeAbove_releaseUnary (hlevel : level ≤ BinaryOp.tiers.length) (r : Reading) :
    AgreeAbove level r.releaseUnary r := by
  intro p hp
  rcases r with ⟨out, _ | ⟨_ | op | op, pend⟩⟩
  · rfl
  · rfl
  · simp [releaseUnary, release, hp op.precedence (Nat.lt_succ_of_le hlevel)]
  · rfl

end Reading

open Reading

/-- Reading a formula is as good as putting its code into the output. -/
theorem Renders.read {level : Nat} {t : Tree} {ts : List Token} (h : Renders level t ts)
    (hlevel : level ≤ BinaryOp.tiers.length) (out : List Instr) (pend : List Pending)
    (hpend : Awaits level pend) :
    ∃ r, ts.foldlM Reading.read ⟨out, pend⟩ = some r
      ∧ AgreeAbove level r ⟨t.postorder.reverse ++ out, pend⟩ := by
  induction h generalizing out pend with
  | operand level index => exact ⟨_, rfl, fun p hp => rfl⟩
  | @parens level t ts h ih =>
      obtain ⟨r, hrun, hagree⟩ := ih (Nat.zero_le _) out (.openParen :: pend) trivial
      -- at the open parenthesis every release stops, so only the formula's own operators go
      have hrelease := hagree (fun _ => true) fun _ _ => rfl
      have hclose :
          r.read .closeParen = some (releaseUnary ⟨t.postorder.reverse ++ out, pend⟩) := by
        rw [Reading.read, step, hrelease]
        rfl
      refine ⟨_, ?_, agreeAbove_releaseUnary hlevel _⟩
      change (ts ++ [Token.closeParen]).foldlM Reading.read ⟨out, .openParen :: pend⟩ = _
      rw [List.foldlM_append, hrun]
      simp [hclose]
  | @unary level op t ts hop h ih =>
      obtain ⟨r, hrun, hagree⟩ := ih le_rfl out (.unary op :: pend) le_rfl
      refine ⟨r, hrun, fun p hp => ?_⟩
      have hp' : p op.precedence = true := hp _ (Nat.lt_succ_of_le hlevel)
      rw [hagree p fun m hm => hp m (Nat.lt_of_le_of_lt hop hm)]
      simp [release, hp', Tree.postorder]
  | @binary level op l t ts ts' hop h h' ih ih' =>
      obtain ⟨r₁, hrun, hagree⟩ := ih op.tightness_lt.le out pend (hpend.mono hop)
      obtain ⟨r₂, hrun', hagree'⟩ := ih' op.tightness_lt (l.postorder.reverse ++ out)
        (.binary op :: pend) (Nat.lt_succ_self _)
      -- the operator releases the left operand, and what waits for the formula stays
      have hop' : r₁.read (.binary op) = some ⟨l.postorder.reverse ++ out, .binary op :: pend⟩ := by
        rw [Reading.read, Reading.operator, hagree _ fun m hm => ?_, hpend.release_eq hop]
        · rfl
        · exact decide_eq_true (op.precedence_eq ▸ hm)
      refine ⟨r₂, ?_, fun p hp => ?_⟩
      · rw [List.foldlM_append, hrun]
        change ((r₁.read (.binary op)).bind fun r => ts'.foldlM Reading.read r) = _
        rw [hop']
        exact hrun'
      · have hp' : p op.precedence = true := hp _ (op.precedence_eq ▸ Nat.lt_succ_of_le hop)
        rw [hagree' p fun m hm => hp m (by omega)]
        simp [release, hp', Tree.postorder]

theorem Tree.postorder_ne_nil (t : Tree) : t.postorder ≠ [] := by
  cases t <;> simp [postorder]

/-- Whatever infix form a formula has, its code is the same. -/
theorem Renders.codeOfTokens_eq {t : Tree} {ts : List Token} (h : Renders 0 t ts) :
    codeOfTokens ts = some t.postorder := by
  obtain ⟨r, hrun, hagree⟩ := h.read (Nat.zero_le _) [] [] trivial
  have hrelease := hagree (fun _ => true) fun _ _ => rfl
  have hfinish : r.finish = .ok t.postorder := by
    rw [finish, hrelease]
    simp [release, t.postorder_ne_nil]
  unfold codeOfTokens
  rw [show ts.foldlM Reading.read {} = some r from hrun]
  simp [hfinish, Except.toOption]

/-! ## Evaluating a formula -/

/-- The code of a formula puts one value on the stack, whatever is there, or
stops at an operand that does not exist. -/
theorem Tree.height_postorder (t : Tree) (operands height : Nat) :
    t.postorder.foldlM (Instr.height operands) height = .ok (height + 1)
      ∨ ∃ index, t.postorder.foldlM (Instr.height operands) height
        = .error (.operandOutOfRange index operands) := by
  induction t generalizing height with
  | operand index =>
      by_cases hlt : index < operands
      · exact .inl (by simp [postorder, Instr.height, hlt])
      · exact .inr ⟨index, by simp [postorder, Instr.height, hlt, bind, Except.bind]⟩
  | unary op arg ih =>
      simp only [postorder, List.foldlM_append]
      rcases ih height with harg | ⟨index, harg⟩
      · rw [harg]
        exact .inl rfl
      · rw [harg]
        exact .inr ⟨index, rfl⟩
  | binary op left right ihl ihr =>
      simp only [postorder, List.foldlM_append]
      rcases ihl height with hleft | ⟨index, hleft⟩
      · rcases ihr (height + 1) with hright | ⟨index, hright⟩
        · exact .inl (by simp [hleft, hright, bind, Except.bind, pure, Except.pure, Instr.height])
        · exact .inr ⟨index, by simp [hleft, hright, bind, Except.bind]⟩
      · rw [hleft]
        exact .inr ⟨index, rfl⟩

theorem Formula.checkCode_postorder (text : String) (t : Tree) (operands : Nat) :
    checkCode operands ⟨text, t.postorder⟩ = .ok ()
      ∨ ∃ index, checkCode operands ⟨text, t.postorder⟩
        = .error (.operandOutOfRange index operands) := by
  unfold checkCode
  rcases t.height_postorder operands 0 with h | ⟨index, h⟩
  · rw [h]
    exact .inl rfl
  · rw [h]
    exact .inr ⟨index, rfl⟩

/-- Every infix form of a formula compiles to the formula's code: letters may
be small or capital, parentheses and spaces may stand wherever they do no
harm. No evaluation of the code misses an operand or leaves one over. -/
theorem Formula.compile_eq_postorder {t : Tree} {ts : List Token} {text : String}
    (hsmall : ∀ index, .operand index ∈ t.postorder → index < 2 ^ 64) (hrenders : Renders 0 t ts)
    (hspells : Spells Token.Crowds ts text.toList) :
    Formula.compile text = .ok ⟨text, t.postorder⟩
      ∧ ∀ (K : Model) (m m' : Manager) (err : CtlError),
        (K.evaluate ⟨text, t.postorder⟩).run m = .ok (.error err) m' →
          (∀ keyword, err ≠ .stackUnderflow keyword) ∧ ∀ count, err ≠ .leftover count := by
  constructor
  · have hwritten : Written text ts :=
      ⟨hspells.clashes hrenders.sentence.inPlace, hrenders.small hsmall⟩
    exact Formula.compile_eq_ok_iff.mpr ⟨ts, _, hwritten, hrenders.codeOfTokens_eq, rfl⟩
  · intro K m m' err hrun
    have hcheck := (ends_evaluate_code ⟨text, t.postorder⟩).of_ok hrun
    rcases Formula.checkCode_postorder text t K.predicates.length with h | ⟨index, h⟩
    · rw [h] at hcheck
      cases hcheck
    · rw [h] at hcheck
      cases hcheck
      exact ⟨fun _ heq => CtlError.noConfusion heq, fun _ heq => CtlError.noConfusion heq⟩

/-- Parentheses around an operand, a zero before a digit, letters of both
cases. -/
theorem Formula.compile_eq_postorder_loose :
    ∃ ts f, Renders 0 (.binary .or (.unary .not (.operand 0))
        (.binary .and (.operand 1) (.operand 2))) ts
      ∧ Spells Token.Crowds ts "not(0) OR  01 And 2".toList
      ∧ Formula.compile "not(0) OR  01 And 2" = .ok f
      ∧ f.code = [.operand 0, .unary .not, .operand 1, .operand 2, .binary .and, .binary .or]
      ∧ ∀ (K : Model) (m m' : Manager) (err : CtlError),
        (K.evaluate f).run m = .ok (.error err) m' →
          (∀ keyword, err ≠ .stackUnderflow keyword) ∧ ∀ count, err ≠ .leftover count := by
  have hrenders : Renders 0 _ [.unary .not, .openParen, .operand 0, .closeParen, .binary .or,
      .operand 1, .binary .and, .operand 2] :=
    .binary .or (by decide) (.unary .not (by decide) (.parens _ (.operand _ 0)))
      (.binary .and (by decide) (.operand _ 1) (.operand _ 2))
  have hwritten : Written "not(0) OR  01 And 2" [.unary .not, .openParen, .operand 0, .closeParen,
      .binary .or, .operand 1, .binary .and, .operand 2] :=
    tokens_lex_iff.mp (by decide +kernel)
  have hspells := hwritten.1.imp fun _ _ => Token.Crowds.clashes
  obtain ⟨hcompile, heval⟩ := compile_eq_postorder (by simp [Tree.postorder]) hrenders hspells
  exact ⟨_, _, hrenders, hspells, hcompile, rfl, heval⟩

end BranchingTime.Ctl
