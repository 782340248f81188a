import BranchingTime.Proofs.CubeReading
import BranchingTime.Proofs.FormulaRendering

/-!
# Texts that pass for formulas

Neither compilation nor evaluation asks where an operator stands: `0 NOT`
is taken for `NOT 0`. What both together make sure of is that parentheses
match, that the operands exist, and that the operators have as many as they
need. So a text that passes has the numbers of a sentence, in their order,
and its operators, and it is evaluated as that sentence is
(`Formula.sentence_of_evaluate`). If every token stands in its place, the
text is a sentence itself.
-/

namespace BranchingTime.Ctl

/-! ## Instructions in tokens -/

def Token.instr? : Token → Option Instr
  | operand index => some (.operand index)
  | unary op => some (.unary op)
  | binary op => some (.binary op)
  | openParen | closeParen => none

def Pending.instr? : Pending → Option Instr
  | unary op => some (.unary op)
  | binary op => some (.binary op)
  | openParen => none

def Instr.isOperand : Instr → Bool
  | operand _ => true
  | unary _ | binary _ => false

/-- The same operands in the same order, and the same operators. -/
structure Rearranged (code code' : List Instr) : Prop where
  perm : code.Perm code'
  operands : code.filter Instr.isOperand = code'.filter Instr.isOperand

namespace Rearranged

variable {code code' code'' rest : List Instr}

theorem refl (code : List Instr) : Rearranged code code := ⟨.refl _, rfl⟩

theorem symm (h : Rearranged code code') : Rearranged code' code := ⟨h.perm.symm, h.operands.symm⟩

theorem trans (h : Rearranged code code') (h' : Rearranged code' code'') :
    Rearranged code code'' :=
  ⟨h.perm.trans h'.perm, h.operands.trans h'.operands⟩

theorem append_right (h : Rearranged code code') (rest : List Instr) :
    Rearranged (code ++ rest) (code' ++ rest) := by
  refine ⟨h.perm.append_right rest, ?_⟩
  rw [List.filter_append, List.filter_append, h.operands]

/-- Operators may pass each other, and operands may pass operators. -/
theorem middle {instr : Instr} (code : List Instr)
    (h : instr.isOperand = false ∨ rest.filter Instr.isOperand = []) :
    Rearranged (code ++ instr :: rest) (code ++ rest ++ [instr]) := by
  constructor
  · rw [List.append_assoc]
    exact (List.perm_append_singleton instr rest).symm.append_left code
  · rcases h with h | h
    · simp [h]
    · rw [List.append_cons, List.filter_append, List.filter_append, List.filter_append,
        List.filter_append, h, List.append_nil, List.append_nil]

end Rearranged

/-! ## Matching parentheses -/

/-- Every parenthesis has its partner, so many open ones being there before. -/
def Matches : Nat → List Token → Prop
  | depth, [] => depth = 0
  | depth, .openParen :: ts => Matches (depth + 1) ts
  | depth + 1, .closeParen :: ts => Matches depth ts
  | 0, .closeParen :: _ => False
  | depth, _ :: ts => Matches depth ts

/-! ## What a reading holds -/

namespace Reading

variable {r r' : Reading} {t : Token} {ts : List Token} {code : List Instr}

/-- All instructions of a reading: those of the output, and the pending ones. -/
def held (r : Reading) : List Instr := r.output.reverse ++ r.pending.filterMap Pending.instr?

/-- How many parentheses are open. -/
def depth (r : Reading) : Nat := r.pending.count .openParen

theorem isOperand_of_instr? {item : Pending} {instr : Instr} (h : item.instr? = some instr) :
    instr.isOperand = false := by
  cases item <;> cases h <;> rfl

theorem filter_pending (pend : List Pending) :
    (pend.filterMap Pending.instr?).filter Instr.isOperand = [] := by
  refine List.filter_eq_nil_iff.mpr fun instr hmem => ?_
  obtain ⟨item, -, hitem⟩ := List.mem_filterMap.mp hmem
  rw [isOperand_of_instr? hitem]
  exact Bool.false_ne_true

theorem held_push (r : Reading) (item : Pending) :
    Rearranged (r.push item).held (r.held ++ item.instr?.toList) := by
  cases hitem : item.instr? with
  | none => simpa [held, push, hitem] using Rearranged.refl _
  | some instr =>
      simpa [held, push, hitem] using
        Rearranged.middle r.output.reverse (.inl (isOperand_of_instr? hitem))

/-- Releasing moves an instruction to the end of the output, where it stood
before. -/
theorem release_spec (p : Nat → Bool) (out : List Instr) (pend : List Pending) :
    (release p out pend).held = held ⟨out, pend⟩
      ∧ (release p out pend).depth = depth ⟨out, pend⟩ := by
  fun_induction release p out pend with
  | case1 out op rest hp ih =>
      rw [ih.1, ih.2]
      simp [held, depth, Pending.instr?]
  | case3 out op rest hp ih =>
      rw [ih.1, ih.2]
      simp [held, depth, Pending.instr?]
  | case2 | case4 | case5 => exact ⟨rfl, rfl⟩

theorem releaseUnary_spec (r : Reading) :
    r.releaseUnary.held = r.held ∧ r.releaseUnary.depth = r.depth := by
  rcases r with ⟨out, _ | ⟨_ | op | op, pend⟩⟩ <;>
    simp [releaseUnary, held, depth, Pending.instr?]

/-- A closing parenthesis releases everything down to the open one. -/
theorem read_closeParen (h : r.read .closeParen = some r') :
    r'.held = r.held ∧ r.depth = r'.depth + 1 := by
  obtain ⟨hheld, hdepth⟩ := release_spec (fun _ => true) r.output r.pending
  have hstep := toOption_eq_some.mp h
  rw [step] at hstep
  split at hstep
  case h_1 out pend heq =>
      rw [heq] at hheld hdepth
      obtain rfl := Except.ok.inj hstep
      obtain ⟨hheld', hdepth'⟩ := releaseUnary_spec ⟨out, pend⟩
      rw [hheld', hdepth']
      constructor
      · exact hheld
      · simpa [depth] using hdepth.symm
  case h_2 => cases hstep

/-- A reading holds what it held, and the instruction of the token. -/
theorem read_held (h : r.read t = some r') : Rearranged r'.held (r.held ++ t.instr?.toList) := by
  cases t with
  | operand index =>
      -- nothing pending is an operand, so the operands stay in order
      obtain rfl := Option.some.inj h
      simpa [held, Token.instr?] using
        Rearranged.middle r.output.reverse (.inr (filter_pending r.pending))
  | unary op =>
      obtain rfl := Option.some.inj h
      exact held_push r (.unary op)
  | binary op =>
      obtain rfl := Option.some.inj h
      have hpush := held_push (release (op.precedence ≤ ·) r.output r.pending) (.binary op)
      rwa [(release_spec _ _ _).1] at hpush
  | openParen =>
      obtain rfl := Option.some.inj h
      exact held_push r .openParen
  | closeParen =>
      rw [(read_closeParen h).1]
      simpa [Token.instr?] using Rearranged.refl _

/-- A reading has as many parentheses open as it must. -/
theorem read_depth (h : r.read t = some r') (hmatches : Matches r'.depth ts) :
    Matches r.depth (t :: ts) := by
  cases t with
  | operand index =>
      obtain rfl := Option.some.inj h
      exact hmatches
  | unary op =>
      obtain rfl := Option.some.inj h
      simpa [Matches, depth, operator, push] using hmatches
  | binary op =>
      obtain rfl := Option.some.inj h
      have hdepth : ((release (op.precedence ≤ ·) r.output r.pending).push (.binary op)).depth
          = r.depth := by
        rw [← (release_spec (op.precedence ≤ ·) r.output r.pending).2]
        simp [depth, push]
      exact hdepth ▸ hmatches
  | openParen =>
      obtain rfl := Option.some.inj h
      simpa [Matches, depth, operator, push] using hmatches
  | closeParen =>
      rw [(read_closeParen h).2]
      exact hmatches

theorem foldlM_read_spec (h : ts.foldlM read r = some r') :
    Rearranged r'.held (r.held ++ ts.filterMap Token.instr?)
      ∧ (r'.depth = 0 → Matches r.depth ts) := by
  induction ts generalizing r with
  | nil =>
      obtain rfl := Option.some.inj h
      exact ⟨by simpa using Rearranged.refl _, fun h => h⟩
  | cons t ts ih =>
      rw [List.foldlM_cons] at h
      obtain ⟨r₁, hread, hrun⟩ := Option.bind_eq_some_iff.mp h
      obtain ⟨hheld, hmatches⟩ := ih hrun
      have hcons : (t :: ts).filterMap Token.instr?
          = t.instr?.toList ++ ts.filterMap Token.instr? := by
        cases hinstr : t.instr? <;> simp [hinstr]
      refine ⟨hheld.trans ?_, fun hzero => read_depth hread (hmatches hzero)⟩
      rw [hcons, ← List.append_assoc]
      exact (read_held hread).append_right _

theorem finish_spec (h : r.finish = .ok code) : r.held = code ∧ r.depth = 0 := by
  obtain ⟨hheld, hdepth⟩ := release_spec (fun _ => true) r.output r.pending
  rw [finish] at h
  split at h
  case h_1 out heq =>
      rw [heq] at hheld hdepth
      split_ifs at h
      obtain rfl := Except.ok.inj h
      exact ⟨by simpa [held] using hheld.symm, by simpa [depth] using hdepth.symm⟩
  case h_2 => cases h

end Reading

/-- Code is made of the instructions of its tokens, whose parentheses match. -/
theorem codeOfTokens_spec {ts : List Token} {code : List Instr} (h : codeOfTokens ts = some code) :
    Rearranged code (ts.filterMap Token.instr?) ∧ Matches 0 ts := by
  obtain ⟨r, hrun, hfinish⟩ := Option.bind_eq_some_iff.mp h
  obtain ⟨rfl, hdepth⟩ := Reading.finish_spec (toOption_eq_some.mp hfinish)
  obtain ⟨hheld, hmatches⟩ := Reading.foldlM_read_spec hrun
  exact ⟨hheld, hmatches hdepth⟩

/-! ## Tokens in their places -/

/-- The tokens are a sentence but for so many open parentheses: inside each of
them stands a sentence, and before it what only awaits an operand. -/
def Complete : Nat → List Token → Prop
  | 0, ts => Sentence ts
  | depth + 1, ts =>
    ∃ outer inner, (∀ s, Sentence s → Complete depth (outer ++ s)) ∧ Sentence inner
      ∧ ts = outer ++ .openParen :: inner

/-- The tokens await an operand, or need none, within so many open
parentheses. -/
def Begun : Bool → Nat → List Token → Prop
  | true, depth, ts => ∀ s, Sentence s → Complete depth (ts ++ s)
  | false, depth, ts => Complete depth ts

section Begun

variable {depth : Nat} {ts rest : List Token}

theorem Complete.binary (h : Complete depth ts) (op : BinaryOp) {s : List Token} (hs : Sentence s) :
    Complete depth (ts ++ .binary op :: s) := by
  cases depth with
  | zero => exact Sentence.binary op h hs
  | succ depth =>
      obtain ⟨outer, inner, houter, hinner, rfl⟩ := h
      exact ⟨outer, _, houter, hinner.binary op hs, by simp⟩

/-- A token that stands in its place carries on what was begun. -/
theorem Begun.step {t : Token} (h : Begun t.starts depth ts)
    (hmatches : Matches depth (t :: rest)) :
    ∃ depth', Begun t.continues depth' (ts ++ [t]) ∧ Matches depth' rest := by
  cases t with
  | operand index => exact ⟨depth, h _ (.operand index), hmatches⟩
  | unary op =>
      refine ⟨depth, fun s hs => ?_, hmatches⟩
      rw [List.append_assoc]
      exact h _ (hs.unary op)
  | binary op =>
      refine ⟨depth, fun s hs => ?_, hmatches⟩
      rw [List.append_assoc]
      exact Complete.binary h op hs
  | openParen =>
      refine ⟨depth + 1, fun s hs => ⟨ts, s, h, hs, ?_⟩, hmatches⟩
      rw [List.append_assoc, List.singleton_append]
  | closeParen =>
      cases depth with
      | zero => exact hmatches.elim
      | succ depth =>
          -- what is in the parentheses now is the operand that was awaited before them
          obtain ⟨outer, inner, houter, hinner, rfl⟩ := h
          have hclosed := houter _ hinner.parens
          rw [← List.cons_append, ← List.append_assoc] at hclosed
          exact ⟨depth, hclosed, hmatches⟩

theorem Begun.sentence {awaited : Bool} (h : Begun awaited depth ts) (hplace : InPlace awaited rest)
    (hmatches : Matches depth rest) : Sentence (ts ++ rest) := by
  induction rest generalizing awaited depth ts with
  | nil =>
      obtain rfl : awaited = false := hplace
      obtain rfl : depth = 0 := hmatches
      rw [List.append_nil]
      exact h
  | cons t rest ih =>
      obtain ⟨rfl, hplace⟩ := hplace
      obtain ⟨depth', h, hmatches⟩ := h.step hmatches
      rw [List.append_cons]
      exact ih h hplace hmatches

end Begun

theorem sentence_of_inPlace {ts : List Token} (hplace : InPlace true ts) (hmatches : Matches 0 ts) :
    Sentence ts := by
  have h : Begun true 0 [] := fun s hs => hs
  exact h.sentence hplace hmatches

/-! ## Code that evaluates -/

/-- Where the height of the stack allows an instruction, there is a tree to
be built. -/
theorem Tree.exists_push {operands height : Nat} {stack : List Tree} {instr : Instr}
    (h : Instr.height operands stack.length instr = .ok height) :
    ∃ stack', push stack instr = some stack' ∧ stack'.length = height
      ∧ ∀ index, instr = .operand index → index < operands := by
  cases instr with
  | operand index =>
      rw [Instr.height] at h
      split_ifs at h with hlt
      obtain rfl := Except.ok.inj h
      exact ⟨_, rfl, rfl, fun _ heq => Instr.operand.inj heq ▸ hlt⟩
  | unary op =>
      rcases stack with _ | ⟨arg, stack⟩
      · cases h
      · obtain rfl := Except.ok.inj h
        exact ⟨_, rfl, rfl, fun _ heq => Instr.noConfusion heq⟩
  | binary op =>
      rcases stack with _ | ⟨right, _ | ⟨left, stack⟩⟩
      · cases h
      · cases h
      · obtain rfl := Except.ok.inj h
        exact ⟨_, rfl, rfl, fun _ heq => Instr.noConfusion heq⟩

theorem Tree.exists_foldlM_push {operands height : Nat} {code : List Instr} (stack : List Tree)
    (h : code.foldlM (Instr.height operands) stack.length = .ok height) :
    ∃ stack', code.foldlM push stack = some stack' ∧ stack'.length = height
      ∧ ∀ index, .operand index ∈ code → index < operands := by
  induction code generalizing stack with
  | nil =>
      obtain rfl := Except.ok.inj h
      exact ⟨stack, rfl, rfl, fun _ hmem => absurd hmem List.not_mem_nil⟩
  | cons instr code ih =>
      rw [List.foldlM_cons] at h
      obtain ⟨height₁, hstep, hrun⟩ := exists_of_bind_eq_ok h
      obtain ⟨stack₁, hpush, rfl, hinstr⟩ := exists_push hstep
      obtain ⟨stack', hpushes, hlength, hcode⟩ := ih stack₁ hrun
      refine ⟨stack', ?_, hlength, fun index hmem => ?_⟩
      · rw [List.foldlM_cons, hpush]
        exact hpushes
      · rcases List.mem_cons.mp hmem with heq | hmem
        · exact hinstr index heq.symm
        · exact hcode index hmem

/-- Code that passes the check is that of a formula over the operands. -/
theorem Formula.exists_tree_of_checkCode {operands : Nat} {f : Formula}
    (h : f.checkCode operands = .ok ()) :
    ∃ t : Tree, t.postorder = f.code ∧ ∀ index, .operand index ∈ f.code → index < operands := by
  obtain ⟨height, hrun, hheight⟩ := exists_of_bind_eq_ok h
  obtain rfl : height = 1 := by
    split at hheight
    · rfl
    · cases hheight
  obtain ⟨stack, hpush, hlength, hcode⟩ := Tree.exists_foldlM_push [] hrun
  obtain ⟨t, rfl⟩ := List.length_eq_one_iff.mp hlength
  exact ⟨t, Tree.foldlM_push_eq_iff.mp hpush, hcode⟩

/-! ## Sentences for formulas -/

theorem Tree.exists_renders (t : Tree) (level : Nat) : ∃ ts, Renders level t ts := by
  induction t generalizing level with
  | operand index => exact ⟨_, .operand level index⟩
  | unary op t ih =>
      obtain ⟨ts, h⟩ := ih op.tightness
      exact ⟨_, .parens level (.unary op (Nat.zero_le _) h)⟩
  | binary op l r ihl ihr =>
      obtain ⟨ts, h⟩ := ihl op.tightness
      obtain ⟨ts', h'⟩ := ihr (op.tightness + 1)
      exact ⟨_, .parens level (.binary op (Nat.zero_le _) h h')⟩

theorem Token.exists_spelled (t : Token) : ∃ cs, t.Spelled cs := by
  cases t with
  | operand index =>
      refine ⟨Nat.toDigits 10 index, Nat.toDigits_ne_nil, fun c hc => ?_, ?_⟩
      · exact Nat.isDigit_of_mem_toDigits (by decide) (by decide) hc
      · rw [ofDigits_eq_numeralValue, Cube.numeralValue_toDigits]
  | unary op => exact ⟨op.keyword.toList, by cases op <;> rfl⟩
  | binary op => exact ⟨op.keyword.toList, by cases op <;> rfl⟩
  | openParen | closeParen => exact ⟨_, rfl⟩

/-- All tokens can be written, with a space after each. -/
theorem exists_spells (Crowds : Token → Token → Prop) (ts : List Token) :
    ∃ text, Spells Crowds ts text := by
  induction ts with
  | nil => exact ⟨_, .done 0⟩
  | cons t ts ih =>
      obtain ⟨cs, ht⟩ := t.exists_spelled
      obtain ⟨text, h⟩ := ih
      exact ⟨_, .token 0 ht (fun _ _ _ => rfl) (spells_space.mpr h)⟩

/-! ## Passing for a formula -/

/-- The tokens of a text that passes for a formula over so many operands.
Another text, which is a sentence, has the same numbers in the same order
and the same operators, and is compiled to the same code. -/
structure Passes (operands : Nat) (text : String) (ts : List Token) : Prop where
  written : Written text ts
  matched : Matches 0 ts
  inRange : ∀ index, .operand index ∈ ts → index < operands
  sentence_iff : Sentence ts ↔ InPlace true ts
  rearranged : ∃ text' ts', Written text' ts' ∧ Sentence ts'
    ∧ Rearranged (ts'.filterMap Token.instr?) (ts.filterMap Token.instr?)
    ∧ (Formula.compile text').map Formula.code = (Formula.compile text).map Formula.code

theorem Written.operand_small {text : String} {ts : List Token} {code : List Instr}
    (hwritten : Written text ts) (hcode : codeOfTokens ts = some code) {index : Nat}
    (hmem : .operand index ∈ code) : index < 2 ^ 64 := by
  obtain ⟨t, ht, hinstr⟩ :=
    List.mem_filterMap.mp ((codeOfTokens_spec hcode).1.perm.mem_iff.mp hmem)
  have hsmall := hwritten.2 t ht
  cases t with
  | operand => exact Instr.operand.inj (Option.some.inj hinstr) ▸ hsmall
  | unary | binary | openParen | closeParen => cases hinstr

theorem passes_of_postorder {operands : Nat} {text : String} {ts : List Token} {t : Tree}
    (hwritten : Written text ts) (hcode : codeOfTokens ts = some t.postorder)
    (hrange : ∀ index, .operand index ∈ t.postorder → index < operands) :
    Passes operands text ts := by
  obtain ⟨hrearranged, hmatched⟩ := codeOfTokens_spec hcode
  obtain ⟨ts', hrenders⟩ := t.exists_renders 0
  obtain ⟨text', hspells⟩ := exists_spells Token.Clashes ts'
  have hwritten' : Written (String.ofList text') ts' := by
    refine ⟨by rwa [String.toList_ofList], hrenders.small fun index hmem => ?_⟩
    exact hwritten.operand_small hcode hmem
  have hcode' := hrenders.codeOfTokens_eq
  refine ⟨hwritten, hmatched, fun index hmem => ?_,
    ⟨Sentence.inPlace, fun h => sentence_of_inPlace h hmatched⟩,
    String.ofList text', ts', hwritten', hrenders.sentence, ?_, ?_⟩
  · exact hrange index (hrearranged.perm.mem_iff.mpr (List.mem_filterMap.mpr ⟨_, hmem, rfl⟩))
  · exact (codeOfTokens_spec hcode').1.symm.trans hrearranged
  · rw [Formula.compile_eq_ok_iff.mpr ⟨ts, _, hwritten, hcode, rfl⟩,
      Formula.compile_eq_ok_iff.mpr ⟨ts', _, hwritten', hcode', rfl⟩]
    rfl

/-- A text that is compiled and evaluated passes for a formula, and a text
that does not is an error of one of the two. -/
theorem Formula.sentence_of_evaluate (text : String) (K : Model) (m : Manager) :
    (∀ f r m', Formula.compile text = .ok f → (K.evaluate f).run m = .ok (.ok r) m' →
      ∃ ts, Passes K.predicates.length text ts)
    ∧ (m.WellFormed → K.OverStates m → K.encoding.numVars ≤ m.numVars →
      (¬ ∃ ts, Passes K.predicates.length text ts) →
        (∃ err, Formula.compile text = .error err)
        ∨ ∃ f err m', Formula.compile text = .ok f
          ∧ (K.evaluate f).run m = .ok (.error err) m') := by
  have hpasses : ∀ f r m', Formula.compile text = .ok f → (K.evaluate f).run m = .ok (.ok r) m' →
      ∃ ts, Passes K.predicates.length text ts := by
    intro f r m' hcompile hrun
    obtain ⟨ts, code, hwritten, hcode, rfl⟩ := Formula.compile_eq_ok_iff.mp hcompile
    have hcheck := (ends_evaluate_code ⟨text, code⟩).of_ok hrun
    obtain ⟨t, rfl, hrange⟩ := Formula.exists_tree_of_checkCode hcheck.symm
    exact ⟨ts, passes_of_postorder hwritten hcode hrange⟩
  refine ⟨hpasses, fun hm hK hvars hnone => ?_⟩
  cases hcompile : Formula.compile text with
  | error err => exact .inl ⟨err, rfl⟩
  | ok f =>
      obtain ⟨r, m', hrun, -⟩ := (returns_evaluate f (hK.presents hm) hvars).exists_ok
      cases r with
      | ok r => exact absurd (hpasses f r m' hcompile hrun) hnone
      | error err => exact .inr ⟨f, err, m', rfl, hrun⟩

/-- The model where nothing steps and the only predicate is true everywhere. -/
theorem overStates_still (m : Manager) :
    Model.OverStates ⟨.one, .zero, [⟨0, ⟨"true", []⟩, .one⟩], ⟨[]⟩⟩ m := by
  refine ⟨m.valid_zero, fun a b _ => by simp, fun p hp => ?_, fun p hp a b _ => ?_⟩
  · obtain rfl := List.mem_singleton.mp hp
    exact m.valid_one
  · obtain rfl := List.mem_singleton.mp hp
    simp

/-- An operator after its operand is no sentence, but it is evaluated. -/
theorem Formula.evaluate_of_misplaced :
    ∃ f m r m', Manager.new? 16 4 = .ok m ∧ Formula.compile "0 NOT" = .ok f
      ∧ (Model.evaluate ⟨.one, .zero, [⟨0, ⟨"true", []⟩, .one⟩], ⟨[]⟩⟩ f).run m = .ok (.ok r) m'
      ∧ ∀ ts, Written "0 NOT" ts → ¬ Sentence ts := by
  have hcompile : Formula.compile "0 NOT" = .ok ⟨"0 NOT", [.operand 0, .unary .not]⟩ := by
    decide +kernel
  have hwritten : Written "0 NOT" [.operand 0, .unary .not] :=
    tokens_lex_iff.mp (by decide +kernel)
  obtain ⟨m, hm⟩ : ∃ m, Manager.new? 16 4 = .ok m := ⟨_, rfl⟩
  refine ⟨_, m, .zero, m, hm, hcompile, rfl, fun ts hts hsentence => ?_⟩
  obtain rfl := hts.unique hwritten
  have hplace := hsentence.inPlace
  simp [InPlace, Token.starts, Token.continues] at hplace

/-- Operators after their operands pass; a number without a predicate does
not. -/
theorem Formula.sentence_of_evaluate_misplaced :
    ∃ (K : Model) (m : Manager), m.WellFormed ∧ K.OverStates m ∧ K.encoding.numVars ≤ m.numVars
      ∧ (∃ ts, Passes K.predicates.length "0 0 NOT AND" ts)
      ∧ (¬ ∃ ts, Passes K.predicates.length "0 AND 1" ts)
      ∧ ((∃ err, Formula.compile "0 AND 1" = .error err)
        ∨ ∃ f err m', Formula.compile "0 AND 1" = .ok f
          ∧ (K.evaluate f).run m = .ok (.error err) m') := by
  have hcompile : Formula.compile "0 0 NOT AND"
      = .ok ⟨"0 0 NOT AND", [.operand 0, .operand 0, .unary .not, .binary .and]⟩ := by
    decide +kernel
  obtain ⟨m, hnew⟩ : ∃ m, Manager.new? 16 4 = .ok m := ⟨_, rfl⟩
  obtain ⟨hm, hnum⟩ := Manager.wellFormed_new? hnew
  have hK := overStates_still m
  have hvars : Encoding.numVars ⟨[]⟩ ≤ m.numVars := hnum ▸ le_refl 16
  obtain ⟨r, m', hrun⟩ := (Model.evaluate_ok_iff ⟨"0 0 NOT AND", _⟩ (hK.presents hm) hvars).mpr
    ⟨.binary .and (.operand 0) (.unary .not (.operand 0)), rfl, by simp [Tree.postorder]⟩
  have hno : ¬ ∃ ts, Passes 1 "0 AND 1" ts := by
    rintro ⟨ts, hpasses⟩
    have hwritten : Written "0 AND 1" [.operand 0, .binary .and, .operand 1] :=
      tokens_lex_iff.mp (by decide +kernel)
    obtain rfl := hpasses.written.unique hwritten
    exact absurd (hpasses.inRange 1 (by simp)) (lt_irrefl 1)
  exact ⟨_, m, hm, hK, hvars, (sentence_of_evaluate _ _ m).1 _ r m' hcompile hrun, hno,
    (sentence_of_evaluate _ _ m).2 hm hK hvars hno⟩

end BranchingTime.Ctl
