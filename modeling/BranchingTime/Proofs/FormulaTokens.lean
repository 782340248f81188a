import Mathlib.Data.List.TakeWhile
import BranchingTime.Ctl.Formula
import BranchingTime.Proofs.CompilationExact

/-!
# The tokens of a formula

A text is written from tokens: `Spells` says so without a lexer. Letters may
be small or capital, numbers may start with zeros, and any number of spaces
may stand around a token; some neighbours need one between them.

The lexer finds the tokens of a text, and stops at a text that has none
(`tokens_lex_iff`). Compilation then is a matter of tokens
(`Formula.compile_eq_ok_iff`).
-/

namespace BranchingTime.Ctl

/-! ## Tokens and texts -/

inductive Token where
  | operand (index : Nat)
  | unary (op : UnaryOp)
  | binary (op : BinaryOp)
  | openParen
  | closeParen
  deriving DecidableEq, Repr

namespace Token

/-- How a token may be written. -/
def Spelled : Token → List Char → Prop
  | operand index, cs =>
    cs ≠ [] ∧ (∀ c ∈ cs, c.isDigit = true)
      ∧ Nat.ofDigits 10 (cs.map Text.digitValue).reverse = index
  | unary op, cs => cs.map Char.toUpper = op.keyword.toList
  | binary op, cs => cs.map Char.toUpper = op.keyword.toList
  | openParen, cs => cs = ['(']
  | closeParen, cs => cs = [')']

/-- Numbers have 64 bits. -/
def Small : Token → Prop
  | operand index => index < 2 ^ 64
  | _ => True

/-- What the characters of a token are. -/
def charClass : Token → CharClass
  | operand _ => .digit
  | unary _ | binary _ => .letter
  | openParen => .openParen
  | closeParen => .closeParen

end Token

/-- The text is the tokens, with spaces around them; there is one between
tokens that would crowd each other. -/
inductive Spells (Crowds : Token → Token → Prop) : List Token → List Char → Prop
  | done (gap : Nat) : Spells Crowds [] (List.replicate gap ' ')
  | token (gap : Nat) {t : Token} {ts : List Token} {pre rest : List Char} (ht : t.Spelled pre)
      (hgap : ∀ t' ∈ ts.head?, Crowds t t' → rest.head? = some ' ') (h : Spells Crowds ts rest) :
      Spells Crowds (t :: ts) (List.replicate gap ' ' ++ (pre ++ rest))

/-- Characters that words are made of. -/
def CharClass.isWord : CharClass → Bool
  | letter | digit => true
  | space | openParen | closeParen => false

/-- The lexer needs a space between the tokens: they clash, or would be one
word. -/
def Token.Clashes (t t' : Token) : Prop :=
  t.charClass.clash t'.charClass = true ∨ t.charClass.isWord = true ∧ t'.charClass.isWord = true

/-- The tokens of a text. -/
def Written (text : String) (ts : List Token) : Prop :=
  Spells Token.Clashes ts text.toList ∧ ∀ t ∈ ts, t.Small

theorem CharClass.ne_space_of_isWord {k : CharClass} (hk : k.isWord = true) : k ≠ .space := by
  rintro rfl
  cases hk

/-! ## Lexemes and tokens -/

def Pending.token : Pending → Token
  | openParen => .openParen
  | unary op => .unary op
  | binary op => .binary op

/-- The token that a lexeme is. -/
def Lexeme.token? : Lexeme → Option Token
  | word text =>
    if text.head?.any Char.isDigit then
      if Text.numeralValue text ≤ Reading.maxOperand then
        some (.operand (Text.numeralValue text))
      else none
    else (keyword? (String.ofList text)).map Pending.token
  | openParen => some .openParen
  | closeParen => some .closeParen
  | invalid _ | malformed _ => none

/-- Reads a token. -/
def Reading.read (r : Reading) : Token → Option Reading
  | .operand index => some { r with output := .operand index :: r.output }
  | .unary op => some (r.operator (.unary op))
  | .binary op => some (r.operator (.binary op))
  | .openParen => some (r.operator .openParen)
  | .closeParen => (r.step .closeParen).toOption

/-- The code of tokens. -/
def codeOfTokens (ts : List Token) : Option (List Instr) := do
  (← ts.foldlM Reading.read {}).finish.toOption

section Reading

variable {r r' : Reading} {l : Lexeme} {ls : List Lexeme} {code : List Instr}

theorem toOption_eq_some {ε α : Type} {x : Except ε α} {a : α} :
    x.toOption = some a ↔ x = .ok a := by
  cases x <;> simp [Except.toOption]

theorem mapM_cons_eq_some_iff {ts : List Token} :
    (l :: ls).mapM Lexeme.token? = some ts ↔
      ∃ t ts', ts = t :: ts' ∧ l.token? = some t ∧ ls.mapM Lexeme.token? = some ts' := by
  rw [List.mapM_cons]
  simp only [Option.pure_def, Option.bind_eq_bind, Option.bind_eq_some_iff, Option.some.injEq]
  constructor
  · rintro ⟨t, ht, ts', hts', rfl⟩
    exact ⟨t, ts', rfl, ht, hts'⟩
  · rintro ⟨t, ts', rfl, ht, hts'⟩
    exact ⟨t, ht, ts', hts', rfl⟩

theorem step_eq_ok_iff : r.step l = .ok r' ↔ ∃ t, l.token? = some t ∧ r.read t = some r' := by
  cases l with
  | word text =>
      simp only [Reading.step, Reading.word, Lexeme.token?]
      split_ifs with hdigit hle
      · simp [Reading.read]
      · simp
      · cases keyword? (String.ofList text) with
        | none => simp
        | some item => cases item <;> simp [Pending.token, Reading.read]
  | openParen => simp [Reading.step, Lexeme.token?, Reading.read, Reading.operator]
  | closeParen => simp [Lexeme.token?, Reading.read, toOption_eq_some]
  | invalid c => simp [Reading.step, Lexeme.token?]
  | malformed near => simp [Reading.step, Lexeme.token?]

theorem foldlM_step_eq_ok_iff :
    ls.foldlM Reading.step r = .ok r'
      ↔ ∃ ts, ls.mapM Lexeme.token? = some ts ∧ ts.foldlM Reading.read r = some r' := by
  induction ls generalizing r with
  | nil => simp [pure, Except.pure]
  | cons l ls ih =>
      rw [List.foldlM_cons]
      constructor
      · intro h
        cases hstep : r.step l with
        | error e =>
            rw [hstep] at h
            cases h
        | ok r₁ =>
            rw [hstep] at h
            obtain ⟨t, ht, hread⟩ := step_eq_ok_iff.mp hstep
            obtain ⟨ts, hts, hrun⟩ := ih.mp h
            exact ⟨t :: ts, mapM_cons_eq_some_iff.mpr ⟨t, ts, rfl, ht, hts⟩, by simp [hread, hrun]⟩
      · rintro ⟨ts, hts, hrun⟩
        obtain ⟨t, ts, rfl, ht, hts⟩ := mapM_cons_eq_some_iff.mp hts
        rw [List.foldlM_cons] at hrun
        obtain ⟨r₁, hread, hrun⟩ := Option.bind_eq_some_iff.mp hrun
        rw [step_eq_ok_iff.mpr ⟨t, ht, hread⟩]
        exact ih.mpr ⟨ts, hts, hrun⟩

theorem codeOfLexemes_eq_ok_iff :
    codeOfLexemes ls = .ok code
      ↔ ∃ ts, ls.mapM Lexeme.token? = some ts ∧ codeOfTokens ts = some code := by
  have hrun : codeOfLexemes ls = .ok code
      ↔ ∃ r, ls.foldlM Reading.step {} = .ok r ∧ r.finish = .ok code := by
    unfold codeOfLexemes
    cases ls.foldlM Reading.step {} <;> simp [bind, Except.bind]
  rw [hrun]
  simp only [foldlM_step_eq_ok_iff, codeOfTokens, Option.bind_eq_bind, Option.bind_eq_some_iff,
    toOption_eq_some]
  constructor
  · rintro ⟨r, ⟨ts, hts, hr⟩, hfinish⟩
    exact ⟨ts, hts, r, hr, hfinish⟩
  · rintro ⟨ts, hts, r, hr, hfinish⟩
    exact ⟨r, ⟨ts, hts, hr⟩, hfinish⟩

end Reading

/-! ## Characters -/

namespace CharClass

/-- A character of the class, capital or small. -/
def Holds : CharClass → Char → Prop
  | letter, c => c.isAlpha = true
  | digit, c => c.isDigit = true
  | space, c => c = ' '
  | openParen, c => c = '('
  | closeParen, c => c = ')'

variable {c : Char} {k k' : CharClass}

theorem isUpper_iff : c.isUpper = true ↔ 65 ≤ c.toNat ∧ c.toNat ≤ 90 := by
  change decide (65 ≤ c.val ∧ c.val ≤ 90) = true ↔ _
  simp only [decide_eq_true_eq, UInt32.le_iff_toNat_le]
  rfl

theorem toNat_toUpper (c : Char) :
    c.toUpper.toNat = if 97 ≤ c.toNat ∧ c.toNat ≤ 122 then c.toNat - 32 else c.toNat := by
  have hsmall : (97 ≤ c.val ∧ c.val ≤ 122) ↔ 97 ≤ c.toNat ∧ c.toNat ≤ 122 := by
    simp only [UInt32.le_iff_toNat_le]
    rfl
  unfold Char.toUpper
  split
  · next h =>
      have hcode := hsmall.mp h
      rw [if_pos hcode]
      -- the distance is a word, and to add it is to subtract 32
      have hgap : ((65 : UInt32) - 97).toNat = 4294967264 := by decide
      have hadd := UInt32.toNat_add c.val (65 - 97)
      rw [hgap, Char.toNat_val] at hadd
      change (c.val + (65 - 97)).toNat = c.toNat - 32
      omega
  · next h => rw [if_neg (mt hsmall.mpr h)]

/-- Letters become capital letters, and nothing else does. -/
theorem isUpper_toUpper (c : Char) : c.toUpper.isUpper = c.isAlpha := by
  rw [Bool.eq_iff_iff, isUpper_iff, toNat_toUpper, Expr.isAlpha_iff]
  split <;> omega

theorem toUpper_eq_self (h : c.isAlpha = false) : c.toUpper = c := by
  rw [← Bool.not_eq_true, Expr.isAlpha_iff] at h
  rw [← Char.toNat_inj, toNat_toUpper, if_neg (by omega)]

theorem Holds.isAlpha (h : k.Holds c) : c.isAlpha = decide (k = letter) := by
  cases k with
  | letter => exact h
  | digit =>
      refine Bool.eq_false_iff.mpr fun halpha => ?_
      rw [Holds, Expr.isDigit_of_isAlpha halpha] at h
      cases h
  | space | openParen | closeParen =>
      obtain rfl := h
      rfl

theorem Holds.toUpper_eq (h : k.Holds c) (hk : k ≠ letter) : c.toUpper = c :=
  toUpper_eq_self (h.isAlpha.trans (decide_eq_false hk))

theorem of?_toUpper_eq_some_iff : of? c.toUpper = some k ↔ k.Holds c := by
  constructor
  · intro h
    unfold of? at h
    split_ifs at h with hupper hdigit hspace hopen hclose
    all_goals cases h
    · rwa [isUpper_toUpper] at hupper
    all_goals
      rw [Bool.not_eq_true, isUpper_toUpper] at hupper
      rw [toUpper_eq_self hupper] at *
      assumption
  · intro h
    by_cases hk : k = letter
    · subst hk
      have hupper : c.toUpper.isUpper = true := by
        rw [isUpper_toUpper]
        exact h
      rw [of?, if_pos hupper]
    · have hupper : ¬ c.isUpper = true := by
        intro hupper
        have halpha : c.isAlpha = true := by
          change (c.isUpper || c.isLower) = true
          rw [hupper, Bool.true_or]
        rw [h.isAlpha] at halpha
        exact hk (of_decide_eq_true halpha)
      rw [h.toUpper_eq hk, of?, if_neg hupper]
      cases k with
      | letter => exact absurd rfl hk
      | digit => exact if_pos h
      | space | openParen | closeParen =>
          obtain rfl := h
          rfl

theorem Holds.unique (h : k.Holds c) (h' : k'.Holds c) : k = k' :=
  Option.some.inj ((of?_toUpper_eq_some_iff.mpr h).symm.trans (of?_toUpper_eq_some_iff.mpr h'))

theorem Holds.ne_space (h : k.Holds c) (hk : k ≠ space) : c ≠ ' ' :=
  fun hc => hk (h.unique hc)

instance (k : CharClass) (c : Char) : Decidable (k.Holds c) :=
  decidable_of_iff _ of?_toUpper_eq_some_iff

end CharClass

/-! ## Words -/

section Words

variable {t : Token} {k : CharClass} {pre : List Char}

theorem Token.Spelled.ne_nil (h : t.Spelled pre) : pre ≠ [] := by
  rintro rfl
  cases t with
  | operand index => exact h.1 rfl
  | unary op => cases op <;> cases h
  | binary op => cases op <;> cases h
  | openParen | closeParen => cases h

theorem Token.Spelled.holds (h : t.Spelled pre) : ∀ c ∈ pre, t.charClass.Holds c := by
  intro c hc
  have hletter (keyword : String) (hall : keyword.toList.all Char.isUpper = true)
      (heq : pre.map Char.toUpper = keyword.toList) : c.isAlpha = true := by
    rw [← CharClass.isUpper_toUpper]
    exact List.all_eq_true.mp hall _ (heq ▸ List.mem_map_of_mem hc)
  cases t with
  | operand index => exact h.2.1 c hc
  | unary op => exact hletter op.keyword (by cases op <;> decide) h
  | binary op => exact hletter op.keyword (by cases op <;> decide) h
  | openParen | closeParen =>
      obtain rfl := h
      exact List.mem_singleton.mp hc

theorem keyword?_eq_some_iff {text : String} {item : Pending} :
    keyword? text = some item ↔
      (∃ op, item = .unary op ∧ text = op.keyword)
        ∨ ∃ op, item = .binary op ∧ text = op.keyword := by
  constructor
  · intro h
    unfold keyword? at h
    split at h <;> cases h <;> first | exact .inl ⟨_, rfl, rfl⟩ | exact .inr ⟨_, rfl, rfl⟩
  · rintro (⟨op, rfl, rfl⟩ | ⟨op, rfl, rfl⟩) <;> cases op <;> rfl

theorem ofDigits_eq_numeralValue (cs : List Char) :
    Nat.ofDigits 10 (cs.map Text.digitValue).reverse = Text.numeralValue cs := by
  have h := Expr.numeralValue_eq_decimal (String.ofList cs)
  rw [Expr.Operand.decimal, String.toList_ofList] at h
  exact h.symm

/-- Digits are a number. -/
theorem token?_digits (hne : pre ≠ []) (hpre : ∀ c ∈ pre, c.isDigit = true) :
    Lexeme.token? (.word (pre.map Char.toUpper)) = some t ↔
      t = .operand (Text.numeralValue pre) ∧ Text.numeralValue pre < 2 ^ 64 := by
  have hmap : pre.map Char.toUpper = pre := by
    refine (List.map_congr_left fun c hc => ?_).trans (List.map_id pre)
    exact CharClass.Holds.toUpper_eq (k := .digit) (hpre c hc) (by decide)
  have hhead : pre.head?.any Char.isDigit = true := by
    obtain ⟨c, cs, rfl⟩ := List.exists_cons_of_ne_nil hne
    exact hpre c List.mem_cons_self
  have hmax : Text.numeralValue pre ≤ Reading.maxOperand ↔ Text.numeralValue pre < 2 ^ 64 :=
    Nat.le_sub_one_iff_lt (by decide)
  rw [hmap, Lexeme.token?, if_pos hhead, ← hmax]
  split_ifs with hle
  · simp [hle, eq_comm]
  · simp [hle]

/-- Letters are a keyword. -/
theorem token?_letters (hne : pre ≠ []) (hpre : ∀ c ∈ pre, c.isAlpha = true) :
    Lexeme.token? (.word (pre.map Char.toUpper)) = some t ↔
      ∃ item, t = Pending.token item
        ∧ keyword? (String.ofList (pre.map Char.toUpper)) = some item := by
  have hhead : ¬ (pre.map Char.toUpper).head?.any Char.isDigit = true := by
    obtain ⟨c, cs, rfl⟩ := List.exists_cons_of_ne_nil hne
    have halpha : c.toUpper.isAlpha = true := by
      change (c.toUpper.isUpper || c.toUpper.isLower) = true
      rw [CharClass.isUpper_toUpper, hpre c List.mem_cons_self, Bool.true_or]
    change ¬ c.toUpper.isDigit = true
    rw [Expr.isDigit_of_isAlpha halpha]
    exact Bool.false_ne_true
  rw [Lexeme.token?, if_neg hhead, Option.map_eq_some_iff]
  simp only [eq_comm, and_comm]

/-- A word is the token that it spells. -/
theorem token?_word (hk : k.isWord = true) (hne : pre ≠ []) (hpre : ∀ c ∈ pre, k.Holds c) :
    Lexeme.token? (.word (pre.map Char.toUpper)) = some t ↔
      t.charClass = k ∧ t.Spelled pre ∧ t.Small := by
  cases k with
  | digit =>
      rw [token?_digits hne hpre, ← ofDigits_eq_numeralValue]
      constructor
      · rintro ⟨rfl, hlt⟩
        exact ⟨rfl, ⟨hne, hpre, rfl⟩, hlt⟩
      · rintro ⟨hclass, hspelled, hsmall⟩
        cases t with
        | operand index =>
            obtain ⟨-, -, rfl⟩ := hspelled
            exact ⟨rfl, hsmall⟩
        | unary | binary | openParen | closeParen => cases hclass
  | letter =>
      have htext {keyword : String} : String.ofList (pre.map Char.toUpper) = keyword
          ↔ pre.map Char.toUpper = keyword.toList := by
        rw [← String.toList_inj, String.toList_ofList]
      rw [token?_letters hne hpre]
      simp only [keyword?_eq_some_iff, htext]
      constructor
      · rintro ⟨item, rfl, ⟨op, rfl, hspelled⟩ | ⟨op, rfl, hspelled⟩⟩
        · exact ⟨rfl, hspelled, trivial⟩
        · exact ⟨rfl, hspelled, trivial⟩
      · rintro ⟨hclass, hspelled, -⟩
        cases t with
        | unary op => exact ⟨.unary op, rfl, .inl ⟨op, rfl, hspelled⟩⟩
        | binary op => exact ⟨.binary op, rfl, .inr ⟨op, rfl, hspelled⟩⟩
        | operand | openParen | closeParen => cases hclass
  | space | openParen | closeParen => cases hk

end Words

/-! ## Texts, from their first character -/

section Texts

variable {Crowds : Token → Token → Prop} {ts : List Token} {k : CharClass} {c : Char}
  {w rest text : List Char}

theorem spells_nil : Spells Crowds ts [] ↔ ts = [] := by
  constructor
  · intro h
    generalize htext : ([] : List Char) = text at h
    cases h with
    | done gap => rfl
    | token gap ht _ _ =>
        have hpre := (List.append_eq_nil_iff.mp (List.append_eq_nil_iff.mp htext.symm).2).1
        exact absurd hpre ht.ne_nil
  · rintro rfl
    exact .done 0

theorem spells_space : Spells Crowds ts (' ' :: rest) ↔ Spells Crowds ts rest := by
  constructor
  · intro h
    generalize htext : ' ' :: rest = text at h
    cases h with
    | done gap =>
        cases gap with
        | zero => cases htext
        | succ gap =>
            obtain rfl : rest = List.replicate gap ' ' := (List.cons.inj htext).2
            exact .done gap
    | @token gap t ts pre after ht hgap h =>
        cases gap with
        | zero =>
            -- no token starts with a space
            obtain ⟨c, cs, rfl⟩ := List.exists_cons_of_ne_nil ht.ne_nil
            obtain rfl : ' ' = c := (List.cons.inj htext).1
            have hspace : t.charClass = .space := (ht.holds _ List.mem_cons_self).unique rfl
            cases t <;> cases hspace
        | succ gap =>
            obtain rfl : rest = List.replicate gap ' ' ++ (pre ++ after) := (List.cons.inj htext).2
            exact .token gap ht hgap h
  · intro h
    cases h with
    | done gap => exact .done (gap + 1)
    | token gap ht hgap h => exact .token (gap + 1) ht hgap h

/-- Where no space is, a token starts. -/
theorem Spells.exists_token (h : Spells Crowds ts (c :: rest)) (hc : c ≠ ' ') :
    ∃ t ts' pre after, ts = t :: ts' ∧ c :: rest = pre ++ after ∧ t.Spelled pre
      ∧ t.charClass.Holds c ∧ Spells Crowds ts' after
      ∧ ∀ t' ∈ ts'.head?, Crowds t t' → after.head? = some ' ' := by
  generalize htext : c :: rest = text at h
  cases h with
  | done gap =>
      cases gap with
      | zero => cases htext
      | succ gap => exact absurd (List.cons.inj htext).1 hc
  | @token gap t ts' pre after ht hgap h =>
      cases gap with
      | zero =>
          have hpre : c :: rest = pre ++ after := htext
          obtain ⟨c', cs, rfl⟩ := List.exists_cons_of_ne_nil ht.ne_nil
          obtain rfl : c = c' := (List.cons.inj hpre).1
          exact ⟨t, ts', _, after, rfl, rfl, ht, ht.holds _ List.mem_cons_self, h, hgap⟩
      | succ gap => exact absurd (List.cons.inj htext).1 hc

/-- A parenthesis is a token of its own. -/
theorem spells_paren {t : Token} (ht : t.Spelled [c]) (hc : c ≠ ' ')
    (hone : ∀ t' pre, t'.charClass = t.charClass → t'.Spelled pre → t' = t ∧ pre = [c]) :
    Spells Crowds ts (c :: rest) ↔
      ∃ ts', ts = t :: ts' ∧ Spells Crowds ts' rest
        ∧ ∀ t' ∈ ts'.head?, Crowds t t' → rest.head? = some ' ' := by
  constructor
  · intro h
    obtain ⟨t', ts', pre, after, rfl, htext, ht', hclass, h, hgap⟩ := h.exists_token hc
    obtain ⟨rfl, rfl⟩ := hone t' pre (hclass.unique (ht.holds _ List.mem_cons_self)) ht'
    obtain rfl : rest = after := (List.cons.inj htext).2
    exact ⟨ts', rfl, h, hgap⟩
  · rintro ⟨ts', rfl, h, hgap⟩
    exact .token 0 ht hgap h

theorem takeWhile_word (hw : ∀ c ∈ w, k.Holds c) (hend : ∀ c ∈ rest.head?, ¬ k.Holds c) :
    (w ++ rest).takeWhile (fun c => decide (k.Holds c)) = w := by
  rw [List.takeWhile_append_of_pos fun c hc => decide_eq_true (hw c hc)]
  cases rest with
  | nil => simp
  | cons c cs => simp [hend c rfl]

/-- A word ends where the text of the next token starts. -/
theorem Spells.word_ends {t : Token} (hk : k.isWord = true) (ht : t.charClass = k)
    (h : Spells Token.Clashes ts rest)
    (hgap : ∀ t' ∈ ts.head?, t.Clashes t' → rest.head? = some ' ') :
    ∀ c ∈ rest.head?, ¬ k.Holds c := by
  intro c hc hholds
  obtain ⟨cs, rfl⟩ := List.head?_eq_some_iff.mp hc
  have hspace := hholds.ne_space (CharClass.ne_space_of_isWord hk)
  obtain ⟨t', ts', _, _, rfl, -, -, hclass, -⟩ := h.exists_token hspace
  have hclash : t.Clashes t' := .inr ⟨ht ▸ hk, hclass.unique hholds ▸ hk⟩
  exact hspace (Option.some.inj (hgap t' rfl hclash))

theorem CharClass.clash_of_ne {k k' : CharClass} (hk : k.isWord = true) (hk' : k'.isWord = true)
    (hne : k' ≠ k) : k.clash k' = true := by
  cases k <;> cases k' <;> simp_all [isWord, clash]

/-- A word is read to its end. -/
theorem spells_word (hk : k.isWord = true) (hne : w ≠ []) (hw : ∀ c ∈ w, k.Holds c)
    (hend : ∀ c ∈ rest.head?, ¬ k.Holds c) :
    Spells Token.Clashes ts (w ++ rest) ↔
      ∃ t ts', ts = t :: ts' ∧ t.charClass = k ∧ t.Spelled w ∧ Spells Token.Clashes ts' rest
        ∧ ∀ t' ∈ ts'.head?, k.clash t'.charClass = true → rest.head? = some ' ' := by
  constructor
  · intro h
    obtain ⟨c, cs, rfl⟩ := List.exists_cons_of_ne_nil hne
    have hc := hw c List.mem_cons_self
    have hspace := hc.ne_space (CharClass.ne_space_of_isWord hk)
    obtain ⟨t, ts', pre, after, rfl, htext, ht, hclass, h, hgap⟩ := h.exists_token hspace
    obtain rfl := hclass.unique hc
    have hpre : c :: cs = pre := by
      rw [← takeWhile_word hw hend, ← takeWhile_word ht.holds (h.word_ends hk rfl hgap), ← htext]
      rfl
    subst hpre
    have htext : c :: cs ++ rest = c :: cs ++ after := htext
    obtain rfl := List.append_cancel_left htext
    exact ⟨t, ts', rfl, rfl, ht, h, fun t' ht' hclash => hgap t' ht' (.inl hclash)⟩
  · rintro ⟨t, ts', rfl, rfl, ht, h, hgap⟩
    refine .token 0 ht (fun t' ht' hclash => ?_) h
    rcases hclash with hclash | ⟨-, hword⟩
    · exact hgap t' ht' hclash
    by_cases hsame : t'.charClass = t.charClass
    · -- the next token would go on with the word
      cases rest with
      | nil =>
          rw [spells_nil.mp h] at ht'
          cases ht'
      | cons c cs =>
          by_contra hne
          obtain ⟨t₁, ts₁, _, _, rfl, -, -, hclass, -⟩ := h.exists_token fun hc => hne (hc ▸ rfl)
          obtain rfl := Option.some.inj ht'
          exact hend c rfl (hsame ▸ hclass)
    · exact hgap t' ht' (CharClass.clash_of_ne hk hword hsame)

end Texts

/-! ## The lexer -/

section Lexer

variable {ts : List Token} {k k' : CharClass} {prev? : Option CharClass} {word w rest : List Char}
  {c : Char}

/-- The lexeme that ends a word, if any. -/
def CharClass.lexeme? : CharClass → Option Lexeme
  | openParen => some .openParen
  | closeParen => some .closeParen
  | letter | digit | space => none

theorem lexFrom_cons (word : List Char) (prev? : Option CharClass) (rest : List Char)
    (hc : k.Holds c) :
    lexFrom word prev? ((c :: rest).map Char.toUpper)
      = if prev?.any (CharClass.clash · k) then [.malformed (word ++ [c.toUpper])]
        else if k.isWord then lexFrom (word ++ [c.toUpper]) (some k) (rest.map Char.toUpper)
        else endWord word (k.lexeme?.toList ++ lexFrom [] (some k) (rest.map Char.toUpper)) := by
  rw [List.map_cons, lexFrom, CharClass.of?_toUpper_eq_some_iff.mpr hc]
  cases k <;> rfl

/-- The characters of a word are collected. -/
theorem lexFrom_word (hk : k.isWord = true) (hw : ∀ c ∈ w, k.Holds c) :
    lexFrom word (some k) ((w ++ rest).map Char.toUpper)
      = lexFrom (word ++ w.map Char.toUpper) (some k) (rest.map Char.toUpper) := by
  induction w generalizing word with
  | nil => rw [List.nil_append, List.map_nil, List.append_nil]
  | cons c w ih =>
      have hstep : lexFrom word (some k) ((c :: (w ++ rest)).map Char.toUpper)
          = lexFrom (word ++ [c.toUpper]) (some k) ((w ++ rest).map Char.toUpper) := by
        rw [lexFrom_cons _ _ _ (hw c List.mem_cons_self)]
        cases k <;> first | rfl | cases hk
      rw [List.cons_append, hstep, ih fun c' hc' => hw c' (List.mem_cons_of_mem c hc'),
        List.map_cons, List.append_assoc, List.singleton_append]

/-- Where the class of the characters changes, the word is a lexeme. -/
theorem mapM_lexFrom_word (hk : k.isWord = true) (hne : word ≠ [])
    (hend : ∀ c ∈ rest.head?, ¬ k.Holds c) :
    (lexFrom word (some k) (rest.map Char.toUpper)).mapM Lexeme.token? = some ts ↔
      ∃ t ts', ts = t :: ts' ∧ Lexeme.token? (.word word) = some t
        ∧ (lexFrom [] (some k) (rest.map Char.toUpper)).mapM Lexeme.token? = some ts' := by
  have hword (ls : List Lexeme) : (endWord word ls).mapM Lexeme.token? = some ts ↔
      ∃ t ts', ts = t :: ts' ∧ Lexeme.token? (.word word) = some t
        ∧ (endWord [] ls).mapM Lexeme.token? = some ts' := by
    have hlexeme : endWord word ls = .word word :: ls := if_neg (by simpa using hne)
    rw [hlexeme]
    exact mapM_cons_eq_some_iff
  cases rest with
  | nil => exact hword []
  | cons c cs =>
      cases hclass : CharClass.of? c.toUpper with
      | none => simp [lexFrom, hclass, Lexeme.token?]
      | some k' =>
          have hc := CharClass.of?_toUpper_eq_some_iff.mp hclass
          rw [lexFrom_cons _ _ _ hc, lexFrom_cons _ _ _ hc]
          by_cases hclash : k.clash k' = true
          · simp [hclash, Lexeme.token?]
          · have hk' : ¬ k'.isWord = true := fun hk' =>
              hclash (CharClass.clash_of_ne hk hk' fun h => hend c rfl (h ▸ hc))
            have hno : ¬ (some k).any (CharClass.clash · k') = true := hclash
            rw [if_neg hno, if_neg hno, if_neg hk', if_neg hk']
            exact hword _

theorem spells_openParen {Crowds : Token → Token → Prop} :
    Spells Crowds ts ('(' :: rest) ↔
      ∃ ts', ts = .openParen :: ts' ∧ Spells Crowds ts' rest
        ∧ ∀ t' ∈ ts'.head?, Crowds .openParen t' → rest.head? = some ' ' := by
  refine spells_paren (t := .openParen) rfl (by decide) fun t' pre hclass hpre => ?_
  cases t' <;> cases hclass
  exact ⟨rfl, hpre⟩

theorem spells_closeParen {Crowds : Token → Token → Prop} :
    Spells Crowds ts (')' :: rest) ↔
      ∃ ts', ts = .closeParen :: ts' ∧ Spells Crowds ts' rest
        ∧ ∀ t' ∈ ts'.head?, Crowds .closeParen t' → rest.head? = some ' ' := by
  refine spells_paren (t := .closeParen) rfl (by decide) fun t' pre hclass hpre => ?_
  cases t' <;> cases hclass
  exact ⟨rfl, hpre⟩

/-- The tokens found in a text, after a character of class `prev?`, are those
that it is written from. -/
def LexesAfter (prev? : Option CharClass) (text : List Char) : Prop :=
  ∀ ts, (lexFrom [] prev? (text.map Char.toUpper)).mapM Lexeme.token? = some ts ↔
    Spells Token.Clashes ts text ∧ (∀ t ∈ ts, t.Small)
      ∧ ∀ k ∈ prev?, ∀ t ∈ ts.head?, k.clash t.charClass = true → text.head? = some ' '

/-- A first character that is no space shows whether the first token clashes. -/
theorem lexesAfter_cons {next : List Lexeme} (hc : k.Holds c) (hk : k ≠ .space)
    (hstep : lexFrom [] prev? ((c :: rest).map Char.toUpper)
      = if prev?.any (CharClass.clash · k) then [.malformed [c.toUpper]] else next)
    (hnext : ∀ ts, next.mapM Lexeme.token? = some ts ↔
      Spells Token.Clashes ts (c :: rest) ∧ ∀ t ∈ ts, t.Small) :
    LexesAfter prev? (c :: rest) := by
  intro ts
  have hspace := hc.ne_space hk
  have hhead (h : Spells Token.Clashes ts (c :: rest)) : ∃ t ∈ ts.head?, t.charClass = k := by
    obtain ⟨t, ts', _, _, rfl, -, -, hclass, -⟩ := h.exists_token hspace
    exact ⟨t, rfl, hclass.unique hc⟩
  rw [hstep]
  split_ifs with hclash
  · obtain ⟨k₀, rfl, hclash⟩ := (Option.any_eq_true _ _).mp hclash
    refine iff_of_false (by simp [Lexeme.token?]) fun ⟨h, _, hgap⟩ => ?_
    obtain ⟨t, ht, rfl⟩ := hhead h
    exact hspace (Option.some.inj (hgap k₀ rfl t ht hclash))
  · rw [hnext ts]
    refine ⟨fun ⟨h, hsmall⟩ => ⟨h, hsmall, fun k₀ hk₀ t ht hclash₀ => ?_⟩, fun h => ⟨h.1, h.2.1⟩⟩
    obtain ⟨t', ht', rfl⟩ := hhead h
    obtain rfl := Option.mem_unique ht ht'
    exact absurd ((Option.any_eq_true _ _).mpr ⟨k₀, hk₀, hclash₀⟩) hclash

theorem mapM_paren_iff {t : Token} {l : Lexeme} (hl : l.token? = some t) (hsmall : t.Small)
    (ht : t.charClass.isWord = false)
    (hspells : ∀ ts, Spells Token.Clashes ts (c :: rest) ↔
      ∃ ts', ts = t :: ts' ∧ Spells Token.Clashes ts' rest
        ∧ ∀ t' ∈ ts'.head?, t.Clashes t' → rest.head? = some ' ')
    (ih : LexesAfter (some t.charClass) rest) :
    (l :: lexFrom [] (some t.charClass) (rest.map Char.toUpper)).mapM Lexeme.token? = some ts ↔
      Spells Token.Clashes ts (c :: rest) ∧ ∀ t ∈ ts, t.Small := by
  have hclash (t' : Token) : t.Clashes t' ↔ t.charClass.clash t'.charClass = true := by
    simp [Token.Clashes, ht]
  rw [mapM_cons_eq_some_iff, hspells]
  simp only [hl, ih _, hclash, Option.some.injEq, Option.mem_some, forall_eq']
  constructor
  · rintro ⟨_, ts', rfl, rfl, h, hall, hgap⟩
    exact ⟨⟨ts', rfl, h, hgap⟩, List.forall_mem_cons.mpr ⟨hsmall, hall⟩⟩
  · rintro ⟨⟨ts', rfl, h, hgap⟩, hall⟩
    exact ⟨t, ts', rfl, rfl, h, (List.forall_mem_cons.mp hall).2, hgap⟩

theorem mapM_word_iff (hk : k.isWord = true) (hc : k.Holds c)
    (ih : LexesAfter (some k) (rest.dropWhile fun c => decide (k.Holds c))) :
    (lexFrom [c.toUpper] (some k) (rest.map Char.toUpper)).mapM Lexeme.token? = some ts ↔
      Spells Token.Clashes ts (c :: rest) ∧ ∀ t ∈ ts, t.Small := by
  generalize hw : (rest.takeWhile fun c => decide (k.Holds c)) = w
  generalize hafter : (rest.dropWhile fun c => decide (k.Holds c)) = after at ih
  have hrest : rest = w ++ after := by
    rw [← hw, ← hafter, List.takeWhile_append_dropWhile]
  have hall : ∀ c' ∈ c :: w, k.Holds c' := by
    refine List.forall_mem_cons.mpr ⟨hc, fun c' hc' => ?_⟩
    rw [← hw] at hc'
    have hdecide := List.mem_takeWhile_imp hc'
    exact of_decide_eq_true hdecide
  have hend : ∀ c' ∈ after.head?, ¬ k.Holds c' := by
    intro c' hc' hholds
    have := List.head?_dropWhile_not (fun c => decide (k.Holds c)) rest
    rw [hafter, hc'] at this
    simp [hholds] at this
  have hlex : lexFrom [c.toUpper] (some k) (rest.map Char.toUpper)
      = lexFrom ((c :: w).map Char.toUpper) (some k) (after.map Char.toUpper) := by
    rw [hrest, lexFrom_word hk fun c' hc' => hall c' (List.mem_cons_of_mem c hc')]
    rfl
  rw [hlex, mapM_lexFrom_word hk (by simp) hend, hrest, ← List.cons_append,
    spells_word hk (by simp) hall hend]
  simp only [token?_word hk (List.cons_ne_nil c w) hall, ih _, Option.mem_some, forall_eq']
  constructor
  · rintro ⟨t, ts', rfl, ⟨hclass, ht, hsmall⟩, h, hsmalls, hgap⟩
    exact ⟨⟨t, ts', rfl, hclass, ht, h, hgap⟩, List.forall_mem_cons.mpr ⟨hsmall, hsmalls⟩⟩
  · rintro ⟨⟨t, ts', rfl, hclass, ht, h, hgap⟩, hsmalls⟩
    obtain ⟨hsmall, hsmalls⟩ := List.forall_mem_cons.mp hsmalls
    exact ⟨t, ts', rfl, ⟨hclass, ht, hsmall⟩, h, hsmalls, hgap⟩

theorem lexesAfter (prev? : Option CharClass) (text : List Char) : LexesAfter prev? text := by
  -- a word is read whole, so the induction is on the length
  induction hn : text.length using Nat.strong_induction_on generalizing prev? text with
  | _ n ih =>
      subst hn
      cases text with
      | nil =>
          intro ts
          rw [spells_nil]
          cases ts with
          | nil => simp [lexFrom, endWord]
          | cons t ts => simp [lexFrom, endWord]
      | cons c rest =>
          have hrest (prev? : Option CharClass) : LexesAfter prev? rest :=
            ih _ (Nat.lt_succ_self _) prev? rest rfl
          have hword (k : CharClass) :
              LexesAfter (some k) (rest.dropWhile fun c => decide (k.Holds c)) :=
            ih _ (Nat.lt_succ_of_le (List.dropWhile_suffix _).length_le) _ _ rfl
          cases hclass : CharClass.of? c.toUpper with
          | none =>
              intro ts
              refine iff_of_false (by simp [lexFrom, hclass, Lexeme.token?]) fun ⟨h, _⟩ => ?_
              have hno (k : CharClass) : ¬ k.Holds c := fun hc => by
                rw [CharClass.of?_toUpper_eq_some_iff.mpr hc] at hclass
                cases hclass
              obtain ⟨t, _, _, _, -, -, -, hc, -⟩ := h.exists_token (hno .space)
              exact hno _ hc
          | some k =>
              have hc := CharClass.of?_toUpper_eq_some_iff.mp hclass
              have hstep := lexFrom_cons [] prev? rest hc
              cases k with
              | space =>
                  -- nothing clashes with a space, and a space with nothing
                  intro ts
                  obtain rfl : c = ' ' := hc
                  have hclash : ¬ prev?.any (CharClass.clash · .space) = true := by
                    rcases prev? with _ | (_ | _ | _ | _ | _) <;> exact Bool.false_ne_true
                  rw [hstep, if_neg hclash, spells_space]
                  refine (hrest (some .space) ts).trans (and_congr_right fun _ => ?_)
                  refine and_congr_right fun _ => iff_of_true ?_ fun _ _ _ _ _ => rfl
                  intro k hk t _ hclash
                  obtain rfl := Option.mem_some.mp hk
                  cases hclash
              | openParen =>
                  obtain rfl : c = '(' := hc
                  refine lexesAfter_cons (k := .openParen) rfl (by decide) hstep fun ts => ?_
                  exact mapM_paren_iff (t := .openParen) rfl trivial rfl
                    (fun _ => spells_openParen) (hrest _)
              | closeParen =>
                  obtain rfl : c = ')' := hc
                  refine lexesAfter_cons (k := .closeParen) rfl (by decide) hstep fun ts => ?_
                  exact mapM_paren_iff (t := .closeParen) rfl trivial rfl
                    (fun _ => spells_closeParen) (hrest _)
              | letter | digit =>
                  refine lexesAfter_cons hc (by decide) hstep fun ts => ?_
                  exact mapM_word_iff rfl hc (hword _)

/-- The lexer finds the tokens that the text is written from. -/
theorem tokens_lex_iff {text : String} :
    (lex text.toList).mapM Lexeme.token? = some ts ↔ Written text ts := by
  rw [lex, lexesAfter none text.toList ts]
  simp [Written]

theorem Written.unique {ts' : List Token} {text : String} (h : Written text ts)
    (h' : Written text ts') : ts = ts' :=
  Option.some.inj ((tokens_lex_iff.mpr h).symm.trans (tokens_lex_iff.mpr h'))

/-- A text compiles if it is written from tokens that have a code. -/
theorem Formula.compile_eq_ok_iff {text : String} {f : Formula} :
    Formula.compile text = .ok f ↔
      ∃ ts code, Written text ts ∧ codeOfTokens ts = some code ∧ f = ⟨text, code⟩ := by
  have hcode : Formula.compile text = .ok f ↔
      ∃ code, codeOfLexemes (lex text.toList) = .ok code ∧ f = ⟨text, code⟩ := by
    unfold Formula.compile
    cases codeOfLexemes (lex text.toList) <;> simp [bind, Except.bind, pure, Except.pure, eq_comm]
  rw [hcode]
  simp only [codeOfLexemes_eq_ok_iff, tokens_lex_iff]
  constructor
  · rintro ⟨code, ⟨ts, hwritten, hts⟩, rfl⟩
    exact ⟨ts, code, hwritten, hts, rfl⟩
  · rintro ⟨ts, code, hwritten, hts, rfl⟩
    exact ⟨code, ⟨ts, hwritten, hts⟩, rfl⟩

end Lexer

end BranchingTime.Ctl
