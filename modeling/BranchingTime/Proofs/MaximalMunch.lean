import BranchingTime.Expr.Lexeme

/-!
# Tokens by maximal munch

`Reads` says which tokens a text is, without saying how they are found:
blanks are skipped, and each token is the longest that the text goes on
with. A `-` is the one spelling that two tokens share; it is a sign where an
operand is expected and a difference elsewhere.

`lex` finds these tokens (`reads_iff`), up to the two readings of a `-`,
which `ofLexeme` tells apart. So the tokens of a text are unique.
-/

namespace BranchingTime.Expr

inductive Token where
  | word (text : String)
  | openParen
  | closeParen
  | unary (op : UnaryOp)
  | binary (op : BinaryOp)
  deriving DecidableEq, Repr

namespace Token

/-- How a token is written. -/
def Spelled : Token → List Char → Prop
  | word text, cs => text.toList = cs ∧ cs ≠ [] ∧ ∀ c ∈ cs, Text.isWordChar c = true
  | openParen, cs => cs = ['(']
  | closeParen, cs => cs = [')']
  | unary .not, cs => cs = ['!']
  | unary .neg, cs => cs = ['-']
  | binary op, cs => cs = op.symbol.toList

/-- Which reading of a `-` fits, given whether an operand is expected. -/
def Fits (wants : Bool) : Token → Prop
  | unary .neg => wants = true
  | binary .sub => wants = false
  | _ => True

/-- Is an operand expected after the token? -/
def wantsAfter : Token → Bool
  | word _ | closeParen => false
  | openParen | unary _ | binary _ => true

/-- The text starts with the token, and with no longer one. -/
structure Longest (t : Token) (pre cs : List Char) : Prop where
  spelled : t.Spelled pre
  starts : pre <+: cs
  maximal : ∀ t' pre', Spelled t' pre' → pre' <+: cs → pre'.length ≤ pre.length

end Token

/-- The tokens that a text is, given whether an operand is expected first. -/
inductive Reads : Bool → List Char → List Token → Prop
  | done {wants : Bool} : Reads wants [] []
  | blank {wants : Bool} {c : Char} {cs : List Char} {ts : List Token}
      (hc : Text.isBlank c = true) (h : Reads wants cs ts) : Reads wants (c :: cs) ts
  | token {wants : Bool} {t : Token} {pre rest : List Char} {ts : List Token}
      (ht : t.Longest pre (pre ++ rest)) (hfits : t.Fits wants)
      (h : Reads t.wantsAfter rest ts) : Reads wants (pre ++ rest) (t :: ts)

/-! ## Spellings -/

/-- The token that a lexeme is, given whether an operand is expected. -/
def ofLexeme (wants : Bool) : Lexeme → Option Token
  | .word text => some (.word text)
  | .openParen => some .openParen
  | .closeParen => some .closeParen
  | .minus => some (if wants then .unary .neg else .binary .sub)
  | .bang => some (.unary .not)
  | .binary op => some (.binary op)
  | .invalid _ => none

section Spelling

variable {c d : Char} {cs pre : List Char} {t : Token}

theorem isAlpha_iff :
    c.isAlpha = true
      ↔ (65 ≤ c.toNat ∧ c.toNat ≤ 90) ∨ (97 ≤ c.toNat ∧ c.toNat ≤ 122) := by
  change (decide (65 ≤ c.val ∧ c.val ≤ 90)
    || (decide (97 ≤ c.val) && decide (c.val ≤ 122))) = true ↔ _
  simp only [Bool.or_eq_true, Bool.and_eq_true, decide_eq_true_eq, UInt32.le_iff_toNat_le]
  rfl

theorem isDigit_iff : c.isDigit = true ↔ 48 ≤ c.toNat ∧ c.toNat ≤ 57 := by
  change (decide (48 ≤ c.val) && decide (c.val ≤ 57)) = true ↔ _
  simp only [Bool.and_eq_true, decide_eq_true_eq, UInt32.le_iff_toNat_le]
  rfl

theorem isWordChar_iff :
    Text.isWordChar c = true ↔ (c.isAlpha = true ∨ c.isDigit = true) ∨ c = '_' := by
  change ((c.isAlpha || c.isDigit) || decide (c = '_')) = true ↔ _
  simp only [Bool.or_eq_true, decide_eq_true_eq]

theorem isBlank_of_isWordChar (h : Text.isWordChar c = true) : Text.isBlank c = false := by
  rw [isWordChar_iff, isAlpha_iff, isDigit_iff] at h
  have hcode : _ ∨ c.toNat = 95 := h.imp_right (congrArg Char.toNat)
  simp only [Text.isBlank, Text.blankRanges, List.any_cons, List.any_nil, Bool.or_false,
    Bool.or_eq_false_iff, Bool.and_eq_false_iff, decide_eq_false_iff_not]
  omega

theorem Token.Spelled.ne_nil (h : t.Spelled pre) : pre ≠ [] := by
  rcases t with text | _ | _ | op | op
  · exact h.2.1
  · cases h; simp
  · cases h; simp
  · cases op <;> cases h <;> simp
  · cases op <;> cases h <;> decide

theorem Token.Spelled.not_isBlank (h : t.Spelled (c :: cs)) : Text.isBlank c = false := by
  rcases t with text | _ | _ | op | op
  · exact isBlank_of_isWordChar (h.2.2 c (.head _))
  · cases h; decide
  · cases h; decide
  · cases op <;> cases h <;> decide
  · cases op <;> cases h <;> decide

/-- What starts with a word character is a word. -/
theorem spelled_word (hc : Text.isWordChar c = true) :
    t.Spelled (c :: cs)
      ↔ t = .word (String.ofList (c :: cs)) ∧ ∀ d ∈ cs, Text.isWordChar d = true := by
  constructor
  · intro h
    have hno (x : Char) (hx : Text.isWordChar x = false) : c ≠ x := by
      rintro rfl
      simp [hx] at hc
    rcases t with text | _ | _ | op | op
    · obtain ⟨htext, -, hall⟩ := h
      exact ⟨by rw [← htext, String.ofList_toList], fun d hd => hall d (.tail _ hd)⟩
    · exact absurd (List.cons.inj h).1 (hno _ (by decide))
    · exact absurd (List.cons.inj h).1 (hno _ (by decide))
    · cases op <;> exact absurd (List.cons.inj h).1 (hno _ (by decide))
    · cases op <;> exact absurd (List.cons.inj h).1 (hno _ (by decide))
  · rintro ⟨rfl, hall⟩
    refine ⟨String.toList_ofList, by simp, ?_⟩
    simpa [hc] using hall

/-- What starts with another character is one character or two. -/
theorem Token.Spelled.symbol (hc : Text.isWordChar c = false) (h : t.Spelled (c :: cs)) :
    cs = [] ∨ ∃ d, cs = [d] := by
  rcases t with text | _ | _ | op | op
  · have := h.2.2 c (.head _)
    simp [hc] at this
  · exact .inl (List.cons.inj h).2
  · exact .inl (List.cons.inj h).2
  · cases op <;> exact .inl (List.cons.inj h).2
  · cases op <;> first | exact .inl (List.cons.inj h).2 | exact .inr ⟨_, (List.cons.inj h).2⟩

/-- The tokens of one character are those of its lexeme. -/
theorem spelled_single (hc : Text.isWordChar c = false) {wants : Bool} :
    ofLexeme wants (singleLexeme c) = some t ↔ t.Spelled [c] ∧ t.Fits wants := by
  constructor
  · intro h
    unfold singleLexeme at h
    split at h
    case h_8 => cases wants <;> cases h <;> exact ⟨rfl, rfl⟩
    all_goals cases h
    all_goals exact ⟨rfl, trivial⟩
  · rintro ⟨h, hfits⟩
    rcases t with text | _ | _ | op | op
    · have := h.2.2 c (.head _)
      simp [hc] at this
    · cases h; rfl
    · cases h; rfl
    · cases op with
      | not => cases h; rfl
      | neg => cases h; cases hfits; rfl
    · cases op
      case sub => cases h; cases hfits; rfl
      all_goals cases h
      all_goals rfl

/-- The tokens of two characters are the operators of that pair. -/
theorem spelled_pair (hc : Text.isWordChar c = false) :
    t.Spelled [c, d] ↔ ∃ op, pairOperator? c d = some op ∧ t = .binary op := by
  constructor
  · intro h
    rcases t with text | _ | _ | op | op
    · have := h.2.2 c (.head _)
      simp [hc] at this
    · cases h
    · cases h
    · cases op <;> cases h
    · refine ⟨op, ?_, rfl⟩
      cases op <;> cases h <;> rfl
  · rintro ⟨op, hop, rfl⟩
    unfold pairOperator? at hop
    split at hop <;> cases hop <;> rfl

/-- No pair is read in two ways. -/
theorem fits_pair {op : BinaryOp} (hop : pairOperator? c d = some op) (wants : Bool) :
    (Token.binary op).Fits wants := by
  unfold pairOperator? at hop
  split at hop <;> cases hop <;> trivial

theorem Token.Spelled.cons_of_isPrefix (h : t.Spelled pre) (hp : pre <+: c :: cs) :
    ∃ q, pre = c :: q ∧ q <+: cs := by
  cases pre with
  | nil => exact absurd rfl h.ne_nil
  | cons d q =>
      obtain ⟨rfl, hq⟩ := List.cons_prefix_cons.mp hp
      exact ⟨q, rfl, hq⟩

/-- The word that a text starts with, up to some character of it. -/
theorem Token.Spelled.word_of_isPrefix (hc : Text.isWordChar c = true) (h : t.Spelled pre)
    (hp : pre <+: c :: cs) :
    t = .word (String.ofList pre) ∧ pre <+: c :: cs.takeWhile Text.isWordChar := by
  obtain ⟨q, rfl, s, rfl⟩ := h.cons_of_isPrefix hp
  obtain ⟨ht, hall⟩ := (spelled_word hc).mp h
  rw [List.takeWhile_append_of_pos hall]
  exact ⟨ht, List.prefix_append (c :: q) _⟩

/-- The symbols that a text starts with. -/
theorem Token.Spelled.symbol_of_isPrefix (hc : Text.isWordChar c = false) (h : t.Spelled pre)
    (hp : pre <+: c :: cs) :
    pre = [c]
      ∨ ∃ d rest op, pre = [c, d] ∧ cs = d :: rest ∧ pairOperator? c d = some op
        ∧ t = .binary op := by
  obtain ⟨q, rfl, s, rfl⟩ := h.cons_of_isPrefix hp
  rcases h.symbol hc with rfl | ⟨d, rfl⟩
  · exact .inl rfl
  · obtain ⟨op, hop, ht⟩ := (spelled_pair hc).mp h
    exact .inr ⟨d, s, op, rfl, rfl, hop, ht⟩

end Spelling

/-! ## The lexer munches -/

/-- The lexeme, written `pre`, is the longest token that the text starts
with, in the reading that fits; it is none if the text starts with none. -/
def Munches (l : Lexeme) (pre cs : List Char) : Prop :=
  ∀ wants t pre', t.Longest pre' cs ∧ t.Fits wants ↔ ofLexeme wants l = some t ∧ pre' = pre

section Munches

variable {c d : Char} {cs rest : List Char}

theorem munches_word (hc : Text.isWordChar c = true) :
    Munches (.word (String.ofList (c :: cs.takeWhile Text.isWordChar)))
      (c :: cs.takeWhile Text.isWordChar) (c :: cs) := by
  have hspelled : (Token.word (String.ofList (c :: cs.takeWhile Text.isWordChar))).Spelled
      (c :: cs.takeWhile Text.isWordChar) :=
    (spelled_word hc).mpr ⟨rfl, List.all_eq_true.mp List.all_takeWhile⟩
  have hstarts : c :: cs.takeWhile Text.isWordChar <+: c :: cs :=
    List.cons_prefix_cons.mpr ⟨rfl, List.takeWhile_prefix _⟩
  intro wants t pre
  constructor
  · rintro ⟨ht, -⟩
    obtain ⟨rfl, hpre⟩ := ht.spelled.word_of_isPrefix hc ht.starts
    have heq := hpre.eq_of_length_le (ht.maximal _ _ hspelled hstarts)
    exact ⟨by rw [heq]; rfl, heq⟩
  · rintro ⟨ht, rfl⟩
    cases ht
    exact ⟨⟨hspelled, hstarts, fun t' pre' h hp =>
      (h.word_of_isPrefix hc hp).2.length_le⟩, trivial⟩

theorem munches_pair (hc : Text.isWordChar c = false) {op : BinaryOp}
    (hop : pairOperator? c d = some op) : Munches (.binary op) [c, d] (c :: d :: rest) := by
  have hspelled : (Token.binary op).Spelled [c, d] := (spelled_pair hc).mpr ⟨op, hop, rfl⟩
  have hstarts : [c, d] <+: c :: d :: rest := List.prefix_append [c, d] rest
  intro wants t pre
  constructor
  · rintro ⟨ht, -⟩
    have hlen := ht.maximal _ _ hspelled hstarts
    rcases ht.spelled.symbol_of_isPrefix hc ht.starts with rfl | ⟨d', rest', op', rfl, h, hop', rfl⟩
    · simp at hlen
    · cases h
      rw [hop] at hop'
      cases hop'
      exact ⟨rfl, rfl⟩
  · rintro ⟨ht, rfl⟩
    cases ht
    refine ⟨⟨hspelled, hstarts, fun t' pre' h hp => ?_⟩, fits_pair hop wants⟩
    rcases h.symbol_of_isPrefix hc hp with rfl | ⟨d', rest', op', rfl, -⟩ <;> simp

theorem munches_single (hc : Text.isWordChar c = false)
    (hnone : ∀ d rest, cs = d :: rest → pairOperator? c d = none) :
    Munches (singleLexeme c) [c] (c :: cs) := by
  have honly {t : Token} {pre : List Char} (h : t.Spelled pre) (hp : pre <+: c :: cs) :
      pre = [c] := by
    rcases h.symbol_of_isPrefix hc hp with rfl | ⟨d, rest, op, -, hcs, hop, -⟩
    · rfl
    · rw [hnone d rest hcs] at hop
      cases hop
  intro wants t pre
  rw [spelled_single hc]
  constructor
  · rintro ⟨ht, hfits⟩
    obtain rfl := honly ht.spelled ht.starts
    exact ⟨⟨ht.spelled, hfits⟩, rfl⟩
  · rintro ⟨⟨ht, hfits⟩, rfl⟩
    exact ⟨⟨ht, List.prefix_append [c] cs, fun t' pre' h hp => (honly h hp ▸ Nat.le_refl _)⟩, hfits⟩

theorem lex_blank (hc : Text.isBlank c = true) : lex (c :: cs) = lex cs := by
  rw [lex.eq_def]
  simp [hc]

theorem lex_word (hc : Text.isBlank c = false) (hw : Text.isWordChar c = true) :
    lex (c :: cs) = .word (String.ofList (c :: cs.takeWhile Text.isWordChar))
      :: lex (cs.dropWhile Text.isWordChar) := by
  rw [lex.eq_def]
  simp [hc, hw]

theorem lex_symbol (hc : Text.isBlank c = false) (hw : Text.isWordChar c = false) :
    lex (c :: cs) = (cs.head?.bind (pairOperator? c)).elim
      (singleLexeme c :: lex cs) fun op => .binary op :: lex cs.tail := by
  rw [lex.eq_def]
  cases cs with
  | nil => simp [hc, hw, lex]
  | cons d rest =>
      cases hop : pairOperator? c d with
      | none => simp [hc, hw, hop]
      | some op => simp [hc, hw, hop]

/-- The lexer cuts off the longest token. -/
theorem lex_munches (cs : List Char) (hc : Text.isBlank c = false) :
    ∃ l pre rest, c :: cs = pre ++ rest ∧ pre ≠ [] ∧ Munches l pre (c :: cs)
      ∧ lex (c :: cs) = l :: lex rest := by
  cases hw : Text.isWordChar c with
  | true =>
      refine ⟨_, _, cs.dropWhile Text.isWordChar, ?_, by simp, munches_word hw, lex_word hc hw⟩
      simp [List.takeWhile_append_dropWhile]
  | false =>
      rw [lex_symbol hc hw]
      cases cs with
      | nil => exact ⟨_, _, [], rfl, by simp, munches_single hw (by simp), rfl⟩
      | cons d rest =>
          rw [List.head?_cons, Option.bind_some]
          cases hop : pairOperator? c d with
          | some op => exact ⟨_, _, rest, rfl, by simp, munches_pair hw hop, rfl⟩
          | none =>
              refine ⟨_, _, d :: rest, rfl, by simp, munches_single hw ?_, rfl⟩
              intro d' rest' h
              cases h
              exact hop

end Munches

/-! ## Reading a text -/

/-- The tokens that lexemes are, given whether an operand is expected first. -/
def ofLexemes (wants : Bool) : List Lexeme → Option (List Token)
  | [] => some []
  | l :: ls =>
    (ofLexeme wants l).bind fun t => (ofLexemes t.wantsAfter ls).map (t :: ·)

section Reads

variable {wants : Bool} {cs : List Char} {ts ts' : List Token}

theorem ofLexemes_cons {l : Lexeme} {ls : List Lexeme} :
    ofLexemes wants (l :: ls) = some ts
      ↔ ∃ t rest, ofLexeme wants l = some t ∧ ofLexemes t.wantsAfter ls = some rest
        ∧ ts = t :: rest := by
  simp only [ofLexemes, Option.bind_eq_some_iff, Option.map_eq_some_iff]
  constructor
  · rintro ⟨t, ht, rest, hrest, rfl⟩
    exact ⟨t, rest, ht, hrest, rfl⟩
  · rintro ⟨t, rest, ht, hrest, rfl⟩
    exact ⟨t, ht, rest, hrest, rfl⟩

theorem Reads.ofLexemes_lex (h : Reads wants cs ts) : ofLexemes wants (lex cs) = some ts := by
  induction h with
  | done => rw [lex]; rfl
  | blank hc _ ih => rwa [lex_blank hc]
  | @token wants t pre rest ts ht hfits _ ih =>
      obtain ⟨c, q, rfl⟩ := List.exists_cons_of_ne_nil ht.spelled.ne_nil
      rw [List.cons_append] at ht ⊢
      obtain ⟨l, pre', rest', heq, -, hm, hlex⟩ := lex_munches (q ++ rest) ht.spelled.not_isBlank
      obtain ⟨hl, rfl⟩ := (hm wants t (c :: q)).mp ⟨ht, hfits⟩
      obtain rfl := List.append_cancel_left (List.cons.inj heq).2
      rw [hlex]
      exact ofLexemes_cons.mpr ⟨t, ts, hl, ih, rfl⟩

theorem reads_of_ofLexemes_lex (h : ofLexemes wants (lex cs) = some ts) : Reads wants cs ts := by
  -- Over the length of the text, since a token may be long.
  induction hn : cs.length using Nat.strongRecOn generalizing wants cs ts with
  | _ n ih =>
      cases cs with
      | nil =>
          rw [lex] at h
          cases h
          exact .done
      | cons c cs =>
          cases hc : Text.isBlank c with
          | true =>
              rw [lex_blank hc] at h
              exact .blank hc (ih _ (by simp [← hn]) h rfl)
          | false =>
              obtain ⟨l, pre, rest, heq, hpre, hm, hlex⟩ := lex_munches cs hc
              rw [hlex] at h
              obtain ⟨t, ts, hl, hts, rfl⟩ := ofLexemes_cons.mp h
              obtain ⟨ht, hfits⟩ := (hm wants t pre).mpr ⟨hl, rfl⟩
              rw [heq] at ht hn ⊢
              have hlt : rest.length < n := by
                rw [← hn, List.length_append]
                exact Nat.lt_add_of_pos_left (List.length_pos_iff.mpr hpre)
              exact .token ht hfits (ih _ hlt hts rfl)

/-- The lexer finds the tokens of a text. -/
theorem reads_iff : Reads wants cs ts ↔ ofLexemes wants (lex cs) = some ts :=
  ⟨Reads.ofLexemes_lex, reads_of_ofLexemes_lex⟩

theorem Reads.unique (h : Reads wants cs ts) (h' : Reads wants cs ts') : ts = ts' :=
  Option.some.inj (h.ofLexemes_lex.symm.trans h'.ofLexemes_lex)

/-- Every word of a text is made of word characters. -/
theorem Reads.isWordChar_of_mem (h : Reads wants cs ts) {text : String} (ht : .word text ∈ ts)
    {c : Char} (hc : c ∈ text.toList) : Text.isWordChar c = true := by
  induction h with
  | done => cases ht
  | blank _ _ ih => exact ih ht
  | token hlongest _ _ ih =>
      rcases List.mem_cons.mp ht with rfl | ht
      · obtain ⟨rfl, -, hall⟩ := hlongest.spelled
        exact hall c hc
      · exact ih ht

end Reads

end BranchingTime.Expr
