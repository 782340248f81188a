import Mathlib.Data.Nat.Digits.Defs
import BranchingTime.Expr.Code
import BranchingTime.Proofs.MaximalMunch

/-!
# Parse trees of expressions

The sentences of the expression language (`Sentence`) say nothing of
precedence, so a sentence may have several trees. Exactly one of them is
`Ordered`: without parentheses between them, no operator stands below one
that binds tighter, and binary operators that bind alike lean to the left.

A reader of tokens builds that tree (`Building`). What it has read is a
stack of frames, each the part of a tree that is left of what is being
read, and the tree that is read last, if any. The frames get tighter
towards the top, which is what makes the tree ordered (`Sound.step`); and
the tokens of an ordered tree lead back to it (`build_tokens`), which is why
there is only one.
-/

namespace BranchingTime.Expr

/-! ## Operands -/

/-- An operand, as it is written and as it is meant. -/
inductive Operand where
  | num (text : String) (value : Int16)
  | var (index : Nat) (name : String)
  deriving DecidableEq, Repr

namespace Operand

def text : Operand → String
  | num text _ => text
  | var _ name => name

def instr : Operand → Instr
  | num _ value => .num value
  | var index name => .var index name

/-- The value of a text of digits. -/
def decimal (text : String) : Nat := Nat.ofDigits 10 (text.toList.map Text.digitValue).reverse

/-- A literal is made of digits, and its value is at most 32767; a name
starts with a letter or an underscore, and stands for the first variable
that has it. -/
def Declared (names : List String) : Operand → Prop
  | num text value =>
    text ≠ "" ∧ (∀ c ∈ text.toList, c.isDigit = true)
      ∧ decimal text ≤ 32767 ∧ value.toInt = decimal text
  | var index name =>
    (∃ c cs, name.toList = c :: cs ∧ (c.isAlpha = true ∨ c = '_'))
      ∧ names[index]? = some name ∧ ∀ i < index, names[i]? ≠ some name

end Operand

/-! ## Trees -/

inductive Tree where
  | operand (o : Operand)
  | parens (t : Tree)
  | unary (op : UnaryOp) (t : Tree)
  | binary (op : BinaryOp) (left right : Tree)
  deriving DecidableEq, Repr

/-- The sentences of the language, given the operands. -/
inductive Sentence (IsOperand : Operand → Prop) : List Token → Prop
  | operand {o : Operand} (h : IsOperand o) : Sentence IsOperand [.word o.text]
  | parens {ts : List Token} (h : Sentence IsOperand ts) :
      Sentence IsOperand (.openParen :: (ts ++ [.closeParen]))
  | unary {ts : List Token} (op : UnaryOp) (h : Sentence IsOperand ts) :
      Sentence IsOperand (.unary op :: ts)
  | binary {ts ts' : List Token} (op : BinaryOp) (h : Sentence IsOperand ts)
      (h' : Sentence IsOperand ts') : Sentence IsOperand (ts ++ .binary op :: ts')

/-- The binary operators by how tightly they bind, from the loosest. -/
def BinaryOp.tiers : List (List BinaryOp) :=
  [[.or], [.and], [.eq, .ne, .lt, .le, .gt, .ge], [.add, .sub], [.mul, .div]]

def BinaryOp.tightness (op : BinaryOp) : Nat := tiers.findIdx (op ∈ ·)

/-- All unary operators bind tighter than all binary ones. -/
def UnaryOp.tightness (_ : UnaryOp) : Nat := BinaryOp.tiers.length

namespace Tree

/-- What is written. -/
def tokens : Tree → List Token
  | operand o => [.word o.text]
  | parens t => .openParen :: (t.tokens ++ [.closeParen])
  | unary op t => .unary op :: t.tokens
  | binary op l r => l.tokens ++ .binary op :: r.tokens

/-- Operands first, then the operator. -/
def postorder : Tree → List Instr
  | operand o => [o.instr]
  | parens t => t.postorder
  | unary op t => t.postorder ++ [.unary op]
  | binary op l r => l.postorder ++ r.postorder ++ [.binary op]

/-- How tightly the outermost operator binds. What has no operator outside
binds tighter than what has. -/
def tightness : Tree → Nat
  | operand _ | parens _ => BinaryOp.tiers.length + 1
  | unary op _ => op.tightness
  | binary op _ _ => op.tightness

/-- Operators stand above the ones that bind tighter; of binary operators
that bind alike, the left one is read first. -/
def Ordered : Tree → Prop
  | operand _ => True
  | parens t => t.Ordered
  | unary op t => op.tightness ≤ t.tightness ∧ t.Ordered
  | binary op l r =>
    (op.tightness ≤ l.tightness ∧ l.Ordered) ∧ op.tightness < r.tightness ∧ r.Ordered

/-- All operands are such. -/
def Over (IsOperand : Operand → Prop) : Tree → Prop
  | operand o => IsOperand o
  | parens t | unary _ t => t.Over IsOperand
  | binary _ l r => l.Over IsOperand ∧ r.Over IsOperand

variable {IsOperand : Operand → Prop} {t : Tree}

theorem Over.sentence (h : t.Over IsOperand) : Sentence IsOperand t.tokens := by
  induction t with
  | operand o => exact .operand h
  | parens t ih => exact (ih h).parens
  | unary op t ih => exact (ih h).unary op
  | binary op l r ihl ihr => exact (ihl h.1).binary op (ihr h.2)

theorem Over.imp {IsOperand' : Operand → Prop} (h : t.Over IsOperand)
    (himp : ∀ o, .word o.text ∈ t.tokens → IsOperand o → IsOperand' o) : t.Over IsOperand' := by
  induction t with
  | operand o => exact himp o (.head _) h
  | parens t ih => exact ih h fun o ho => himp o (by simp [tokens, ho])
  | unary op t ih => exact ih h fun o ho => himp o (by simp [tokens, ho])
  | binary op l r ihl ihr =>
      exact ⟨ihl h.1 fun o ho => himp o (by simp [tokens, ho]),
        ihr h.2 fun o ho => himp o (by simp [tokens, ho])⟩

/-- Right trees: over such operands, and ordered. -/
structure Proper (IsOperand : Operand → Prop) (t : Tree) : Prop where
  operands : t.Over IsOperand
  ordered : t.Ordered

end Tree

theorem UnaryOp.precedence_eq (op : UnaryOp) : op.precedence = op.tightness + 1 := rfl

theorem BinaryOp.precedence_eq (op : BinaryOp) : op.precedence = op.tightness + 1 := by
  cases op <;> rfl

theorem BinaryOp.tightness_lt (op : BinaryOp) : op.tightness < tiers.length := by
  cases op <;> decide

/-! ## Building a tree -/

/-- A tree without its last subtree. -/
inductive Frame where
  | openParen
  | unary (op : UnaryOp)
  | binary (op : BinaryOp) (left : Tree)
  deriving DecidableEq, Repr

namespace Frame

def tokens : Frame → List Token
  | openParen => [.openParen]
  | unary op => [.unary op]
  | binary op l => l.tokens ++ [.binary op]

/-- A subtree that binds that tightly can be filled in. -/
def Takes (n : Nat) : Frame → Prop
  | openParen => True
  | unary op => op.tightness ≤ n
  | binary op _ => op.tightness < n

end Frame

/-- What is read of an expression: what is open, innermost first, and what
was read last if no operand is expected. -/
structure Building where
  frames : List Frame := []
  current : Option Tree := none
  deriving DecidableEq, Repr

namespace Building

/-- Fills a tree into the frames while `p` holds for their precedence, up to
the innermost open parenthesis. -/
def reduce (p : Nat → Bool) : Tree → List Frame → Tree × List Frame
  | t, .unary op :: fs =>
    if p op.precedence then reduce p (.unary op t) fs else (t, .unary op :: fs)
  | t, .binary op l :: fs =>
    if p op.precedence then reduce p (.binary op l t) fs else (t, .binary op l :: fs)
  | t, fs => (t, fs)

/-- Reads one token, with a function that knows the operands. -/
def read (operand? : String → Option Operand) (b : Building) (t : Token) : Option Building :=
  match b.current, t with
  | none, .word text =>
    (operand? text).map fun o => { b with current := some (.operand o) }
  | none, .openParen => some { b with frames := .openParen :: b.frames }
  | none, .unary op => some { b with frames := .unary op :: b.frames }
  | some last, .binary op =>
    let reduced := reduce (op.precedence ≤ ·) last b.frames
    some { frames := .binary op reduced.1 :: reduced.2 }
  | some last, .closeParen =>
    match reduce (fun _ => true) last b.frames with
    | (inner, .openParen :: fs) => some { frames := fs, current := some (.parens inner) }
    | _ => none
  | _, _ => none

/-- The whole tree, if nothing is open. -/
def finish (b : Building) : Option Tree :=
  b.current.bind fun last =>
    match reduce (fun _ => true) last b.frames with
    | (t, []) => some t
    | _ => none

end Building

/-- The tree that tokens build. -/
def build (operand? : String → Option Operand) (ts : List Token) : Option Tree :=
  (ts.foldlM (Building.read operand?) {}).bind Building.finish

namespace Building

variable {operand? : String → Option Operand} {IsOperand : Operand → Prop} {p : Nat → Bool}
  {n : Nat} {t : Tree} {fs : List Frame} {b b' : Building} {tok : Token}

/-! ### Reducing keeps what was read -/

/-- A subtree that binds that tightly can be filled into the top frame. -/
def TopTakes (n : Nat) (fs : List Frame) : Prop := ∀ f ∈ fs.head?, f.Takes n

theorem TopTakes.mono {n' : Nat} (h : TopTakes n fs) (hn : n ≤ n') : TopTakes n' fs := by
  intro f hf
  have := h f hf
  cases f with
  | openParen => trivial
  | unary op => exact Nat.le_trans this hn
  | binary op l => exact Nat.lt_of_lt_of_le this hn

/-- The frames are those of a right tree. -/
inductive Stacked (IsOperand : Operand → Prop) : List Frame → Prop
  | nil : Stacked IsOperand []
  | openParen {fs : List Frame} (h : Stacked IsOperand fs) : Stacked IsOperand (.openParen :: fs)
  | unary {fs : List Frame} {op : UnaryOp} (h : Stacked IsOperand fs)
      (htop : TopTakes op.tightness fs) : Stacked IsOperand (.unary op :: fs)
  | binary {fs : List Frame} {op : BinaryOp} {l : Tree} (h : Stacked IsOperand fs)
      (hl : l.Proper IsOperand) (hle : op.tightness ≤ l.tightness)
      (htop : TopTakes op.tightness fs) :
      Stacked IsOperand (.binary op l :: fs)

/-- The tokens of frames, in reading order. -/
def tokensOf (fs : List Frame) : List Token := fs.reverse.flatMap Frame.tokens

theorem tokensOf_nil : tokensOf [] = [] := rfl

theorem tokensOf_cons (f : Frame) (fs : List Frame) :
    tokensOf (f :: fs) = tokensOf fs ++ f.tokens := by
  simp [tokensOf]

theorem tokens_reduce (p : Nat → Bool) (t : Tree) (fs : List Frame) :
    tokensOf (reduce p t fs).2 ++ (reduce p t fs).1.tokens = tokensOf fs ++ t.tokens := by
  fun_induction reduce p t fs with
  | case1 t op fs hp ih => simp [ih, tokensOf_cons, Frame.tokens, Tree.tokens]
  | case3 t op l fs hp ih => simp [ih, tokensOf_cons, Frame.tokens, Tree.tokens]
  | case2 | case4 | case5 => rfl

/-- What is filled into the frames is a right tree. -/
theorem proper_reduce (p : Nat → Bool) (hfs : Stacked IsOperand fs) (ht : t.Proper IsOperand)
    (htop : TopTakes t.tightness fs) :
    Stacked IsOperand (reduce p t fs).2 ∧ (reduce p t fs).1.Proper IsOperand := by
  fun_induction reduce p t fs with
  | case1 t op fs hp ih =>
      cases hfs with
      | unary hfs hnext => exact ih hfs ⟨ht.operands, htop _ rfl, ht.ordered⟩ hnext
  | case3 t op l fs hp ih =>
      cases hfs with
      | binary hfs hl hle hnext =>
          exact ih hfs ⟨⟨hl.operands, ht.operands⟩, ⟨hle, hl.ordered⟩, htop _ rfl, ht.ordered⟩ hnext
  | case2 | case4 | case5 => exact ⟨hfs, ht⟩

/-- What is filled into frames that bind that tightly binds so, too. -/
theorem le_tightness_reduce (ht : n ≤ t.tightness) (hp : ∀ m, p m = true → n < m) :
    n ≤ (reduce p t fs).1.tightness := by
  fun_induction reduce p t fs with
  | case1 t op fs h ih =>
      have := hp _ h
      rw [op.precedence_eq] at this
      exact ih (Nat.le_of_lt_succ this)
  | case3 t op l fs h ih =>
      have := hp _ h
      rw [op.precedence_eq] at this
      exact ih (Nat.le_of_lt_succ this)
  | case2 | case4 | case5 => exact ht

/-- The top frame that stays is an open parenthesis or binds looser. -/
theorem topTakes_reduce (hp : ∀ m, p m = false → m ≤ n) : TopTakes n (reduce p t fs).2 := by
  fun_induction reduce p t fs with
  | case1 t op fs h ih => exact ih
  | case3 t op l fs h ih => exact ih
  | case2 t op fs h =>
      rintro f ⟨⟩
      have := hp _ (Bool.not_eq_true _ ▸ h)
      rw [op.precedence_eq] at this
      exact Nat.le_of_succ_le this
  | case4 t op l fs h =>
      rintro f ⟨⟩
      have := hp _ (Bool.not_eq_true _ ▸ h)
      rw [op.precedence_eq] at this
      exact this
  | case5 t fs hunary hbinary =>
      intro f hf
      obtain ⟨rest, rfl⟩ := List.head?_eq_some_iff.mp hf
      cases f with
      | openParen => trivial
      | unary op => exact absurd rfl (hunary op rest)
      | binary op l => exact absurd rfl (hbinary op l rest)

theorem topTakes_of_le (hn : BinaryOp.tiers.length ≤ n) : TopTakes n fs := by
  intro f _
  cases f with
  | openParen => trivial
  | unary op => exact hn
  | binary op l => exact Nat.lt_of_lt_of_le op.tightness_lt hn

/-! ### What is built is what was read -/

/-- What was read is part of a right tree, and what was read last has no
operator outside. -/
structure Sound (IsOperand : Operand → Prop) (b : Building) : Prop where
  stacked : Stacked IsOperand b.frames
  proper : ∀ t, b.current = some t → t.Proper IsOperand
  closed : ∀ t, b.current = some t → BinaryOp.tiers.length < t.tightness

/-- The tokens that were read. -/
def tokens (b : Building) : List Token :=
  tokensOf b.frames ++ (b.current.map Tree.tokens).getD []

/-- What reading one token does. -/
inductive Step (operand? : String → Option Operand) : Building → Token → Building → Prop
  | word {fs : List Frame} {text : String} {o : Operand} (ho : operand? text = some o) :
      Step operand? ⟨fs, none⟩ (.word text) ⟨fs, some (.operand o)⟩
  | openParen {fs : List Frame} :
      Step operand? ⟨fs, none⟩ .openParen ⟨.openParen :: fs, none⟩
  | unary {fs : List Frame} {op : UnaryOp} :
      Step operand? ⟨fs, none⟩ (.unary op) ⟨.unary op :: fs, none⟩
  | binary {fs fs' : List Frame} {last left : Tree} {op : BinaryOp}
      (h : reduce (op.precedence ≤ ·) last fs = (left, fs')) :
      Step operand? ⟨fs, some last⟩ (.binary op) ⟨.binary op left :: fs', none⟩
  | closeParen {fs fs' : List Frame} {last inner : Tree}
      (h : reduce (fun _ => true) last fs = (inner, .openParen :: fs')) :
      Step operand? ⟨fs, some last⟩ .closeParen ⟨fs', some (.parens inner)⟩

theorem step_of_read (h : b.read operand? tok = some b') : Step operand? b tok b' := by
  obtain ⟨fs, _ | last⟩ := b
  · cases tok with
    | word text =>
        obtain ⟨o, ho, rfl⟩ := Option.map_eq_some_iff.mp h
        exact .word ho
    | openParen => cases h; exact .openParen
    | unary op => cases h; exact .unary
    | closeParen | binary op => cases h
  · cases tok with
    | binary op => cases h; exact .binary rfl
    | closeParen =>
        simp only [read] at h
        split at h
        next heq => cases h; exact .closeParen heq
        next => cases h
    | word text | openParen | unary op => cases h

/-- What a token leaves says what is expected next. -/
theorem Step.isNone_current (h : Step operand? b tok b') :
    b'.current.isNone = tok.wantsAfter := by
  cases h <;> rfl

theorem Step.tokens_eq (htext : ∀ w o, operand? w = some o → o.text = w)
    (h : Step operand? b tok b') : b'.tokens = b.tokens ++ [tok] := by
  cases h with
  | word ho => simp [tokens, Tree.tokens, htext _ _ ho]
  | openParen | unary => simp [tokens, tokensOf_cons, Frame.tokens]
  | @binary fs fs' last left op hreduce =>
      have htokens := tokens_reduce (op.precedence ≤ ·) last fs
      rw [hreduce] at htokens
      simp [tokens, tokensOf_cons, Frame.tokens, ← htokens]
  | @closeParen fs fs' last inner hreduce =>
      have htokens := tokens_reduce (fun _ => true) last fs
      rw [hreduce] at htokens
      simp only [tokensOf_cons, Frame.tokens] at htokens
      simp [tokens, Tree.tokens, ← htokens]

theorem Sound.step (hop : ∀ w o, operand? w = some o → IsOperand o) (hb : b.Sound IsOperand)
    (h : Step operand? b tok b') : b'.Sound IsOperand := by
  obtain ⟨hfs, hproper, hclosed⟩ := hb
  cases h with
  | word ho =>
      refine ⟨hfs, ?_, ?_⟩
      · rintro t ⟨⟩
        exact ⟨hop _ _ ho, trivial⟩
      · rintro t ⟨⟩
        exact Nat.lt_succ_self _
  | openParen => exact ⟨hfs.openParen, by simp, by simp⟩
  | unary => exact ⟨hfs.unary (topTakes_of_le (Nat.le_refl _)), by simp, by simp⟩
  | @binary fs fs' last left op hreduce =>
      have hlast := hclosed last rfl
      have hprec := op.precedence_eq
      -- What stays binds looser than the operator, and what is filled in does not.
      have htop : TopTakes op.tightness (reduce (op.precedence ≤ ·) last fs).2 :=
        topTakes_reduce fun m hm => by
          have := of_decide_eq_false hm
          omega
      have hle : op.tightness ≤ (reduce (op.precedence ≤ ·) last fs).1.tightness := by
        refine le_tightness_reduce (Nat.le_of_lt (op.tightness_lt.trans hlast)) fun m hm => ?_
        have := of_decide_eq_true hm
        omega
      obtain ⟨hfs', hleft⟩ := proper_reduce (op.precedence ≤ ·) hfs (hproper last rfl)
        (topTakes_of_le (Nat.le_of_lt hlast))
      rw [hreduce] at htop hle hfs' hleft
      exact ⟨hfs'.binary hleft hle htop, by simp, by simp⟩
  | @closeParen fs fs' last inner hreduce =>
      obtain ⟨hfs', hinner⟩ := proper_reduce (fun _ => true) hfs (hproper last rfl)
        (topTakes_of_le (Nat.le_of_lt (hclosed last rfl)))
      rw [hreduce] at hfs' hinner
      cases hfs' with
      | openParen hfs' =>
          refine ⟨hfs', ?_, ?_⟩
          · rintro t ⟨⟩
            exact ⟨hinner.operands, hinner.ordered⟩
          · rintro t ⟨⟩
            exact Nat.lt_succ_self _

theorem run_sound (hop : ∀ w o, operand? w = some o → IsOperand o ∧ o.text = w)
    {ts : List Token} (h : b.Sound IsOperand) (hrun : ts.foldlM (read operand?) b = some b') :
    b'.Sound IsOperand ∧ b'.tokens = b.tokens ++ ts := by
  induction ts generalizing b with
  | nil =>
      cases hrun
      exact ⟨h, by simp⟩
  | cons tok ts ih =>
      rw [List.foldlM_cons] at hrun
      obtain ⟨b1, hread, hrest⟩ := Option.bind_eq_some_iff.mp hrun
      have hstep := step_of_read hread
      obtain ⟨h', hts⟩ := ih (h.step (fun w o ho => (hop w o ho).1) hstep) hrest
      exact ⟨h', by simp [hts, hstep.tokens_eq fun w o ho => (hop w o ho).2]⟩

theorem finish_sound (h : b.Sound IsOperand) (hfinish : b.finish = some t) :
    t.Proper IsOperand ∧ t.tokens = b.tokens := by
  obtain ⟨fs, last?⟩ := b
  obtain ⟨last, rfl, hfinish⟩ := Option.bind_eq_some_iff.mp hfinish
  have hproper := (proper_reduce (fun _ => true) h.stacked (h.proper last rfl)
    (topTakes_of_le (Nat.le_of_lt (h.closed last rfl)))).2
  have htokens := tokens_reduce (fun _ => true) last fs
  generalize reduce (fun _ => true) last fs = reduced at hfinish hproper htokens
  split at hfinish
  next =>
    cases hfinish
    exact ⟨hproper, by simpa [tokens, tokensOf_nil] using htokens⟩
  next => cases hfinish

/-! ### The tokens of an ordered tree -/

/-- Frames that take an operator stay when it is read. -/
theorem reduce_of_topTakes {op : BinaryOp} (h : TopTakes op.tightness fs) :
    reduce (op.precedence ≤ ·) t fs = (t, fs) := by
  rcases fs with _ | ⟨_ | op' | ⟨op', l⟩, fs⟩
  · rfl
  · rfl
  · exact absurd (h _ rfl) (Nat.not_le_of_lt op.tightness_lt)
  · have hlt : op'.tightness < op.tightness := h _ rfl
    have : ¬ op.precedence ≤ op'.precedence := by
      rw [op.precedence_eq, op'.precedence_eq]
      omega
    simp [reduce, this]

/-- Reading an ordered tree leaves frames that become the tree again once
they are filled. -/
theorem run_tokens (hop : ∀ o, IsOperand o → operand? o.text = some o) (ht : t.Proper IsOperand)
    (htop : TopTakes t.tightness fs) :
    ∃ fs' last, t.tokens.foldlM (read operand?) ⟨fs, none⟩ = some ⟨fs', some last⟩
      ∧ ∀ p : Nat → Bool, (∀ m, t.tightness < m → p m = true)
        → reduce p last fs' = reduce p t fs := by
  obtain ⟨hover, hordered⟩ := ht
  induction t generalizing fs with
  | operand o =>
      refine ⟨fs, .operand o, ?_, fun p _ => rfl⟩
      simp [Tree.tokens, read, hop o hover]
  | parens t ih =>
      obtain ⟨fs', last, hrun, hreduce⟩ := @ih (.openParen :: fs) (by rintro f ⟨⟩; trivial) hover
        hordered
      refine ⟨fs, .parens t, ?_, fun p _ => rfl⟩
      have hclose : reduce (fun _ => true) last fs' = (t, .openParen :: fs) :=
        hreduce _ fun _ _ => rfl
      simp [Tree.tokens, read, List.foldlM_append, hrun, hclose]
  | unary op t ih =>
      obtain ⟨fs', last, hrun, hreduce⟩ := @ih (.unary op :: fs) (by
        rintro f ⟨⟩
        exact hordered.1) hover hordered.2
      refine ⟨fs', last, ?_, fun p hp => ?_⟩
      · simpa [Tree.tokens, read] using hrun
      · have hop : p op.precedence = true := hp _ (by simp [op.precedence_eq, Tree.tightness])
        rw [hreduce p fun m hm => hp m (Nat.lt_of_le_of_lt hordered.1 hm), reduce, if_pos hop]
  | binary op l r ihl ihr =>
      obtain ⟨⟨hle, hl⟩, hlt, hr⟩ := hordered
      obtain ⟨fs1, last1, hrun1, hreduce1⟩ := ihl (htop.mono hle) hover.1 hl
      -- The left tree is complete when its operator is read.
      have hleft : reduce (op.precedence ≤ ·) last1 fs1 = (l, fs) := by
        rw [hreduce1 _ fun m hm => ?_, reduce_of_topTakes htop]
        have := op.precedence_eq
        exact decide_eq_true (by omega)
      obtain ⟨fs2, last2, hrun2, hreduce2⟩ := @ihr (.binary op l :: fs) (by
        rintro f ⟨⟩
        exact hlt) hover.2 hr
      refine ⟨fs2, last2, ?_, fun p hp => ?_⟩
      · simp [Tree.tokens, List.foldlM_append, hrun1, read, hleft, hrun2]
      · have hop : p op.precedence = true := hp _ (by simp [op.precedence_eq, Tree.tightness])
        rw [hreduce2 p fun m hm => hp m (hlt.trans hm), reduce, if_pos hop]

/-! ### Every sentence is read -/

/-- What is open from the innermost parenthesis on. -/
def outer (fs : List Frame) : List Frame := fs.dropWhile (· ≠ .openParen)

@[simp] theorem outer_openParen : outer (.openParen :: fs) = .openParen :: fs := by
  simp [outer]

@[simp] theorem outer_unary {op : UnaryOp} : outer (.unary op :: fs) = outer fs := by
  simp [outer]

@[simp] theorem outer_binary {op : BinaryOp} {l : Tree} :
    outer (.binary op l :: fs) = outer fs := by
  simp [outer]

theorem outer_reduce (p : Nat → Bool) (t : Tree) (fs : List Frame) :
    outer (reduce p t fs).2 = outer fs := by
  fun_induction reduce p t fs with
  | case1 t op fs hp ih => rw [ih, outer_unary]
  | case3 t op l fs hp ih => rw [ih, outer_binary]
  | case2 | case4 | case5 => rfl

theorem reduce_true_snd (t : Tree) (fs : List Frame) :
    (reduce (fun _ => true) t fs).2 = outer fs := by
  fun_induction reduce (fun _ => true) t fs with
  | case1 t op fs hp ih => rw [ih, outer_unary]
  | case3 t op l fs hp ih => rw [ih, outer_binary]
  | case2 _ _ _ h | case4 _ _ _ _ h => exact absurd rfl h
  | case5 t fs hunary hbinary =>
      rcases fs with _ | ⟨_ | op | ⟨op, l⟩, fs⟩
      · rfl
      · exact outer_openParen.symm
      · exact absurd rfl (hunary op fs)
      · exact absurd rfl (hbinary op l fs)

/-- A sentence is read as a whole, wherever an operand is expected. -/
theorem run_sentence (hop : ∀ o, IsOperand o → operand? o.text = some o) {ts : List Token}
    (h : Sentence IsOperand ts) (fs : List Frame) :
    ∃ fs' last, ts.foldlM (read operand?) ⟨fs, none⟩ = some ⟨fs', some last⟩
      ∧ outer fs' = outer fs := by
  induction h generalizing fs with
  | @operand o ho => exact ⟨fs, .operand o, by simp [read, hop o ho], rfl⟩
  | parens _ ih =>
      obtain ⟨fs', last, hrun, houter⟩ := ih (.openParen :: fs)
      have hclose := reduce_true_snd last fs'
      rw [houter] at hclose
      generalize hr : reduce (fun _ => true) last fs' = reduced at hclose
      obtain ⟨inner, fs''⟩ := reduced
      obtain rfl : fs'' = .openParen :: fs := by simpa using hclose
      exact ⟨fs, .parens inner, by simp [read, List.foldlM_append, hrun, hr], rfl⟩
  | unary op _ ih =>
      obtain ⟨fs', last, hrun, houter⟩ := ih (.unary op :: fs)
      exact ⟨fs', last, by simpa [read] using hrun, by simpa using houter⟩
  | binary op _ _ ih ih' =>
      obtain ⟨fs1, last1, hrun1, houter1⟩ := ih fs
      have hleft := outer_reduce (op.precedence ≤ ·) last1 fs1
      generalize hr : reduce (op.precedence ≤ ·) last1 fs1 = reduced at hleft
      obtain ⟨fs2, last2, hrun2, houter2⟩ := ih' (.binary op reduced.1 :: reduced.2)
      refine ⟨fs2, last2, ?_, ?_⟩
      · simp [List.foldlM_append, hrun1, read, hr, hrun2]
      · rw [houter2, outer_binary, hleft, houter1]

end Building

/-! ## Trees and sentences -/

section Build

variable {operand? : String → Option Operand} {IsOperand : Operand → Prop} {ts : List Token}
  {t : Tree}

/-- The tree that is built is right, and is that of the tokens. -/
theorem build_sound (hop : ∀ w o, operand? w = some o → IsOperand o ∧ o.text = w)
    (h : build operand? ts = some t) : t.Proper IsOperand ∧ t.tokens = ts := by
  obtain ⟨b, hrun, hfinish⟩ := Option.bind_eq_some_iff.mp h
  obtain ⟨hb, htokens⟩ := Building.run_sound hop ⟨.nil, by simp, by simp⟩ hrun
  obtain ⟨hproper, ht⟩ := Building.finish_sound hb hfinish
  exact ⟨hproper, by simpa [Building.tokens, Building.tokensOf_nil] using ht.trans htokens⟩

/-- A right tree is the one that its tokens build. -/
theorem build_tokens (hop : ∀ o, IsOperand o → operand? o.text = some o)
    (ht : t.Proper IsOperand) : build operand? t.tokens = some t := by
  have htop : Building.TopTakes t.tightness [] := by simp [Building.TopTakes]
  obtain ⟨fs, last, hrun, hreduce⟩ := Building.run_tokens hop ht htop
  have hfinish : Building.reduce (fun _ => true) last fs = (t, []) := hreduce _ fun _ _ => rfl
  simp [build, hrun, Building.finish, hfinish]

/-- Every sentence builds a tree. -/
theorem Sentence.exists_build (hop : ∀ o, IsOperand o → operand? o.text = some o)
    (h : Sentence IsOperand ts) : ∃ t, build operand? ts = some t := by
  obtain ⟨fs, last, hrun, houter⟩ := Building.run_sentence hop h []
  have hfinish := Building.reduce_true_snd last fs
  rw [houter] at hfinish
  generalize hr : Building.reduce (fun _ => true) last fs = reduced at hfinish
  obtain ⟨t, fs'⟩ := reduced
  obtain rfl : fs' = [] := hfinish
  exact ⟨t, by simp [build, hrun, Building.finish, hr]⟩

end Build

end BranchingTime.Expr
