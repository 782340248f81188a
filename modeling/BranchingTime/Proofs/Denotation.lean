import BranchingTime.Diagram.Count
import BranchingTime.Proofs.TableInvariant

/-!
# What diagrams denote

`Manager.eval m f a` is the value of the diagram `f` when the variables
have the values `a`. It makes sense for the handles of a manager
(`Manager.Valid`) as long as the stored nodes are in order
(`Manager.Reduced`): every node stands above its children, its children
differ, and its high edge is regular.

The end of the file is canonicity: in a reduced manager, handles that
denote the same function are equal. The argument has two parts. Regular
handles are the ones that are true when all variables are
(`Reduced.eval_allTrue`), so handles of the same function have the same
sign; and a node is determined by the functions of its two children, going
down from the root (`Reduced.eq_of_eval_eq`).
-/

namespace BranchingTime

/-- A truth value for every variable. -/
abbrev Assignment := Nat → Bool

/-! ## Signs of handles -/

namespace Handle

variable {f g : Handle}

theorem isTerminal_iff : f.isTerminal = true ↔ f.index = 1 := by
  simp [isTerminal, one]

theorem isTerminal_neg : (-f).isTerminal = f.isTerminal := by
  simp [isTerminal]

theorem isComplemented_iff : f.isComplemented = true ↔ f.code < 0 := decide_eq_true_iff

theorem eq_of_index_of_sign (hi : f.index = g.index)
    (hs : f.isComplemented = g.isComplemented) : f = g := by
  apply ext_code
  simp only [index, isComplemented, decide_eq_decide] at hi hs
  omega

theorem isComplemented_neg (h : f.index ≠ 0) : (-f).isComplemented = !f.isComplemented := by
  have hne : f.code ≠ 0 := fun hc => h (by simp [index, hc])
  rw [Bool.eq_iff_iff, Bool.not_eq_true', ← Bool.not_eq_true, isComplemented_iff,
    isComplemented_iff, code_neg]
  omega

theorem isComplemented_ofIndex (i : Nat) : (ofIndex i).isComplemented = false :=
  decide_eq_false (Int.not_lt.mpr (Int.natCast_nonneg i))

theorem neg_inj : -f = -g ↔ f = g :=
  ⟨fun h => by rw [← neg_neg f, h, neg_neg], fun h => by rw [h]⟩

@[simp] theorem index_complementIf (b : Bool) : (f.complementIf b).index = f.index := by
  cases b <;> simp [complementIf]

@[simp] theorem index_one : one.index = 1 := rfl

@[simp] theorem index_zero : zero.index = 1 := rfl

theorem zero_eq_neg_one : zero = -one := rfl

/-- The two handles of the terminal cell. -/
theorem eq_one_or_eq_zero (h : f.index = 1) : f = one ∨ f = zero := by
  cases hs : f.isComplemented with
  | false => exact Or.inl (eq_of_index_of_sign h hs)
  | true => exact Or.inr (eq_of_index_of_sign h hs)

/-- A handle is the regular handle of its cell, complemented or not. -/
theorem isTerminal_eq_false (h1 : f ≠ one) (h0 : f ≠ zero) : f.isTerminal = false := by
  refine Bool.eq_false_iff.mpr fun ht => ?_
  exact (eq_one_or_eq_zero (isTerminal_iff.mp ht)).elim h1 h0

theorem complementIf_ofIndex (f : Handle) :
    (ofIndex f.index).complementIf f.isComplemented = f := by
  apply ext_code
  simp only [complementIf, isComplemented, index, ofIndex, decide_eq_true_eq]
  split
  · simp only [code_neg]
    omega
  · show (f.code.natAbs : Int) = f.code
    omega

end Handle

namespace Manager

/-! ## Stored nodes and valid handles -/

/-- Cell `i` stores the node `n`. -/
def Stores (m : Manager) (i : Nat) (n : Node) : Prop := m.table.Holds i n

/-- `f` names a constant or a stored node. -/
def Valid (m : Manager) (f : Handle) : Prop := f.index = 1 ∨ ∃ n, m.Stores f.index n

/-- A node that may be stored: its variable exists and stands above its
children, and it is the only way to write its function. -/
structure Proper (m : Manager) (n : Node) : Prop where
  var_pos : 1 ≤ n.var
  var_le : n.var ≤ m.numVars
  low_ne_high : n.low ≠ n.high
  high_regular : n.high.isComplemented = false
  low_valid : m.Valid n.low
  high_valid : m.Valid n.high
  var_lt_low : n.var < m.level n.low
  var_lt_high : n.var < m.level n.high

/-- The table is in order, the terminal stands in cell `1`, and all stored
nodes are proper. -/
structure Reduced (m : Manager) : Prop where
  table : m.table.Invariant
  terminal : m.table.cells[1]? = some ⟨default, .held⟩
  proper : ∀ {i n}, m.Stores i n → m.Proper n

variable {m m' : Manager} {f g : Handle} {i : Nat} {n : Node}

theorem Valid.neg (h : m.Valid f) : m.Valid (-f) := by
  simpa only [Valid, Handle.index_neg] using h

theorem valid_one (m : Manager) : m.Valid .one := Or.inl rfl

theorem valid_zero (m : Manager) : m.Valid .zero := Or.inl rfl

theorem Valid.complementIf (h : m.Valid f) (b : Bool) : m.Valid (f.complementIf b) := by
  simpa only [Valid, Handle.index_complementIf] using h

theorem Valid.stores (h : m.Valid f) (hf : f.isTerminal = false) : ∃ n, m.Stores f.index n := by
  rcases h with h | h
  · rw [Handle.isTerminal_iff.mpr h] at hf
    cases hf
  · exact h

namespace Reduced

theorem ne_zero (hr : m.Reduced) (h : m.Stores i n) : i ≠ 0 := by
  rintro rfl
  exact hr.table.not_holds_zero h

theorem ne_one (hr : m.Reduced) (h : m.Stores i n) : i ≠ 1 := by
  rintro rfl
  rw [Stores, UniqueTable.Holds, hr.terminal] at h
  cases Option.some.inj h

theorem index_ne_zero (hr : m.Reduced) (h : m.Valid f) : f.index ≠ 0 := by
  rcases h with h | ⟨n, h⟩
  · omega
  · exact hr.ne_zero h

theorem node_eq (hr : m.Reduced) (h : m.Stores i n) : m.node i = n := by
  have h' : m.table.cells[i]? = some ⟨n, .shared⟩ := h
  simp [node, UniqueTable.value?, hr.ne_zero h, h']

theorem not_terminal (hr : m.Reduced) (h : m.Stores f.index n) : f.isTerminal = false := by
  cases ht : f.isTerminal with
  | false => rfl
  | true => exact absurd (Handle.isTerminal_iff.mp ht) (hr.ne_one h)

theorem level_of_stores (hr : m.Reduced) (h : m.Stores f.index n) : m.level f = n.var := by
  simp [level, hr.not_terminal h, topVar, hr.node_eq h]

theorem low_of_stores (hr : m.Reduced) (h : m.Stores f.index n) :
    m.low f = n.low.complementIf f.isComplemented := by
  rw [low, hr.node_eq h]

theorem high_of_stores (hr : m.Reduced) (h : m.Stores f.index n) :
    m.high f = n.high.complementIf f.isComplemented := by
  rw [high, hr.node_eq h]

end Reduced

/-! ## Levels -/

theorem level_neg : m.level (-f) = m.level f := by
  simp [level, Handle.isTerminal_neg, topVar]

theorem level_complementIf (b : Bool) : m.level (f.complementIf b) = m.level f := by
  cases b
  · rfl
  · exact level_neg

theorem level_of_terminal (h : f.isTerminal = true) : m.level f = m.numVars + 1 := by
  simp [level, h]

theorem level_one : m.level .one = m.numVars + 1 := level_of_terminal rfl

theorem level_zero : m.level .zero = m.numVars + 1 := level_of_terminal rfl

namespace Reduced

theorem level_le (hr : m.Reduced) (h : m.Valid f) : m.level f ≤ m.numVars + 1 := by
  cases ht : f.isTerminal with
  | true => exact Nat.le_of_eq (level_of_terminal ht)
  | false =>
      obtain ⟨n, hn⟩ := h.stores ht
      rw [hr.level_of_stores hn]
      exact Nat.le_succ_of_le (hr.proper hn).var_le

theorem level_pos (hr : m.Reduced) (h : m.Valid f) : 1 ≤ m.level f := by
  cases ht : f.isTerminal with
  | true =>
      rw [level_of_terminal ht]
      omega
  | false =>
      obtain ⟨n, hn⟩ := h.stores ht
      rw [hr.level_of_stores hn]
      exact (hr.proper hn).var_pos

theorem level_lt_of_not_terminal (hr : m.Reduced) (h : m.Valid f) (hf : f.isTerminal = false) :
    m.level f ≤ m.numVars := by
  obtain ⟨n, hn⟩ := h.stores hf
  rw [hr.level_of_stores hn]
  exact (hr.proper hn).var_le

/-- Only the constants stand below all variables. -/
theorem isTerminal_iff_level (hr : m.Reduced) (h : m.Valid f) :
    f.isTerminal = true ↔ m.numVars < m.level f := by
  constructor
  · intro ht
    rw [level_of_terminal ht]
    exact Nat.lt_succ_self _
  · intro hlt
    cases ht : f.isTerminal with
    | true => rfl
    | false => exact absurd (hr.level_lt_of_not_terminal h ht) (Nat.not_le.mpr hlt)

theorem low_valid (hr : m.Reduced) (h : m.Valid f) (hf : f.isTerminal = false) :
    m.Valid (m.low f) := by
  obtain ⟨n, hn⟩ := h.stores hf
  rw [hr.low_of_stores hn]
  exact (hr.proper hn).low_valid.complementIf _

theorem high_valid (hr : m.Reduced) (h : m.Valid f) (hf : f.isTerminal = false) :
    m.Valid (m.high f) := by
  obtain ⟨n, hn⟩ := h.stores hf
  rw [hr.high_of_stores hn]
  exact (hr.proper hn).high_valid.complementIf _

theorem level_lt_low (hr : m.Reduced) (h : m.Valid f) (hf : f.isTerminal = false) :
    m.level f < m.level (m.low f) := by
  obtain ⟨n, hn⟩ := h.stores hf
  rw [hr.low_of_stores hn, hr.level_of_stores hn, level_complementIf]
  exact (hr.proper hn).var_lt_low

theorem level_lt_high (hr : m.Reduced) (h : m.Valid f) (hf : f.isTerminal = false) :
    m.level f < m.level (m.high f) := by
  obtain ⟨n, hn⟩ := h.stores hf
  rw [hr.high_of_stores hn, hr.level_of_stores hn, level_complementIf]
  exact (hr.proper hn).var_lt_high

end Reduced

/-! ## Evaluation -/

/-- The value of `f` after at most `depth` decisions. -/
def evalWithin (m : Manager) (a : Assignment) : Nat → Handle → Bool
  | 0, f => !f.isComplemented
  | depth + 1, f =>
    if f.isTerminal then !f.isComplemented
    else evalWithin m a depth (if a (m.topVar f) then m.high f else m.low f)

/-- The value of `f` under an assignment. No path decides more variables
than there are. -/
def eval (m : Manager) (f : Handle) (a : Assignment) : Bool := m.evalWithin a m.numVars f

namespace Reduced

/-- Once the depth reaches from the level of `f` to the constants, more of
it changes nothing. -/
theorem evalWithin_stable (hr : m.Reduced) (a : Assignment) {d d' : Nat} {f : Handle}
    (h : m.Valid f) (hd : m.numVars + 1 ≤ d + m.level f) (hd' : m.numVars + 1 ≤ d' + m.level f) :
    m.evalWithin a d f = m.evalWithin a d' f := by
  induction d generalizing f d' with
  | zero =>
      cases ht : f.isTerminal with
      | true => cases d' <;> simp [evalWithin, ht]
      | false =>
          have := hr.level_lt_of_not_terminal h ht
          omega
  | succ d ih =>
      cases ht : f.isTerminal with
      | true => cases d' <;> simp [evalWithin, ht]
      | false =>
          have hle := hr.level_lt_of_not_terminal h ht
          have hlow := hr.level_lt_low h ht
          have hhigh := hr.level_lt_high h ht
          cases d' with
          | zero => omega
          | succ d' =>
              simp only [evalWithin, ht, Bool.false_eq_true, if_false]
              split
              · exact ih (hr.high_valid h ht) (by omega) (by omega)
              · exact ih (hr.low_valid h ht) (by omega) (by omega)

end Reduced

theorem eval_of_terminal (h : f.isTerminal = true) (a : Assignment) :
    m.eval f a = !f.isComplemented := by
  unfold eval
  cases m.numVars <;> simp [evalWithin, h]

@[simp] theorem eval_one (a : Assignment) : m.eval .one a = true := eval_of_terminal rfl a

@[simp] theorem eval_zero (a : Assignment) : m.eval .zero a = false := eval_of_terminal rfl a

namespace Reduced

/-- A diagram that decides a variable goes on as one of its children. -/
theorem eval_step (hr : m.Reduced) (h : m.Valid f) (hf : f.isTerminal = false) (a : Assignment) :
    m.eval f a = if a (m.level f) then m.eval (m.high f) a else m.eval (m.low f) a := by
  have hle := hr.level_lt_of_not_terminal h hf
  have hlow := hr.level_lt_low h hf
  have hhigh := hr.level_lt_high h hf
  have htop : m.topVar f = m.level f := by simp [level, hf]
  have hsucc : m.evalWithin a m.numVars f = m.evalWithin a (m.numVars + 1) f :=
    hr.evalWithin_stable a h (by have := hr.level_pos h; omega) (by omega)
  unfold eval
  rw [hsucc, evalWithin, htop]
  simp only [hf, Bool.false_eq_true, if_false]
  split
  · exact hr.evalWithin_stable a (hr.high_valid h hf) (by omega) (by omega)
  · exact hr.evalWithin_stable a (hr.low_valid h hf) (by omega) (by omega)

/-- A stored node denotes the choice between its children. -/
theorem eval_ofIndex (hr : m.Reduced) (hn : m.Stores i n) (a : Assignment) :
    m.eval (.ofIndex i) a = if a n.var then m.eval n.high a else m.eval n.low a := by
  have hn' : m.Stores (Handle.ofIndex i).index n := by rwa [Handle.index_ofIndex]
  rw [hr.eval_step (Or.inr ⟨n, hn'⟩) (hr.not_terminal hn'), hr.level_of_stores hn',
    hr.high_of_stores hn', hr.low_of_stores hn', Handle.isComplemented_ofIndex]
  rfl

/-- Going down from the root: what holds of the constants, and of a
diagram when it holds of both its children, holds of all diagrams. -/
theorem induction (hr : m.Reduced) {P : Handle → Prop}
    (terminal : ∀ f, f.isTerminal = true → P f)
    (step : ∀ f, m.Valid f → f.isTerminal = false → P (m.low f) → P (m.high f) → P f)
    {f : Handle} (h : m.Valid f) : P f := by
  have hdepth : ∀ (d : Nat) (f : Handle), m.Valid f → m.numVars + 1 ≤ d + m.level f → P f := by
    intro d
    induction d with
    | zero =>
        intro f h hd
        cases ht : f.isTerminal with
        | true => exact terminal f ht
        | false =>
            have := hr.level_lt_of_not_terminal h ht
            omega
    | succ d ih =>
        intro f h hd
        cases ht : f.isTerminal with
        | true => exact terminal f ht
        | false =>
            have hlow := hr.level_lt_low h ht
            have hhigh := hr.level_lt_high h ht
            exact step f h ht (ih _ (hr.low_valid h ht) (by omega))
              (ih _ (hr.high_valid h ht) (by omega))
  exact hdepth (m.numVars + 1) f h (by omega)

theorem low_neg (hr : m.Reduced) (h : m.Valid f) : m.low (-f) = -m.low f := by
  have := Handle.isComplemented_neg (hr.index_ne_zero h)
  rw [low, low, Handle.index_neg, this]
  cases f.isComplemented <;> simp [Handle.complementIf]

theorem high_neg (hr : m.Reduced) (h : m.Valid f) : m.high (-f) = -m.high f := by
  have := Handle.isComplemented_neg (hr.index_ne_zero h)
  rw [high, high, Handle.index_neg, this]
  cases f.isComplemented <;> simp [Handle.complementIf]

theorem eval_neg (hr : m.Reduced) (h : m.Valid f) (a : Assignment) :
    m.eval (-f) a = !m.eval f a := by
  refine hr.induction (P := fun f => m.Valid f → m.eval (-f) a = !m.eval f a) ?_ ?_ h h
  · intro f ht hv
    rw [eval_of_terminal ht, eval_of_terminal (Handle.isTerminal_neg.trans ht),
      Handle.isComplemented_neg (hr.index_ne_zero hv)]
  · intro f hv ht ihlow ihhigh _
    rw [hr.eval_step hv ht, hr.eval_step hv.neg (Handle.isTerminal_neg.trans ht), level_neg,
      hr.low_neg hv, hr.high_neg hv, ihlow (hr.low_valid hv ht), ihhigh (hr.high_valid hv ht)]
    split <;> rfl

theorem eval_complementIf (hr : m.Reduced) (h : m.Valid f) (b : Bool) (a : Assignment) :
    m.eval (f.complementIf b) a = (b ^^ m.eval f a) := by
  cases b
  · simp [Handle.complementIf]
  · simpa [Handle.complementIf] using hr.eval_neg h a

/-- Variables above a diagram do not matter to it. -/
theorem eval_congr (hr : m.Reduced) (h : m.Valid f) {a b : Assignment}
    (hab : ∀ v, m.level f ≤ v → a v = b v) : m.eval f a = m.eval f b := by
  refine hr.induction (P := fun f => (∀ v, m.level f ≤ v → a v = b v) → m.eval f a = m.eval f b)
    ?_ ?_ h hab
  · intro f ht _
    rw [eval_of_terminal ht, eval_of_terminal ht]
  · intro f hv ht ihlow ihhigh hab
    have hlow := hr.level_lt_low hv ht
    have hhigh := hr.level_lt_high hv ht
    rw [hr.eval_step hv ht, hr.eval_step hv ht, hab _ (Nat.le_refl _),
      ihlow fun v hle => hab v (by omega), ihhigh fun v hle => hab v (by omega)]

/-! ## Canonicity -/

/-- Where all variables are true, exactly the regular handles are. -/
theorem eval_allTrue (hr : m.Reduced) (h : m.Valid f) :
    m.eval f (fun _ => true) = !f.isComplemented := by
  refine hr.induction (P := fun f => m.eval f (fun _ => true) = !f.isComplemented) ?_ ?_ h
  · exact fun f ht => eval_of_terminal ht _
  · intro f hv ht _ ihhigh
    obtain ⟨n, hn⟩ := hv.stores ht
    have hreg := (hr.proper hn).high_regular
    have hne : n.high.index ≠ 0 := hr.index_ne_zero (hr.proper hn).high_valid
    rw [hr.eval_step hv ht, if_pos rfl, ihhigh, hr.high_of_stores hn]
    cases f.isComplemented with
    | false => simp [Handle.complementIf, hreg]
    | true => simp [Handle.complementIf, Handle.isComplemented_neg hne, hreg]

/-- The child of `f` for a value of its variable, as a function: it is `f`
with that value put in. -/
theorem eval_update_high (hr : m.Reduced) (h : m.Valid f) (hf : f.isTerminal = false)
    (a : Assignment) : m.eval f (Function.update a (m.level f) true) = m.eval (m.high f) a := by
  have hhigh := hr.level_lt_high h hf
  rw [hr.eval_step h hf, if_pos (Function.update_self ..)]
  refine hr.eval_congr (hr.high_valid h hf) fun v hv => ?_
  exact Function.update_of_ne (by omega) ..

theorem eval_update_low (hr : m.Reduced) (h : m.Valid f) (hf : f.isTerminal = false)
    (a : Assignment) : m.eval f (Function.update a (m.level f) false) = m.eval (m.low f) a := by
  have hlow := hr.level_lt_low h hf
  rw [hr.eval_step h hf, if_neg (by simp)]
  refine hr.eval_congr (hr.low_valid h hf) fun v hv => ?_
  exact Function.update_of_ne (by omega) ..

theorem eval_update_above (hr : m.Reduced) (h : m.Valid f) {v : Nat} (hv : v < m.level f)
    (a : Assignment) (b : Bool) : m.eval f (Function.update a v b) = m.eval f a :=
  hr.eval_congr h fun w hw => Function.update_of_ne (by omega) ..

theorem low_ne_high (hr : m.Reduced) (h : m.Valid f) (hf : f.isTerminal = false) :
    m.low f ≠ m.high f := by
  obtain ⟨n, hn⟩ := h.stores hf
  rw [hr.low_of_stores hn, hr.high_of_stores hn]
  intro heq
  apply (hr.proper hn).low_ne_high
  cases hs : f.isComplemented <;> rw [hs] at heq
  · exact heq
  · exact Handle.neg_inj.mp heq

/-- Equal sign, level and children: then it is the same stored node. -/
theorem eq_of_children (hr : m.Reduced) (hf : m.Valid f) (hg : m.Valid g)
    (htf : f.isTerminal = false) (htg : g.isTerminal = false)
    (hsign : f.isComplemented = g.isComplemented) (hlevel : m.level f = m.level g)
    (hlow : m.low f = m.low g) (hhigh : m.high f = m.high g) : f = g := by
  obtain ⟨n, hn⟩ := hf.stores htf
  obtain ⟨k, hk⟩ := hg.stores htg
  rw [hr.level_of_stores hn, hr.level_of_stores hk] at hlevel
  rw [hr.low_of_stores hn, hr.low_of_stores hk, hsign] at hlow
  rw [hr.high_of_stores hn, hr.high_of_stores hk, hsign] at hhigh
  have hnode : n = k := by
    obtain ⟨v, l, r⟩ := n
    obtain ⟨v', l', r'⟩ := k
    obtain rfl : v = v' := hlevel
    cases hs : g.isComplemented <;> simp only [hs, Handle.complementIf] at hlow hhigh
    · simp_all
    · simp_all [Handle.neg_inj]
  exact Handle.eq_of_index_of_sign (hr.table.unique (hnode ▸ hn) hk) hsign

theorem sign_eq_of_eval_eq (hr : m.Reduced) (hf : m.Valid f) (hg : m.Valid g)
    (h : ∀ a, m.eval f a = m.eval g a) : f.isComplemented = g.isComplemented := by
  have hone := h fun _ => true
  rwa [hr.eval_allTrue hf, hr.eval_allTrue hg, Bool.not_inj_iff] at hone

theorem eq_of_terminal (hr : m.Reduced) (hf : m.Valid f) (hg : m.Valid g)
    (htf : f.isTerminal = true) (htg : g.isTerminal = true)
    (h : ∀ a, m.eval f a = m.eval g a) : f = g :=
  Handle.eq_of_index_of_sign
    ((Handle.isTerminal_iff.mp htf).trans (Handle.isTerminal_iff.mp htg).symm)
    (hr.sign_eq_of_eval_eq hf hg h)

/-- **Canonicity.** Diagrams of the same function have the same handle. -/
theorem eq_of_eval_eq (hr : m.Reduced) (hf : m.Valid f) (hg : m.Valid g)
    (h : ∀ a, m.eval f a = m.eval g a) : f = g := by
  -- induction on how far the higher of the two is from the constants
  have hdepth : ∀ (d : Nat) (f g : Handle), m.Valid f → m.Valid g →
      m.numVars + 1 ≤ d + m.level f → m.numVars + 1 ≤ d + m.level g →
      (∀ a, m.eval f a = m.eval g a) → f = g := by
    intro d
    induction d with
    | zero =>
        intro f g hf hg hdf hdg h
        exact hr.eq_of_terminal hf hg ((hr.isTerminal_iff_level hf).mpr (by omega))
          ((hr.isTerminal_iff_level hg).mpr (by omega)) h
    | succ d ih =>
        intro f g hf hg hdf hdg h
        -- a diagram cannot decide a variable that an equal one stands below
        have hnot : ∀ {f g}, m.Valid f → m.Valid g → m.numVars + 1 ≤ d + 1 + m.level f →
            (∀ a, m.eval f a = m.eval g a) → ¬ m.level f < m.level g := by
          intro f g hf hg hdf h hlt
          have hle := hr.level_le hg
          have htf : f.isTerminal = false := by
            rw [← Bool.not_eq_true, hr.isTerminal_iff_level hf]
            omega
          have hlow := hr.level_lt_low hf htf
          have hhigh := hr.level_lt_high hf htf
          refine hr.low_ne_high hf htf (ih _ _ (hr.low_valid hf htf) (hr.high_valid hf htf)
            (by omega) (by omega) fun a => ?_)
          rw [← hr.eval_update_low hf htf, ← hr.eval_update_high hf htf, h, h,
            hr.eval_update_above hg hlt, hr.eval_update_above hg hlt]
        have hlevel : m.level f = m.level g := by
          have h1 := hnot hf hg hdf h
          have h2 := hnot hg hf hdg fun a => (h a).symm
          omega
        have hterm : f.isTerminal = g.isTerminal := by
          rw [Bool.eq_iff_iff, hr.isTerminal_iff_level hf, hr.isTerminal_iff_level hg, hlevel]
        cases htf : f.isTerminal with
        | true => exact hr.eq_of_terminal hf hg htf (hterm ▸ htf) h
        | false =>
            have htg : g.isTerminal = false := hterm ▸ htf
            have hlf := hr.level_lt_low hf htf
            have hhf := hr.level_lt_high hf htf
            have hlg := hr.level_lt_low hg htg
            have hhg := hr.level_lt_high hg htg
            refine hr.eq_of_children hf hg htf htg (hr.sign_eq_of_eval_eq hf hg h) hlevel ?_ ?_
            · refine ih _ _ (hr.low_valid hf htf) (hr.low_valid hg htg) (by omega) (by omega) ?_
              intro a
              rw [← hr.eval_update_low hf htf, ← hr.eval_update_low hg htg, hlevel, h]
            · refine ih _ _ (hr.high_valid hf htf) (hr.high_valid hg htg) (by omega) (by omega) ?_
              intro a
              rw [← hr.eval_update_high hf htf, ← hr.eval_update_high hg htg, hlevel, h]
  exact hdepth (m.numVars + 1) f g hf hg (by omega) (by omega) h

theorem eq_iff_eval (hr : m.Reduced) (hf : m.Valid f) (hg : m.Valid g) :
    f = g ↔ ∀ a, m.eval f a = m.eval g a :=
  ⟨fun h _ => by rw [h], hr.eq_of_eval_eq hf hg⟩

end Reduced

end Manager

end BranchingTime
