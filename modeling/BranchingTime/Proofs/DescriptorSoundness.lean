import BranchingTime.Proofs.TableLayout

/-!
# Descriptors are sound outside of loops

A walk passes entries as the table allows, and takes the branches of its
headers and the rounds of its loops at will. A descriptor makes a statement
about all walks: which of the passed entries was the last to write the
variable (`Descriptor.Tells`).

The table notes its descriptors in one pass, so what it notes inside of a
loop need not be true of later rounds. `Block.claim` is what is true there: a
loop starts with what its start and its end agree on. These claims are kept
along every edge of the table (`Block.claim_flows`), so they hold at the end
of every walk (`ControlTable.Walk.tells_claim`); and outside of loops they are
what the table notes (`Block.claim_noted`).
-/

namespace BranchingTime

/-! ## Who wrote a variable last -/

namespace Action

/-- Does the action write the variable? -/
def writes (v : Nat) : Action → Bool
  | read var | assign var _ => var = v
  | branch .. | loop .. | elseMark _ | groupEnd .. => false

/-- What is known of a variable after the action, given what was known. -/
def effect (v : Nat) (d : Descriptor) : Action → Descriptor
  | read var => if var = v then .defined else d
  | assign var rhs => if var = v then .expr rhs.text else d
  | branch .. | loop .. | elseMark _ | groupEnd .. => d

end Action

/-- The last of the entries that writes the variable. -/
def lastWriter? (v : Nat) (trace : List Entry) : Option Entry :=
  (trace.filter fun e => e.action.writes v).getLast?

theorem lastWriter?_append (v : Nat) (trace : List Entry) (e : Entry) :
    lastWriter? v (trace ++ [e]) = if e.action.writes v then some e else lastWriter? v trace := by
  rw [lastWriter?, List.filter_append, lastWriter?]
  cases h : e.action.writes v <;> simp [h]

namespace Descriptor

/-- What a descriptor says of the entries that were passed. -/
def Tells (v : Nat) (trace : List Entry) : Descriptor → Prop
  | undefined => ∀ e ∈ trace, e.action.writes v = false
  | defined => ∃ e, lastWriter? v trace = some e ∧ e.action = .read v
  | fixed => True
  | expr text => ∃ e rhs, lastWriter? v trace = some e ∧ e.action = .assign v rhs ∧ rhs.text = text

/-- All that the second descriptor says, the first one says. -/
def Implies (d d' : Descriptor) : Prop := d' = d ∨ d' = fixed

variable {v : Nat} {trace : List Entry} {d d' d'' : Descriptor}

theorem Implies.refl (d : Descriptor) : d.Implies d := .inl rfl

theorem Implies.trans (h : d.Implies d') (h' : d'.Implies d'') : d.Implies d'' := by
  rcases h' with rfl | rfl
  · exact h
  · exact .inr rfl

theorem implies_meet_left (d d' : Descriptor) : d.Implies (meet d d') := by
  unfold meet
  split
  · exact .inl rfl
  · exact .inr rfl

theorem implies_meet_right (d d' : Descriptor) : d'.Implies (meet d d') := by
  unfold meet
  split
  · next h => exact .inl h
  · exact .inr rfl

theorem Tells.implies (h : d.Tells v trace) (hd : d.Implies d') : d'.Tells v trace := by
  rcases hd with rfl | rfl
  · exact h
  · trivial

/-- Passing one more entry changes what is told as the entry says. -/
theorem Tells.append (h : d.Tells v trace) (e : Entry) :
    (e.action.effect v d).Tells v (trace ++ [e]) := by
  have hlast := lastWriter?_append v trace e
  -- an entry that does not write the variable changes nothing
  have hkeeps (hw : e.action.writes v = false) : d.Tells v (trace ++ [e]) := by
    rw [hw] at hlast
    cases d with
    | undefined => exact List.forall_mem_append.mpr ⟨h, List.forall_mem_singleton.mpr hw⟩
    | defined =>
        obtain ⟨e', he', hread⟩ := h
        exact ⟨e', hlast.trans he', hread⟩
    | fixed => trivial
    | expr text =>
        obtain ⟨e', rhs, he', hassign⟩ := h
        exact ⟨e', rhs, hlast.trans he', hassign⟩
  cases hact : e.action with
  | read var =>
      rw [hact] at hlast hkeeps
      rcases eq_or_ne var v with rfl | hne
      · rw [Action.effect, if_pos rfl]
        exact ⟨e, by simpa [Action.writes] using hlast, hact⟩
      · rw [Action.effect, if_neg hne]
        exact hkeeps (decide_eq_false hne)
  | assign var rhs =>
      rw [hact] at hlast hkeeps
      rcases eq_or_ne var v with rfl | hne
      · rw [Action.effect, if_pos rfl]
        exact ⟨e, rhs, by simpa [Action.writes] using hlast, hact, rfl⟩
      · rw [Action.effect, if_neg hne]
        exact hkeeps (decide_eq_false hne)
  | branch | loop | elseMark | groupEnd =>
      rw [hact] at hkeeps
      exact hkeeps rfl

end Descriptor

/-! ## What is true at every place of a block -/

/-- Among these entries, the counter is at the header of a loop, in its body, or at its end. -/
def InLoop (l : List Entry) (pc : Nat) : Prop :=
  ∃ e ∈ l, ∃ cond bodyPc exitPc, e.action = .loop cond bodyPc exitPc ∧ e.pc ≤ pc ∧ pc < exitPc

theorem InLoop.mono {l l' : List Entry} {pc : Nat} (h : InLoop l pc) (hsub : ∀ e ∈ l, e ∈ l') :
    InLoop l' pc := by
  obtain ⟨e, he, hloop⟩ := h
  exact ⟨e, hsub e he, hloop⟩

namespace Block

open Descriptor

/-- What is known of one variable after a block. -/
def after (v : Nat) (d : Descriptor) : Block → Descriptor
  | done => d
  | read var rest => rest.after v ((Action.read var).effect v d)
  | assign var rhs rest => rest.after v ((Action.assign var rhs).effect v d)
  | ifThen _ body rest => rest.after v (meet d (body.after v d))
  | ifElse _ body body' rest => rest.after v (meet (body.after v d) (body'.after v d))
  | loop _ body rest => rest.after v (meet d (body.after v d))

/-- What is true at an offset from the start of a group: at its first entry, in
its body up to its last entry, and past the group. -/
def framed (first : Descriptor) (body : Nat → Descriptor) (size : Nat) (rest : Nat → Descriptor)
    (i : Nat) : Descriptor :=
  if i = 0 then first else if i ≤ 1 + size then body (i - 1) else rest (i - (2 + size))

/-- What is true of a variable at an offset from the start of a block, however
often its loops are taken. -/
def claim (v : Nat) (d : Descriptor) : Block → Nat → Descriptor
  | done, _ => d
  | read var rest, i =>
    if i = 0 then d else rest.claim v ((Action.read var).effect v d) (i - 1)
  | assign var rhs rest, i =>
    if i = 0 then d else rest.claim v ((Action.assign var rhs).effect v d) (i - 1)
  | ifThen _ body rest, i =>
    framed d (body.claim v d) body.size (rest.claim v (meet d (body.after v d))) i
  | ifElse _ body body' rest, i =>
    framed d (body.claim v d) body.size
      (framed d (body'.claim v d) body'.size
        (rest.claim v (meet (body.after v d) (body'.after v d)))) i
  | loop _ body rest, i =>
    let both := meet d (body.after v d)
    framed both (body.claim v both) body.size (rest.claim v both) i

section Framed

variable {first : Descriptor} {inner outer : Nat → Descriptor} {size i : Nat}

theorem framed_inner (h : i ≤ size) : framed first inner size outer (1 + i) = inner i := by
  rw [framed, if_neg (by omega), if_pos (by omega), Nat.add_sub_cancel_left]

theorem framed_outer : framed first inner size outer (2 + size + i) = outer i := by
  rw [framed, if_neg (by omega), if_neg (by omega), Nat.add_sub_cancel_left]

end Framed

variable {v pc target : Nat} {known : List Descriptor} {d : Descriptor} {e : Entry}

theorem getElem?_set_of_some (h : known[v]? = some d) (var : Nat) (x : Descriptor) :
    (known.set var x)[v]? = some (if var = v then x else d) := by
  obtain ⟨hlt, rfl⟩ := List.getElem?_eq_some_iff.mp h
  rw [List.getElem?_set]
  split
  · next heq => rw [if_pos (heq ▸ hlt)]
  · exact h

theorem getElem?_meetAll {xs ys : List Descriptor} {x y : Descriptor} (hx : xs[v]? = some x)
    (hy : ys[v]? = some y) : (meetAll xs ys)[v]? = some (meet x y) := by
  rw [meetAll, List.getElem?_zipWith, hx, hy]

/-- The descriptors of the table follow each variable by itself. -/
theorem getElem?_leaving (P : Block) (h : known[v]? = some d) :
    (P.leaving known)[v]? = some (P.after v d) := by
  induction P generalizing known d with
  | done => exact h
  | read var rest ih => exact ih (getElem?_set_of_some h var _)
  | assign var rhs rest ih => exact ih (getElem?_set_of_some h var _)
  | ifThen cond body rest ihb ih => exact ih (getElem?_meetAll h (ihb h))
  | ifElse cond body body' rest ihb ihb' ih => exact ih (getElem?_meetAll (ihb h) (ihb' h))
  | loop cond body rest ihb ih => exact ih (getElem?_meetAll h (ihb h))

/-- At its end, a block knows what comes after it. -/
theorem claim_size (P : Block) (v : Nat) (d : Descriptor) : P.claim v d P.size = P.after v d := by
  induction P generalizing d with
  | done => rfl
  | read var rest ih => simp [claim, size, after, ih]
  | assign var rhs rest ih => simp [claim, size, after, ih]
  | ifThen cond body rest ihb ih => rw [claim, size, framed_outer, ih, after]
  | ifElse cond body body' rest ihb ihb' ih =>
      have hsize : 4 + body.size + body'.size + rest.size
          = 2 + body.size + (2 + body'.size + rest.size) := by omega
      rw [claim, size, hsize, framed_outer, framed_outer, ih, after]
  | loop cond body rest ihb ih => rw [claim, size, framed_outer, ih, after]

/-- What is known before a block is enough for its first entry. -/
theorem implies_claim_zero (P : Block) (v : Nat) (d : Descriptor) : d.Implies (P.claim v d 0) := by
  cases P with
  | done | read | assign | ifThen | ifElse => exact .refl d
  | loop cond body rest => exact implies_meet_left d _

/-! ### Along the edges of the table -/

/-- The claims `A`, by offset from `pc`, are kept by these entries: each is at
an offset below `n`, and leads to offsets where no more is claimed than is
known after it. -/
def Keeps (v : Nat) (A : Nat → Descriptor) (pc n : Nat) (l : List Entry) : Prop :=
  ∀ e ∈ l, ∀ target ∈ e.targets, ∃ i j, e.pc = pc + i ∧ i < n ∧ target = pc + j ∧ j ≤ n
    ∧ (e.action.effect v (A i)).Implies (A j)

section Keeps

variable {A B inner outer : Nat → Descriptor} {k m n size : Nat} {e' : Entry} {l l' : List Entry}
  {first : Descriptor}

theorem Keeps.shift (h : Keeps v A (pc + k) n l) (heq : ∀ i ≤ n, B (k + i) = A i)
    (hn : k + n ≤ m) : Keeps v B pc m l := by
  intro e he target htarget
  obtain ⟨i, j, hi, hin, hj, hjn, himplies⟩ := h e he target htarget
  refine ⟨k + i, k + j, by omega, by omega, by omega, by omega, ?_⟩
  rwa [heq i (by omega), heq j hjn]

/-- An entry, and what is kept after it. -/
theorem Keeps.cons (hpc : e.pc = pc) (htargets : e.targets = [pc + 1])
    (hstart : (e.action.effect v (A 0)).Implies (A 1)) (h : Keeps v B (pc + 1) n l)
    (heq : ∀ i ≤ n, A (1 + i) = B i) : Keeps v A pc (1 + n) (e :: l) := by
  refine List.forall_mem_cons.mpr ⟨fun target htarget => ?_, h.shift heq le_rfl⟩
  rw [htargets, List.mem_singleton] at htarget
  exact ⟨0, 1, hpc, by omega, htarget, by omega, hstart⟩

/-- A group: its first entry leads into the body or past the group, and its last
one leads where the claims at the end of the body are enough. -/
theorem Keeps.framed (hpc : e.pc = pc) (hplain : ∀ d, e.action.effect v d = d)
    (htargets : ∀ target ∈ e.targets, target = pc + 1
      ∨ target = pc + (2 + size) ∧ first.Implies (outer 0))
    (hinner : first.Implies (inner 0)) (hbody : Keeps v inner (pc + 1) size l)
    (hpc' : e'.pc = pc + (1 + size)) (hplain' : ∀ d, e'.action.effect v d = d)
    (hlast : ∀ target ∈ e'.targets, ∃ j, target = pc + j ∧ j ≤ 2 + size + m
      ∧ (inner size).Implies (framed first inner size outer j))
    (hrest : Keeps v outer (pc + (2 + size)) m l') :
    Keeps v (framed first inner size outer) pc (2 + size + m) (e :: (l ++ e' :: l')) := by
  simp only [Keeps, List.forall_mem_cons, List.forall_mem_append]
  refine ⟨fun target htarget => ?_, hbody.shift (fun i hi => framed_inner hi) (by omega),
    fun target htarget => ?_, hrest.shift (fun i _ => framed_outer) le_rfl⟩
  · rcases htargets target htarget with rfl | ⟨rfl, houter⟩
    · refine ⟨0, 1 + 0, hpc, by omega, rfl, by omega, ?_⟩
      rwa [hplain, framed_inner (Nat.zero_le size)]
    · refine ⟨0, 2 + size + 0, hpc, by omega, rfl, by omega, ?_⟩
      rwa [hplain, framed_outer]
  · obtain ⟨j, hj, hjn, himplies⟩ := hlast target htarget
    refine ⟨1 + size, j, hpc', by omega, hj, hjn, ?_⟩
    rwa [hplain', framed_inner le_rfl]

end Keeps

/-- A loop claims at its start no more than is known at its end. -/
theorem after_meet_implies (body : Block) (v : Nat) (d : Descriptor) :
    (body.after v (meet d (body.after v d))).Implies (meet d (body.after v d)) := by
  by_cases h : d = body.after v d
  · -- the claim is the one before the loop, and a round leads back to it
    rw [meet, if_pos h]
    exact .inl h
  · rw [meet, if_neg h]
    exact .inr rfl

/-- The claims of a block are kept along all edges from its entries. -/
theorem claim_flows (P : Block) (v pc : Nat) (d : Descriptor) (known : List Descriptor) :
    Keeps v (P.claim v d) pc P.size (P.layout pc known) := by
  induction P generalizing pc d known with
  | done => exact List.forall_mem_nil _
  | read var rest ih =>
      exact .cons rfl rfl (rest.implies_claim_zero v _) (ih _ ((Action.read var).effect v d) _)
        fun i _ => by simp [claim]
  | assign var rhs rest ih =>
      exact .cons rfl rfl (rest.implies_claim_zero v _)
        (ih _ ((Action.assign var rhs).effect v d) _) fun i _ => by simp [claim]
  | ifThen cond body rest ihb ih =>
      have hnext : pc + 1 + body.size + 1 = pc + (2 + body.size) := by omega
      refine .framed rfl (fun _ => rfl) (fun target htarget => ?_) (body.implies_claim_zero v d)
        (ihb _ _ _) (Nat.add_assoc ..) (fun _ => rfl) (fun target htarget => ?_)
        (hnext ▸ ih _ _ _)
      · have hskip := (implies_meet_left d (body.after v d)).trans (rest.implies_claim_zero v _)
        simpa [Entry.targets, hnext, hskip] using htarget
      · refine ⟨2 + body.size + 0, (List.mem_singleton.mp htarget).trans hnext, by omega, ?_⟩
        rw [framed_outer, claim_size]
        exact (implies_meet_right d _).trans (rest.implies_claim_zero v _)
  | ifElse cond body body' rest ihb ihb' ih =>
      have helse : pc + 1 + body.size + 1 = pc + (2 + body.size) := by omega
      have hnext : pc + 1 + body.size + 1 + 1 + body'.size + 1
          = pc + (2 + body.size) + (2 + body'.size) := by omega
      have hsize : 4 + body.size + body'.size + rest.size
          = 2 + body.size + (2 + body'.size + rest.size) := by omega
      simp only [layout, List.cons_append, List.append_assoc]
      rw [size, hsize]
      -- the `else` starts a group of its own, past the group of the first branch
      refine .framed rfl (fun _ => rfl) (fun target htarget => ?_) (body.implies_claim_zero v d)
        (ihb _ _ _) (Nat.add_assoc ..) (fun _ => rfl) (fun target htarget => ?_)
        (.framed helse (fun _ => rfl) (fun target htarget => ?_) (body'.implies_claim_zero v d)
          (helse ▸ ihb' _ _ _) (helse ▸ Nat.add_assoc ..) (fun _ => rfl)
          (fun target htarget => ?_) (hnext ▸ ih _ _ _))
      · have hother : d.Implies (framed d (body'.claim v d) body'.size
          (rest.claim v (meet (body.after v d) (body'.after v d))) 0) := .refl d
        simpa [Entry.targets, helse, hother] using htarget
      · refine ⟨2 + body.size + (2 + body'.size + 0), ?_, by omega, ?_⟩
        · exact (List.mem_singleton.mp htarget).trans (hnext.trans (Nat.add_assoc ..))
        · rw [framed_outer, framed_outer, claim_size]
          exact (implies_meet_left _ _).trans (rest.implies_claim_zero v _)
      · exact .inl (helse ▸ List.mem_singleton.mp htarget)
      · refine ⟨2 + body'.size + 0, (List.mem_singleton.mp htarget).trans hnext, by omega, ?_⟩
        rw [framed_outer, claim_size]
        exact (implies_meet_right _ _).trans (rest.implies_claim_zero v _)
  | loop cond body rest ihb ih =>
      have hnext : pc + 1 + body.size + 1 = pc + (2 + body.size) := by omega
      refine .framed rfl (fun _ => rfl) (fun target htarget => ?_) (body.implies_claim_zero v _)
        (ihb _ _ _) (Nat.add_assoc ..) (fun _ => rfl) (fun target htarget => ?_)
        (hnext ▸ ih _ _ _)
      · have hskip := rest.implies_claim_zero v (meet d (body.after v d))
        simpa [Entry.targets, hnext, hskip] using htarget
      · refine ⟨0, List.mem_singleton.mp htarget, by omega, ?_⟩
        rw [claim_size]
        exact body.after_meet_implies v d

/-! ### What the table notes -/

/-- The entry notes the claim at its offset from `pc` before it, and after it no
more than what is known then. -/
def Noted (v : Nat) (A : Nat → Descriptor) (pc n : Nat) (e : Entry) : Prop :=
  ∃ i d', e.pc = pc + i ∧ i < n ∧ e.entering[v]? = some (A i) ∧ e.leaving[v]? = some d'
    ∧ (e.action.effect v (A i)).Implies d'

section Noted

variable {A B : Nat → Descriptor} {k m n : Nat} {l l' : List Entry}

theorem Noted.shift (h : Noted v A (pc + k) n e) (heq : ∀ i ≤ n, B (k + i) = A i)
    (hn : k + n ≤ m) : Noted v B pc m e := by
  obtain ⟨i, d', hpc, hi, hentering, hleaving, himplies⟩ := h
  refine ⟨k + i, d', by omega, by omega, ?_, hleaving, ?_⟩
  · rwa [heq i hi.le]
  · rwa [heq i hi.le]

/-- What is noted in a part of a block is noted in the block. -/
theorem noted_of_part {pc' : Nat} (h : ∀ e ∈ l, InLoop l e.pc ∨ Noted v A pc' n e)
    (hpc : pc' = pc + k) (heq : ∀ i ≤ n, B (k + i) = A i) (hn : k + n ≤ m)
    (hsub : ∀ e ∈ l, e ∈ l') : ∀ e ∈ l, InLoop l' e.pc ∨ Noted v B pc m e := by
  subst hpc
  exact fun e he => (h e he).imp (·.mono hsub) (·.shift heq hn)

end Noted

theorem pc_of_mem_layout (P : Block) (he : e ∈ P.layout pc known) :
    pc ≤ e.pc ∧ e.pc < pc + P.size := by
  have hnext : e.next ∈ e.targets := by
    unfold Entry.targets
    split <;> simp
  obtain ⟨i, j, hi, hin, -⟩ := P.claim_flows 0 pc .fixed known e he e.next hnext
  omega

/-- Outside of loops, the claims are what the table notes. -/
theorem claim_noted (P : Block) (h : known[v]? = some d) : ∀ e ∈ P.layout pc known,
    InLoop (P.layout pc known) e.pc ∨ Noted v (P.claim v d) pc P.size e := by
  induction P generalizing pc known d with
  | done => exact List.forall_mem_nil _
  | read var rest ih =>
      have hset := getElem?_set_of_some h var .defined
      exact List.forall_mem_cons.mpr
        ⟨.inr ⟨0, _, rfl, Nat.lt_add_right _ one_pos, h, hset, .refl _⟩,
        noted_of_part (ih hset) rfl (fun i _ => by simp [claim, Action.effect]) le_rfl
          fun e => List.mem_cons_of_mem _⟩
  | assign var rhs rest ih =>
      have hset := getElem?_set_of_some h var (.expr rhs.text)
      exact List.forall_mem_cons.mpr
        ⟨.inr ⟨0, _, rfl, Nat.lt_add_right _ one_pos, h, hset, .refl _⟩,
        noted_of_part (ih hset) rfl (fun i _ => by simp [claim, Action.effect]) le_rfl
          fun e => List.mem_cons_of_mem _⟩
  | ifThen cond body rest ihb ih =>
      have hout := body.getElem?_leaving h
      have hmeet := getElem?_meetAll h hout
      have hlast : (ifThen cond body rest).claim v d (1 + body.size) = body.after v d :=
        (framed_inner le_rfl).trans (body.claim_size v d)
      simp only [layout, size, List.cons_append, List.forall_mem_cons, List.forall_mem_append]
      refine ⟨.inr ⟨0, d, rfl, by omega, h, h, .refl d⟩,
        noted_of_part (ihb h) rfl (fun i hi => framed_inner hi) (by omega) fun e he => by simp [he],
        .inr ⟨1 + body.size, _, Nat.add_assoc .., by omega, hlast ▸ hout, hmeet,
          hlast ▸ implies_meet_right ..⟩,
        noted_of_part (ih hmeet) (by omega) (fun i _ => framed_outer) le_rfl
          fun e he => by simp [he]⟩
  | ifElse cond body body' rest ihb ihb' ih =>
      have hout := body.getElem?_leaving h
      have hout' := body'.getElem?_leaving h
      have hmeet := getElem?_meetAll hout hout'
      have hlast : (ifElse cond body body' rest).claim v d (1 + body.size) = body.after v d :=
        (framed_inner le_rfl).trans (body.claim_size v d)
      -- past the first group come the `else`, its body up to its last entry, and the rest
      have hpast (i : Nat) : (ifElse cond body body' rest).claim v d (2 + body.size + i)
          = framed d (body'.claim v d) body'.size
            (rest.claim v (meet (body.after v d) (body'.after v d))) i := framed_outer
      have hlast' : (ifElse cond body body' rest).claim v d (2 + body.size + (1 + body'.size))
          = body'.after v d :=
        (hpast _).trans ((framed_inner le_rfl).trans (body'.claim_size v d))
      simp only [layout, size, List.cons_append, List.append_assoc, List.forall_mem_cons,
        List.forall_mem_append]
      refine ⟨.inr ⟨0, d, rfl, by omega, h, h, .refl d⟩,
        noted_of_part (ihb h) rfl (fun i hi => framed_inner hi) (by omega) fun e he => by simp [he],
        .inr ⟨1 + body.size, _, Nat.add_assoc .., by omega, hlast ▸ hout, hmeet,
          hlast ▸ implies_meet_left ..⟩,
        .inr ⟨2 + body.size + 0, d, by dsimp only; omega, by omega, ?_, h, ?_⟩,
        noted_of_part (k := 2 + body.size + 1) (ihb' h) (by omega) (fun i hi => ?_) (by omega)
          fun e he => by simp [he],
        .inr ⟨2 + body.size + (1 + body'.size), _, by dsimp only; omega, by omega, hlast' ▸ hout',
          hmeet, hlast' ▸ implies_meet_right ..⟩,
        noted_of_part (k := 2 + body.size + (2 + body'.size)) (ih hmeet) (by omega) (fun i _ => ?_)
          (by omega) fun e he => by simp [he]⟩
      · rw [hpast]
        exact h
      · rw [hpast]
        exact .refl d
      · rw [Nat.add_assoc, hpast, framed_inner hi]
      · rw [Nat.add_assoc, hpast, framed_outer]
  | loop cond body rest ihb ih =>
      have hmeet := getElem?_meetAll h (body.getElem?_leaving h)
      -- the header takes in all counters up to the end of its group
      have hloop (i : Nat) (hi : i < 2 + body.size) :
          InLoop ((loop cond body rest).layout pc known) (pc + i) :=
        ⟨_, List.mem_cons_self, _, _, _, rfl, Nat.le_add_right .., by omega⟩
      refine List.forall_mem_cons.mpr ⟨.inl (hloop 0 (by omega)), List.forall_mem_append.mpr
        ⟨fun e he => .inl ?_, List.forall_mem_cons.mpr ⟨.inl ?_, ?_⟩⟩⟩
      · obtain ⟨hle, hlt⟩ := body.pc_of_mem_layout he
        obtain ⟨i, hi⟩ := Nat.exists_eq_add_of_le hle
        rw [hi, Nat.add_assoc]
        exact hloop _ (by omega)
      · exact Nat.add_assoc pc 1 body.size ▸ hloop (1 + body.size) (by omega)
      · exact noted_of_part (ih hmeet) (by omega) (fun i _ => framed_outer) le_rfl
          fun e he => by simp [layout, he]

end Block

/-! ## Walks -/

namespace ControlTable

/-- The entries that are passed on a way from the start of the table to a
counter. Headers go either way, whatever their condition. -/
inductive Walk (t : ControlTable) : List Entry → Nat → Prop
  | start : Walk t [] 0
  | pass {trace : List Entry} {pc target : Nat} {e : Entry} (h : Walk t trace pc)
      (he : t.entry? pc = some e) (htarget : target ∈ e.targets) : Walk t (trace ++ [e]) target

variable {names statements : List String} {table : ControlTable} {trace : List Entry} {pc v : Nat}
  {e : Entry}

/-- What a block claims is true after every walk. -/
theorem Walk.tells_claim {numVars : Nat} {P : Block} (h : (ofBlock numVars P).Walk trace pc)
    (v : Nat) : (P.claim v .undefined pc).Tells v trace := by
  induction h with
  | start =>
      have hstart : Descriptor.undefined.Tells v [] := List.forall_mem_nil _
      exact hstart.implies (P.implies_claim_zero v _)
  | @pass trace pc target e _ he htarget ih =>
      have hpc : e.pc = pc := (laidAt_ofBlock he).1
      obtain ⟨i, j, hi, -, hj, -, himplies⟩ := P.claim_flows v 0 .undefined
        (List.replicate numVars .undefined) e (List.mem_of_getElem? he) target htarget
      obtain rfl : i = pc := by omega
      obtain rfl : j = target := by omega
      exact (ih.append e).implies himplies

theorem Walk.mem_entries (h : table.Walk trace pc) : ∀ e ∈ trace, e ∈ table.entries := by
  induction h with
  | start => exact List.forall_mem_nil _
  | pass _ he _ ih =>
      exact List.forall_mem_append.mpr
        ⟨ih, List.forall_mem_singleton.mpr (List.mem_of_getElem? he)⟩

/-- Outside of loops, what a table notes of its variables is true after every
walk: before an entry it is true of the entries passed so far, and after it of
these and the entry itself. The right-hand sides that were passed are those of
statements, without the blanks around them. -/
theorem descriptors_sound (h : build names statements = .ok table) (hwalk : table.Walk trace pc)
    (he : table.entry? pc = some e) (hloop : ¬ InLoop table.entries pc)
    (hv : v < names.length) :
    (∃ d, e.entering[v]? = some d ∧ d.Tells v trace)
      ∧ (∃ d, e.leaving[v]? = some d ∧ d.Tells v (trace ++ [e]))
      ∧ ∀ e' ∈ trace ++ [e], ∀ var rhs, e'.action = .assign var rhs →
        ∃ s ∈ statements, ∃ name, Statement.Assigns s name rhs.text
          ∧ names.idxOf? name = some var := by
  obtain ⟨P, hP, -, rfl⟩ := build_eq_ok_iff.mp h
  have hmem : e ∈ P.layout 0 (List.replicate names.length .undefined) := List.mem_of_getElem? he
  have hpc : e.pc = pc := (laidAt_ofBlock he).1
  have hclaim := hwalk.tells_claim v
  have hstart : (List.replicate names.length Descriptor.undefined)[v]? = some .undefined :=
    List.getElem?_replicate_of_lt hv
  rcases P.claim_noted hstart e hmem with hin | ⟨i, d', hi, -, hentering, hleaving, himplies⟩
  · exact absurd (hpc ▸ hin) hloop
  · obtain rfl : i = pc := by omega
    refine ⟨⟨_, hentering, hclaim⟩, ⟨d', hleaving, (hclaim.append e).implies himplies⟩, ?_⟩
    intro e' he' var rhs hact
    have hentry : e' ∈ P.layout 0 (List.replicate names.length .undefined) := by
      rcases List.mem_append.mp he' with htrace | hlast
      · exact hwalk.mem_entries e' htrace
      · exact List.mem_singleton.mp hlast ▸ hmem
    obtain ⟨s, hs, name, hassigns, hvar, -⟩ := hP.exists_assigns hentry hact
    exact ⟨s, hs, name, hassigns, hvar⟩

/-- After a loop that assigns what was assigned before it, the right-hand side
is still known, whether the loop was entered or not. -/
theorem descriptors_sound_loop :
    ∃ table e trace, build ["x", "y"] ["y = 1", "while (x < 3)", "\x7b", "y = 1", "\x7d", "x = y"]
        = .ok table
      ∧ table.Walk trace 4 ∧ trace.map Entry.pc = [0, 1, 2, 3, 1] ∧ table.entry? 4 = some e
      ∧ e.entering = [.undefined, .expr "1"]
      ∧ ∃ e' rhs, lastWriter? 1 trace = some e' ∧ e'.action = .assign 1 rhs ∧ rhs.text = "1" := by
  let P : Block := .assign 1 ⟨"1", [.num 1]⟩
    (.loop ⟨"x < 3", [.var 0 "x", .num 3, .binary .lt]⟩ (.assign 1 ⟨"1", [.num 1]⟩ .done)
      (.assign 0 ⟨"y", [.var 1 "y"]⟩ .done))
  have hbuild : build ["x", "y"] ["y = 1", "while (x < 3)", "\x7b", "y = 1", "\x7d", "x = y"]
      = .ok (ofBlock 2 P) := by
    decide +kernel
  have hloop : ¬ InLoop (ofBlock 2 P).entries 4 := by
    rintro ⟨e, he, cond, bodyPc, exitPc, hact, -, hlt⟩
    simp only [ofBlock, P, Block.layout, List.cons_append, List.nil_append, List.mem_cons,
      List.not_mem_nil, or_false] at he
    rcases he with rfl | rfl | rfl | rfl | rfl <;> cases hact
    exact absurd hlt (by decide)
  have h₁ : (ofBlock 2 P).Walk _ 1 := Walk.start.pass rfl (by decide)
  have h₂ : (ofBlock 2 P).Walk _ 2 := h₁.pass rfl (by decide)
  have h₃ : (ofBlock 2 P).Walk _ 3 := h₂.pass rfl (by decide)
  have hagain : (ofBlock 2 P).Walk _ 1 := h₃.pass rfl (by decide)
  have hwalk : (ofBlock 2 P).Walk _ 4 := hagain.pass rfl (by decide)
  obtain ⟨⟨d, hd, htells⟩, -⟩ := descriptors_sound (v := 1) hbuild hwalk rfl hloop (by decide)
  cases hd
  exact ⟨_, _, _, hbuild, hwalk, rfl, rfl, rfl, htells⟩

end ControlTable

end BranchingTime
