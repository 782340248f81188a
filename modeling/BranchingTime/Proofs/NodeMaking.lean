import BranchingTime.Proofs.Denotation
import BranchingTime.Proofs.Ending

/-!
# Making nodes

Operations add diagrams to a manager and leave the old ones as they are:
`Manager.Extends`. A manager is well formed (`Manager.WellFormed`) when it
is reduced and its result cache remembers nothing wrong. What an operation
has to achieve is then always of one kind, `Manager.Yields`: the manager
that is left extends the old one, is well formed, and denotes the right
function by the result.

This file proves it for the operations that store nodes: `mkNode`,
`mkVar` and `cube`. Levels need no mention in the results, since the
function of a diagram tells how high it can stand
(`Reduced.le_level_of_forall_update`).
-/

namespace BranchingTime

namespace Manager

variable {m m' m'' : Manager} {f g r : Handle} {i v : Nat} {n : Node} {φ ψ : Assignment → Prop}

/-! ## Extensions -/

/-- Every diagram of `m` is one of `m'`. -/
structure Extends (m m' : Manager) : Prop where
  numVars_eq : m'.numVars = m.numVars
  stores : ∀ {i n}, m.Stores i n → m'.Stores i n

namespace Extends

theorem refl (m : Manager) : m.Extends m := ⟨rfl, fun h => h⟩

theorem trans (h : m.Extends m') (h' : m'.Extends m'') : m.Extends m'' :=
  ⟨h'.numVars_eq.trans h.numVars_eq, fun hs => h'.stores (h.stores hs)⟩

theorem valid (h : m.Extends m') (hf : m.Valid f) : m'.Valid f := by
  rcases hf with hf | ⟨n, hn⟩
  · exact Or.inl hf
  · exact Or.inr ⟨n, h.stores hn⟩

theorem node_eq (h : m.Extends m') (hr : m.Reduced) (hn : m.Stores i n) :
    m'.node i = m.node i := by
  have hn' : m'.table.cells[i]? = some ⟨n, .shared⟩ := h.stores hn
  rw [hr.node_eq hn]
  simp [node, UniqueTable.value?, hr.ne_zero hn, hn']

theorem level_eq (h : m.Extends m') (hr : m.Reduced) (hf : m.Valid f) :
    m'.level f = m.level f := by
  cases ht : f.isTerminal with
  | true => rw [level_of_terminal ht, level_of_terminal ht, h.numVars_eq]
  | false =>
      obtain ⟨n, hn⟩ := hf.stores ht
      simp [level, ht, topVar, h.node_eq hr hn]

theorem eval_eq (h : m.Extends m') (hr : m.Reduced) (hr' : m'.Reduced) (hf : m.Valid f)
    (a : Assignment) : m'.eval f a = m.eval f a := by
  refine hr.induction (P := fun f => m'.eval f a = m.eval f a) ?_ ?_ hf
  · intro f ht
    rw [eval_of_terminal ht, eval_of_terminal ht]
  · intro f hv ht ihlow ihhigh
    obtain ⟨n, hn⟩ := hv.stores ht
    have hlow : m'.low f = m.low f := by rw [low, low, h.node_eq hr hn]
    have hhigh : m'.high f = m.high f := by rw [high, high, h.node_eq hr hn]
    rw [hr.eval_step hv ht, hr'.eval_step (h.valid hv) ht, h.level_eq hr hv, hlow, hhigh, ihlow,
      ihhigh]

theorem proper (h : m.Extends m') (hr : m.Reduced) (hn : m.Proper n) : m'.Proper n where
  var_pos := hn.var_pos
  var_le := h.numVars_eq ▸ hn.var_le
  low_ne_high := hn.low_ne_high
  high_regular := hn.high_regular
  low_valid := h.valid hn.low_valid
  high_valid := h.valid hn.high_valid
  var_lt_low := (h.level_eq hr hn.low_valid).symm ▸ hn.var_lt_low
  var_lt_high := (h.level_eq hr hn.high_valid).symm ▸ hn.var_lt_high

end Extends

/-- A function that does not depend on the variables above `v` has no
diagram that stands above `v`. -/
theorem Reduced.le_level_of_forall_update (hr : m.Reduced) (hf : m.Valid f)
    (hv : v ≤ m.numVars + 1)
    (h : ∀ w < v, ∀ a b, m.eval f (Function.update a w b) = m.eval f a) : v ≤ m.level f := by
  by_contra hlt
  have ht : f.isTerminal = false := by
    rw [← Bool.not_eq_true, hr.isTerminal_iff_level hf]
    omega
  refine hr.low_ne_high hf ht (hr.eq_of_eval_eq (hr.low_valid hf ht) (hr.high_valid hf ht) ?_)
  intro a
  rw [← hr.eval_update_low hf ht, ← hr.eval_update_high hf ht, h _ (by omega), h _ (by omega)]

/-! ## Well-formed managers -/

/-- The value of "if `f` then `g` else `h`". -/
def iteEval (m : Manager) (f g h : Handle) (a : Assignment) : Bool :=
  if m.eval f a then m.eval g a else m.eval h a

theorem Extends.iteEval_eq {h : Handle} (hext : m.Extends m') (hr : m.Reduced) (hr' : m'.Reduced)
    (hf : m.Valid f) (hg : m.Valid g) (hh : m.Valid h) (a : Assignment) :
    m'.iteEval f g h a = m.iteEval f g h a := by
  simp only [iteEval, hext.eval_eq hr hr' hf, hext.eval_eq hr hr' hg, hext.eval_eq hr hr' hh]

/-- A remembered result is the if-then-else of its arguments. -/
structure Remembers (m : Manager) (k : IteKey) (r : Handle) : Prop where
  cond_valid : m.Valid k.cond
  then_valid : m.Valid k.thenArg
  else_valid : m.Valid k.elseArg
  result_valid : m.Valid r
  eval_eq : ∀ a, m.eval r a = m.iteEval k.cond k.thenArg k.elseArg a

/-- A reduced manager whose cache remembers right results only. -/
structure WellFormed (m : Manager) : Prop extends m.Reduced where
  cache : ∀ {k r}, some (k, r) ∈ m.cache.slots → m.Remembers k r

theorem Remembers.mono {k : IteKey} (hk : m.Remembers k r) (h : m.Extends m') (hr : m.Reduced)
    (hr' : m'.Reduced) : m'.Remembers k r where
  cond_valid := h.valid hk.cond_valid
  then_valid := h.valid hk.then_valid
  else_valid := h.valid hk.else_valid
  result_valid := h.valid hk.result_valid
  eval_eq a := by
    rw [h.eval_eq hr hr' hk.result_valid, hk.eval_eq,
      h.iteEval_eq hr hr' hk.cond_valid hk.then_valid hk.else_valid]

/-- Two managers that differ in their counts and journals only. -/
structure Alike (m m' : Manager) : Prop where
  numVars_eq : m'.numVars = m.numVars
  table_eq : m'.table = m.table
  slots_eq : m'.cache.slots = m.cache.slots

namespace Alike

theorem extends_ (h : m.Alike m') : m.Extends m' :=
  ⟨h.numVars_eq, fun hs => by rwa [Stores, h.table_eq]⟩

theorem extends_symm (h : m.Alike m') : m'.Extends m :=
  ⟨h.numVars_eq.symm, fun hs => by rwa [Stores, h.table_eq] at hs⟩

theorem reduced (h : m.Alike m') (hr : m.Reduced) : m'.Reduced where
  table := h.table_eq ▸ hr.table
  terminal := h.table_eq ▸ hr.terminal
  proper hs := h.extends_.proper hr (hr.proper (h.extends_symm.stores hs))

theorem wellFormed (h : m.Alike m') (hm : m.WellFormed) : m'.WellFormed where
  toReduced := h.reduced hm.toReduced
  cache hk := (hm.cache (h.slots_eq ▸ hk)).mono h.extends_ hm.toReduced (h.reduced hm.toReduced)

end Alike

theorem alike_journal (m : Manager) (journal : Journal) : m.Alike { m with journal } :=
  ⟨rfl, rfl, rfl⟩

/-! ## What operations yield -/

/-- `m'` is a well-formed extension of `m`, and `r` denotes `φ` in it. -/
structure Yields (m : Manager) (φ : Assignment → Prop) (r : Handle) (m' : Manager) : Prop where
  extends_ : m.Extends m'
  wellFormed : m'.WellFormed
  valid : m'.Valid r
  eval_iff : ∀ a, m'.eval r a = true ↔ φ a

namespace Yields

theorem eval_eq {b : Assignment → Bool} (h : m.Yields (fun a => b a = true) r m')
    (a : Assignment) : m'.eval r a = b a :=
  Bool.eq_iff_iff.mpr (h.eval_iff a)

theorem congr (h : m.Yields φ r m') (hφ : ∀ a, φ a ↔ ψ a) : m.Yields ψ r m' :=
  ⟨h.extends_, h.wellFormed, h.valid, fun a => (h.eval_iff a).trans (hφ a)⟩

/-- A result found in an extension is a result of the first manager. -/
theorem of_extends (hm : m.Extends m') (h : m'.Yields φ r m'') : m.Yields φ r m'' :=
  ⟨hm.trans h.extends_, h.wellFormed, h.valid, h.eval_iff⟩

/-- A diagram of the manager is a result as it stands. -/
theorem refl (hm : m.WellFormed) (hr : m.Valid r) :
    m.Yields (fun a => m.eval r a = true) r m :=
  ⟨.refl m, hm, hr, fun _ => Iff.rfl⟩

theorem neg (h : m.Yields φ r m') : m.Yields (fun a => ¬ φ a) (-r) m' :=
  ⟨h.extends_, h.wellFormed, h.valid.neg, fun a => by
    rw [h.wellFormed.eval_neg h.valid, ← h.eval_iff]
    simp⟩

/-- Diagrams of the old manager mean the same in the new one. -/
theorem old_eval_eq (h : m.Yields φ r m') (hm : m.WellFormed) (hf : m.Valid f) (a : Assignment) :
    m'.eval f a = m.eval f a :=
  h.extends_.eval_eq hm.toReduced h.wellFormed.toReduced hf a

theorem old_level_eq (h : m.Yields φ r m') (hm : m.WellFormed) (hf : m.Valid f) :
    m'.level f = m.level f :=
  h.extends_.level_eq hm.toReduced hf

/-- A result stands no higher than the first variable that matters to it. -/
theorem le_level (h : m.Yields φ r m') (hv : v ≤ m.numVars + 1)
    (hφ : ∀ w < v, ∀ a b, φ (Function.update a w b) ↔ φ a) : v ≤ m'.level r := by
  refine h.wellFormed.le_level_of_forall_update h.valid (by rw [h.extends_.numVars_eq]; exact hv) ?_
  intro w hw a b
  rw [Bool.eq_iff_iff, h.eval_iff, h.eval_iff]
  exact hφ w hw a b

end Yields

/-- `f` denotes `φ`. -/
structure Denotes (m : Manager) (f : Handle) (φ : Assignment → Prop) : Prop where
  valid : m.Valid f
  eval_iff : ∀ a, m.eval f a = true ↔ φ a

theorem Yields.denotes (h : m.Yields φ r m') : m'.Denotes r φ := ⟨h.valid, h.eval_iff⟩

theorem Denotes.congr (h : m.Denotes f φ) (hφ : ∀ a, φ a ↔ ψ a) : m.Denotes f ψ :=
  ⟨h.valid, fun a => (h.eval_iff a).trans (hφ a)⟩

theorem Denotes.mono (h : m.Denotes f φ) (hext : m.Extends m') (hm : m.WellFormed)
    (hm' : m'.WellFormed) : m'.Denotes f φ :=
  ⟨hext.valid h.valid, fun a => by
    rw [hext.eval_eq hm.toReduced hm'.toReduced h.valid, h.eval_iff]⟩

/-! ## New managers -/

section New

variable {numVars cacheBits : Nat}

/-- Only the size of the cache can be wrong about a new manager. -/
theorem new?_eq_ok_iff : new? numVars cacheBits = .ok m ↔ cacheBits ≤ 31
    ∧ m = { numVars, table := ((UniqueTable.empty initialTableBits).alloc default).2,
            cache := .empty cacheBits, journal := #[] } := by
  unfold new? ResultCache.new?
  constructor
  · intro h
    split at h
    · next hbits => exact ⟨hbits, (Except.ok.inj h).symm⟩
    · cases h
  · rintro ⟨hbits, rfl⟩
    rw [if_pos hbits]
    rfl

theorem cells_new? (h : new? numVars cacheBits = .ok m) :
    m.table.cells = #[⟨default, .held⟩, ⟨default, .held⟩] := by
  obtain ⟨-, rfl⟩ := new?_eq_ok_iff.mp h
  rfl

theorem not_stores_new? (h : new? numVars cacheBits = .ok m) {i : Nat} {n : Node} :
    ¬ m.Stores i n := by
  rw [Stores, UniqueTable.Holds, cells_new? h]
  rcases i with _ | _ | i <;> simp

theorem notMem_cache_new? (h : new? numVars cacheBits = .ok m) {k : IteKey} :
    some (k, r) ∉ m.cache.slots := by
  obtain ⟨-, rfl⟩ := new?_eq_ok_iff.mp h
  simp [ResultCache.empty]

/-- A new manager stores nothing, so nothing can be wrong in it. -/
theorem wellFormed_new? (h : new? numVars cacheBits = .ok m) :
    m.WellFormed ∧ m.numVars = numVars := by
  obtain ⟨-, rfl⟩ := new?_eq_ok_iff.mp h
  exact ⟨⟨⟨(UniqueTable.Invariant.empty initialTableBits).alloc default, rfl,
    fun hn => absurd hn (not_stores_new? h)⟩, fun hk => absurd hk (notMem_cache_new? h)⟩, rfl⟩

end New

end Manager

namespace Diagram

open Manager

variable {m : Manager} {low high : Handle} {v : Nat} {n : Node}

/-! ## Nodes -/

/-- A table that stores one more proper node makes a well-formed manager,
and the new cell denotes the choice that the node is. -/
theorem yields_of_stored {t : UniqueTable Node} {i : Nat} (hm : m.WellFormed) (hn : m.Proper n)
    (hst : UniqueTable.Stored m.table n i t) (ht : t.Invariant) (journal : Journal) :
    m.Yields (fun a => (if a n.var then m.eval n.high a else m.eval n.low a) = true) (.ofIndex i)
      { m with table := t, journal } := by
  have hext : m.Extends { m with table := t, journal } :=
    ⟨rfl, fun hs => hst.keeps hs (by simp)⟩
  have hred : Manager.Reduced { m with table := t, journal } := by
    refine ⟨ht, hst.keeps hm.terminal (by simp), fun hs => ?_⟩
    rcases hst.only hs with hold | ⟨-, rfl⟩
    · exact hext.proper hm.toReduced (hm.proper hold)
    · exact hext.proper hm.toReduced hn
  have hwf : Manager.WellFormed { m with table := t, journal } :=
    ⟨hred, fun hk => (hm.cache hk).mono hext hm.toReduced hred⟩
  have hstores : Manager.Stores { m with table := t, journal } i n := hst.holds
  refine ⟨hext, hwf, Or.inr ⟨n, by rwa [Handle.index_ofIndex]⟩, fun a => ?_⟩
  rw [hred.eval_ofIndex hstores, hext.eval_eq hm.toReduced hred hn.high_valid,
    hext.eval_eq hm.toReduced hred hn.low_valid]

theorem returns_store (hm : m.WellFormed) (hn : m.Proper n) : Returns (store n) m
    (m.Yields fun a => (if a n.var then m.eval n.high a else m.eval n.low a) = true) := by
  have hst := UniqueTable.put_stored hm.table n
  have ht := hm.table.put n
  unfold store
  refine ends_bind.mpr (ends_modifyGet.mpr fun a m' hput => ?_)
  generalize m.table.put n = p at hst ht hput
  obtain ⟨i, grown?, t⟩ := p
  obtain ⟨rfl, rfl⟩ := Prod.mk.inj hput
  have hyields := yields_of_stored hm hn hst ht
  cases grown? with
  | none =>
      simp only [Option.forM, ends_bind, ends_pure]
      exact hyields m.journal
  | some e =>
      simp only [Option.forM, ends_bind, ends_record, ends_pure]
      exact hyields (m.journal.push e)

/-- A node above two diagrams denotes the choice between them. -/
theorem returns_mkNode (hm : m.WellFormed) (hpos : 1 ≤ v) (hle : v ≤ m.numVars)
    (hlow : m.Valid low) (hhigh : m.Valid high) (hvl : v < m.level low) (hvh : v < m.level high) :
    Returns (mkNode v low high) m
      (m.Yields fun a => (if a v then m.eval high a else m.eval low a) = true) := by
  unfold mkNode
  rw [if_neg (by omega)]
  split
  · next heq =>
      subst heq
      refine ends_pure.mpr ((Yields.refl hm hlow).congr fun a => ?_)
      rw [ite_self]
  · next hne =>
      split
      · -- the complement of the node is stored, and the complement of that is returned
        next hc =>
          have hreg : (-high).isComplemented = false := by
            rw [Handle.isComplemented_neg (hm.index_ne_zero hhigh), hc]
            rfl
          have hn : m.Proper ⟨v, -low, -high⟩ :=
            ⟨hpos, hle, fun h => hne (Handle.neg_inj.mp h), hreg, hlow.neg, hhigh.neg,
              level_neg.symm ▸ hvl, level_neg.symm ▸ hvh⟩
          simp only [ends_bind, ends_pure]
          refine Ends.imp (returns_store hm hn) (fun r m' hr => hr.neg.congr fun a => ?_)
          simp only [hm.eval_neg hlow, hm.eval_neg hhigh]
          cases a v <;> simp
      · next hc =>
          exact returns_store hm
            ⟨hpos, hle, hne, by simpa using hc, hlow, hhigh, hvl, hvh⟩

/-! ## Variables and cubes -/

theorem ends_checkVariable {Q : Unit → Manager → Prop} {E : Fault → Manager → Prop} :
    Ends (checkVariable v) m Q E ↔
      if 1 ≤ v ∧ v ≤ m.numVars then Q () m else E (.outOfRange v m.numVars) m := by
  unfold checkVariable
  simp only [ends_bind, ends_get]
  by_cases h : 1 ≤ v ∧ v ≤ m.numVars
  · rw [if_pos h, if_neg (by simp; omega), ends_pure]
  · rw [if_neg h, if_pos (by simp; omega), ends_throw]

/-- A variable faults when it is out of range, and changes nothing then. -/
theorem ends_mkVar (v : Nat) (hm : m.WellFormed) :
    Ends (mkVar v) m (m.Yields fun a => a v = true)
      (fun _ m' => m' = m ∧ ¬ (1 ≤ v ∧ v ≤ m.numVars)) := by
  unfold mkVar
  simp only [ends_bind, ends_checkVariable]
  split
  · next h =>
      refine (returns_mkNode hm h.1 h.2 m.valid_zero m.valid_one (by rw [level_zero]; omega)
        (by rw [level_one]; omega)).ends fun r m' hr => hr.congr fun a => ?_
      simp
  · next h => exact ⟨trivial, h⟩

end Diagram

/-- Does an assignment make a literal true? -/
def Assignment.satisfies (a : Assignment) (literal : Int) : Bool :=
  a literal.natAbs = decide (0 < literal)

namespace Diagram

open Manager

variable {m : Manager} {c : Handle} {l : Int} {ls : List Int}

theorem returns_addLiteral (hm : m.WellFormed) (hc : m.Valid c) (hl : l ≠ 0)
    (hle : l.natAbs ≤ m.numVars) (hlt : l.natAbs < m.level c) :
    Returns (addLiteral c l) m (m.Yields fun a => a.satisfies l = true ∧ m.eval c a = true) := by
  have hpos : 1 ≤ l.natAbs := by omega
  have hz : l.natAbs < m.level .zero := by
    rw [level_zero]
    omega
  unfold addLiteral
  split
  · next hneg =>
      refine Ends.imp (returns_mkNode hm hpos hle hc m.valid_zero hlt hz)
        (fun r m' hr => hr.congr fun a => ?_)
      have : ¬ 0 < l := by omega
      cases ha : a l.natAbs <;> simp [Assignment.satisfies, ha, this]
  · next hneg =>
      refine Ends.imp (returns_mkNode hm hpos hle m.valid_zero hc hz hlt)
        (fun r m' hr => hr.congr fun a => ?_)
      have : 0 < l := by omega
      cases ha : a l.natAbs <;> simp [Assignment.satisfies, ha, this]

theorem satisfies_update {a : Assignment} {w : Nat} {b : Bool} (h : w ≠ l.natAbs) :
    Assignment.satisfies (Function.update a w b) l = a.satisfies l := by
  unfold Assignment.satisfies
  rw [Function.update_of_ne (Ne.symm h)]

/-- Adding literals from the lowest level up. -/
theorem returns_foldlM_addLiteral (hm : m.WellFormed) (hc : m.Valid c) (hl : ∀ l ∈ ls, l ≠ 0)
    (hle : ∀ l ∈ ls, l.natAbs ≤ m.numVars) (hlt : ∀ l ∈ ls, l.natAbs < m.level c)
    (hsorted : ls.Pairwise fun l l' => l'.natAbs < l.natAbs) :
    Returns (ls.foldlM addLiteral c) m
      (m.Yields fun a => (∀ l ∈ ls, a.satisfies l = true) ∧ m.eval c a = true) := by
  induction ls generalizing m c with
  | nil =>
      exact ends_pure.mpr ((Yields.refl hm hc).congr fun a => by simp)
  | cons l ls ih =>
      obtain ⟨hhead, htail⟩ := List.pairwise_cons.mp hsorted
      rw [List.foldlM_cons]
      refine ends_bind.mpr ?_
      refine Ends.imp (returns_addLiteral hm hc (hl l (by simp)) (hle l (by simp))
        (hlt l (by simp))) (fun r m' hr => ?_)
      -- the new cube stands at the level of its new literal, above all later ones
      have hlevel : l.natAbs ≤ m'.level r := by
        refine hr.le_level (by have := hle l (by simp); omega) fun w hw a b => ?_
        rw [satisfies_update (by omega), hm.eval_update_above hc
          (Nat.lt_trans hw (hlt l (by simp)))]
      refine Ends.imp (ih hr.wellFormed hr.valid (fun l hl' => hl l (List.mem_cons_of_mem _ hl'))
        (fun l' hl' => by
          rw [hr.extends_.numVars_eq]
          exact hle l' (List.mem_cons_of_mem _ hl'))
        (fun l' hl' => Nat.lt_of_lt_of_le (hhead l' hl') hlevel) htail) (fun r' m'' hr' => ?_)
      refine (hr'.of_extends hr.extends_).congr fun a => ?_
      rw [hr.eval_iff]
      simp only [List.forall_mem_cons]
      tauto

/-- The cube of literals over different variables denotes their
conjunction. -/
theorem returns_cube (hm : m.WellFormed) (hl : ∀ l ∈ ls, l ≠ 0)
    (hle : ∀ l ∈ ls, l.natAbs ≤ m.numVars) (hnd : (ls.map Int.natAbs).Nodup) :
    Returns (cube ls) m (m.Yields fun a => ∀ l ∈ ls, a.satisfies l = true) := by
  have hperm := List.mergeSort_perm ls fun a b : Int => decide (b.natAbs ≤ a.natAbs)
  have hmem : ∀ l, l ∈ ls.mergeSort (fun a b => decide (b.natAbs ≤ a.natAbs)) ↔ l ∈ ls :=
    fun l => hperm.mem_iff
  have hsorted : (ls.mergeSort fun a b => decide (b.natAbs ≤ a.natAbs)).Pairwise
      fun l l' => l'.natAbs < l.natAbs := by
    have hge : (ls.mergeSort fun a b => decide (b.natAbs ≤ a.natAbs)).Pairwise
        fun a b => decide (b.natAbs ≤ a.natAbs) = true :=
      List.pairwise_mergeSort (fun a b c hab hbc => by simp only [decide_eq_true_eq] at *; omega)
        (fun a b => by simp only [Bool.or_eq_true, decide_eq_true_eq]; omega) ls
    have hne := List.pairwise_map.mp ((hperm.map Int.natAbs).nodup_iff.mpr hnd)
    refine (hge.and hne).imp fun {a b} h => ?_
    have := of_decide_eq_true h.1
    omega
  unfold cube
  refine Ends.imp (returns_foldlM_addLiteral hm m.valid_one (fun l h => hl l ((hmem l).mp h))
    (fun l h => hle l ((hmem l).mp h)) (fun l h => ?_) hsorted)
    (fun r m' hr => hr.congr fun a => ?_)
  · rw [level_one]
    exact Nat.lt_succ_of_le (hle l ((hmem l).mp h))
  · simp only [hmem, eval_one, and_true]

end Diagram

end BranchingTime
