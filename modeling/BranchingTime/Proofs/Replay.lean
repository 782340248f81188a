import Mathlib.Data.List.Perm.Subperm
import BranchingTime.Proofs.Collection
import BranchingTime.Proofs.IteDenotation

/-!
# Computing again what was computed before

What an if-then-else makes of the nodes of a manager can be told without
running it: `Manager.Ite` is the recursion without cache, where every node
that would be made is stored already. Storing more nodes changes no such
computation, so a result that was once remembered can be computed again,
and gives the same handle and no new node, until a collection drops nodes.

None of this needs the nodes to be in order or free of duplicates. All
that matters is that paths through stored nodes end (`Manager.Within`), so
that the recursion ends within its bound.
-/

namespace BranchingTime

open Diagram

namespace Manager

variable {m m' : Manager} {f g r : Handle} {i v d d' : Nat} {n : Node} {k q : IteKey}

/-! ## Paths that end -/

/-- Every path down from `f` comes to the terminal after `d` nodes at most. -/
inductive Within (m : Manager) : Nat → Handle → Prop
  | terminal {d : Nat} {f : Handle} (hf : f.index = 1) : Within m d f
  | node {d : Nat} {f : Handle} {n : Node} (hn : m.Stores f.index n) (low : Within m d n.low)
      (high : Within m d n.high) : Within m (d + 1) f

namespace Within

theorem valid (h : m.Within d f) : m.Valid f := by
  cases h with
  | terminal hf => exact Or.inl hf
  | node hn _ _ => exact Or.inr ⟨_, hn⟩

theorem mono (h : m.Within d f) (hd : d ≤ d') : m.Within d' f := by
  induction h generalizing d' with
  | terminal hf => exact .terminal hf
  | node hn _ _ ihlow ihhigh =>
      obtain ⟨d', rfl⟩ := Nat.exists_eq_add_of_le' (Nat.lt_of_lt_of_le (Nat.succ_pos _) hd)
      exact .node hn (ihlow (by omega)) (ihhigh (by omega))

theorem of_extends (h : m.Within d f) (hext : m.Extends m') : m'.Within d f := by
  induction h with
  | terminal hf => exact .terminal hf
  | node hn _ _ ihlow ihhigh => exact .node (hext.stores hn) ihlow ihhigh

/-- The sign of a handle does not matter. -/
theorem of_index_eq (h : m.Within d f) (hi : g.index = f.index) : m.Within d g := by
  cases h with
  | terminal hf => exact .terminal (hi.trans hf)
  | node hn low high => exact .node (hi ▸ hn) low high

end Within

theorem Stores.node_eq (hn : m.Stores i n) (ht : m.table.Invariant) : m.node i = n := by
  have h0 : i ≠ 0 := by
    rintro rfl
    exact ht.not_holds_zero hn
  have hn' : m.table.cells[i]? = some ⟨n, .shared⟩ := hn
  simp [node, UniqueTable.value?, h0, hn']

theorem cofactors_of_lt (h : f.isTerminal = true ∨ v < m.topVar f) : m.cofactors f v = (f, f) := by
  rw [cofactors, if_pos (by simpa using h)]

theorem cofactors_of_ge (hf : f.isTerminal = false) (h : ¬ v < m.topVar f) :
    m.cofactors f v = (m.low f, m.high f) := by
  rw [cofactors, if_neg (by simpa [hf] using h)]

/-- A cofactor is no taller than the diagram, and shorter if the first
variable of the diagram goes. -/
theorem Within.cofactors (h : m.Within d f) (ht : m.table.Invariant) (v : Nat) :
    ∃ d' ≤ d, (m.Within d' (m.cofactors f v).1 ∧ m.Within d' (m.cofactors f v).2)
      ∧ (f.isTerminal = false → ¬ v < m.topVar f → d' < d) := by
  by_cases hv : f.isTerminal = true ∨ v < m.topVar f
  · rw [cofactors_of_lt hv]
    refine ⟨d, Nat.le_refl d, ⟨h, h⟩, fun hf hlt => ?_⟩
    simp [hf, hlt] at hv
  · obtain ⟨hf, hlt⟩ := not_or.mp hv
    rw [cofactors_of_ge (by simpa using hf) hlt]
    cases h with
    | terminal h1 => exact absurd (Handle.isTerminal_iff.mpr h1) hf
    | @node d _ n hn low high =>
        refine ⟨d, Nat.le_succ d, ⟨?_, ?_⟩, fun _ _ => Nat.lt_succ_self d⟩
        · exact low.of_index_eq (by rw [Manager.low, hn.node_eq ht, Handle.index_complementIf])
        · exact high.of_index_eq (by rw [Manager.high, hn.node_eq ht, Handle.index_complementIf])

/-- The paths down from the three arguments of a key have `d` nodes at most,
taken together. -/
def KeyWithin (m : Manager) (d : Nat) (k : IteKey) : Prop :=
  ∃ a b c, (m.Within a k.cond ∧ m.Within b k.thenArg ∧ m.Within c k.elseArg) ∧ a + b + c ≤ d

theorem KeyWithin.of_extends (h : m.KeyWithin d k) (hext : m.Extends m') : m'.KeyWithin d k := by
  obtain ⟨a, b, c, ⟨ha, hb, hc⟩, hd⟩ := h
  exact ⟨a, b, c, ⟨ha.of_extends hext, hb.of_extends hext, hc.of_extends hext⟩, hd⟩

/-- The splitting variable is the first one of some argument. -/
theorem keyVar_cases (m : Manager) (k : IteKey) : m.keyVar k = m.topVar k.cond
    ∨ (k.thenArg.isTerminal = false ∧ m.keyVar k = m.topVar k.thenArg)
    ∨ (k.elseArg.isTerminal = false ∧ m.keyVar k = m.topVar k.elseArg) := by
  unfold keyVar
  cases htt : k.thenArg.isTerminal <;> cases hte : k.elseArg.isTerminal <;>
    simp only [List.filter, htt, hte, Bool.not_false, Bool.not_true, List.foldl, true_and,
      Bool.true_eq_false, false_and, or_false, false_or] <;> omega

/-- Splitting a key takes a node off some path of it. -/
theorem KeyWithin.split (h : m.KeyWithin d k) (ht : m.table.Invariant)
    (hc : k.cond.isTerminal = false) : ∃ d' < d,
      m.KeyWithin d' (m.split k (m.keyVar k)).1 ∧ m.KeyWithin d' (m.split k (m.keyVar k)).2 := by
  obtain ⟨a, b, c, ⟨ha, hb, hc'⟩, hd⟩ := h
  obtain ⟨a', hale, ⟨ha0, ha1⟩, halt⟩ := ha.cofactors ht (m.keyVar k)
  obtain ⟨b', hble, ⟨hb0, hb1⟩, hblt⟩ := hb.cofactors ht (m.keyVar k)
  obtain ⟨c', hcle, ⟨hc0, hc1⟩, hclt⟩ := hc'.cofactors ht (m.keyVar k)
  have hlt : a' + b' + c' < a + b + c := by
    rcases m.keyVar_cases k with hv | ⟨htt, hv⟩ | ⟨hte, hv⟩
    · have := halt hc (by omega)
      omega
    · have := hblt htt (by omega)
      omega
    · have := hclt hte (by omega)
      omega
  exact ⟨a' + b' + c', by omega, ⟨a', b', c', ⟨ha0, hb0, hc0⟩, Nat.le_refl _⟩,
    ⟨a', b', c', ⟨ha1, hb1, hc1⟩, Nat.le_refl _⟩⟩

/-- A result that is known at once is an argument of the call, up to its
sign. -/
theorem KeyWithin.trivial? (h : m.KeyWithin d q)
    (hr : IteForm.trivial? q.cond q.thenArg q.elseArg = some r) : m.Valid r := by
  obtain ⟨a, b, c, ⟨ha, hb, hc⟩, -⟩ := h
  unfold IteForm.trivial? at hr
  split_ifs at hr <;> obtain rfl := Option.some.inj hr
  · exact hb.valid
  · exact hc.valid
  · exact hb.valid
  · exact ha.valid
  · exact ha.valid.neg

theorem Within.assuming (h : m.Within d g) (f : Handle) (b : Bool) :
    m.Within d (IteForm.assuming f b g) := by
  unfold IteForm.assuming
  split_ifs
  · exact .terminal (by simp)
  · exact .terminal (by simp)
  · exact h

theorem KeyWithin.regular {f g h : Handle} {x : Bool} (hq : m.KeyWithin d ⟨f, g, h⟩)
    (hform : IteForm.regular f g h = .residual k x) (hf : f.isTerminal = false) :
    m.KeyWithin d k ∧ k.cond.isTerminal = false := by
  obtain ⟨a, b, c, ⟨ha, hb, hc⟩, hd⟩ := hq
  have hneg : ∀ {x : Handle} {d : Nat}, m.Within d x → m.Within d (-x) :=
    fun hx => hx.of_index_eq (Handle.index_neg _)
  cases hs : f.isComplemented
  · simp only [IteForm.regular, hs, Bool.false_eq_true, if_false] at hform
    split at hform <;> obtain ⟨rfl, -⟩ := IteForm.residual.inj hform
    · exact ⟨⟨a, b, c, ⟨ha, hneg hb, hneg hc⟩, hd⟩, hf⟩
    · exact ⟨⟨a, b, c, ⟨ha, hb, hc⟩, hd⟩, hf⟩
  · simp only [IteForm.regular, hs, if_true] at hform
    split at hform <;> obtain ⟨rfl, -⟩ := IteForm.residual.inj hform
    · exact ⟨⟨a, c, b, ⟨hneg ha, hneg hc, hneg hb⟩, by omega⟩, by rwa [Handle.isTerminal_neg]⟩
    · exact ⟨⟨a, c, b, ⟨hneg ha, hc, hb⟩, by omega⟩, by rwa [Handle.isTerminal_neg]⟩

/-- A known result is valid, and what is left of a call has no longer paths
than the call. -/
theorem KeyWithin.form (h : m.KeyWithin d q) :
    (∀ r, IteForm.of q.cond q.thenArg q.elseArg = .known r → m.Valid r)
    ∧ ∀ k x, IteForm.of q.cond q.thenArg q.elseArg = .residual k x →
      m.KeyWithin d k ∧ k.cond.isTerminal = false := by
  have hassume : m.KeyWithin d ⟨q.cond, IteForm.assuming q.cond true q.thenArg,
      IteForm.assuming q.cond false q.elseArg⟩ := by
    obtain ⟨a, b, c, ⟨ha, hb, hc⟩, hd⟩ := h
    exact ⟨a, b, c, ⟨ha, hb.assuming _ _, hc.assuming _ _⟩, hd⟩
  unfold IteForm.of
  cases htriv : IteForm.trivial? q.cond q.thenArg q.elseArg with
  | some r' =>
      refine ⟨fun r hr => ?_, fun k x hk => nomatch hk⟩
      obtain rfl := IteForm.known.inj hr
      exact h.trivial? htriv
  | none =>
      dsimp only
      cases htriv' : IteForm.trivial? q.cond (IteForm.assuming q.cond true q.thenArg)
          (IteForm.assuming q.cond false q.elseArg) with
      | some r' =>
          refine ⟨fun r hr => ?_, fun k x hk => nomatch hk⟩
          obtain rfl := IteForm.known.inj hr
          exact hassume.trivial? htriv'
      | none =>
          refine ⟨fun r hr => ?_, fun k x hk => ?_⟩
          · cases hs : q.cond.isComplemented <;> simp only [IteForm.regular, hs, if_true,
              Bool.false_eq_true, if_false] at hr <;> split at hr <;> cases hr
          · exact hassume.regular hk (IteForm.not_terminal_of_trivial?_eq_none htriv)

/-! ## Reading stored nodes -/

namespace Extends

variable (hext : m.Extends m') (ht : m.table.Invariant) (ht' : m'.table.Invariant)

include hext ht ht'

theorem node_eq_of_stores (hn : m.Stores i n) : m'.node i = m.node i := by
  rw [hn.node_eq ht, (hext.stores hn).node_eq ht']

theorem cofactors_eq (hf : m.Valid f) : m'.cofactors f v = m.cofactors f v := by
  cases hterm : f.isTerminal with
  | true => rw [cofactors_of_lt (Or.inl hterm), cofactors_of_lt (Or.inl hterm)]
  | false =>
      obtain ⟨n, hn⟩ := hf.stores hterm
      have hnode := hext.node_eq_of_stores ht ht' hn
      rw [cofactors, cofactors, topVar, topVar, low, low, high, high, hnode]

theorem keyVar_eq (hk : m.KeyWithin d k) (hc : k.cond.isTerminal = false) :
    m'.keyVar k = m.keyVar k := by
  obtain ⟨a, b, c, ⟨ha, hb, hc'⟩, -⟩ := hk
  have htop : ∀ {x : Handle}, m.Valid x → x.isTerminal = false → m'.topVar x = m.topVar x := by
    intro x hx hxt
    obtain ⟨n, hn⟩ := hx.stores hxt
    simp only [topVar, hext.node_eq_of_stores ht ht' hn]
  unfold keyVar
  rw [htop ha.valid hc]
  cases htt : k.thenArg.isTerminal <;> cases hte : k.elseArg.isTerminal <;>
    simp only [List.filter, htt, hte, Bool.not_false, Bool.not_true, List.foldl]
  · rw [htop hb.valid htt, htop hc'.valid hte]
  · rw [htop hb.valid htt]
  · rw [htop hc'.valid hte]

theorem split_eq (hk : m.KeyWithin d k) : m'.split k v = m.split k v := by
  obtain ⟨a, b, c, ⟨ha, hb, hc⟩, -⟩ := hk
  simp only [split, hext.cofactors_eq ht ht' ha.valid, hext.cofactors_eq ht ht' hb.valid,
    hext.cofactors_eq ht ht' hc.valid]

end Extends

/-! ## Results that are there already -/

/-- Making the node of `v`, `low` and `high` finds `r`, and stores nothing. -/
def Finds (m : Manager) (v : Nat) (low high r : Handle) : Prop :=
  v ≠ 0 ∧ if low = high then r = low
    else if high.isComplemented then ∃ i, m.Stores i ⟨v, -low, -high⟩ ∧ r = -.ofIndex i
    else ∃ i, m.Stores i ⟨v, low, high⟩ ∧ r = .ofIndex i

theorem Finds.of_extends {low high : Handle} (h : m.Finds v low high r) (hext : m.Extends m') :
    m'.Finds v low high r := by
  obtain ⟨hv, h⟩ := h
  refine ⟨hv, ?_⟩
  split_ifs at h ⊢
  · exact h
  · obtain ⟨i, hi, hr⟩ := h
    exact ⟨i, hext.stores hi, hr⟩
  · obtain ⟨i, hi, hr⟩ := h
    exact ⟨i, hext.stores hi, hr⟩

theorem Finds.unique {low high r' : Handle} (h : m.Finds v low high r)
    (h' : m.Finds v low high r') (ht : m.table.Invariant) : r = r' := by
  obtain ⟨-, h⟩ := h
  obtain ⟨-, h'⟩ := h'
  split_ifs at h h'
  · rw [h, h']
  · obtain ⟨i, hi, rfl⟩ := h
    obtain ⟨j, hj, rfl⟩ := h'
    rw [ht.unique hi hj]
  · obtain ⟨i, hi, rfl⟩ := h
    obtain ⟨j, hj, rfl⟩ := h'
    rw [ht.unique hi hj]

/-- The if-then-else of the arguments `q` computes `r` from stored nodes,
and makes no other. -/
inductive Ite (m : Manager) : IteKey → Handle → Prop
  | known {q : IteKey} {r : Handle} (hform : IteForm.of q.cond q.thenArg q.elseArg = .known r) :
      Ite m q r
  | split {q k : IteKey} {x : Bool} {e t r : Handle}
      (hform : IteForm.of q.cond q.thenArg q.elseArg = .residual k x)
      (low : Ite m (m.split k (m.keyVar k)).1 e) (high : Ite m (m.split k (m.keyVar k)).2 t)
      (node : m.Finds (m.keyVar k) e t r) : Ite m q (r.complementIf x)

/-- More stored nodes do not change a computation. -/
theorem Ite.of_extends (h : m.Ite q r) (hext : m.Extends m') (ht : m.table.Invariant)
    (ht' : m'.table.Invariant) (hq : m.KeyWithin d q) : m'.Ite q r := by
  induction h generalizing d with
  | known hform => exact .known hform
  | @split q k x e t r hform _ _ node ihlow ihhigh =>
      obtain ⟨hk, hc⟩ := hq.form.2 k x hform
      obtain ⟨d', -, h0, h1⟩ := hk.split ht hc
      have hvar := hext.keyVar_eq ht ht' hk hc
      have hsplit := hext.split_eq ht ht' (v := m.keyVar k) hk
      refine .split hform ?_ ?_ (hvar ▸ node.of_extends hext)
      · rw [hvar, hsplit]
        exact ihlow h0
      · rw [hvar, hsplit]
        exact ihhigh h1

/-- A computation has one result. -/
theorem Ite.unique {r' : Handle} (h : m.Ite q r) (h' : m.Ite q r') (ht : m.table.Invariant) :
    r = r' := by
  induction h generalizing r' with
  | known hform =>
      cases h' with
      | known hform' => exact IteForm.known.inj (hform.symm.trans hform')
      | split hform' _ _ _ => cases hform.symm.trans hform'
  | split hform _ _ node ihlow ihhigh =>
      cases h' with
      | known hform' => cases hform.symm.trans hform'
      | split hform' low' high' node' =>
          obtain ⟨rfl, rfl⟩ := IteForm.residual.inj (hform.symm.trans hform')
          obtain rfl := ihlow low'
          obtain rfl := ihhigh high'
          rw [node.unique node' ht]

theorem Finds.valid {low high : Handle} (h : m.Finds v low high r) (hlow : m.Valid low) :
    m.Valid r := by
  obtain ⟨-, h⟩ := h
  split_ifs at h
  · exact h ▸ hlow
  · obtain ⟨i, hi, rfl⟩ := h
    exact Valid.neg (Or.inr ⟨_, by rwa [Handle.index_ofIndex]⟩)
  · obtain ⟨i, hi, rfl⟩ := h
    exact Or.inr ⟨_, by rwa [Handle.index_ofIndex]⟩

theorem Ite.valid (h : m.Ite q r) (ht : m.table.Invariant) (hq : m.KeyWithin d q) :
    m.Valid r := by
  induction h generalizing d with
  | known hform => exact hq.form.1 _ hform
  | split hform _ _ node ihlow _ =>
      obtain ⟨hk, hc⟩ := hq.form.2 _ _ hform
      obtain ⟨d', -, h0, -⟩ := hk.split ht hc
      exact (node.valid (ihlow h0)).complementIf _

/-! ## Managers that were built node by node -/

/-- The stored nodes in `order`, newest first: each was stored after its
children. -/
inductive Built (m : Manager) : List Nat → Prop
  | nil : Built m []
  | cons {i : Nat} {n : Node} {order : List Nat} (hn : m.Stores i n) (hi : i ∉ order)
      (low : n.low.index = 1 ∨ n.low.index ∈ order)
      (high : n.high.index = 1 ∨ n.high.index ∈ order) (rest : Built m order) :
      Built m (i :: order)

namespace Built

variable {order : List Nat}

theorem of_extends (h : m.Built order) (hext : m.Extends m') : m'.Built order := by
  induction h with
  | nil => exact .nil
  | cons hn hi low high _ ih => exact .cons (hext.stores hn) hi low high ih

theorem stores (h : m.Built order) (hi : i ∈ order) : ∃ n, m.Stores i n := by
  induction h with
  | nil => cases hi
  | cons hn _ _ _ _ ih =>
      rcases List.mem_cons.mp hi with rfl | hi
      · exact ⟨_, hn⟩
      · exact ih hi

theorem within (h : m.Built order) (hf : f.index = 1 ∨ f.index ∈ order) :
    m.Within order.length f := by
  induction h generalizing f with
  | nil => exact .terminal (hf.resolve_right (List.not_mem_nil))
  | @cons i n order hn _ low high _ ih =>
      rcases hf with hf | hf
      · exact .terminal hf
      rcases List.mem_cons.mp hf with rfl | hf
      · exact .node hn (ih low) (ih high)
      · exact (ih (Or.inr hf)).mono (Nat.le_succ _)

/-- There are no more stored nodes than cells. -/
theorem length_le (h : m.Built order) : order.length ≤ m.table.cells.size := by
  have hall : order.Nodup ∧ ∀ i ∈ order, i < m.table.cells.size := by
    induction h with
    | nil => exact ⟨List.nodup_nil, fun i hi => nomatch hi⟩
    | cons hn hi _ _ _ ih =>
        exact ⟨List.nodup_cons.mpr ⟨hi, ih.1⟩, List.forall_mem_cons.mpr ⟨hn.lt_size, ih.2⟩⟩
  have hsub : order ⊆ List.range m.table.cells.size :=
    fun i hi => List.mem_range.mpr (hall.2 i hi)
  simpa using (hall.1.subperm hsub).length_le

/-- Dropping nodes keeps the others in order, if no child of them goes. -/
theorem filter {keep : Nat → Bool} (h : m.Built order)
    (hkeep : ∀ {i n}, m.Stores i n → keep i = true → m'.Stores i n
      ∧ ∀ c ∈ [n.low, n.high], c.index ∈ order → keep c.index = true) :
    m'.Built (order.filter keep) := by
  induction h with
  | nil => exact .nil
  | @cons i n order hn hi low high _ ih =>
      have ih := ih fun hs hk => ⟨(hkeep hs hk).1, fun c hc hmem =>
        (hkeep hs hk).2 c hc (List.mem_cons_of_mem _ hmem)⟩
      rw [List.filter_cons]
      split
      · next hk =>
          obtain ⟨hs, hchild⟩ := hkeep hn hk
          have hmem : ∀ c ∈ [n.low, n.high], c.index ∈ order → c.index ∈ order.filter keep :=
            fun c hc hm => List.mem_filter.mpr ⟨hm, hchild c hc (List.mem_cons_of_mem _ hm)⟩
          exact .cons hs (fun hf => hi (List.mem_filter.mp hf).1)
            (low.imp_right (hmem _ (by simp))) (high.imp_right (hmem _ (by simp))) ih
      · exact ih

end Built

/-- The table is in order, and its nodes were stored one after the other. -/
structure Grounded (m : Manager) : Prop where
  table : m.table.Invariant
  terminal : m.table.cells[1]? = some ⟨default, .held⟩
  built : ∃ order, m.Built order ∧ ∀ {i n}, m.Stores i n → i ∈ order

theorem Grounded.within (hm : m.Grounded) (hf : m.Valid f) :
    m.Within m.table.cells.size f := by
  obtain ⟨order, hbuilt, hall⟩ := hm.built
  exact (hbuilt.within (hf.imp_right fun ⟨_, hn⟩ => hall hn)).mono hbuilt.length_le

theorem Grounded.cofactors_valid (hm : m.Grounded) (hf : m.Valid f) (v : Nat) :
    m.Valid (m.cofactors f v).1 ∧ m.Valid (m.cofactors f v).2 := by
  obtain ⟨_, -, ⟨h0, h1⟩, -⟩ := (hm.within hf).cofactors hm.table v
  exact ⟨h0.valid, h1.valid⟩

theorem Grounded.node_valid (hm : m.Grounded) (hf : m.Valid f) (ht : f.isTerminal = false) :
    m.Valid (m.node f.index).low ∧ m.Valid (m.node f.index).high := by
  have hwithin := hm.within hf
  generalize m.table.cells.size = d at hwithin
  cases hwithin with
  | terminal h1 =>
      rw [Handle.isTerminal_iff.mpr h1] at ht
      cases ht
  | node hn low high =>
      rw [hn.node_eq hm.table]
      exact ⟨low.valid, high.valid⟩

theorem Grounded.children_valid (hm : m.Grounded) (hf : m.Valid f) (ht : f.isTerminal = false) :
    m.Valid (m.low f) ∧ m.Valid (m.high f) := by
  obtain ⟨hlow, hhigh⟩ := hm.node_valid hf ht
  exact ⟨hlow.complementIf _, hhigh.complementIf _⟩

/-- What is remembered for `k` can be computed from stored nodes. -/
structure Resolves (m : Manager) (k : IteKey) (r : Handle) : Prop where
  within : ∃ d, m.KeyWithin d k
  cond : k.cond.isTerminal = false
  replay : ∃ e t, m.Ite (m.split k (m.keyVar k)).1 e ∧ m.Ite (m.split k (m.keyVar k)).2 t
    ∧ m.Finds (m.keyVar k) e t r

/-- A key resolves to what its halves come to in a larger manager. -/
theorem Resolves.of_split {e t : Handle} (hk : m.KeyWithin d k) (hc : k.cond.isTerminal = false)
    (hext : m.Extends m') (ht : m.table.Invariant) (ht' : m'.table.Invariant)
    (low : m'.Ite (m.split k (m.keyVar k)).1 e) (high : m'.Ite (m.split k (m.keyVar k)).2 t)
    (node : m'.Finds (m.keyVar k) e t r) : m'.Resolves k r := by
  refine ⟨⟨d, hk.of_extends hext⟩, hc, e, t, ?_⟩
  rw [hext.keyVar_eq ht ht' hk hc, hext.split_eq ht ht' hk]
  exact ⟨low, high, node⟩

theorem Resolves.of_extends (h : m.Resolves k r) (hext : m.Extends m') (ht : m.table.Invariant)
    (ht' : m'.table.Invariant) : m'.Resolves k r := by
  obtain ⟨⟨d, hk⟩, hc, e, t, hlow, hhigh, hnode⟩ := h
  obtain ⟨d', -, h0, h1⟩ := hk.split ht hc
  exact .of_split hk hc hext ht ht' (hlow.of_extends hext ht ht' h0)
    (hhigh.of_extends hext ht ht' h1) (hnode.of_extends hext)

theorem Resolves.unique {r' : Handle} (h : m.Resolves k r) (h' : m.Resolves k r')
    (ht : m.table.Invariant) : r = r' := by
  obtain ⟨-, -, e, t, hlow, hhigh, hnode⟩ := h
  obtain ⟨-, -, e', t', hlow', hhigh', hnode'⟩ := h'
  obtain rfl := hlow.unique hlow' ht
  obtain rfl := hhigh.unique hhigh' ht
  exact hnode.unique hnode' ht

theorem Resolves.valid (h : m.Resolves k r) (ht : m.table.Invariant) : m.Valid r := by
  obtain ⟨⟨d, hk⟩, hc, e, t, hlow, -, hnode⟩ := h
  obtain ⟨d', -, h0, -⟩ := hk.split ht hc
  exact hnode.valid (hlow.valid ht h0)

/-- What a call comes down to is what its key resolves to. -/
theorem Resolves.ite {x : Bool} (h : m.Resolves k r)
    (hform : IteForm.of q.cond q.thenArg q.elseArg = .residual k x) :
    m.Ite q (r.complementIf x) := by
  obtain ⟨-, -, e, t, hlow, hhigh, hnode⟩ := h
  exact .split hform hlow hhigh hnode

/-- A grounded manager in which all that is remembered can be computed
again. -/
structure Coherent (m : Manager) : Prop extends m.Grounded where
  cache : ∀ {k r}, some (k, r) ∈ m.cache.slots → m.Resolves k r

/-- The table decides about everything but the cache. -/
theorem Grounded.of_table (hm : m.Grounded) (hn : m'.numVars = m.numVars)
    (ht : m'.table = m.table) : m'.Grounded ∧ m.Extends m' := by
  have hext : m.Extends m' := ⟨hn, fun hs => by rwa [Stores, ht]⟩
  obtain ⟨order, hbuilt, hall⟩ := hm.built
  refine ⟨⟨ht ▸ hm.table, ht ▸ hm.terminal, order, hbuilt.of_extends hext, ?_⟩, hext⟩
  intro i n hs
  rw [Stores, ht] at hs
  exact hall hs

theorem coherent_new? {numVars cacheBits : Nat} (h : new? numVars cacheBits = .ok m) :
    m.Coherent := by
  obtain ⟨hwf, -⟩ := wellFormed_new? h
  exact ⟨⟨hwf.table, hwf.terminal, [], .nil, fun hn => absurd hn (not_stores_new? h)⟩,
    fun hk => absurd hk (notMem_cache_new? h)⟩

/-- Storing one more node above stored ones keeps a manager coherent. -/
theorem Coherent.of_stored {t : UniqueTable Node} (hm : m.Coherent) (hlow : m.Valid n.low)
    (hhigh : m.Valid n.high) (hst : UniqueTable.Stored m.table n i t) (ht : t.Invariant)
    (journal : Journal) :
    m.Extends { m with table := t, journal } ∧ Coherent { m with table := t, journal } := by
  have hext : m.Extends { m with table := t, journal } :=
    ⟨rfl, fun hs => hst.keeps hs (by simp)⟩
  refine ⟨hext, ⟨ht, hst.keeps hm.terminal (by simp), ?_⟩, fun hk =>
    (hm.cache hk).of_extends hext hm.table ht⟩
  obtain ⟨order, hbuilt, hall⟩ := hm.built
  have hbuilt' := hbuilt.of_extends hext
  by_cases hi : i ∈ order
  · refine ⟨order, hbuilt', fun hs => ?_⟩
    rcases hst.only hs with hold | ⟨rfl, -⟩
    · exact hall hold
    · exact hi
  · refine ⟨i :: order, .cons hst.holds hi (hlow.imp_right fun ⟨_, hn⟩ => hall hn)
      (hhigh.imp_right fun ⟨_, hn⟩ => hall hn) hbuilt', fun hs => ?_⟩
    rcases hst.only hs with hold | ⟨rfl, -⟩
    · exact List.mem_cons_of_mem _ (hall hold)
    · exact List.mem_cons_self ..

/-- Any cache that can be computed again will do. -/
theorem Coherent.withCache {cache : ResultCache IteKey Handle} (hm : m.Coherent)
    (hc : ∀ {k r}, some (k, r) ∈ cache.slots → m.Resolves k r) : Coherent { m with cache } := by
  obtain ⟨hgr, hext⟩ : Grounded { m with cache } ∧ m.Extends { m with cache } :=
    hm.toGrounded.of_table rfl rfl
  exact ⟨hgr, fun hk => (hc hk).of_extends hext hm.table hgr.table⟩

/-- What was recorded does not matter. -/
theorem Coherent.withJournal (hm : m.Coherent) (journal : Journal) :
    m.Extends { m with journal } ∧ Coherent { m with journal } := by
  obtain ⟨hgr, hext⟩ : Grounded { m with journal } ∧ m.Extends { m with journal } :=
    hm.toGrounded.of_table rfl rfl
  exact ⟨hext, hgr, fun hk => (hm.cache hk).of_extends hext hm.table hgr.table⟩

/-- A collection keeps a manager coherent: it drops no child of a node that
it keeps, and the cache is empty after it. -/
theorem Coherent.of_swept {t : UniqueTable Node} {cache : ResultCache IteKey Handle}
    {roots : List Handle} (hm : m.Coherent) (ht : t.Invariant)
    (hholds : ∀ {i n}, t.Holds i n ↔ m.Stores i n ∧ (m.reach roots).getD i false = true)
    (hterminal : t.cells[1]? = some ⟨default, .held⟩)
    (hcache : ∀ {k r}, some (k, r) ∉ cache.slots) (journal : Journal) :
    Coherent { m with table := t, cache, journal } := by
  obtain ⟨order, hbuilt, hall⟩ := hm.built
  refine ⟨⟨ht, hterminal, order.filter fun i => (m.reach roots).getD i false,
    hbuilt.filter fun {i n} hn hi => ⟨hholds.mpr ⟨hn, hi⟩, fun c hc hmem => ?_⟩,
    fun {i n} hn => ?_⟩, fun hk => absurd hk hcache⟩
  · have h1 : i ≠ 1 := by
      rintro rfl
      cases hm.terminal.symm.trans hn
    obtain ⟨n', hn'⟩ := hbuilt.stores hmem
    have hchild : c.index = n.low.index ∨ c.index = n.high.index := by
      rcases List.mem_pair.mp hc with rfl | rfl
      · exact Or.inl rfl
      · exact Or.inr rfl
    exact getD_reach.mpr (reach_child (hn.node_eq hm.table) h1 (getD_reach.mp hi) hchild hn')
  · obtain ⟨hs, hi⟩ := hholds.mp hn
    exact List.mem_filter.mpr ⟨hall hs, hi⟩

/-- Managers that differ in their caches only. -/
def Twin (m m' : Manager) : Prop := m' = { m with cache := m'.cache }

namespace Twin

theorem refl (m : Manager) : m.Twin m := rfl

theorem trans {m'' : Manager} (h : m.Twin m') (h' : m'.Twin m'') : m.Twin m'' := by
  rw [Twin, h', h]

theorem symm (h : m.Twin m') : m'.Twin m := by
  rw [Twin, h]

theorem numVars_eq (h : m.Twin m') : m'.numVars = m.numVars := by rw [h]

theorem table_eq (h : m.Twin m') : m'.table = m.table := by rw [h]

theorem extends_ (h : m.Twin m') : m.Extends m' :=
  ⟨h.numVars_eq, fun hs => by rwa [Stores, h.table_eq]⟩

theorem depthBound_eq (h : m.Twin m') : m'.depthBound = m.depthBound := by
  rw [h]
  rfl

theorem node_eq (h : m.Twin m') : m'.node i = m.node i := by
  rw [h]
  rfl

theorem markFrom_eq (h : m.Twin m') (todo : List Nat) (marks : Array Bool) :
    m'.markFrom todo marks = m.markFrom todo marks := by
  have hchild : ∀ i, m'.childCells i = m.childCells i := fun i => by
    rw [childCells, h.node_eq, childCells]
  fun_induction markFrom m todo marks with
  | case1 => rw [markFrom]
  | case2 i todo marks hi hmark ih =>
      rw [markFrom, dif_pos hi]
      split
      · exact ih
      · simp_all
  | case3 i todo marks hi hmark ih =>
      rw [markFrom, dif_pos hi]
      split
      · simp_all
      · rw [hchild, ih]
  | case4 i todo marks hi ih => rw [markFrom, dif_neg hi, ih]

theorem reach_eq {roots : List Handle} (h : m.Twin m') : m'.reach roots = m.reach roots := by
  rw [reach, h.markFrom_eq, h.table_eq, reach]

theorem topVar_eq (h : m.Twin m') : m'.topVar f = m.topVar f := by rw [topVar, h.node_eq, topVar]

theorem low_eq (h : m.Twin m') : m'.low f = m.low f := by rw [low, h.node_eq, low]

theorem high_eq (h : m.Twin m') : m'.high f = m.high f := by rw [high, h.node_eq, high]

theorem cofactors_eq (h : m.Twin m') : m'.cofactors f v = m.cofactors f v := by
  rw [cofactors, h.topVar_eq, h.low_eq, h.high_eq, cofactors]

theorem keyVar_eq (h : m.Twin m') : m'.keyVar k = m.keyVar k := by
  rw [h]
  rfl

theorem split_eq (h : m.Twin m') : m'.split k v = m.split k v := by
  rw [h]
  rfl

end Twin

end Manager

/-! ## Computing again -/

namespace Diagram

open Manager

variable {m : Manager} {k q : IteKey} {r low high : Handle} {v d depth : Nat}

/-- A split of a key, and what is remembered of it. -/
def iteSplit (depth : Nat) (k : IteKey) : DiagramM Handle := do
  let v := (← get).keyVar k
  let (k0, k1) := (← get).split k v
  let e ← iteWithin depth k0.cond k0.thenArg k0.elseArg
  let t ← iteWithin depth k1.cond k1.thenArg k1.elseArg
  let r ← mkNode v e t
  remember k r
  return r

theorem iteWithin_known (h : IteForm.of q.cond q.thenArg q.elseArg = .known r) :
    iteWithin (depth + 1) q.cond q.thenArg q.elseArg = pure r := by
  rw [iteWithin, h]

/-- A call that is not settled at once looks its key up, and splits it if
it is not found. -/
theorem iteWithin_residual {x : Bool}
    (h : IteForm.of q.cond q.thenArg q.elseArg = .residual k x) :
    iteWithin (depth + 1) q.cond q.thenArg q.elseArg = do
      let r ← (← cached? k).elim (iteSplit depth k) pure
      return r.complementIf x := by
  rw [iteWithin, h]
  refine bind_congr fun r? => ?_
  cases r? with
  | none => simp only [Option.elim, iteSplit, bind_assoc, pure_bind]
  | some r => simp only [Option.elim, pure_bind]

/-- Looking a key up changes the cache only, and finds what it resolves to
if it finds anything. -/
theorem returns_cached?_coherent (hm : m.Coherent) (k : IteKey) :
    Returns (cached? k) m fun r? m' => (m.Twin m' ∧ m'.Coherent)
      ∧ ∀ r, r? = some r → m.Resolves k r := by
  refine Ends.imp (returns_cached?_slots k) ?_
  rintro r? _ ⟨⟨cache, rfl, hslots⟩, hfound⟩
  exact ⟨⟨rfl, hm.withCache fun hk => hm.cache (hslots ▸ hk)⟩, fun r hr => hm.cache (hfound r hr)⟩

theorem returns_remember_coherent (hm : m.Coherent) (hk : m.Resolves k r) :
    Returns (remember k r) m fun _ m' => m.Twin m' ∧ m'.Coherent := by
  refine Ends.imp (returns_remember_slots hm.cache hk) ?_
  rintro - _ ⟨cache, rfl, hcache⟩
  exact ⟨rfl, hm.withCache hcache⟩

/-- Storing a node puts it into the table, and tells when the table grew. -/
theorem returns_store_put {n : Node} {i : Nat} {grown? : Option Event} {t : UniqueTable Node}
    (hput : m.table.put n = (i, grown?, t)) : Returns (store n) m fun r m' => r = .ofIndex i
      ∧ m' = { m with table := t, journal := grown?.elim m.journal m.journal.push } := by
  unfold store
  refine ends_bind.mpr (ends_modifyGet.mpr fun a m' hm' => ?_)
  generalize m.table.put n = p at hput hm'
  subst hput
  obtain ⟨rfl, rfl⟩ := Prod.mk.inj hm'
  cases grown? with
  | none => simp only [Option.forM, ends_bind, ends_pure, Option.elim, and_self]
  | some e => simp only [Option.forM, ends_bind, ends_record, ends_pure, Option.elim, and_self]

/-- A node that is stored is found, and nothing changes. -/
theorem returns_store_found {n : Node} {i : Nat} (ht : m.table.Invariant) (hn : m.Stores i n) :
    Returns (store n) m fun r m' => r = .ofIndex i ∧ m' = m :=
  returns_store_put (UniqueTable.put_of_holds ht hn)

theorem returns_mkNode_found (ht : m.table.Invariant) (h : m.Finds v low high r) :
    Returns (mkNode v low high) m fun r' m' => r' = r ∧ m' = m := by
  obtain ⟨hv, h⟩ := h
  unfold mkNode
  rw [if_neg hv]
  split_ifs at h ⊢
  · exact ends_pure.mpr ⟨h.symm, rfl⟩
  · obtain ⟨i, hi, rfl⟩ := h
    refine ends_bind.mpr (Ends.imp (returns_store_found ht hi) ?_)
    rintro r m' ⟨rfl, rfl⟩
    exact ends_pure.mpr ⟨rfl, rfl⟩
  · obtain ⟨i, hi, rfl⟩ := h
    exact returns_store_found ht hi

/-- `x` computes `r` in every manager that differs from `m` in its cache
only, and stores no node. -/
def Recomputes (m : Manager) (x : DiagramM Handle) (r : Handle) : Prop :=
  ∀ {n : Manager}, m.Twin n → n.Coherent →
    Returns x n fun r' n' => r' = r ∧ m.Twin n' ∧ n'.Coherent

/-- A split whose halves are computed again finds its node. -/
theorem recomputes_iteSplit {e t : Handle} (hm : m.Grounded) (hk : m.KeyWithin d k)
    (hc : k.cond.isTerminal = false) (low : m.Ite (m.split k (m.keyVar k)).1 e)
    (high : m.Ite (m.split k (m.keyVar k)).2 t) (node : m.Finds (m.keyVar k) e t r)
    (hlow : Recomputes m (iteWithin depth (m.split k (m.keyVar k)).1.cond
      (m.split k (m.keyVar k)).1.thenArg (m.split k (m.keyVar k)).1.elseArg) e)
    (hhigh : Recomputes m (iteWithin depth (m.split k (m.keyVar k)).2.cond
      (m.split k (m.keyVar k)).2.thenArg (m.split k (m.keyVar k)).2.elseArg) t) :
    Recomputes m (iteSplit depth k) r := by
  intro n htwin hn
  unfold iteSplit
  simp only [ends_bind, ends_get, htwin.keyVar_eq, htwin.split_eq]
  refine Ends.imp (hlow htwin hn) ?_
  rintro _ n1 ⟨rfl, htwin1, hn1⟩
  refine Ends.imp (hhigh htwin1 hn1) ?_
  rintro _ n2 ⟨rfl, htwin2, hn2⟩
  refine Ends.imp (returns_mkNode_found hn2.table (node.of_extends htwin2.extends_)) ?_
  rintro _ _ ⟨rfl, rfl⟩
  have hres : m.Resolves k _ := ⟨⟨d, hk⟩, hc, _, _, low, high, node⟩
  refine Ends.imp (returns_remember_coherent hn2
    (hres.of_extends htwin2.extends_ hm.table hn2.table)) ?_
  rintro - n3 ⟨htwin3, hn3⟩
  exact ends_pure.mpr ⟨rfl, htwin2.trans htwin3, hn3⟩

/-- What can be computed from stored nodes is computed from them, whatever
the cache has forgotten. -/
theorem recomputes_iteWithin (hm : m.Grounded) (h : m.Ite q r) (hq : m.KeyWithin d q)
    (hd : d < depth) : Recomputes m (iteWithin depth q.cond q.thenArg q.elseArg) r := by
  induction h generalizing d depth with
  | known hform =>
      obtain ⟨depth, rfl⟩ := Nat.exists_eq_add_of_le' (Nat.lt_of_le_of_lt (Nat.zero_le d) hd)
      rw [iteWithin_known hform]
      exact fun htwin hn => ends_pure.mpr ⟨rfl, htwin, hn⟩
  | @split q k x e t r hform low high node ihlow ihhigh =>
      obtain ⟨depth, rfl⟩ := Nat.exists_eq_add_of_le' (Nat.lt_of_le_of_lt (Nat.zero_le d) hd)
      obtain ⟨hk, hc⟩ := hq.form.2 k x hform
      obtain ⟨d', hlt, h0, h1⟩ := hk.split hm.table hc
      rw [iteWithin_residual hform]
      intro n htwin hn
      refine ends_bind.mpr (Ends.imp (returns_cached?_coherent hn k) ?_)
      rintro r? n1 ⟨⟨htwin1, hn1⟩, hfound⟩
      replace htwin1 := htwin.trans htwin1
      cases r? with
      | some r' =>
          -- what is found can be computed too, and a computation has one result
          have hres := (hfound r' rfl).of_extends htwin.symm.extends_ hn.table hm.table
          exact ends_pure.mpr
            ⟨(hres.ite hform).unique (.split hform low high node) hm.table, htwin1, hn1⟩
      | none =>
          refine ends_bind.mpr (Ends.imp (recomputes_iteSplit hm hk hc low high node
            (ihlow h0 (by omega)) (ihhigh h1 (by omega)) htwin1 hn1) ?_)
          rintro _ n2 ⟨rfl, htwin2, hn2⟩
          exact ends_pure.mpr ⟨rfl, htwin2, hn2⟩

/-- What is remembered is what splitting would compute. -/
theorem recomputes_of_resolves (hm : m.Grounded) (h : m.Resolves k r) (hk : m.KeyWithin d k)
    (hd : d ≤ depth) : Recomputes m (iteSplit depth k) r := by
  obtain ⟨-, hc, e, t, low, high, node⟩ := h
  obtain ⟨d', hlt, h0, h1⟩ := hk.split hm.table hc
  exact recomputes_iteSplit hm hk hc low high node (recomputes_iteWithin hm low h0 (by omega))
    (recomputes_iteWithin hm high h1 (by omega))

end Diagram

end BranchingTime
