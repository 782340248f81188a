import BranchingTime.Diagram.Quantifier
import BranchingTime.Diagram.Substitution
import BranchingTime.Proofs.Replay

/-!
# Managers side by side

Two managers that differ in their caches only are run side by side. Where
both caches know a result, or neither does, they take the same steps; where
one knows it and the other does not, the other computes it again, and that
stores nothing. `Together` says that two operations end alike, and every
operation on diagrams ends as it does on the other side, whatever its
arguments make of the order of variables.
-/

namespace BranchingTime

open Diagram

namespace Manager

variable {m m' n n' : Manager} {f g r : Handle} {k q : IteKey} {v d depth : Nat}

/-- Coherent managers that differ in their caches only. -/
structure Twins (m m' : Manager) : Prop where
  twin : m.Twin m'
  left : m.Coherent
  right : m'.Coherent

theorem Twins.valid (h : Twins m m') (hf : m.Valid f) : m'.Valid f := h.twin.extends_.valid hf

/-- Twins that `m` was extended to, and a handle of theirs. -/
structure Agree (m : Manager) (r : Handle) (n n' : Manager) : Prop where
  twins : Twins n n'
  extends_ : m.Extends n
  valid : n.Valid r

theorem Agree.refl (h : Twins m m') (hr : m.Valid r) : m.Agree r m m' := ⟨h, .refl m, hr⟩

theorem Agree.of_extends {o : Manager} (h : m.Agree r n n') (hext : o.Extends m) :
    o.Agree r n n' :=
  ⟨h.twins, hext.trans h.extends_, h.valid⟩

end Manager

namespace Diagram

open Manager

/-! ## Side by side -/

/-- From `m` and `m'`, the operations `x` and `y` end in the same result,
and in managers with `Q`, or in the same fault, and in twins that `m` was
extended to. -/
def Together {α : Type} (x y : DiagramM α) (m m' : Manager) (Q : α → Manager → Manager → Prop) :
    Prop :=
  match x m, y m' with
  | .ok a n, .ok b n' => a = b ∧ Q a n n'
  | .error e n, .error e' n' => e = e' ∧ m.Extends n ∧ Twins n n'
  | _, _ => False

section Rules

variable {α β σ τ : Type} {x y : DiagramM α} {m m' : Manager} {Q Q' : α → Manager → Manager → Prop}

theorem Together.cases (h : Together x y m m' Q) :
    (∃ a n n', x m = .ok a n ∧ y m' = .ok a n' ∧ Q a n n')
      ∨ ∃ e n n', x m = .error e n ∧ y m' = .error e n' ∧ m.Extends n ∧ Twins n n' := by
  unfold Together at h
  cases hx : x m with
  | ok a n =>
      cases hy : y m' with
      | ok b n' =>
          rw [hx, hy] at h
          obtain ⟨rfl, hQ⟩ := h
          exact Or.inl ⟨a, n, n', rfl, rfl, hQ⟩
      | error e' n' =>
          rw [hx, hy] at h
          exact h.elim
  | error e n =>
      cases hy : y m' with
      | ok b n' =>
          rw [hx, hy] at h
          exact h.elim
      | error e' n' =>
          rw [hx, hy] at h
          obtain ⟨rfl, ht⟩ := h
          exact Or.inr ⟨e, n, n', rfl, rfl, ht⟩

theorem together_of_ok {a : α} {n n' : Manager} (hx : x m = .ok a n) (hy : y m' = .ok a n')
    (hQ : Q a n n') : Together x y m m' Q := by
  unfold Together
  rw [hx, hy]
  exact ⟨rfl, hQ⟩

theorem together_of_error {e : Fault} {n n' : Manager} (hx : x m = .error e n)
    (hy : y m' = .error e n') (hext : m.Extends n) (ht : Twins n n') : Together x y m m' Q := by
  unfold Together
  rw [hx, hy]
  exact ⟨rfl, hext, ht⟩

theorem Together.mono (h : Together x y m m' Q) (hQ : ∀ a n n', Q a n n' → Q' a n n') :
    Together x y m m' Q' := by
  rcases h.cases with ⟨a, n, n', hx, hy, h⟩ | ⟨e, n, n', hx, hy, hext, ht⟩
  · exact together_of_ok hx hy (hQ a n n' h)
  · exact together_of_error hx hy hext ht

theorem together_of_returns {P P' : α → Manager → Prop} (hx : Returns x m P)
    (hy : Returns y m' P') (h : ∀ a n b n', P a n → P' b n' → a = b ∧ Q a n n') :
    Together x y m m' Q := by
  obtain ⟨a, n, hx, ha⟩ := hx.exists_ok
  obtain ⟨b, n', hy, hb⟩ := hy.exists_ok
  obtain ⟨rfl, hQ⟩ := h a n b n' ha hb
  exact together_of_ok hx hy hQ

theorem together_pure {a : α} (h : Q a m m') : Together (pure a) (pure a) m m' Q :=
  together_of_ok rfl rfl h

theorem together_throw {e : Fault} (h : Twins m m') : Together (throw e) (throw e) m m' Q :=
  together_of_error rfl rfl (.refl m) h

/-- Running on from a result. -/
theorem together_bind_of_ok {γ : Type} {z : DiagramM γ} {f : α → DiagramM β} {g : γ → DiagramM β}
    {a : α} {c : γ} {n n' : Manager} {R : β → Manager → Manager → Prop} (hx : x m = .ok a n)
    (hz : z m' = .ok c n') (hext : m.Extends n) (h : Together (f a) (g c) n n' R) :
    Together (x >>= f) (z >>= g) m m' R := by
  rcases h.cases with ⟨b, k, k', hf, hg, h⟩ | ⟨e, k, k', hf, hg, hext', ht⟩
  · exact together_of_ok ((bind_of_ok hx).trans hf) ((bind_of_ok hz).trans hg) h
  · exact together_of_error ((bind_of_ok hx).trans hf) ((bind_of_ok hz).trans hg)
      (hext.trans hext') ht

theorem together_bind {f g : α → DiagramM β} {R : β → Manager → Manager → Prop}
    (h : Together x y m m' fun a n n' => m.Extends n ∧ Together (f a) (g a) n n' R) :
    Together (x >>= f) (y >>= g) m m' R := by
  rcases h.cases with ⟨a, n, n', hx, hy, hext, h⟩ | ⟨e, n, n', hx, hy, hext, ht⟩
  · exact together_bind_of_ok hx hy hext h
  · exact together_of_error (bind_of_error hx) (bind_of_error hy) hext ht

/-- Operations that return different things may go on to the same end. -/
theorem together_bind_of_returns {γ : Type} {z : DiagramM γ} {f : α → DiagramM β}
    {g : γ → DiagramM β} {P : α → Manager → Prop} {P' : γ → Manager → Prop}
    {R : β → Manager → Manager → Prop} (hx : Returns x m P) (hz : Returns z m' P')
    (h : ∀ a n c n', P a n → P' c n' → m.Extends n ∧ Together (f a) (g c) n n' R) :
    Together (x >>= f) (z >>= g) m m' R := by
  obtain ⟨a, n, hx, ha⟩ := hx.exists_ok
  obtain ⟨c, n', hz, hc⟩ := hz.exists_ok
  obtain ⟨hext, hgo⟩ := h a n c n' ha hc
  exact together_bind_of_ok hx hz hext hgo

/-- A result may be wrapped. -/
theorem Together.map (h : Together x y m m' Q) (f : α → β) :
    Together (do return f (← x)) (do return f (← y)) m m'
      fun b n n' => ∃ a, b = f a ∧ Q a n n' := by
  rcases h.cases with ⟨a, n, n', hx, hy, h⟩ | ⟨e, n, n', hx, hy, hext, ht⟩
  · exact together_of_ok (bind_of_ok hx) (bind_of_ok hy) ⟨a, rfl, h⟩
  · exact together_of_error (bind_of_error hx) (bind_of_error hy) hext ht

theorem together_get {f g : Manager → DiagramM β} {R : β → Manager → Manager → Prop}
    (h : Together (f m) (g m') m m' R) : Together (get >>= f) (get >>= g) m m' R :=
  together_bind_of_ok rfl rfl (.refl m) h

theorem together_run_get {f g : Manager × σ → DiagramM β} {memo : σ}
    {R : β → Manager → Manager → Prop} (h : Together (f (m, memo)) (g (m', memo)) m m' R) :
    Together (StateT.run (MonadStateOf.get : StateT σ DiagramM Manager) memo >>= f)
      (StateT.run (MonadStateOf.get : StateT σ DiagramM Manager) memo >>= g) m m' R :=
  together_bind_of_ok rfl rfl (.refl m) h

theorem together_run_lift {memo : σ} {R : α × σ → Manager → Manager → Prop}
    (h : Together x y m m' fun a n n' => m.Extends n ∧ R (a, memo) n n') :
    Together (StateT.run (liftM x : StateT σ DiagramM α) memo)
      (StateT.run (liftM y : StateT σ DiagramM α) memo) m m' R := by
  show Together (x >>= fun a => pure (a, memo)) (y >>= fun a => pure (a, memo)) m m' R
  exact together_bind (h.mono fun a n n' ha => ⟨ha.1, together_pure ha.2⟩)

theorem together_run_run_get {f g : (Manager × σ) × τ → DiagramM β} {memo : σ} {memo' : τ}
    {R : β → Manager → Manager → Prop}
    (h : Together (f ((m, memo), memo')) (g ((m', memo), memo')) m m' R) :
    Together (StateT.run (StateT.run
        (MonadStateOf.get : StateT σ (StateT τ DiagramM) Manager) memo) memo' >>= f)
      (StateT.run (StateT.run
        (MonadStateOf.get : StateT σ (StateT τ DiagramM) Manager) memo) memo' >>= g) m m' R :=
  together_bind_of_ok rfl rfl (.refl m) h

theorem together_run_run_lift {memo : σ} {memo' : τ} {R : (α × σ) × τ → Manager → Manager → Prop}
    (h : Together x y m m' fun a n n' => m.Extends n ∧ R ((a, memo), memo') n n') :
    Together (StateT.run (StateT.run (liftM x : StateT σ (StateT τ DiagramM) α) memo) memo')
      (StateT.run (StateT.run (liftM y : StateT σ (StateT τ DiagramM) α) memo) memo') m m' R := by
  show Together ((x >>= fun a => pure (a, memo')) >>= fun p => pure ((p.1, memo), p.2))
    ((y >>= fun a => pure (a, memo')) >>= fun p => pure ((p.1, memo), p.2)) m m' R
  exact together_bind (together_bind (h.mono fun a n n' ha =>
    ⟨ha.1, together_pure ⟨ha.1, together_pure ha.2⟩⟩))

end Rules

-- As for single operations, what two operations do together is computed by the rules only.
attribute [irreducible] Together

/-! ## Nodes and connectives -/

variable {m m' n n' : Manager} {f g h r low high : Handle} {k q : IteKey} {v d depth : Nat}

theorem together_record (ht : Twins m m') (e : Event) :
    Together (record e) (record e) m m' fun _ n n' => m.Extends n ∧ Twins n n' := by
  obtain ⟨cache, rfl⟩ : ∃ cache, m' = { m with cache } := ⟨_, ht.twin⟩
  obtain ⟨hext, hleft⟩ := ht.left.withJournal (m.journal.push e)
  exact together_of_ok rfl rfl ⟨hext, rfl, hleft, (ht.right.withJournal _).2⟩

theorem together_store (node : Node) (ht : Twins m m') (hlow : m.Valid node.low)
    (hhigh : m.Valid node.high) : Together (store node) (store node) m m' fun r n n' =>
      m.Agree r n n' ∧ ∃ i, n.Stores i node ∧ r = .ofIndex i := by
  have hst := UniqueTable.put_stored ht.left.table node
  have hinv := ht.left.table.put node
  obtain ⟨⟨i, grown?, t⟩, hput⟩ : ∃ p, m.table.put node = p := ⟨_, rfl⟩
  have hput' : m'.table.put node = (i, grown?, t) := by rw [ht.twin.table_eq, hput]
  rw [hput] at hst hinv
  have hst' : UniqueTable.Stored m'.table node i t := by rwa [ht.twin.table_eq]
  refine together_of_returns (returns_store_put hput) (returns_store_put hput') ?_
  rintro r n r' n' ⟨rfl, rfl⟩ ⟨rfl, rfl⟩
  obtain ⟨hext, hleft⟩ := ht.left.of_stored hlow hhigh hst hinv
    (grown?.elim m.journal m.journal.push)
  obtain ⟨-, hright⟩ := ht.right.of_stored (ht.valid hlow) (ht.valid hhigh) hst' hinv
    (grown?.elim m'.journal m'.journal.push)
  have htwin : Twin { m with table := t, journal := grown?.elim m.journal m.journal.push }
      { m' with table := t, journal := grown?.elim m'.journal m'.journal.push } := by
    obtain ⟨cache, rfl⟩ : ∃ cache, m' = { m with cache } := ⟨_, ht.twin⟩
    rfl
  exact ⟨rfl, ⟨⟨htwin, hleft, hright⟩, hext, Or.inr ⟨node, by
    rw [Handle.index_ofIndex]
    exact hst.holds⟩⟩, i, hst.holds, rfl⟩

theorem together_mkNode (ht : Twins m m') (hlow : m.Valid low) (hhigh : m.Valid high) :
    Together (mkNode v low high) (mkNode v low high) m m' fun r n n' =>
      m.Agree r n n' ∧ n.Finds v low high r := by
  unfold mkNode
  split
  · exact together_throw ht
  next hv =>
  split
  · next heq => exact together_pure ⟨.refl ht hlow, hv, by rw [if_pos heq]⟩
  next hne =>
  split
  · next hc =>
      refine together_bind ((together_store ⟨v, -low, -high⟩ ht hlow.neg
        hhigh.neg).mono ?_)
      rintro _ n n' ⟨ha, i, hi, rfl⟩
      refine ⟨ha.extends_, together_pure ⟨⟨ha.twins, ha.extends_, ha.valid.neg⟩, hv, ?_⟩⟩
      rw [if_neg hne, if_pos hc]
      exact ⟨i, hi, rfl⟩
  · next hc =>
      refine (together_store ⟨v, low, high⟩ ht hlow hhigh).mono ?_
      rintro _ n n' ⟨ha, i, hi, rfl⟩
      refine ⟨ha, hv, ?_⟩
      rw [if_neg hne, if_neg hc]
      exact ⟨i, hi, rfl⟩

/-- If-then-elses of at most `depth` splits in a row run side by side. -/
def IteTogether (depth : Nat) : Prop :=
  ∀ {m m' : Manager} {q : IteKey} {d : Nat}, Twins m m' → m.KeyWithin d q → d < depth →
    Together (iteWithin depth q.cond q.thenArg q.elseArg)
      (iteWithin depth q.cond q.thenArg q.elseArg) m m' fun r n n' => m.Agree r n n' ∧ n.Ite q r

/-- Where neither cache knows the result, both managers make the same
nodes. -/
theorem together_iteSplit (ih : IteTogether depth) (ht : Twins m m') (hk : m.KeyWithin d k)
    (hc : k.cond.isTerminal = false) (hd : d ≤ depth) :
    Together (iteSplit depth k) (iteSplit depth k) m m' fun r n n' =>
      m.Agree r n n' ∧ n.Resolves k r := by
  obtain ⟨d', hlt, h0, h1⟩ := hk.split ht.left.table hc
  unfold iteSplit
  refine together_get (together_get ?_)
  rw [ht.twin.keyVar_eq, ht.twin.split_eq]
  refine together_bind ((ih ht h0 (by omega)).mono ?_)
  rintro e n1 n1' ⟨a1, ite1⟩
  replace h1 := h1.of_extends a1.extends_
  refine ⟨a1.extends_, together_bind ((ih a1.twins h1 (by omega)).mono ?_)⟩
  rintro t n2 n2' ⟨a2, ite2⟩
  refine ⟨a2.extends_, together_bind ((together_mkNode a2.twins (a2.extends_.valid a1.valid)
    a2.valid).mono ?_)⟩
  rintro r n3 n3' ⟨a3, hfinds⟩
  have hext := a1.extends_.trans (a2.extends_.trans a3.extends_)
  have table1 := a1.twins.left.table
  have table2 := a2.twins.left.table
  have table3 := a3.twins.left.table
  have hres : n3.Resolves k r := .of_split hk hc hext ht.left.table table3
    (ite1.of_extends (a2.extends_.trans a3.extends_) table1 table3 (h0.of_extends a1.extends_))
    (ite2.of_extends a3.extends_ table2 table3 (h1.of_extends a2.extends_)) hfinds
  refine ⟨a3.extends_, together_bind_of_returns (returns_remember_coherent a3.twins.left hres)
    (returns_remember_coherent a3.twins.right (hres.of_extends a3.twins.twin.extends_ table3
      a3.twins.right.table)) ?_⟩
  rintro - n4 - n4' ⟨htwin, hleft⟩ ⟨htwin', hright⟩
  have ht4 : Twins n4 n4' := ⟨htwin.symm.trans (a3.twins.twin.trans htwin'), hleft, hright⟩
  refine ⟨htwin.extends_, together_pure ⟨⟨ht4, hext.trans htwin.extends_,
    htwin.extends_.valid a3.valid⟩, ?_⟩⟩
  exact hres.of_extends htwin.extends_ table3 hleft.table

/-- Whatever the caches know of a key, both managers come to the same
result: what one of them knows, the other computes. -/
theorem together_lookup {r? r?' : Option Handle} (ih : IteTogether depth) (ht : Twins m m')
    (hk : m.KeyWithin d k) (hc : k.cond.isTerminal = false) (hd : d ≤ depth)
    (hfound : ∀ r, r? = some r → m.Resolves k r) (hfound' : ∀ r, r?' = some r → m.Resolves k r) :
    Together (r?.elim (iteSplit depth k) pure) (r?'.elim (iteSplit depth k) pure) m m'
      fun r n n' => m.Agree r n n' ∧ n.Resolves k r := by
  have htable := ht.left.table
  have hdone : ∀ {r n n'}, m.Resolves k r → m.Twin n → n.Coherent → m.Twin n' → n'.Coherent →
      m.Agree r n n' ∧ n.Resolves k r := by
    intro r n n' hres hn hnc hn' hnc'
    have hres' := hres.of_extends hn.extends_ htable hnc.table
    exact ⟨⟨⟨hn.symm.trans hn', hnc, hnc'⟩, hn.extends_, hres'.valid hnc.table⟩, hres'⟩
  have hknown : ∀ (r : Handle) (n : Manager), Returns (pure r : DiagramM Handle) n
      fun r' n' => r' = r ∧ n' = n := fun r n => ends_pure.mpr ⟨rfl, rfl⟩
  have hrun : ∀ {r}, m.Resolves k r → Recomputes m (iteSplit depth k) r := fun hres =>
    recomputes_of_resolves ht.left.toGrounded hres hk hd
  cases r? with
  | some r =>
      have hres := hfound r rfl
      cases r?' with
      | some r' =>
          obtain rfl := hres.unique (hfound' r' rfl) htable
          exact together_pure (hdone hres (.refl m) ht.left ht.twin ht.right)
      | none =>
          refine together_of_returns (hknown r m) (hrun hres ht.twin ht.right) ?_
          rintro _ _ _ n' ⟨rfl, rfl⟩ ⟨rfl, hn', hnc'⟩
          exact ⟨rfl, hdone hres (.refl _) ht.left hn' hnc'⟩
  | none =>
      cases r?' with
      | some r =>
          have hres := hfound' r rfl
          refine together_of_returns (hrun hres (.refl m) ht.left) (hknown r m') ?_
          rintro _ n _ _ ⟨rfl, hn, hnc⟩ ⟨rfl, rfl⟩
          exact ⟨rfl, hdone hres hn hnc ht.twin ht.right⟩
      | none => exact together_iteSplit ih ht hk hc hd

theorem together_iteWithin (depth : Nat) : IteTogether depth := by
  induction depth with
  | zero => exact fun _ _ hd => absurd hd (Nat.not_lt_zero _)
  | succ depth ih =>
      intro m m' q d ht hq hd
      cases hform : IteForm.of q.cond q.thenArg q.elseArg with
      | known r =>
          rw [iteWithin_known hform]
          exact together_pure ⟨.refl ht (hq.form.1 r hform), .known hform⟩
      | residual k x =>
          obtain ⟨hk, hc⟩ := hq.form.2 k x hform
          rw [iteWithin_residual hform]
          refine together_bind_of_returns (returns_cached?_coherent ht.left k)
            (returns_cached?_coherent ht.right k) ?_
          rintro r? n r?' n' ⟨⟨htwin, hleft⟩, hfound⟩ ⟨⟨htwin', hright⟩, hfound'⟩
          have ht1 : Twins n n' := ⟨htwin.symm.trans (ht.twin.trans htwin'), hleft, hright⟩
          have hext := htwin.extends_
          refine ⟨hext, together_bind ((together_lookup ih ht1 (hk.of_extends hext) hc (by omega)
            (fun r hr => (hfound r hr).of_extends hext ht.left.table hleft.table)
            (fun r hr => (hfound' r hr).of_extends (ht.twin.symm.trans htwin).extends_
              ht.right.table hleft.table)).mono ?_)⟩
          rintro r o o' ⟨ha, hres⟩
          exact ⟨ha.extends_, together_pure ⟨⟨ha.twins, hext.trans ha.extends_,
            ha.valid.complementIf x⟩, hres.ite hform⟩⟩

theorem together_ite (ht : Twins m m') (hf : m.Valid f) (hg : m.Valid g) (hh : m.Valid h) :
    Together (ite f g h) (ite f g h) m m' fun r n n' => m.Agree r n n' := by
  have hwithin := fun {x : Handle} (hx : m.Valid x) => ht.left.within hx
  have hq : m.KeyWithin (3 * m.table.cells.size) ⟨f, g, h⟩ :=
    ⟨_, _, _, ⟨hwithin hf, hwithin hg, hwithin hh⟩, by omega⟩
  unfold ite
  refine together_get ?_
  rw [ht.twin.depthBound_eq]
  refine (together_iteWithin _ ht hq ?_).mono fun r n n' hr => hr.1
  unfold depthBound
  omega

/-! ## Variables and cubes -/

theorem together_checkVariable (ht : Twins m m') (v : Nat) :
    Together (checkVariable v) (checkVariable v) m m' fun _ n n' => n = m ∧ n' = m' := by
  unfold checkVariable
  refine together_get ?_
  rw [ht.twin.numVars_eq]
  dsimp only
  split
  · exact together_throw ht
  · exact together_pure ⟨rfl, rfl⟩

theorem together_forM_checkVariable (ht : Twins m m') (vars : List Nat) :
    Together (vars.forM checkVariable) (vars.forM checkVariable) m m' fun _ n n' =>
      n = m ∧ n' = m' := by
  induction vars with
  | nil => exact together_pure ⟨rfl, rfl⟩
  | cons v vars ih =>
      simp only [List.forM_eq_forM, List.forM_cons] at ih ⊢
      refine together_bind ((together_checkVariable ht v).mono ?_)
      rintro - _ _ ⟨rfl, rfl⟩
      exact ⟨.refl _, ih⟩

theorem together_mkVar (ht : Twins m m') (v : Nat) :
    Together (mkVar v) (mkVar v) m m' fun r n n' => m.Agree r n n' := by
  unfold mkVar
  refine together_bind ((together_checkVariable ht v).mono ?_)
  rintro - _ _ ⟨rfl, rfl⟩
  exact ⟨.refl _, (together_mkNode ht (valid_zero _) (valid_one _)).mono fun r n n' hr => hr.1⟩

theorem together_addLiteral (ht : Twins m m') (hf : m.Valid f) (l : Int) :
    Together (addLiteral f l) (addLiteral f l) m m' fun r n n' => m.Agree r n n' := by
  unfold addLiteral
  split
  · exact (together_mkNode ht hf (valid_zero _)).mono fun r n n' hr => hr.1
  · exact (together_mkNode ht (valid_zero _) hf).mono fun r n n' hr => hr.1

/-- Cubes of any literals, also of literals that are out of range or stand
over one variable. -/
theorem together_foldlM_addLiteral {literals : List Int} (ht : Twins m m') (hf : m.Valid f) :
    Together (literals.foldlM addLiteral f) (literals.foldlM addLiteral f) m m' fun r n n' =>
      m.Agree r n n' := by
  induction literals generalizing m m' f with
  | nil => exact together_pure (.refl ht hf)
  | cons l literals ih =>
      rw [List.foldlM_cons]
      refine together_bind ((together_addLiteral ht hf l).mono fun r n n' ha => ⟨ha.extends_, ?_⟩)
      exact (ih ha.twins ha.valid).mono fun r' o o' ha' => ha'.of_extends ha.extends_

/-! ## Operations with memos -/

/-- The results in a memo are diagrams. -/
abbrev MemoValid {κ : Type} [BEq κ] [Hashable κ] (m : Manager) : Std.HashMap κ Handle → Prop :=
  MemoHolds fun _ r => m.Valid r

theorem MemoValid.of_extends {κ : Type} [BEq κ] [Hashable κ] {memo : Std.HashMap κ Handle}
    (h : MemoValid m memo) (hext : m.Extends n) : MemoValid n memo :=
  h.imp fun _ _ hr => hext.valid hr

theorem together_existsWithin (b : Bound) (depth : Nat) {m m' : Manager} {f : Handle}
    {memo : Std.HashMap Handle Handle} (ht : Twins m m') (hf : m.Valid f)
    (hmemo : MemoValid m memo) :
    Together (StateT.run (existsWithin b depth f) memo) (StateT.run (existsWithin b depth f) memo)
      m m' fun p n n' => m.Agree p.1 n n' ∧ MemoValid n p.2 := by
  induction depth generalizing m m' f memo with
  | zero => exact together_throw ht
  | succ depth ih =>
      rw [existsWithin]
      cases hterm : f.isTerminal with
      | true => exact together_pure ⟨.refl ht hf, hmemo⟩
      | false =>
          obtain ⟨hlow, hhigh⟩ := ht.left.children_valid hf hterm
          simp only [Bool.false_eq_true, if_false, getThe, StateT.run_bind]
          refine together_run_get ?_
          rw [ht.twin.topVar_eq]
          by_cases hlast : b.last < m.topVar f
          · simp only [if_pos hlast]
            exact together_pure ⟨.refl ht hf, hmemo⟩
          simp only [if_neg hlast, StateT.run_bind, StateT.run_get, pure_bind]
          cases hfound : memo[f]? with
          | some r => exact together_pure ⟨.refl ht (hmemo f r hfound), hmemo⟩
          | none =>
              simp only [StateT.run_bind]
              refine together_run_get (together_run_get ?_)
              rw [ht.twin.low_eq, ht.twin.high_eq]
              refine together_bind ((ih ht hlow hmemo).mono ?_)
              rintro ⟨e, memo1⟩ n1 n1' ⟨a1, hmemo1⟩
              refine ⟨a1.extends_, ?_⟩
              -- however the halves are joined, the result is remembered and returned
              have hdone : ∀ {r memo o o'}, m.Agree r o o' → MemoValid o memo →
                  m.Agree r o o' ∧ MemoValid o (memo.insert f r) :=
                fun ha hmemo => ⟨ha, hmemo.insert ha.valid⟩
              by_cases hone : (b.contains (m.topVar f) && e = .one) = true
              · simp only [if_pos hone]
                exact together_pure (hdone ⟨a1.twins, a1.extends_, valid_one _⟩ hmemo1)
              · simp only [if_neg hone, StateT.run_bind]
                refine together_bind ((ih a1.twins (a1.extends_.valid hhigh) hmemo1).mono ?_)
                rintro ⟨t, memo2⟩ n2 n2' ⟨a2, hmemo2⟩
                have ext2 := a1.extends_.trans a2.extends_
                refine ⟨a2.extends_, ?_⟩
                have hgo : ∀ {x : DiagramM Handle},
                    Together x x n2 n2' (fun r o o' => n2.Agree r o o') →
                    Together (StateT.run (liftM x : QuantifyM Handle) memo2 >>= fun p =>
                        StateT.run (do modify (·.insert f p.1); return p.1) p.2)
                      (StateT.run (liftM x : QuantifyM Handle) memo2 >>= fun p =>
                        StateT.run (do modify (·.insert f p.1); return p.1) p.2)
                      n2 n2' fun p o o' => m.Agree p.1 o o' ∧ MemoValid o p.2 := by
                  intro x hx
                  refine together_bind (together_run_lift (hx.mono fun r o o' ha =>
                    ⟨ha.extends_, ha.extends_, ?_⟩))
                  simp only [StateT.run_bind, StateT.run_modify, StateT.run_pure, pure_bind]
                  exact together_pure (hdone (ha.of_extends ext2)
                    (MemoValid.of_extends hmemo2 ha.extends_))
                by_cases hmem : b.contains (m.topVar f) = true
                · simp only [if_pos hmem]
                  exact hgo (together_ite a2.twins (a2.extends_.valid a1.valid) (valid_one _)
                    a2.valid)
                · simp only [if_neg hmem]
                  exact hgo ((together_mkNode a2.twins (a2.extends_.valid a1.valid)
                    a2.valid).mono fun r o o' ha => ha.1)

theorem together_existsVars (vars : List Nat) (ht : Twins m m') (hf : m.Valid f) :
    Together (existsVars vars f) (existsVars vars f) m m' fun r n n' => m.Agree r n n' := by
  unfold existsVars
  refine together_bind ((together_record ht _).mono ?_)
  rintro - n n' ⟨hext, ht1⟩
  refine ⟨hext, together_bind ((together_forM_checkVariable ht1 vars).mono ?_)⟩
  rintro - _ _ ⟨rfl, rfl⟩
  refine ⟨.refl _, together_get ?_⟩
  rw [ht1.twin.depthBound_eq]
  refine together_bind ((together_existsWithin _ _ ht1 (hext.valid hf) .empty).mono ?_)
  rintro p o o' ⟨ha, -⟩
  exact ⟨ha.extends_, together_pure (ha.of_extends hext)⟩

/-- A conjunction of which one side is left is quantified alone. -/
theorem together_existsWithin_alone (b : Bound) (depth : Nat)
    {pairs : Std.HashMap (Handle × Handle) Handle} {memo : Std.HashMap Handle Handle}
    (ht : Twins m m') (hf : m.Valid f) (hpairs : MemoValid m pairs) (hmemo : MemoValid m memo) :
    Together (StateT.run (StateT.run (liftM (existsWithin b depth f) : ConjoinM Handle) pairs) memo)
      (StateT.run (StateT.run (liftM (existsWithin b depth f) : ConjoinM Handle) pairs) memo) m m'
      fun p n n' => m.Agree p.1.1 n n' ∧ MemoValid n p.1.2 ∧ MemoValid n p.2 := by
  show Together (existsWithin b depth f memo >>= fun p => pure ((p.1, pairs), p.2))
    (existsWithin b depth f memo >>= fun p => pure ((p.1, pairs), p.2)) m m' _
  refine together_bind ((together_existsWithin b depth ht hf hmemo).mono ?_)
  rintro ⟨r, memo1⟩ n n' ⟨ha, hmemo1⟩
  exact ⟨ha.extends_, together_pure ⟨ha, MemoValid.of_extends hpairs ha.extends_, hmemo1⟩⟩

theorem together_andExistsWithin (b : Bound) (depth : Nat) {m m' : Manager} {f g : Handle}
    {pairs : Std.HashMap (Handle × Handle) Handle} {memo : Std.HashMap Handle Handle}
    (ht : Twins m m') (hf : m.Valid f) (hg : m.Valid g) (hpairs : MemoValid m pairs)
    (hmemo : MemoValid m memo) :
    Together (StateT.run (StateT.run (andExistsWithin b depth f g) pairs) memo)
      (StateT.run (StateT.run (andExistsWithin b depth f g) pairs) memo) m m'
      fun p n n' => m.Agree p.1.1 n n' ∧ MemoValid n p.1.2 ∧ MemoValid n p.2 := by
  induction depth generalizing m m' f g pairs memo with
  | zero => exact together_throw ht
  | succ depth ih =>
      rw [andExistsWithin]
      by_cases hzero : (f = .zero || g = .zero || f = -g) = true
      · simp only [if_pos hzero]
        exact together_pure ⟨.refl ht (valid_zero _), hpairs, hmemo⟩
      simp only [if_neg hzero]
      by_cases hone : (f = .one || f = g) = true
      · simp only [if_pos hone]
        exact together_existsWithin_alone b _ ht hg hpairs hmemo
      simp only [if_neg hone]
      by_cases hone' : g = .one
      · simp only [if_pos hone']
        exact together_existsWithin_alone b _ ht hf hpairs hmemo
      simp only [if_neg hone', StateT.run_bind, StateT.run_get, pure_bind, getThe]
      cases hfound : pairs[pairKey f g]? with
      | some r => exact together_pure ⟨.refl ht (hpairs _ r hfound), hpairs, hmemo⟩
      | none =>
          simp only [StateT.run_bind]
          refine together_run_run_get (together_run_run_get (together_run_run_get
            (together_run_run_get ?_)))
          simp only [ht.twin.topVar_eq, ht.twin.cofactors_eq]
          generalize min (m.topVar f) (m.topVar g) = v
          obtain ⟨hf0, hf1⟩ := ht.left.cofactors_valid hf v
          obtain ⟨hg0, hg1⟩ := ht.left.cofactors_valid hg v
          -- however the halves are joined, the result is remembered and returned
          have hgo : ∀ {x : DiagramM Handle} {n n' pairs memo}, m.Extends n →
              MemoValid n pairs → MemoValid n memo →
              Together x x n n' (fun r o o' => n.Agree r o o') →
              Together (StateT.run (StateT.run (liftM x : ConjoinM Handle) pairs) memo >>= fun p =>
                  StateT.run (StateT.run (do modify (·.insert (pairKey f g) p.1.1); return p.1.1 :
                    ConjoinM Handle) p.1.2) p.2)
                (StateT.run (StateT.run (liftM x : ConjoinM Handle) pairs) memo >>= fun p =>
                  StateT.run (StateT.run (do modify (·.insert (pairKey f g) p.1.1); return p.1.1 :
                    ConjoinM Handle) p.1.2) p.2) n n'
                fun p o o' => m.Agree p.1.1 o o' ∧ MemoValid o p.1.2 ∧ MemoValid o p.2 := by
            intro x n n' pairs memo hext hpairs hmemo hx
            refine together_bind (together_run_run_lift (hx.mono fun r o o' ha =>
              ⟨ha.extends_, ha.extends_, ?_⟩))
            simp only [StateT.run_bind, StateT.run_modify, StateT.run_pure, pure_bind]
            exact together_pure ⟨ha.of_extends hext,
              (MemoValid.of_extends hpairs ha.extends_).insert ha.valid,
              MemoValid.of_extends hmemo ha.extends_⟩
          by_cases hlast : b.last < v
          · simp only [if_pos hlast]
            exact hgo (.refl m) hpairs hmemo (together_ite ht hf hg (valid_zero _))
          simp only [if_neg hlast, StateT.run_bind]
          refine together_bind ((ih ht hf0 hg0 hpairs hmemo).mono ?_)
          rintro ⟨⟨e, pairs1⟩, memo1⟩ n1 n1' ⟨a1, hpairs1, hmemo1⟩
          refine ⟨a1.extends_, ?_⟩
          by_cases honly : (b.contains v && e = .one) = true
          · simp only [if_pos honly]
            exact together_pure ⟨⟨a1.twins, a1.extends_, valid_one _⟩,
              hpairs1.insert (valid_one _), hmemo1⟩
          simp only [if_neg honly, StateT.run_bind]
          refine together_bind ((ih a1.twins (a1.extends_.valid hf1) (a1.extends_.valid hg1)
            hpairs1 hmemo1).mono ?_)
          rintro ⟨⟨t, pairs2⟩, memo2⟩ n2 n2' ⟨a2, hpairs2, hmemo2⟩
          have ext2 := a1.extends_.trans a2.extends_
          have he := a2.extends_.valid a1.valid
          refine ⟨a2.extends_, ?_⟩
          by_cases hmem : b.contains v = true
          · simp only [if_pos hmem]
            exact hgo ext2 hpairs2 hmemo2 (together_ite a2.twins he (valid_one _) a2.valid)
          · simp only [if_neg hmem]
            exact hgo ext2 hpairs2 hmemo2
              ((together_mkNode a2.twins he a2.valid).mono fun r o o' ha => ha.1)

theorem together_andExists (vars : List Nat) (ht : Twins m m') (hf : m.Valid f)
    (hg : m.Valid g) :
    Together (andExists vars f g) (andExists vars f g) m m' fun r n n' => m.Agree r n n' := by
  unfold andExists
  refine together_bind ((together_record ht _).mono ?_)
  rintro - n n' ⟨hext, ht1⟩
  refine ⟨hext, together_bind ((together_forM_checkVariable ht1 vars).mono ?_)⟩
  rintro - n n' ⟨rfl, rfl⟩
  refine ⟨.refl _, together_get ?_⟩
  rw [ht1.twin.depthBound_eq]
  have hwithin := together_andExistsWithin (.ofList vars) (2 * n.depthBound) ht1 (hext.valid hf)
    (hext.valid hg) .empty .empty
  refine together_bind (Together.mono hwithin ?_)
  rintro p o o' ⟨ha, -⟩
  exact ⟨ha.extends_, together_pure (ha.of_extends hext)⟩

theorem together_renameWithin (map : VarMap) (depth : Nat) {m m' : Manager} {f : Handle}
    {memo : Std.HashMap Nat Handle} (ht : Twins m m') (hf : m.Valid f)
    (hmemo : MemoValid m memo) :
    Together (StateT.run (renameWithin map depth f) memo)
      (StateT.run (renameWithin map depth f) memo) m m'
      fun p n n' => m.Agree p.1 n n' ∧ MemoValid n p.2 := by
  induction depth generalizing m m' f memo with
  | zero => exact together_throw ht
  | succ depth ih =>
      rw [renameWithin]
      cases hterm : f.isTerminal with
      | true => exact together_pure ⟨.refl ht hf, hmemo⟩
      | false =>
          simp only [Bool.false_eq_true, if_false, StateT.run_bind, StateT.run_get, pure_bind]
          cases hfound : memo[f.index]? with
          | some r =>
              exact together_pure ⟨.refl ht ((hmemo _ r hfound).complementIf _), hmemo⟩
          | none =>
              obtain ⟨hlow, hhigh⟩ := ht.left.node_valid hf hterm
              simp only [getThe, StateT.run_bind]
              refine together_run_get ?_
              rw [ht.twin.node_eq]
              refine together_bind ((ih ht hlow hmemo).mono ?_)
              rintro ⟨e, memo1⟩ n1 n1' ⟨a1, hmemo1⟩
              refine ⟨a1.extends_, ?_⟩
              refine together_bind ((ih a1.twins (a1.extends_.valid hhigh) hmemo1).mono ?_)
              rintro ⟨t, memo2⟩ n2 n2' ⟨a2, hmemo2⟩
              refine ⟨a2.extends_, ?_⟩
              refine together_bind (together_run_lift ((together_mkVar a2.twins _).mono ?_))
              intro x n3 n3' a3
              refine ⟨a3.extends_, a3.extends_, ?_⟩
              have he := a3.extends_.valid (a2.extends_.valid a1.valid)
              have ext3 := a1.extends_.trans (a2.extends_.trans a3.extends_)
              refine together_bind (together_run_lift ((together_ite a3.twins a3.valid
                (a3.extends_.valid a2.valid) he).mono ?_))
              intro r n4 n4' a4
              refine ⟨a4.extends_, a4.extends_, together_pure ⟨⟨a4.twins, ext3.trans a4.extends_,
                a4.valid.complementIf _⟩, MemoHolds.insert (MemoValid.of_extends hmemo2
                (a3.extends_.trans a4.extends_)) a4.valid⟩⟩

theorem together_rename (map : VarMap) (ht : Twins m m') (hf : m.Valid f) :
    Together (rename map f) (rename map f) m m' fun r n n' => m.Agree r n n' := by
  unfold rename
  refine together_bind ((together_record ht _).mono ?_)
  rintro - n n' ⟨hext, ht1⟩
  refine ⟨hext, together_get ?_⟩
  rw [ht1.twin.depthBound_eq]
  refine together_bind ((together_renameWithin map _ ht1 (hext.valid hf) .empty).mono ?_)
  rintro p o o' ⟨ha, -⟩
  exact ⟨ha.extends_, together_pure (ha.of_extends hext)⟩

/-! ## Collections -/

theorem together_collectGarbage (ht : Twins m m') (roots : List Handle) :
    Together (collectGarbage roots) (collectGarbage roots) m m' fun _ n n' => Twins n n' := by
  have hinv := ht.left.table.sweep fun i => (m.reach roots).getD i false
  have hholds := @UniqueTable.holds_sweep _ m.table _ fun i => (m.reach roots).getD i false
  have hterminal := UniqueTable.getElem?_sweep m.table (fun i => (m.reach roots).getD i false) 1
  rw [ht.left.terminal] at hterminal
  obtain ⟨⟨dropped, t⟩, hsweep⟩ : ∃ p, m.table.sweep (fun i => (m.reach roots).getD i false) = p :=
    ⟨_, rfl⟩
  rw [hsweep] at hinv hholds hterminal
  have hsweep' : m'.table.sweep (fun i => (m'.reach roots).getD i false) = (dropped, t) := by
    rw [ht.twin.table_eq, ht.twin.reach_eq, hsweep]
  refine together_of_returns (returns_collectGarbage_swept roots hsweep)
    (returns_collectGarbage_swept roots hsweep') ?_
  rintro _ _ _ _ ⟨rfl, rfl⟩ ⟨rfl, rfl⟩
  have hclear : ∀ (cache : ResultCache IteKey Handle) {k r}, some (k, r) ∉ cache.clear.slots := by
    intro cache k r hmem
    simp [ResultCache.clear] at hmem
  have hholds' : ∀ {i n}, t.Holds i n ↔ m'.Stores i n ∧ (m'.reach roots).getD i false = true := by
    intro i n
    rw [ht.twin.reach_eq, Stores, ht.twin.table_eq]
    exact hholds
  have hleft := fun journal =>
    ht.left.of_swept hinv hholds (by simpa using hterminal) (hclear m.cache) journal
  have hright := fun journal =>
    ht.right.of_swept hinv hholds' (by simpa using hterminal) (hclear m'.cache) journal
  obtain ⟨cache, rfl⟩ : ∃ cache, m' = { m with cache } := ⟨_, ht.twin⟩
  exact ⟨rfl, rfl, hleft _, hright _⟩

end Diagram

end BranchingTime
