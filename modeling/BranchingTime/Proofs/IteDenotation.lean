import BranchingTime.Diagram.Connective
import BranchingTime.Proofs.NodeMaking

/-!
# If-then-else and the connectives denote what they should

The proof follows `iteWithin`. Bringing a call into normal form changes
neither its function nor how high it stands (`fits_of`). A normal form
that the cache remembers is answered by the invariant of the cache; any
other is split at its first variable, and each half starts at least one
level further down (`cofactors_spec`). So a depth that reaches from the
highest argument to the constants is enough.
-/

namespace BranchingTime

/-! ## The result cache -/

namespace ResultCache

variable {κ ν : Type} [Digest κ]

theorem mem_slots_insert {c : ResultCache κ ν} {k key : κ} {v value : ν}
    (h : some (k, v) ∈ (c.insert key value).slots) :
    some (k, v) ∈ c.slots ∨ (k = key ∧ v = value) := by
  rcases Array.mem_or_eq_of_mem_setIfInBounds h with h | h
  · exact Or.inl h
  · exact Or.inr (by simpa using h)

variable [DecidableEq κ]

theorem mem_slots_of_find? {c : ResultCache κ ν} {key : κ} {v : ν} (h : c.find? key = some v) :
    some (key, v) ∈ c.slots := by
  unfold find? at h
  split at h
  · next k v' hk =>
      split at h
      · next hkey =>
          obtain rfl := Option.some.inj h
          subst hkey
          rw [Array.getD_eq_getD_getElem?] at hk
          cases hs : c.slots[slotOf c.slots.size k]? with
          | none =>
              rw [hs] at hk
              cases hk
          | some s =>
              rw [hs, Option.getD_some] at hk
              exact hk ▸ Array.mem_of_getElem? hs
      · cases h
  · cases h

/-- Looking up changes the counts only, and finds what is stored. -/
theorem lookup_spec {c c' : ResultCache κ ν} {key : κ} {v? : Option ν}
    (h : c.lookup key = (v?, c')) :
    c'.slots = c.slots ∧ ∀ v, v? = some v → some (key, v) ∈ c.slots := by
  unfold lookup at h
  split at h
  · next v hv =>
      obtain ⟨rfl, rfl⟩ := Prod.mk.inj h
      refine ⟨rfl, fun w hw => ?_⟩
      obtain rfl := Option.some.inj hw
      exact mem_slots_of_find? hv
  · obtain ⟨rfl, rfl⟩ := Prod.mk.inj h
    exact ⟨rfl, fun w hw => by cases hw⟩

end ResultCache

/-! ## Normal forms -/

namespace IteForm

open Manager

variable {m : Manager} {f g h r x : Handle} {b : Bool}

theorem trivial?_eq_some (hr : m.Reduced) (hf : m.Valid f) (hg : m.Valid g) (hh : m.Valid h)
    (ht : trivial? f g h = some r) :
    m.Valid r ∧ ∀ a, m.eval r a = m.iteEval f g h a := by
  unfold trivial? at ht
  unfold iteEval
  split at ht
  · next h1 =>
      obtain rfl := Option.some.inj ht
      exact ⟨hg, fun a => by simp [h1]⟩
  · split at ht
    · next h1 =>
        obtain rfl := Option.some.inj ht
        exact ⟨hh, fun a => by simp [h1]⟩
    · split at ht
      · next h1 =>
          obtain rfl := Option.some.inj ht
          exact ⟨hg, fun a => by rw [← h1, ite_self]⟩
      · split at ht
        · next h1 =>
            obtain rfl := Option.some.inj ht
            exact ⟨hf, fun a => by simp [h1]⟩
        · split at ht
          · next h1 =>
              obtain rfl := Option.some.inj ht
              refine ⟨hf.neg, fun a => ?_⟩
              rw [hr.eval_neg hf, h1.1, h1.2]
              cases m.eval f a <;> simp
          · cases ht

theorem not_terminal_of_trivial?_eq_none (ht : trivial? f g h = none) : f.isTerminal = false := by
  cases hterm : f.isTerminal with
  | false => rfl
  | true =>
      rcases Handle.eq_one_or_eq_zero (Handle.isTerminal_iff.mp hterm) with rfl | rfl
      · simp [trivial?] at ht
      · simp [trivial?, Handle.zero_eq_neg_one] at ht
        split at ht <;> simp at ht

theorem valid_assuming (hx : m.Valid x) : m.Valid (assuming f b x) := by
  unfold assuming
  split
  · exact m.valid_one.complementIf _
  · split
    · exact m.valid_one.complementIf _
    · exact hx

/-- Where `f` has the assumed value, nothing changes. -/
theorem eval_assuming (hr : m.Reduced) (hf : m.Valid f) {a : Assignment} (hb : m.eval f a = b) :
    m.eval (assuming f b x) a = m.eval x a := by
  unfold assuming
  split
  · next hx =>
      rw [hr.eval_complementIf m.valid_one, hx, hb]
      simp
  · split
    · next hx =>
        rw [hr.eval_complementIf m.valid_one, hx, hr.eval_neg hf, hb]
        simp
    · rfl

theorem level_le_assuming (hr : m.Reduced) (hx : m.Valid x) :
    m.level x ≤ m.level (assuming f b x) := by
  have hle := hr.level_le hx
  unfold assuming
  split
  · rwa [level_complementIf, level_one]
  · split
    · rwa [level_complementIf, level_one]
    · exact Nat.le_refl _

theorem iteEval_assuming (hr : m.Reduced) (hf : m.Valid f) (a : Assignment) :
    m.iteEval f (assuming f true g) (assuming f false h) a = m.iteEval f g h a := by
  unfold iteEval
  cases hb : m.eval f a with
  | true => exact eval_assuming hr hf hb
  | false => exact eval_assuming hr hf hb

/-- What a normal form of `ite f g h` is: a known result, or a key that
stands for the same function up to the complement, whose condition is no
constant and whose arguments stand no higher than before. -/
def Fits (m : Manager) (f g h : Handle) : IteForm → Prop
  | known r => m.Valid r ∧ ∀ a, m.eval r a = m.iteEval f g h a
  | residual k c =>
    (m.Valid k.cond ∧ m.Valid k.thenArg ∧ m.Valid k.elseArg) ∧ k.cond.isTerminal = false
      ∧ (∀ a, (c ^^ m.iteEval k.cond k.thenArg k.elseArg a) = m.iteEval f g h a)
      ∧ min (m.level f) (min (m.level g) (m.level h))
        ≤ min (m.level k.cond) (min (m.level k.thenArg) (m.level k.elseArg))

theorem fits_regular (hr : m.Reduced) (hf : m.Valid f) (hg : m.Valid g) (hh : m.Valid h)
    (ht : f.isTerminal = false) : Fits m f g h (regular f g h) := by
  unfold regular
  cases f.isComplemented <;> simp only [Bool.false_eq_true, if_false, if_true]
  · split
    · refine ⟨⟨hf, hg.neg, hh.neg⟩, ht, fun a => ?_, ?_⟩
      · simp only [iteEval, hr.eval_neg hg, hr.eval_neg hh]
        split <;> simp
      · simp only [level_neg]
        exact Nat.le_refl _
    · refine ⟨⟨hf, hg, hh⟩, ht, fun a => ?_, Nat.le_refl _⟩
      simp
  · split
    · refine ⟨⟨hf.neg, hh.neg, hg.neg⟩, Handle.isTerminal_neg.trans ht, fun a => ?_, ?_⟩
      · simp only [iteEval, hr.eval_neg hf, hr.eval_neg hg, hr.eval_neg hh]
        cases m.eval f a <;> simp
      · simp only [level_neg]
        omega
    · refine ⟨⟨hf.neg, hh, hg⟩, Handle.isTerminal_neg.trans ht, fun a => ?_, ?_⟩
      · simp only [iteEval, hr.eval_neg hf]
        cases m.eval f a <;> simp
      · simp only [level_neg]
        omega

theorem fits_of (hr : m.Reduced) (hf : m.Valid f) (hg : m.Valid g) (hh : m.Valid h) :
    Fits m f g h (of f g h) := by
  unfold of
  split
  · next r ht => exact trivial?_eq_some hr hf hg hh ht
  · dsimp only
    have hg' : m.Valid (assuming f true g) := valid_assuming hg
    have hh' : m.Valid (assuming f false h) := valid_assuming hh
    split
    · next r ht =>
        obtain ⟨hv, heval⟩ := trivial?_eq_some hr hf hg' hh' ht
        exact ⟨hv, fun a => (heval a).trans (iteEval_assuming hr hf a)⟩
    · next ht =>
        have hfit := fits_regular hr hf hg' hh' (not_terminal_of_trivial?_eq_none ht)
        cases hform : regular f (assuming f true g) (assuming f false h) with
        | known r =>
            rw [hform] at hfit
            exact ⟨hfit.1, fun a => (hfit.2 a).trans (iteEval_assuming hr hf a)⟩
        | residual k c =>
            rw [hform] at hfit
            obtain ⟨hval, hnt, heval, hlevel⟩ := hfit
            have hlg := level_le_assuming (f := f) (b := true) hr hg
            have hlh := level_le_assuming (f := f) (b := false) hr hh
            exact ⟨hval, hnt, fun a => (heval a).trans (iteEval_assuming hr hf a), by omega⟩

end IteForm

/-! ## Splitting a call -/

namespace Manager

variable {m : Manager} {x : Handle} {k : IteKey} {v : Nat}

/-- The two cofactors at a variable no lower than the diagram's own. -/
theorem cofactors_spec (hr : m.Reduced) (hx : m.Valid x) (hv : v ≤ m.level x)
    (hvn : v ≤ m.numVars) :
    (m.Valid (m.cofactors x v).1 ∧ m.Valid (m.cofactors x v).2)
      ∧ (v < m.level (m.cofactors x v).1 ∧ v < m.level (m.cofactors x v).2)
      ∧ ∀ a, m.eval x a =
        if a v then m.eval (m.cofactors x v).2 a else m.eval (m.cofactors x v).1 a := by
  unfold cofactors
  split
  · next h =>
      have hlt : v < m.level x := by
        rw [Bool.or_eq_true, decide_eq_true_eq] at h
        rcases h with ht | ht
        · rw [level_of_terminal ht]
          omega
        · unfold level
          split <;> omega
      exact ⟨⟨hx, hx⟩, ⟨hlt, hlt⟩, fun a => (ite_self _).symm⟩
  · next h =>
      rw [Bool.or_eq_true, decide_eq_true_eq, not_or, Bool.not_eq_true] at h
      obtain ⟨ht, hle⟩ := h
      have hlevel : v = m.level x := by
        simp only [level, ht, Bool.false_eq_true, if_false] at hv ⊢
        omega
      subst hlevel
      exact ⟨⟨hr.low_valid hx ht, hr.high_valid hx ht⟩,
        ⟨hr.level_lt_low hx ht, hr.level_lt_high hx ht⟩, hr.eval_step hx ht⟩

/-- The first variable of a key is the level of its highest argument. -/
theorem keyVar_eq (hr : m.Reduced) (hc : m.Valid k.cond) (hnt : k.cond.isTerminal = false) :
    m.keyVar k = min (m.level k.cond) (min (m.level k.thenArg) (m.level k.elseArg)) := by
  have hle := hr.level_lt_of_not_terminal hc hnt
  have htop : ∀ {x : Handle}, x.isTerminal = false → m.topVar x = m.level x := by
    intro x hx
    simp [level, hx]
  unfold keyVar
  rw [htop hnt]
  cases htt : k.thenArg.isTerminal <;> cases hte : k.elseArg.isTerminal <;>
    simp only [List.filter, htt, hte, Bool.not_false, Bool.not_true, List.foldl]
  · rw [htop htt, htop hte]
    omega
  · rw [htop htt, level_of_terminal hte]
    omega
  · rw [htop hte, level_of_terminal htt]
    omega
  · rw [level_of_terminal htt, level_of_terminal hte]
    omega

/-- Any cache of right results makes a manager well formed. -/
theorem WellFormed.withCache {cache : ResultCache IteKey Handle} (hm : m.WellFormed)
    (hc : ∀ {k r}, some (k, r) ∈ cache.slots → m.Remembers k r) :
    m.Extends { m with cache } ∧ WellFormed { m with cache } := by
  have hext : m.Extends { m with cache } := ⟨rfl, fun hs => hs⟩
  have hred : Reduced { m with cache } :=
    ⟨hm.table, hm.terminal, fun hs => hext.proper hm.toReduced (hm.proper hs)⟩
  exact ⟨hext, hred, fun hmem => (hc hmem).mono hext hm.toReduced hred⟩

end Manager

/-! ## The recursion -/

namespace Diagram

open Manager

variable {m : Manager} {f g h : Handle}

/-- Remembering a result changes the cache only: what holds of all results
there, and of the one that is remembered, holds of all of them afterwards. -/
theorem returns_remember_slots {P : IteKey → Handle → Prop} {k : IteKey} {r : Handle}
    (hslots : ∀ {k' r'}, some (k', r') ∈ m.cache.slots → P k' r') (hk : P k r) :
    Returns (remember k r) m fun _ m' => ∃ cache, m' = { m with cache }
      ∧ ∀ {k' r'}, some (k', r') ∈ cache.slots → P k' r' := by
  unfold remember
  refine ends_modify.mpr ⟨m.cache.insert k r, rfl, fun {k' r'} hmem => ?_⟩
  rcases ResultCache.mem_slots_insert hmem with hold | ⟨rfl, rfl⟩
  · exact hslots hold
  · exact hk

theorem returns_remember {k : IteKey} {r : Handle} (hm : m.WellFormed) (hk : m.Remembers k r) :
    Returns (remember k r) m fun _ m' => m.Extends m' ∧ m'.WellFormed := by
  refine Ends.imp (returns_remember_slots hm.cache hk) ?_
  rintro - _ ⟨cache, rfl, hcache⟩
  exact hm.withCache hcache

/-- Looking a key up changes the counters of the cache only, and finds what
the cache has of it. -/
theorem returns_cached?_slots (k : IteKey) :
    Returns (cached? k) m fun r? m' =>
      (∃ cache, m' = { m with cache } ∧ cache.slots = m.cache.slots)
        ∧ ∀ r, r? = some r → some (k, r) ∈ m.cache.slots := by
  unfold cached?
  refine ends_modifyGet.mpr fun r? m' hlook => ?_
  generalize hp : m.cache.lookup k = p at hlook
  obtain ⟨v?, c⟩ := p
  obtain ⟨rfl, rfl⟩ := Prod.mk.inj hlook
  obtain ⟨hslots, hfound⟩ := ResultCache.lookup_spec hp
  exact ⟨⟨c, rfl, hslots⟩, hfound⟩

/-- Looking a key up changes no diagram, and finds its if-then-else if it
finds anything. -/
theorem returns_cached? (hm : m.WellFormed) (k : IteKey) :
    Returns (cached? k) m fun r? m' => m.Alike m' ∧ ∀ r, r? = some r → m.Remembers k r := by
  refine Ends.imp (returns_cached?_slots k) ?_
  rintro r? _ ⟨⟨cache, rfl, hslots⟩, hfound⟩
  exact ⟨⟨rfl, rfl, hslots⟩, fun r hr => hm.cache (hfound r hr)⟩

/-- The recursive calls at depth `depth` return the if-then-else. -/
def IteReturns (depth : Nat) : Prop :=
  ∀ {m : Manager} {f g h : Handle}, m.WellFormed → m.Valid f → m.Valid g → m.Valid h →
    m.numVars + 1 < depth + min (m.level f) (min (m.level g) (m.level h)) →
    Returns (iteWithin depth f g h) m (m.Yields fun a => m.iteEval f g h a = true)

/-- Splitting a key, given that the recursive calls are right. -/
theorem returns_split {depth : Nat} (ih : IteReturns depth) {k : IteKey} (hm : m.WellFormed)
    (hc : m.Valid k.cond) (ht : m.Valid k.thenArg) (he : m.Valid k.elseArg)
    (hnt : k.cond.isTerminal = false) (hdepth : m.numVars < depth + m.keyVar k) :
    Returns (do
        let e ← iteWithin depth (m.split k (m.keyVar k)).1.cond (m.split k (m.keyVar k)).1.thenArg
          (m.split k (m.keyVar k)).1.elseArg
        let t ← iteWithin depth (m.split k (m.keyVar k)).2.cond (m.split k (m.keyVar k)).2.thenArg
          (m.split k (m.keyVar k)).2.elseArg
        let r ← mkNode (m.keyVar k) e t
        remember k r
        return r) m
      (m.Yields fun a => m.iteEval k.cond k.thenArg k.elseArg a = true) := by
  have hvar := keyVar_eq hm.toReduced hc hnt
  have hle : m.keyVar k ≤ m.numVars := by
    have := hm.level_lt_of_not_terminal hc hnt
    omega
  have hpos : 1 ≤ m.keyVar k := by
    have := hm.level_pos hc
    have := hm.level_pos ht
    have := hm.level_pos he
    omega
  -- the six cofactors: each is a diagram below the splitting variable
  obtain ⟨⟨hc0, hc1⟩, ⟨lc0, lc1⟩, ec⟩ := cofactors_spec hm.toReduced hc (v := m.keyVar k)
    (by omega) hle
  obtain ⟨⟨ht0, ht1⟩, ⟨lt0, lt1⟩, et⟩ := cofactors_spec hm.toReduced ht (v := m.keyVar k)
    (by omega) hle
  obtain ⟨⟨he0, he1⟩, ⟨le0, le1⟩, ee⟩ := cofactors_spec hm.toReduced he (v := m.keyVar k)
    (by omega) hle
  simp only [Manager.split]
  generalize m.keyVar k = v at *
  generalize m.cofactors k.cond v = pc at *
  generalize m.cofactors k.thenArg v = pt at *
  generalize m.cofactors k.elseArg v = pe at *
  obtain ⟨c0, c1⟩ := pc
  obtain ⟨t0, t1⟩ := pt
  obtain ⟨e0, e1⟩ := pe
  dsimp only at *
  -- a call on cofactors stands below the splitting variable
  have hbelow : ∀ {x y z : Handle}, m.Valid x → m.Valid y → m.Valid z → v < m.level x →
      v < m.level y → v < m.level z → ∀ w < v + 1, ∀ a b,
      m.iteEval x y z (Function.update a w b) = true ↔ m.iteEval x y z a = true := by
    intro x y z hx hy hz lx ly lz w hw a b
    simp only [iteEval, hm.eval_update_above hx (show w < _ by omega),
      hm.eval_update_above hy (show w < _ by omega), hm.eval_update_above hz (show w < _ by omega)]
  simp only [ends_bind]
  refine Ends.imp (ih hm hc0 ht0 he0 (by omega)) (fun e m1 y1 => ?_)
  have ext1 := y1.extends_
  have lev1 : ∀ {x : Handle}, m.Valid x → m1.level x = m.level x :=
    fun hx => ext1.level_eq hm.toReduced hx
  have he1v := y1.le_level (by omega) (hbelow hc0 ht0 he0 lc0 lt0 le0)
  refine Ends.imp (ih y1.wellFormed (ext1.valid hc1) (ext1.valid ht1) (ext1.valid he1) (by
    rw [ext1.numVars_eq, lev1 hc1, lev1 ht1, lev1 he1]
    omega)) (fun t m2 y2 => ?_)
  have y2' := (y2.of_extends ext1).congr (ψ := fun a => m.iteEval c1 t1 e1 a = true) fun a => by
    rw [ext1.iteEval_eq hm.toReduced y1.wellFormed.toReduced hc1 ht1 he1]
  have ht2v := y2'.le_level (by omega) (hbelow hc1 ht1 he1 lc1 lt1 le1)
  have he2 := y2.extends_.valid y1.valid
  refine Ends.imp (returns_mkNode y2.wellFormed hpos (by rw [y2'.extends_.numVars_eq]; exact hle)
    he2 y2.valid (by rw [y2.old_level_eq y1.wellFormed y1.valid]; omega) (by omega))
    (fun r m3 y3 => ?_)
  have y3' : m.Yields (fun a => m.iteEval k.cond k.thenArg k.elseArg a = true) r m3 := by
    refine (y3.of_extends y2'.extends_).congr fun a => ?_
    rw [y2.old_eval_eq y1.wellFormed y1.valid, y2'.eval_eq, y1.eval_eq]
    simp only [iteEval, ec a, et a, ee a]
    cases a v <;> simp
  have hk : m3.Remembers k r := by
    refine ⟨y3'.extends_.valid hc, y3'.extends_.valid ht, y3'.extends_.valid he, y3.valid, ?_⟩
    intro a
    rw [y3'.eval_eq, y3'.extends_.iteEval_eq hm.toReduced y3.wellFormed.toReduced hc ht he]
  refine Ends.imp (returns_remember y3.wellFormed hk) (fun _ m4 hm4 => ?_)
  refine ends_pure.mpr ⟨y3'.extends_.trans hm4.1, hm4.2, hm4.1.valid y3.valid, fun a => ?_⟩
  rw [hm4.1.eval_eq y3.wellFormed.toReduced hm4.2.toReduced y3.valid, y3'.eval_iff]

theorem returns_iteWithin (depth : Nat) : IteReturns depth := by
  induction depth with
  | zero =>
      intro m f g h hm hf hg hh hdepth
      have := hm.level_le hf
      omega
  | succ depth ih =>
      intro m f g h hm hf hg hh hdepth
      have hfit := IteForm.fits_of hm.toReduced hf hg hh
      rw [iteWithin]
      cases hform : IteForm.of f g h with
      | known r =>
          rw [hform] at hfit
          refine ends_pure.mpr ((Yields.refl hm hfit.1).congr fun a => ?_)
          rw [hfit.2]
      | residual k c =>
          rw [hform] at hfit
          obtain ⟨⟨hc, ht, he⟩, hnt, heval, hlevel⟩ := hfit
          -- a result for the key, complemented as the normal form says
          have hfinish : ∀ {m' : Manager} {r : Handle}, m.Yields
              (fun a => m.iteEval k.cond k.thenArg k.elseArg a = true) r m' →
              m.Yields (fun a => m.iteEval f g h a = true) (r.complementIf c) m' := by
            intro m' r y
            refine ⟨y.extends_, y.wellFormed, y.valid.complementIf c, fun a => ?_⟩
            rw [y.wellFormed.eval_complementIf y.valid, y.eval_eq, heval]
          refine ends_bind.mpr (Ends.imp (returns_cached? hm k) ?_)
          rintro r? m1 ⟨halike, hfound⟩
          have hm1 := halike.wellFormed hm
          have hkeep : ∀ {x : Handle}, m.Valid x → ∀ a, m1.eval x a = m.eval x a :=
            fun hx a => halike.extends_.eval_eq hm.toReduced hm1.toReduced hx a
          cases r? with
          | some r =>
              have hk := hfound r rfl
              refine ends_pure.mpr (hfinish ⟨halike.extends_, hm1,
                halike.extends_.valid hk.result_valid, fun a => ?_⟩)
              rw [hkeep hk.result_valid, hk.eval_eq]
          | none =>
              have hlev : ∀ {x : Handle}, m.Valid x → m1.level x = m.level x :=
                fun hx => halike.extends_.level_eq hm.toReduced hx
              have hsplit := returns_split ih hm1 (halike.extends_.valid hc)
                (halike.extends_.valid ht) (halike.extends_.valid he) hnt (by
                  rw [keyVar_eq hm1.toReduced (halike.extends_.valid hc) hnt, hlev hc, hlev ht,
                    hlev he, halike.numVars_eq]
                  omega)
              simp only [ends_bind, ends_get, ends_pure] at hsplit ⊢
              refine Ends.imp hsplit (fun e m2 h2 => ?_)
              refine Ends.imp h2 (fun t m3 h3 => ?_)
              refine Ends.imp h3 (fun r m4 h4 => ?_)
              refine Ends.imp h4 (fun _ m5 h5 => ?_)
              refine hfinish ((h5.of_extends halike.extends_).congr fun a => ?_)
              rw [halike.extends_.iteEval_eq hm.toReduced hm1.toReduced hc ht he]

/-! ## The connectives -/

/-- If-then-else denotes if-then-else. -/
theorem returns_ite (hm : m.WellFormed) (hf : m.Valid f) (hg : m.Valid g) (hh : m.Valid h) :
    Returns (ite f g h) m (m.Yields fun a => m.iteEval f g h a = true) := by
  unfold ite
  simp only [ends_bind, ends_get]
  refine returns_iteWithin _ hm hf hg hh ?_
  have := hm.level_pos hf
  have := hm.level_pos hg
  have := hm.level_pos hh
  unfold depthBound
  omega

theorem returns_conj (hm : m.WellFormed) (hf : m.Valid f) (hg : m.Valid g) :
    Returns (conj f g) m (m.Yields fun a => m.eval f a = true ∧ m.eval g a = true) := by
  refine Ends.imp (returns_ite hm hf hg m.valid_zero) (fun r m' y => y.congr fun a => ?_)
  unfold iteEval
  cases m.eval f a <;> simp

theorem returns_disj (hm : m.WellFormed) (hf : m.Valid f) (hg : m.Valid g) :
    Returns (disj f g) m (m.Yields fun a => m.eval f a = true ∨ m.eval g a = true) := by
  refine Ends.imp (returns_ite hm hf m.valid_one hg) (fun r m' y => y.congr fun a => ?_)
  unfold iteEval
  cases m.eval f a <;> simp

theorem returns_xor (hm : m.WellFormed) (hf : m.Valid f) (hg : m.Valid g) :
    Returns (xor f g) m (m.Yields fun a => (m.eval f a ^^ m.eval g a) = true) := by
  refine Ends.imp (returns_ite hm hf hg.neg hg) (fun r m' y => y.congr fun a => ?_)
  unfold iteEval
  rw [hm.eval_neg hg]
  cases m.eval f a <;> simp

theorem returns_iff (hm : m.WellFormed) (hf : m.Valid f) (hg : m.Valid g) :
    Returns (iff f g) m (m.Yields fun a => m.eval f a = m.eval g a) := by
  refine Ends.imp (returns_ite hm hf hg hg.neg) (fun r m' y => y.congr fun a => ?_)
  unfold iteEval
  rw [hm.eval_neg hg]
  cases m.eval f a <;> simp

theorem returns_imp (hm : m.WellFormed) (hf : m.Valid f) (hg : m.Valid g) :
    Returns (imp f g) m (m.Yields fun a => m.eval f a = true → m.eval g a = true) := by
  refine Ends.imp (returns_ite hm hf hg m.valid_one) (fun r m' y => y.congr fun a => ?_)
  unfold iteEval
  cases m.eval f a <;> simp

end Diagram

end BranchingTime
