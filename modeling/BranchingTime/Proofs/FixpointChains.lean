import Mathlib.Data.List.Chain
import BranchingTime.Proofs.EvaluationSemantics
import BranchingTime.Proofs.SameHandle

/-!
# The chains of the fixpoints

The loop of a fixpoint has no bound of its own: it goes on until an iteration
returns the handle that it was given. `Iterates` is that loop, with the sets it
goes through. For each of the six operators that are computed this way
(`Fixpoint`), the loop ends, and its sets form a strict chain of sets of states
(`Fixpoint.strict_chain`): upwards for `EF`, `AF`, `EU` and `AU`, downwards for `EG`
and `AG`. A strict chain has at most one set more than there are states, so the
bound of `Model.fixpoint` never cuts it short (`Iterates.fixpointWithin_eq`).

For the untils the chain is not visible in the code, which computes every set
anew from the second argument: it is one because the iteration is monotone and
its first step rises (`Ctl.Climbs`).
-/

namespace BranchingTime

open Diagram Manager

/-! ## The loop -/

/-- The loop from `z` goes through these sets: an iteration leads from each to
the one after it, and from the last one to itself. -/
inductive Diagram.Iterates (step : Handle → DiagramM Handle) :
    Handle → Manager → List Handle → Manager → Prop where
  | settled {z : Handle} {m m' : Manager} : step z m = .ok z m' → Iterates step z m [z] m'
  | goesOn {z z' : Handle} {m m₁ m' : Manager} {zs : List Handle} : step z m = .ok z' m₁ →
      z' ≠ z → Iterates step z' m₁ zs m' → Iterates step z m (z :: zs) m'

namespace Diagram.Iterates

variable {step : Handle → DiagramM Handle} {z : Handle} {m m' : Manager} {zs : List Handle}

theorem head?_eq (h : Iterates step z m zs m') : zs.head? = some z := by
  cases h <;> rfl

theorem exists_getLast? (h : Iterates step z m zs m') : ∃ last, zs.getLast? = some last := by
  cases h with
  | settled => exact ⟨_, rfl⟩
  | goesOn => exact ⟨_, List.getLast?_cons⟩

/-- The loop with a bound is the loop, wherever the bound is not smaller than
the number of iterations. -/
theorem fixpointWithin_eq (h : Iterates step z m zs m') {last : Handle}
    (hlast : zs.getLast? = some last) {bound : Nat} (hbound : zs.length ≤ bound) (count : Nat) :
    fixpointWithin step bound count z m = .ok last
      { m' with journal := m'.journal.push (.fixpointReached (count + zs.length)) } := by
  induction h generalizing bound count with
  | settled hstep =>
      obtain ⟨bound, rfl⟩ := Nat.exists_eq_add_of_lt hbound
      obtain rfl := Option.some.inj hlast
      rw [fixpointWithin, bind_of_ok hstep, if_pos rfl]
      rfl
  | @goesOn z z' m m₁ m' zs hstep hne hrest ih =>
      obtain ⟨bound, rfl⟩ := Nat.exists_eq_add_of_lt (Nat.lt_of_succ_le hbound)
      have hlast' : zs.getLast? = some last := by
        obtain ⟨last', hlast'⟩ := hrest.exists_getLast?
        rw [List.getLast?_cons, hlast'] at hlast
        rw [hlast', ← hlast]
        rfl
      rw [fixpointWithin, bind_of_ok hstep, if_neg hne, ih hlast' (Nat.le_add_right _ bound),
        List.length_cons, Nat.add_right_comm, Nat.add_assoc]

end Diagram.Iterates

/-! ## Chains of sets of states -/

/-- The handles stand for sets of states, each in the relation `R` to the next
one. -/
structure Model.Chain (K : Model) (R : (Assignment → Bool) → (Assignment → Bool) → Prop)
    (zs : List Handle) (m : Manager) : Prop where
  wellFormed : m.WellFormed
  valid : ∀ z ∈ zs, m.Valid z
  dependsOn : ∀ z ∈ zs, DependsOn (m.eval z) {v | v ∈ K.encoding.vars .current}
  isChain : zs.IsChain fun z z' => R (m.eval z) (m.eval z')

section Chains

variable {K : Model} {m m' : Manager} {f g : Handle} {x y : Set K.encoding.Bits}
  {R : (Assignment → Bool) → (Assignment → Bool) → Prop}

theorem le_iff_of_denotes (hf : m.Denotes f (K.encoding.In x))
    (hg : m.Denotes g (K.encoding.In y)) : m.eval f ≤ m.eval g ↔ x ⊆ y := by
  simp only [Pi.le_def, Bool.le_iff_imp, hf.eval_iff, hg.eval_iff]
  constructor
  · intro h s hs
    have := h (K.encoding.join s s)
    simp only [Encoding.In, Encoding.halfOf_current_join] at this
    exact this hs
  · exact fun h a ha => h ha

theorem lt_iff_of_denotes (hf : m.Denotes f (K.encoding.In x))
    (hg : m.Denotes g (K.encoding.In y)) : m.eval f < m.eval g ↔ x ⊂ y := by
  rw [lt_iff_le_not_ge, le_iff_of_denotes hf hg, le_iff_of_denotes hg hf]
  rfl

theorem Model.Chain.singleton (hm : m.WellFormed) (hf : m.Denotes f (K.encoding.In x)) :
    K.Chain R [f] m :=
  ⟨hm, List.forall_mem_singleton.mpr hf.valid,
    List.forall_mem_singleton.mpr hf.dependsOn_current, .singleton f⟩

theorem Model.Chain.cons {zs : List Handle} (h : K.Chain R zs m) (hhead : zs.head? = some g)
    (hf : m.Denotes f (K.encoding.In x)) (hR : R (m.eval f) (m.eval g)) :
    K.Chain R (f :: zs) m := by
  refine ⟨h.wellFormed, List.forall_mem_cons.mpr ⟨hf.valid, h.valid⟩,
    List.forall_mem_cons.mpr ⟨hf.dependsOn_current, h.dependsOn⟩,
    List.isChain_cons.mpr ⟨fun z hz => ?_, h.isChain⟩⟩
  obtain rfl : g = z := by simpa [hhead] using hz
  exact hR

/-- The loop of an iteration that climbs, and gains height in every step, ends.
Its sets are a chain in every relation that climbing implies. -/
theorem exists_iterates {α : Type} [PartialOrder α] (sets : α → Set K.encoding.Bits)
    (height : α → Nat) {step : Handle → DiagramM Handle} {F : α → α} {first goal z : α}
    {G : Set K.encoding.Bits → Set K.encoding.Bits} {bound : Nat} (hstep : Computes K m step G)
    (hvars : K.encoding.numVars ≤ m.numVars) (hclimb : Ctl.Climbs F first goal)
    (hsets : Function.Injective sets) (hG : ∀ z, G (sets z) = sets (F z))
    (hheight : StrictMono height) (hbound : ∀ z, height z ≤ bound)
    (hR : ∀ ⦃m : Manager⦄ ⦃f g : Handle⦄ ⦃x y : α⦄, m.Denotes f (K.encoding.In (sets x)) →
      m.Denotes g (K.encoding.In (sets y)) → x < y → R (m.eval f) (m.eval g))
    (count : Nat) (hext : m.Extends m') (hm' : m'.WellFormed)
    (hf : m'.Denotes f (K.encoding.In (sets z))) (hway : Ctl.Climbs.OnWay F first goal z)
    (hcount : bound < height z + count) :
    ∃ zs m'', Iterates step f m' zs m'' ∧ zs.length ≤ count ∧ m'.Extends m''
      ∧ K.Chain R zs m'' := by
  induction count generalizing m' f z with
  | zero =>
      have := hbound z
      omega
  | succ count ih =>
      have hnext : Returns (step f) m' _ :=
        (ends_iteration sets hstep hclimb hsets hG hext hm' hf hway).mono (fun _ _ h => h)
          fun _ _ hshort => absurd hvars (Nat.not_le.mpr hshort)
      obtain ⟨r, m₁, hrun, ⟨hext₁, hm₁⟩, hf₁, hr, ⟨rfl, -⟩ | ⟨hne, hlt⟩⟩ := hnext.exists_ok
      · exact ⟨[r], m₁, .settled hrun, by simp, hext₁, .singleton hm₁ hf₁⟩
      · have hgain := hheight hlt
        obtain ⟨zs, m₂, hloop, hlength, hext₂, hchain⟩ :=
          ih (hext.trans hext₁) hm₁ hr (hclimb.onWay_next hway) (by omega)
        -- the link was seen in the manager after this iteration, and still holds in the last one
        have hf₂ := hf₁.mono hext₂ hm₁ hchain.wellFormed
        have hr₂ := hr.mono hext₂ hm₁ hchain.wellFormed
        exact ⟨f :: zs, m₂, .goesOn hrun hne hloop, by simpa using hlength, hext₁.trans hext₂,
          hchain.cons hloop.head?_eq hf₂ (hR hf₂ hr₂ hlt)⟩

variable {step : Handle → DiagramM Handle} {F : Set K.encoding.Bits → Set K.encoding.Bits}

theorem exists_chain_up (hstep : Computes K m step F) (hvars : K.encoding.numVars ≤ m.numVars)
    (hclimb : Ctl.Climbs F x y) (hm : m.WellFormed) (hf : m.Denotes f (K.encoding.In x)) :
    ∃ zs m', Iterates step f m zs m' ∧ zs.length ≤ 2 ^ K.encoding.halfWidth + 1
      ∧ m.Extends m' ∧ K.Chain (· < ·) zs m' :=
  exists_iterates id Set.ncard hstep hvars hclimb Function.injective_id (fun _ => rfl)
    (fun _ _ h => Set.ncard_lt_ncard h) (ncard_le K.encoding)
    (fun _ _ _ _ _ hf hg h => (lt_iff_of_denotes hf hg).mpr h) (Nat.pow 2 _ + 1) (.refl m) hm hf
    hclimb.onWay_first (by omega)

theorem exists_chain_down (hstep : Computes K m step F) (hvars : K.encoding.numVars ≤ m.numVars)
    (hclimb : Ctl.Structure.Descends F x y) (hm : m.WellFormed)
    (hf : m.Denotes f (K.encoding.In x)) :
    ∃ zs m', Iterates step f m zs m' ∧ zs.length ≤ 2 ^ K.encoding.halfWidth + 1
      ∧ m.Extends m' ∧ K.Chain (· > ·) zs m' :=
  exists_iterates OrderDual.ofDual (fun z => Set.ncard (OrderDual.ofDual z)ᶜ) hstep hvars hclimb
    Function.injective_id (fun _ => rfl)
    (fun _ _ h => Set.ncard_lt_ncard (compl_lt_compl_iff_lt.mpr h))
    (fun _ => ncard_le K.encoding _)
    (fun _ _ _ _ _ hf hg h => (lt_iff_of_denotes hg hf).mpr h) (Nat.pow 2 _ + 1) (.refl m) hm hf
    hclimb.onWay_first (by omega)

end Chains

/-! ## The operators -/

/-- An operator that is computed as a fixpoint, with what it is applied to. -/
inductive Fixpoint where
  | ef (f : Handle)
  | af (f : Handle)
  | eg (f : Handle)
  | ag (f : Handle)
  | eu (f g : Handle)
  | au (f g : Handle)

namespace Fixpoint

def args : Fixpoint → List Handle
  | ef f | af f | eg f | ag f => [f]
  | eu f g | au f g => [f, g]

/-- The set that the loop starts from. -/
def seed : Fixpoint → Handle
  | ef f | af f | eg f | ag f => f
  | eu _ g | au _ g => g

/-- One iteration. -/
def step (K : Model) : Fixpoint → Handle → DiagramM Handle
  | ef _ => fun z => do disj z (← K.ex z)
  | af _ => fun z => do disj z (← K.ax z)
  | eg _ => fun z => do conj z (← K.ex z)
  | ag _ => fun z => do conj z (← K.ax z)
  | eu f g => fun z => do disj g (← conj f (← K.ex z))
  | au f g => fun z => do disj g (← conj f (← K.ax z))

/-- How each set lies to the next one. -/
def order : Fixpoint → (Assignment → Bool) → (Assignment → Bool) → Prop
  | eg _ | ag _ => (· > ·)
  | ef _ | af _ | eu .. | au .. => (· < ·)

/-- The states of the operator. -/
def states (K : Model) : Fixpoint → DiagramM Handle
  | ef f => K.unary .ef f
  | af f => K.unary .af f
  | eg f => K.unary .eg f
  | ag f => K.unary .ag f
  | eu f g => K.binary .eu f g
  | au f g => K.binary .au f g

variable (it : Fixpoint) {K : Model} {M : Ctl.Structure K.encoding.Bits} {m : Manager}

theorem states_eq : it.states K = K.fixpoint (it.step K) it.seed := by
  cases it <;> rfl

theorem exists_chain (hm : m.WellFormed) (hvars : K.encoding.numVars ≤ m.numVars)
    (hex : Computes K m K.ex M.before) (hax : Computes K m K.ax M.beforeAll)
    (hargs : ∀ f ∈ it.args, ∃ x, m.Denotes f (K.encoding.In x)) :
    ∃ zs m', Iterates (it.step K) it.seed m zs m' ∧ zs.length ≤ 2 ^ K.encoding.halfWidth + 1
      ∧ m.Extends m' ∧ K.Chain it.order zs m' := by
  cases it with
  | ef f =>
      obtain ⟨x, hf⟩ := hargs f (by simp [args])
      exact exists_chain_up (computes_union hex) hvars (M.climbs_ef x) hm hf
  | af f =>
      obtain ⟨x, hf⟩ := hargs f (by simp [args])
      exact exists_chain_up (computes_union hax) hvars (M.climbs_af x) hm hf
  | eg f =>
      obtain ⟨x, hf⟩ := hargs f (by simp [args])
      exact exists_chain_down (computes_inter hex) hvars (M.descends_eg x) hm hf
  | ag f =>
      obtain ⟨x, hf⟩ := hargs f (by simp [args])
      exact exists_chain_down (computes_inter hax) hvars (M.descends_ag x) hm hf
  | eu f g =>
      obtain ⟨x, hf⟩ := hargs f (by simp [args])
      obtain ⟨y, hg⟩ := hargs g (by simp [args])
      exact exists_chain_up (computes_until hm hf hg hex) hvars (M.climbs_eu x y) hm hg
  | au f g =>
      obtain ⟨x, hf⟩ := hargs f (by simp [args])
      obtain ⟨y, hg⟩ := hargs g (by simp [args])
      exact exists_chain_up (computes_until hm hf hg hax) hvars (M.climbs_au x y) hm hg

/-- The loop of every fixpoint ends, after at most one iteration more than
there are states. The sets that it goes through are sets of states, of which
each lies strictly in the next one, or, for `EG` and `AG`, strictly around it;
the last one is what the operator returns, whatever bound the loop is given
that lets it make its iterations. -/
theorem strict_chain (hm : m.WellFormed) (hvars : K.encoding.numVars ≤ m.numVars)
    (htransitions : m.Valid K.transitions)
    (hpairs : DependsOn (m.eval K.transitions)
      {v | v ∈ K.encoding.vars .current ∨ v ∈ K.encoding.vars .next})
    (hargs : ∀ f ∈ it.args, m.Valid f
      ∧ DependsOn (m.eval f) {v | v ∈ K.encoding.vars .current}) :
    ∃ zs last m', Iterates (it.step K) it.seed m zs m'
      ∧ zs.length ≤ 2 ^ K.encoding.halfWidth + 1
      ∧ m.Extends m' ∧ K.Chain it.order zs m' ∧ zs.getLast? = some last
      ∧ (∀ bound, zs.length ≤ bound → fixpointWithin (it.step K) bound 0 it.seed m
        = .ok last { m' with journal := m'.journal.push (.fixpointReached zs.length) })
      ∧ it.states K m
        = .ok last { m' with journal := m'.journal.push (.fixpointReached zs.length) } := by
  -- iterations do not look at the predicates of the model
  let K' : Model := { K with predicates := [] }
  have hK : K'.Presents (K'.toStructure m) m :=
    Model.OverStates.presents ⟨htransitions, hpairs, by simp [K'], by simp [K']⟩ hm
  have hex : Computes K m K.ex (K'.toStructure m).before := computes_ex (K := K') hK
  have hax : Computes K m K.ax (K'.toStructure m).beforeAll := computes_ax (K := K') hK
  obtain ⟨zs, m', hloop, hlength, hext, hchain⟩ := it.exists_chain hm hvars hex hax fun f hf =>
    ⟨_, Model.denotes_states (hargs f hf).1 (hargs f hf).2⟩
  obtain ⟨last, hlast⟩ := hloop.exists_getLast?
  have hrun (bound : Nat) (hbound : zs.length ≤ bound) :
      fixpointWithin (it.step K) bound 0 it.seed m
        = .ok last { m' with journal := m'.journal.push (.fixpointReached zs.length) } := by
    rw [hloop.fixpointWithin_eq hlast hbound, Nat.zero_add]
  refine ⟨zs, last, m', hloop, hlength, hext, hchain, hlast, hrun, ?_⟩
  rw [states_eq]
  exact hrun _ hlength

/-- Eight bits, where every state leads to every state: `E[second bit U first
bit]` starts from the states with the first bit, and needs a second set. -/
theorem strict_chain_until : ∃ (K : Model) (m : Manager) (f g : Handle),
    m.WellFormed ∧ K.encoding.numVars ≤ m.numVars ∧ m.Valid K.transitions
      ∧ DependsOn (m.eval K.transitions)
        {v | v ∈ K.encoding.vars .current ∨ v ∈ K.encoding.vars .next}
      ∧ (∀ h ∈ (eu f g).args, m.Valid h
        ∧ DependsOn (m.eval h) {v | v ∈ K.encoding.vars .current})
      ∧ ∃ zs last m' m'', Iterates ((eu f g).step K) g m zs m' ∧ K.Chain (· < ·) zs m'
        ∧ 2 ≤ zs.length ∧ zs.length ≤ 257 ∧ K.binary .eu f g m = .ok last m'' := by
  obtain ⟨m₀, h₀⟩ : ∃ m, Manager.new? 16 4 = .ok m := ⟨_, rfl⟩
  obtain ⟨hm₀, hn₀⟩ := Manager.wellFormed_new? h₀
  obtain ⟨f, m₁, -, y₁⟩ := (returns_mkVar (v := 2) hm₀ (by omega)).exists_ok
  obtain ⟨g, m, -, y₂⟩ := (returns_mkVar (v := 1) y₁.wellFormed (by
    rw [y₁.extends_.numVars_eq]
    omega)).exists_ok
  have hm := y₂.wellFormed
  let K : Model := ⟨.zero, .one, [], ⟨[]⟩⟩
  have hvars : K.encoding.numVars ≤ m.numVars := by
    rw [y₂.extends_.numVars_eq, y₁.extends_.numVars_eq, hn₀]
    exact le_refl 16
  have hpairs : DependsOn (m.eval K.transitions)
      {v | v ∈ K.encoding.vars .current ∨ v ∈ K.encoding.vars .next} := by
    intro a b _
    simp [K]
  have hf (a : Assignment) : m.eval f a = a 2 := by
    rw [y₂.old_eval_eq y₁.wellFormed y₁.valid, y₁.eval_eq]
  have hg (a : Assignment) : m.eval g a = a 1 := y₂.eval_eq a
  have hargs : ∀ h ∈ (eu f g).args, m.Valid h
      ∧ DependsOn (m.eval h) {v | v ∈ K.encoding.vars .current} := by
    have hone : 1 ∈ Encoding.vars ⟨[]⟩ .current := by decide
    have htwo : 2 ∈ Encoding.vars ⟨[]⟩ .current := by decide
    refine List.forall_mem_cons.mpr ⟨⟨y₂.extends_.valid y₁.valid, fun a b hab => ?_⟩,
      List.forall_mem_singleton.mpr ⟨y₂.valid, fun a b hab => ?_⟩⟩
    · rw [hf, hf, hab 2 htwo]
    · rw [hg, hg, hab 1 hone]
  obtain ⟨zs, last, m', hloop, hlength, -, hchain, -, -, hrun⟩ :=
    strict_chain (eu f g) hm hvars m.valid_one hpairs hargs
  refine ⟨K, m, f, g, hm, hvars, m.valid_one, hpairs, hargs, zs, last, m', _, hloop, hchain, ?_,
    hlength, hrun⟩
  cases hloop with
  | goesOn _ _ hrest =>
      exact Nat.succ_lt_succ (List.length_pos_of_mem (List.mem_of_mem_head? hrest.head?_eq))
  | settled hstep =>
      -- the first iteration adds the state with the second bit only
      have hK : K.Presents (K.toStructure m) m :=
        Model.OverStates.presents ⟨m.valid_one, hpairs, by simp [K], by simp [K]⟩ hm
      have hdenotes (h : Handle) (hh : h ∈ (eu f g).args) :=
        Model.denotes_states (K := K) (hargs h hh).1 (hargs h hh).2
      have df := hdenotes f (by simp [args])
      have dg := hdenotes g (by simp [args])
      have y := (computes_until hm df dg (computes_ex hK) (.refl m) hm dg).of_ok hstep
      have hsecond : m.eval g (fun v => v == 2) = true := by
        rw [← y.old_eval_eq hm y₂.valid]
        refine (y.eval_iff _).mpr (Or.inr ⟨(df.eval_iff _).mp (by rw [hf]; rfl), _, ?_,
          (dg.eval_iff fun v => v == 1).mp (by rw [hg]; rfl)⟩)
        exact eval_one _
      rw [hg] at hsecond
      cases hsecond

end Fixpoint

end BranchingTime
