import BranchingTime.Diagram.Manager

/-!
# If-then-else and the connectives

Every connective is an instance of `ite f g h` ("if `f` then `g` else
`h`"). A call is first brought into a normal form by `IteForm.of`: either
its result is known at once, or it is an `IteKey` whose condition and
then-argument are regular, together with a flag that says whether the
result has to be complemented. Only normal forms are looked up and
remembered.

The recursion goes down one level at a time in at least one of its three
arguments, so its depth is bounded by three times the depth of the
diagrams (`Manager.depthBound`).
-/

namespace BranchingTime

/-- The normal form of an if-then-else. -/
inductive IteForm where
  /-- The result is already a diagram. -/
  | known (result : Handle)
  /-- The result is that of `key`, complemented if the flag is set. -/
  | residual (key : IteKey) (complemented : Bool)
  deriving DecidableEq, Repr

namespace IteForm

/-- The calls whose result is one of their arguments, or its complement. -/
def trivial? (f g h : Handle) : Option Handle :=
  if f = .one then some g
  else if f = .zero then some h
  else if g = h then some g
  else if g = .one ∧ h = .zero then some f
  else if g = .zero ∧ h = .one then some (-f)
  else none

/-- The value of `x` where `f` has the value `b`: a constant if `x` is `f`
or its complement. -/
def assuming (f : Handle) (b : Bool) (x : Handle) : Handle :=
  if x = f then .complementIf (!b) .one
  else if x = -f then .complementIf b .one
  else x

/-- Makes the condition regular by swapping the branches, and then the
then-argument regular by complementing the result. -/
def regular (f g h : Handle) : IteForm :=
  let (f, g, h) := if f.isComplemented then (-f, h, g) else (f, g, h)
  if g.isComplemented then .residual ⟨f, -g, -h⟩ true else .residual ⟨f, g, h⟩ false

/-- The normal form of `ite f g h`. -/
def of (f g h : Handle) : IteForm :=
  match trivial? f g h with
  | some r => .known r
  | none =>
    let g := assuming f true g
    let h := assuming f false h
    match trivial? f g h with
    | some r => .known r
    | none => regular f g h

end IteForm

namespace Manager

/-- The first variable that one of the arguments decides. The condition of
a normal form is not a constant. -/
def keyVar (m : Manager) (key : IteKey) : Nat :=
  ([key.thenArg, key.elseArg].filter fun x => !x.isTerminal).foldl
    (fun v x => min v (m.topVar x)) (m.topVar key.cond)

/-- The two calls that a call is split into at its first variable. -/
def split (m : Manager) (key : IteKey) (v : Nat) : IteKey × IteKey :=
  let (f0, f1) := m.cofactors key.cond v
  let (g0, g1) := m.cofactors key.thenArg v
  let (h0, h1) := m.cofactors key.elseArg v
  (⟨f0, g0, h0⟩, ⟨f1, g1, h1⟩)

end Manager

namespace Diagram

/-- Looks a normal form up in the result cache. -/
def cached? (key : IteKey) : DiagramM (Option Handle) :=
  modifyGet fun m =>
    let (r, cache) := m.cache.lookup key
    (r, { m with cache })

/-- Remembers the result of a normal form. -/
def remember (key : IteKey) (r : Handle) : DiagramM Unit :=
  modify fun m => { m with cache := m.cache.insert key r }

/-- If-then-else, splitting at most `depth` times in a row. -/
def iteWithin : Nat → Handle → Handle → Handle → DiagramM Handle
  | 0, _, _, _ => throw .bottomless
  | depth + 1, f, g, h =>
    match IteForm.of f g h with
    | .known r => return r
    | .residual key complemented => do
      match ← cached? key with
      | some r => return r.complementIf complemented
      | none =>
        let v := (← get).keyVar key
        let (k0, k1) := (← get).split key v
        let e ← iteWithin depth k0.cond k0.thenArg k0.elseArg
        let t ← iteWithin depth k1.cond k1.thenArg k1.elseArg
        let r ← mkNode v e t
        remember key r
        return r.complementIf complemented

/-- If `f` then `g` else `h`. -/
def ite (f g h : Handle) : DiagramM Handle := do
  iteWithin (3 * (← get).depthBound) f g h

/-- Conjunction. -/
def conj (f g : Handle) : DiagramM Handle := ite f g .zero

/-- Disjunction. -/
def disj (f g : Handle) : DiagramM Handle := ite f .one g

/-- Exclusive disjunction. -/
def xor (f g : Handle) : DiagramM Handle := ite f (-g) g

/-- Equivalence. -/
def iff (f g : Handle) : DiagramM Handle := ite f g (-g)

/-- Implication. -/
def imp (f g : Handle) : DiagramM Handle := ite f g .one

end Diagram

end BranchingTime
