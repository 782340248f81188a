import Std.Data.HashMap
import Std.Data.HashSet
import BranchingTime.Diagram.Connective

/-!
# Existential quantification

`existsVars vars f` is true where some values of `vars` make `f` true.
`andExists vars f g` quantifies the conjunction of `f` and `g` without
building that conjunction: it descends both diagrams together and joins
the halves of a quantified variable by disjunction.

Below the last quantified variable nothing changes, so the recursion stops
there. Each operation remembers the results of its own subdiagrams.
-/

namespace BranchingTime

/-- A set of variables to quantify, with its largest member. -/
structure Bound where
  vars : Std.HashSet Nat
  last : Nat

namespace Bound

def ofList (vars : List Nat) : Bound where
  vars := .ofList vars
  last := vars.foldl max 0

/-- Is `v` quantified? -/
def contains (b : Bound) (v : Nat) : Bool := b.vars.contains v

end Bound

namespace Diagram

/-- Results of subdiagrams that were quantified before. -/
abbrev QuantifyM := StateT (Std.HashMap Handle Handle) DiagramM

/-- Quantifies `f`, descending at most `depth` levels. -/
def existsWithin (b : Bound) : Nat → Handle → QuantifyM Handle
  | 0, _ => throw .bottomless
  | depth + 1, f => do
    if f.isTerminal then return f
    let v := (← getThe Manager).topVar f
    if b.last < v then return f
    match (← get)[f]? with
    | some r => return r
    | none =>
      let f0 := (← getThe Manager).low f
      let f1 := (← getThe Manager).high f
      let e ← existsWithin b depth f0
      let r ←
        if b.contains v && e = .one then
          pure .one
        else do
          let t ← existsWithin b depth f1
          if b.contains v then disj e t else mkNode v e t
      modify (·.insert f r)
      return r

/-- Is `f` true for some values of `vars`? -/
def existsVars (vars : List Nat) (f : Handle) : DiagramM Handle := do
  record (.quantifying f vars.length)
  vars.forM checkVariable
  let depth := (← get).depthBound
  return (← existsWithin (.ofList vars) depth f ∅).1

/-- Results of pairs of subdiagrams whose conjunction was quantified before. -/
abbrev ConjoinM := StateT (Std.HashMap (Handle × Handle) Handle) QuantifyM

/-- Conjunction is symmetric, so a pair is remembered in one order only. -/
def pairKey (f g : Handle) : Handle × Handle := if f.le g then (f, g) else (g, f)

/-- Quantifies the conjunction of `f` and `g`, descending at most `depth`
levels. -/
def andExistsWithin (b : Bound) : Nat → Handle → Handle → ConjoinM Handle
  | 0, _, _ => throw .bottomless
  | depth + 1, f, g => do
    if f = .zero || g = .zero || f = -g then return .zero
    if f = .one || f = g then return ← existsWithin b (depth + 1) g
    if g = .one then return ← existsWithin b (depth + 1) f
    match (← get)[pairKey f g]? with
    | some r => return r
    | none =>
      let v := min ((← getThe Manager).topVar f) ((← getThe Manager).topVar g)
      let (f0, f1) := (← getThe Manager).cofactors f v
      let (g0, g1) := (← getThe Manager).cofactors g v
      let r ←
        if b.last < v then
          (conj f g : DiagramM Handle)
        else do
          let e ← andExistsWithin b depth f0 g0
          if b.contains v && e = .one then
            pure .one
          else do
            let t ← andExistsWithin b depth f1 g1
            if b.contains v then (disj e t : DiagramM Handle) else (mkNode v e t : DiagramM Handle)
      modify (·.insert (pairKey f g) r)
      return r

/-- Are `f` and `g` both true for some values of `vars`? -/
def andExists (vars : List Nat) (f g : Handle) : DiagramM Handle := do
  record (.conjoining f g vars.length)
  vars.forM checkVariable
  let depth := 2 * (← get).depthBound
  return (← (andExistsWithin (.ofList vars) depth f g ∅) ∅).1.1

end Diagram

end BranchingTime
