import BranchingTime.Proofs.Canonicity
import BranchingTime.Proofs.Lockstep

/-!
# The cache does not show

However large the caches of two managers are, the managers answer every
sequence of requests alike, down to the numbers of the cells: they return
the same handles and the same faults, drop equally many nodes at every
collection and have equally many afterwards. Only their caches differ, and
with them the counts of hits and misses.
-/

namespace BranchingTime

open Diagram Manager

/-! ## Requests -/

/-- What may be asked of a manager. -/
inductive Request
  | perform (op : Operation)
  | collect (roots : List Handle)

/-- What a request comes to: a diagram, or how many nodes were dropped. -/
inductive Answer
  | diagram (r : Handle)
  | dropped (count : Nat)
  deriving DecidableEq, Repr

namespace Request

/-- The diagrams that have to be alive. A collection takes any roots. -/
def args : Request → List Handle
  | perform op => op.args
  | collect _ => []

def run : Request → DiagramM Answer
  | perform op => return .diagram (← op.perform)
  | collect roots => return .dropped (← collectGarbage roots)

end Request

namespace Manager

/-- What requests come to, one after the other, each with the number of
nodes that are stored then. -/
def answers (m : Manager) : List Request → List (Except Fault Answer × Nat)
  | [] => []
  | q :: qs => ((m.run q.run).1, (m.run q.run).2.numNodes) :: (m.run q.run).2.answers qs

/-- The manager after some requests. -/
def after (m : Manager) (qs : List Request) : Manager :=
  qs.foldl (fun m q => (m.run q.run).2) m

/-- The handles that are alive after a request that left `m`: results come
alive, and a collection drops handles whose nodes are not stored any more. -/
def liveAfter (m : Manager) (live : Handle → Prop) : Except Fault Answer → Handle → Prop
  | .ok (.diagram r), f => live f ∨ f = r
  | .ok (.dropped _), f => live f ∧ m.Valid f
  | .error _, f => live f

/-- All arguments of the requests are alive when their turn comes. -/
def Serves (m : Manager) (live : Handle → Prop) : List Request → Prop
  | [] => True
  | q :: qs => (∀ f ∈ q.args, live f)
      ∧ (m.run q.run).2.Serves ((m.run q.run).2.liveAfter live (m.run q.run).1) qs

end Manager

variable {m m' : Manager} {live : Handle → Prop}

theorem Operation.together_perform (op : Operation) (ht : Twins m m')
    (hargs : ∀ f ∈ op.args, m.Valid f) :
    Together op.perform op.perform m m' fun r n n' => m.Agree r n n' := by
  cases op with
  | var v => exact together_mkVar ht v
  | cube literals => exact together_foldlM_addLiteral ht m.valid_one
  | ite f g h =>
      exact together_ite ht (hargs f (by simp [args])) (hargs g (by simp [args]))
        (hargs h (by simp [args]))
  | conj f g =>
      exact together_ite ht (hargs f (by simp [args])) (hargs g (by simp [args])) m.valid_zero
  | disj f g =>
      exact together_ite ht (hargs f (by simp [args])) m.valid_one (hargs g (by simp [args]))
  | xor f g =>
      exact together_ite ht (hargs f (by simp [args])) (hargs g (by simp [args])).neg
        (hargs g (by simp [args]))
  | iff f g =>
      exact together_ite ht (hargs f (by simp [args])) (hargs g (by simp [args]))
        (hargs g (by simp [args])).neg
  | imp f g =>
      exact together_ite ht (hargs f (by simp [args])) (hargs g (by simp [args])) m.valid_one
  | not f => exact together_pure (.refl ht (hargs f (by simp [args])).neg)
  | existsVars vars f => exact together_existsVars vars ht (hargs f (by simp [args]))
  | andExists vars f g =>
      exact together_andExists vars ht (hargs f (by simp [args])) (hargs g (by simp [args]))
  | rename map f => exact together_rename map ht (hargs f (by simp [args]))

/-- One request: twins answer it alike and stay twins, and what is alive
afterwards is stored. -/
theorem Request.run_twins (q : Request) (ht : Twins m m') (hlive : ∀ f, live f → m.Valid f)
    (hargs : ∀ f ∈ q.args, live f) :
    (m.run q.run).1 = (m'.run q.run).1 ∧ Twins (m.run q.run).2 (m'.run q.run).2
      ∧ ∀ f, (m.run q.run).2.liveAfter live (m.run q.run).1 f → (m.run q.run).2.Valid f := by
  have htogether : Together q.run q.run m m' fun a n n' => Twins n n'
      ∧ ∀ f, n.liveAfter live (.ok a) f → n.Valid f := by
    cases q with
    | perform op =>
        refine together_bind ((op.together_perform ht fun f hf => hlive f (hargs f hf)).mono ?_)
        intro r n n' ha
        refine ⟨ha.extends_, together_pure ⟨ha.twins, fun f hf => ?_⟩⟩
        rcases hf with hf | rfl
        · exact ha.extends_.valid (hlive f hf)
        · exact ha.valid
    | collect roots =>
        refine ((together_collectGarbage ht roots).map Answer.dropped).mono ?_
        rintro a n n' ⟨k, rfl, ht'⟩
        exact ⟨ht', fun f hf => hf.2⟩
  rcases htogether.cases with ⟨a, n, n', hx, hy, ht', hvalid⟩ | ⟨e, n, n', hx, hy, hext, ht'⟩
  · rw [Manager.run, Manager.run, hx, hy]
    exact ⟨rfl, ht', hvalid⟩
  · rw [Manager.run, Manager.run, hx, hy]
    exact ⟨rfl, ht', fun f hf => hext.valid (hlive f hf)⟩

/-- All requests: by induction, twins answer them alike. -/
theorem Manager.Twins.answers_eq (qs : List Request) (ht : Twins m m')
    (hlive : ∀ f, live f → m.Valid f) (h : m.Serves live qs) :
    m.answers qs = m'.answers qs ∧ (m.after qs).Twin (m'.after qs) := by
  induction qs generalizing m m' live with
  | nil => exact ⟨rfl, ht.twin⟩
  | cons q qs ih =>
      obtain ⟨heq, ht', hlive'⟩ := q.run_twins ht hlive h.1
      obtain ⟨hrest, htwin⟩ := ih ht' hlive' h.2
      have hnodes : (m.run q.run).2.numNodes = (m'.run q.run).2.numNodes := by
        rw [numNodes, numNodes, ht'.twin.table_eq]
      exact ⟨by rw [answers, answers, heq, hnodes, hrest], htwin⟩

theorem Manager.twins_new? {numVars c₁ c₂ : Nat} {m₁ m₂ : Manager}
    (h₁ : new? numVars c₁ = .ok m₁) (h₂ : new? numVars c₂ = .ok m₂) : Twins m₁ m₂ := by
  refine ⟨?_, coherent_new? h₁, coherent_new? h₂⟩
  obtain ⟨-, rfl⟩ := new?_eq_ok_iff.mp h₁
  obtain ⟨-, rfl⟩ := new?_eq_ok_iff.mp h₂
  rfl

theorem Manager.exists_new? (numVars : Nat) {c : Nat} (hc : c ≤ 31) :
    ∃ m, new? numVars c = .ok m :=
  ⟨_, new?_eq_ok_iff.mpr ⟨hc, rfl⟩⟩

/-- Two new managers with caches of any size answer every sequence of
requests on live handles alike: each operation returns the same handle or
fault, each collection drops equally many nodes, and after each request
equally many are stored. They differ in their caches only. -/
theorem Manager.answers_eq_of_cacheBits (numVars : Nat) {c₁ c₂ : Nat} (h₁ : c₁ ≤ 31)
    (h₂ : c₂ ≤ 31) : ∃ m₁ m₂, new? numVars c₁ = .ok m₁ ∧ new? numVars c₂ = .ok m₂
      ∧ ∀ qs, m₁.Serves (fun f => f = .one ∨ f = .zero) qs →
        m₁.answers qs = m₂.answers qs ∧ (m₁.after qs).Twin (m₂.after qs) := by
  obtain ⟨m₁, hm₁⟩ := exists_new? numVars h₁
  obtain ⟨m₂, hm₂⟩ := exists_new? numVars h₂
  refine ⟨m₁, m₂, hm₁, hm₂, fun qs hqs => (twins_new? hm₁ hm₂).answers_eq qs ?_ hqs⟩
  rintro f (rfl | rfl)
  · exact m₁.valid_one
  · exact m₁.valid_zero

/-- A variable is asked for, negated by way of exclusive disjunction, and
dropped, with one cache slot and with sixteen. -/
theorem Manager.answers_eq_of_xor : ∃ m₁ m₂ x, new? 2 0 = .ok m₁ ∧ new? 2 4 = .ok m₂
    ∧ m₁.Serves (fun f => f = .one ∨ f = .zero)
      [.perform (.var 1), .perform (.xor x .one), .collect []]
    ∧ m₁.answers [.perform (.var 1), .perform (.xor x .one), .collect []]
      = m₂.answers [.perform (.var 1), .perform (.xor x .one), .collect []] := by
  obtain ⟨m₁, m₂, h₁, h₂, h⟩ :=
    answers_eq_of_cacheBits 2 (by decide : 0 ≤ 31) (by decide : 4 ≤ 31)
  obtain ⟨hwf, hn⟩ := wellFormed_new? h₁
  have hvar : Returns (mkVar 1) m₁ fun _ _ => True :=
    Ends.mono (ends_mkVar 1 hwf) (fun _ _ _ => trivial) fun _ _ hbad => hbad.2 (by omega)
  obtain ⟨x, m, hx, -⟩ := hvar.exists_ok
  have hrun : m₁.run (Request.run (.perform (.var 1))) = (.ok (.diagram x), m) := by
    have hok : Request.run (.perform (.var 1)) m₁ = .ok (.diagram x) m :=
      bind_of_ok (x := mkVar 1) hx
    rw [Manager.run, hok]
  have hserves : m₁.Serves (fun f => f = .one ∨ f = .zero)
      [.perform (.var 1), .perform (.xor x .one), .collect []] := by
    refine ⟨by simp [Request.args, Operation.args], ?_⟩
    rw [hrun]
    refine ⟨fun f hf => ?_, by simp [Request.args], trivial⟩
    rcases List.mem_pair.mp hf with rfl | rfl
    · exact Or.inr rfl
    · exact Or.inl (Or.inl rfl)
  exact ⟨m₁, m₂, x, h₁, h₂, hserves, (h _ hserves).1⟩

end BranchingTime
