import BranchingTime.Proofs.BlockSemantics
import BranchingTime.Proofs.GuardedBlocks

/-!
# Building tables with guards

`ControlTable.build` reads the statements as a block and then lays the block
out. A table can also be built in one pass over the statements, by their
indices, and this is what the builder here does. An entry that jumps forward
is pushed without its target and patched once the target is known; where two
ways meet, what is known is patched variable by variable. Every read and
every patch of a statement, an entry or a descriptor is checked.

No check fails, and the table is the same (`passes_build`). What one statement
adds to the entries is its part of the layout (`passes_addStatement`), and so
a range of statements adds the layout of its block (`adds_blockWithin`).
-/

namespace BranchingTime.Guarded

/-! ## Entries by index -/

/-- What is known after the last entry. -/
def current (numVars : Nat) (entries : List Entry) : List Descriptor :=
  entries.getLast?.elim (List.replicate numVars .undefined) Entry.leaving

/-- Adds an entry at the end. -/
def push (entries : List Entry) (entering leaving : List Descriptor) (next : Nat)
    (action : Action) : List Entry :=
  entries ++ [⟨entries.length, entering, leaving, next, action⟩]

/-- Adds an entry after which as much is known as before. -/
def pushPassing (numVars : Nat) (entries : List Entry) (next : Nat) (action : Action) :
    List Entry :=
  push entries (current numVars entries) (current numVars entries) next action

/-- Notes what is known of a variable that there is. -/
def define (known : List Descriptor) (var : Nat) (d : Descriptor) :
    Except Fault (List Descriptor) := do
  ensure (var < known.length) .outOfBounds
  return known.set var d

/-- Changes the entry at `pc`. -/
def patch (entries : List Entry) (pc : Nat) (change : Entry → Except Fault Entry) :
    Except Fault (List Entry) := do
  return entries.set pc (← change (← item entries pc))

/-- Sets where a branch or a loop goes when its condition fails. -/
def retarget (target : Nat) : Action → Action
  | .branch cond thenPc _ => .branch cond thenPc target
  | .loop cond bodyPc _ => .loop cond bodyPc target
  | action => action

/-- Sets where the entry at `pc` goes when its condition fails. -/
def setTarget (target : Nat) (entries : List Entry) (pc : Nat) : Except Fault (List Entry) :=
  patch entries pc fun e => return { e with action := retarget target e.action }

/-- Sets which entry follows the one at `pc`. -/
def setNext (next : Nat) (entries : List Entry) (pc : Nat) : Except Fault (List Entry) :=
  patch entries pc fun e => return { e with next }

/-- Notes that a variable only has some value after the entry at `pc`. -/
def fix (var : Nat) (entries : List Entry) (pc : Nat) : Except Fault (List Entry) :=
  patch entries pc fun e => return { e with leaving := ← define e.leaving var .fixed }

/-- What is known of a variable after the entry at `pc`. -/
def knownAt (entries : List Entry) (pc var : Nat) : Except Fault Descriptor := do
  item (← item entries pc).leaving var

/-- Fixes a variable after the entry at `late` if there is something else known of it
than after the one at `early`; and after that one, too, if `both` says so. -/
def fixDiffering (both : Bool) (early late : Nat) (entries : List Entry) (var : Nat) :
    Except Fault (List Entry) := do
  if (← knownAt entries early var) = (← knownAt entries late var) then return entries
  let entries ← if both then fix var entries early else pure entries
  fix var entries late

/-- Fixes all variables of which different things are known. -/
def fixAll (numVars : Nat) (both : Bool) (early late : Nat) (entries : List Entry) :
    Except Fault (List Entry) :=
  (List.range numVars).foldlM (fixDiffering both early late) entries

/-! ## The builder -/

/-- Compiles an expression of a program. -/
def compileIn (names : List String) (text : String) : CheckedM ProgramError Expr := do
  match ← ((compileExpr text names).run : Except Fault (Except ExprError Expr)) with
  | .ok e => return e
  | .error (.unknownIdentifier _) => throw (.unknownIdentifier text)
  | .error cause => throw (.expr text cause)

section Builder

variable (names statements : List String)

/-- Adds the entry of a statement that writes to a variable. -/
def write (entries : List Entry) (var : Nat) (d : Descriptor) (action : Action) :
    Except Fault (List Entry) := do
  let known := current names.length entries
  return push entries known (← define known var d) (entries.length + 1) action

/-- Adds the block of a loop, or of an `if` that has no `else`. The last entry
is that of the header, and what is known after it stays known if the block
is not run. -/
def addBody (block : List Entry → Nat → Nat → CheckedM ProgramError (List Entry))
    (entries : List Entry) (header : Nat) (group : Group) (first last : Nat) :
    CheckedM ProgramError (List Entry) := do
  let entries ← block entries (first + 1) last
  let bodyEnd := entries.length
  let next := if group = .loopBody then header else bodyEnd + 1
  let entries := pushPassing names.length entries next (.groupEnd header group)
  let entries ← (setTarget (bodyEnd + 1) entries header : Except Fault _)
  (fixAll names.length false header bodyEnd entries : Except Fault _)

/-- Adds the blocks of an `if` and of its `else`. The last entry is that of the
`if`, and `known` is known after it. -/
def addBodies (block : List Entry → Nat → Nat → CheckedM ProgramError (List Entry))
    (entries : List Entry) (header : Nat) (known : List Descriptor)
    (first last first' last' : Nat) : CheckedM ProgramError (List Entry) := do
  let entries ← block entries (first + 1) last
  let thenEnd := entries.length
  let entries := pushPassing names.length entries 0 (.groupEnd header .thenPart)
  let elsePc := entries.length
  let entries := push entries known known (elsePc + 1) (.elseMark header)
  let entries ← (setTarget elsePc entries header : Except Fault _)
  let entries ← block entries (first' + 1) last'
  let elseEnd := entries.length
  let entries := pushPassing names.length entries (elseEnd + 1) (.groupEnd header .elsePart)
  let entries ← (setNext (elseEnd + 1) entries thenEnd : Except Fault _)
  (fixAll names.length true thenEnd elseEnd entries : Except Fault _)

/-- Adds an `if` with its blocks. Returns the index of the first statement
after it, too. -/
def addIf (block : List Entry → Nat → Nat → CheckedM ProgramError (List Entry))
    (entries : List Entry) (i : Nat) (cond : String) :
    CheckedM ProgramError (List Entry × Nat) := do
  let cond ← compileIn names cond
  let (first, last) ← findBlock statements i
  let header := entries.length
  let entries := pushPassing names.length entries (header + 1) (.branch cond (header + 1) 0)
  let known := (← (item entries header : Except Fault Entry)).leaving
  let after ← (skipWhile (· = "") statements (last + 1) : Except Fault Nat)
  if statements[after]? = some "else" then
    let (first', last') ← findBlock statements after
    return (← addBodies names block entries header known first last first' last', last' + 1)
  else
    return (← addBody names block entries header .thenPart first last, last + 1)

/-- Adds a `while` with its block. Returns the index of the first statement
after it, too. -/
def addWhile (block : List Entry → Nat → Nat → CheckedM ProgramError (List Entry))
    (entries : List Entry) (i : Nat) (cond : String) :
    CheckedM ProgramError (List Entry × Nat) := do
  let cond ← compileIn names cond
  let (first, last) ← findBlock statements i
  let header := entries.length
  let entries := pushPassing names.length entries (header + 1) (.loop cond (header + 1) 0)
  return (← addBody names block entries header .loopBody first last, last + 1)

/-- Adds a statement, with its blocks if it has some. Returns the index of the
first statement after it, too. -/
def addStatement (block : List Entry → Nat → Nat → CheckedM ProgramError (List Entry))
    (entries : List Entry) (i : Nat) (s : String) : CheckedM ProgramError (List Entry × Nat) := do
  match ← MonadExcept.ofExcept (Statement.classify s) with
  | .ignored => return (entries, i + 1)
  | .read name =>
    let var ← MonadExcept.ofExcept (Block.resolve names name)
    return (← (write names entries var .defined (.read var) : Except Fault _), i + 1)
  | .assign name rhs =>
    let var ← MonadExcept.ofExcept (Block.resolve names name)
    let rhs ← compileIn names rhs
    return (← (write names entries var (.expr rhs.text) (.assign var rhs) : Except Fault _), i + 1)
  | .ifHeader cond => addIf names statements block entries i cond
  | .whileHeader cond => addWhile names statements block entries i cond
  | .openBrace => throw .unexpectedOpenBrace
  | .closeBrace => throw .unexpectedCloseBrace
  | .elseHeader => throw .elseWithoutIf

/-- Adds the statements from `i` up to `stop`. Reading has to end before
`fuel` runs out. -/
def blockWithin : Nat → List Entry → Nat → Nat → CheckedM ProgramError (List Entry)
  | 0, _, _, _ => throwThe Fault .bottomless
  | fuel + 1, entries, i, stop => do
    if stop ≤ i then return entries
    let s ← (item statements i : Except Fault String)
    let (entries, next) ← addStatement names statements (blockWithin fuel) entries i s
    blockWithin fuel entries next stop

/-- The entries of the statements over the declared names. -/
def entriesOf : CheckedM ProgramError (List Entry) :=
  blockWithin names statements (statements.length + 1) [] 0 statements.length

/-- The table with the given entries, unless these are too many. -/
def ofEntries? (entries : List Entry) : Except ProgramError ControlTable :=
  if entries.length ≤ ControlTable.maxEntries then .ok ⟨entries⟩
  else .error (.tooManyStatements entries.length)

/-- The table of a list of statements over the declared names. -/
def build : CheckedM ProgramError ControlTable := do
  MonadExcept.ofExcept (ofEntries? (← entriesOf names statements))

end Builder

/-! ## Entries of blocks -/

section Entries

variable {numVars : Nat} {entries : List Entry}

/-- The entries, and after them those of a block. -/
def append (numVars : Nat) (entries : List Entry) (P : Block) : List Entry :=
  entries ++ P.layout entries.length (current numVars entries)

@[simp] theorem current_concat (entries : List Entry) (e : Entry) :
    current numVars (entries ++ [e]) = e.leaving := by
  simp [current]

/-- A block that starts with a statement adds the entries of the statement
first, which end with `e`. -/
theorem append_eq {P B rest : Block} (front : List Entry) {e : Entry} {next : Nat}
    (hB : B.layout entries.length (current numVars entries) = front ++ [e])
    (hP : P.layout entries.length (current numVars entries)
      = front ++ e :: rest.layout next e.leaving)
    (hnext : next = entries.length + (front.length + 1)) :
    append numVars entries P = append numVars (append numVars entries B) rest := by
  have happend : append numVars entries B = entries ++ front ++ [e] := by
    rw [append, hB, List.append_assoc]
  have hlength : (entries ++ front ++ [e]).length = next := by simp [hnext]
  rw [happend, append, append, hP, current_concat, hlength]
  simp

theorem append_done : append numVars entries .done = entries := by
  rw [append, Block.layout, List.append_nil]

theorem append_read (var : Nat) (rest : Block) : append numVars entries (.read var rest)
    = append numVars (append numVars entries (.read var .done)) rest :=
  append_eq [] rfl rfl rfl

theorem append_assign (var : Nat) (rhs : Expr) (rest : Block) :
    append numVars entries (.assign var rhs rest)
      = append numVars (append numVars entries (.assign var rhs .done)) rest :=
  append_eq [] rfl rfl rfl

theorem append_ifThen (cond : Expr) (body rest : Block) :
    append numVars entries (.ifThen cond body rest)
      = append numVars (append numVars entries (.ifThen cond body .done)) rest := by
  refine append_eq (_ :: _) rfl rfl ?_
  rw [List.length_cons, Block.length_layout]
  omega

theorem append_ifElse (cond : Expr) (body body' rest : Block) :
    append numVars entries (.ifElse cond body body' rest)
      = append numVars (append numVars entries (.ifElse cond body body' .done)) rest := by
  refine append_eq (_ ++ _) rfl rfl ?_
  simp only [List.length_append, List.length_cons, Block.length_layout]
  omega

theorem append_loop (cond : Expr) (body rest : Block) :
    append numVars entries (.loop cond body rest)
      = append numVars (append numVars entries (.loop cond body .done)) rest := by
  refine append_eq (_ :: _) rfl rfl ?_
  rw [List.length_cons, Block.length_layout]
  omega

theorem current_append_last {B : Block} (front : List Entry) {e : Entry}
    (hB : B.layout entries.length (current numVars entries) = front ++ [e]) :
    current numVars (append numVars entries B) = e.leaving := by
  rw [append, hB, ← List.append_assoc, current_concat]

/-- What is known after a block was added. -/
theorem current_append (P : Block) (entries : List Entry) :
    current numVars (append numVars entries P) = P.leaving (current numVars entries) := by
  induction P generalizing entries with
  | done => rw [append_done, Block.leaving]
  | read var rest ih => rw [append_read, ih, current_append_last [] rfl, Block.leaving]
  | assign var rhs rest ih =>
      rw [append_assign, ih, current_append_last [] rfl, Block.leaving]
  | ifThen cond body rest _ ih =>
      rw [append_ifThen, ih, current_append_last (_ :: _) rfl, Block.leaving]
  | ifElse cond body body' rest _ _ ih =>
      rw [append_ifElse, ih, current_append_last (_ ++ _) rfl, Block.leaving]
  | loop cond body rest _ ih =>
      rw [append_loop, ih, current_append_last (_ :: _) rfl, Block.leaving]

/-! ### Descriptors -/

variable {known xs ys : List Descriptor}

theorem length_meetAll (hx : xs.length = numVars) (hy : ys.length = numVars) :
    (Descriptor.meetAll xs ys).length = numVars := by
  rw [Descriptor.meetAll, List.length_zipWith, hx, hy, Nat.min_self]

/-- There is always one descriptor for every variable. -/
theorem length_leaving (h : known.length = numVars) (P : Block) :
    (P.leaving known).length = numVars := by
  induction P generalizing known with
  | done => exact h
  | read var rest ih => exact ih (by rw [List.length_set, h])
  | assign var rhs rest ih => exact ih (by rw [List.length_set, h])
  | ifThen cond body rest ihb ih => exact ih (length_meetAll h (ihb h))
  | ifElse cond body body' rest ihb ihb' ih => exact ih (length_meetAll (ihb h) (ihb' h))
  | loop cond body rest ihb ih => exact ih (length_meetAll h (ihb h))

/-- What is known when the first `k` variables have been compared: of these
where the two ways meet, and of the others as before. -/
def mixed (xs ys before : List Descriptor) (k : Nat) : List Descriptor :=
  (Descriptor.meetAll xs ys).take k ++ before.drop k

section Mixed

variable {zs : List Descriptor} {x y z d : Descriptor} {k : Nat}

theorem mixed_zero : mixed xs ys zs 0 = zs := rfl

theorem mixed_length (hx : xs.length = numVars) (hy : ys.length = numVars)
    (hz : zs.length = numVars) : mixed xs ys zs numVars = Descriptor.meetAll xs ys := by
  rw [mixed, List.take_of_length_le (length_meetAll hx hy).le, List.drop_of_length_le hz.le,
    List.append_nil]

theorem length_take_meetAll (hx : xs[k]? = some x) (hy : ys[k]? = some y) :
    ((Descriptor.meetAll xs ys).take k).length = k := by
  have hxlt := (List.getElem?_eq_some_iff.mp hx).1
  have hylt := (List.getElem?_eq_some_iff.mp hy).1
  rw [Descriptor.meetAll, List.length_take, List.length_zipWith]
  omega

theorem mixed_eq (hz : zs[k]? = some z) :
    mixed xs ys zs k = (Descriptor.meetAll xs ys).take k ++ z :: zs.drop (k + 1) := by
  obtain ⟨hlt, rfl⟩ := List.getElem?_eq_some_iff.mp hz
  rw [mixed, List.drop_eq_getElem_cons hlt]

theorem mixed_succ (hx : xs[k]? = some x) (hy : ys[k]? = some y) :
    mixed xs ys zs (k + 1)
      = (Descriptor.meetAll xs ys).take k ++ Descriptor.meet x y :: zs.drop (k + 1) := by
  have hmeet : (Descriptor.meetAll xs ys)[k]? = some (Descriptor.meet x y) := by
    rw [Descriptor.meetAll, List.getElem?_zipWith, hx, hy]
  rw [mixed, List.take_add_one, hmeet]
  simp

/-- A variable that has not been compared is known as before. -/
theorem item_mixed (hx : xs[k]? = some x) (hy : ys[k]? = some y) (hz : zs[k]? = some z) :
    item (mixed xs ys zs k) k = .ok z := by
  have hlength := length_take_meetAll hx hy
  rw [item, mixed_eq hz, List.getElem?_append_right hlength.le, hlength, Nat.sub_self]
  rfl

theorem define_mixed (hx : xs[k]? = some x) (hy : ys[k]? = some y) (hz : zs[k]? = some z)
    (hne : x ≠ y) :
    define (mixed xs ys zs k) k .fixed = .ok (mixed xs ys zs (k + 1)) := by
  have hlength := length_take_meetAll hx hy
  rw [mixed_succ hx hy, Descriptor.meet, if_neg hne, mixed_eq hz, define,
    ensure_bind (by simp [hlength]), List.set_append_right _ _ hlength.le, hlength, Nat.sub_self]
  rfl

theorem mixed_succ_of_eq (hx : xs[k]? = some z) (hy : ys[k]? = some z) (hz : zs[k]? = some z) :
    mixed xs ys zs (k + 1) = mixed xs ys zs k := by
  rw [mixed_succ hx hy, Descriptor.meet, if_pos rfl, mixed_eq hz]

end Mixed

/-! ### Patches -/

section Patches

variable {front mid back : List Entry} {e e' f : Entry} {us us' vs vs' : List Descriptor}
  {early late pc var : Nat}

theorem item_at (hpc : pc = front.length) : item (front ++ e :: back) pc = .ok e := by
  subst hpc
  exact item_eq List.drop_left

theorem patch_at {change : Entry → Except Fault Entry} (hpc : pc = front.length)
    (hchange : change e = .ok e') :
    patch (front ++ e :: back) pc change = .ok (front ++ e' :: back) := by
  rw [patch, item_at hpc, ok_bind, hchange, ok_bind, hpc,
    List.set_append_right _ _ (Nat.le_refl front.length), Nat.sub_self]
  rfl

/-- Entries at which two ways meet: what is known is `us` after the first one,
`e`, and `vs` after the last one, `f`. -/
def meeting (front : List Entry) (e : Entry) (us : List Descriptor) (mid : List Entry) (f : Entry)
    (vs : List Descriptor) : List Entry :=
  front ++ { e with leaving := us } :: (mid ++ [{ f with leaving := vs }])

theorem meeting_eq : meeting front e us mid f vs
    = (front ++ { e with leaving := us } :: mid) ++ { f with leaving := vs } :: [] := by
  simp [meeting]

theorem knownAt_early (hearly : early = front.length) :
    knownAt (meeting front e us mid f vs) early var = item us var := by
  rw [knownAt, meeting, item_at hearly, ok_bind]

theorem knownAt_late (hlate : late = front.length + 1 + mid.length) :
    knownAt (meeting front e us mid f vs) late var = item vs var := by
  rw [knownAt, meeting_eq, item_at (by simp [hlate]; omega), ok_bind]

theorem fix_early (hearly : early = front.length) (hdefine : define us var .fixed = .ok us') :
    fix var (meeting front e us mid f vs) early = .ok (meeting front e us' mid f vs) :=
  patch_at hearly (by simp only [hdefine]; rfl)

theorem fix_late (hlate : late = front.length + 1 + mid.length)
    (hdefine : define vs var .fixed = .ok vs') :
    fix var (meeting front e us mid f vs) late = .ok (meeting front e us mid f vs') := by
  rw [meeting_eq, meeting_eq]
  exact patch_at (by simp [hlate]; omega) (by simp only [hdefine]; rfl)

theorem setTarget_early {target : Nat} (hearly : early = front.length) :
    setTarget target (meeting front e us mid f vs) early
      = .ok (meeting front { e with action := retarget target e.action } us mid f vs) :=
  patch_at hearly rfl

theorem setNext_early {next : Nat} (hearly : early = front.length) :
    setNext next (meeting front e us mid f vs) early
      = .ok (meeting front { e with next } us mid f vs) :=
  patch_at hearly rfl

theorem length_meeting :
    (meeting front e us mid f vs).length = front.length + 1 + mid.length + 1 := by
  simp [meeting]
  omega

theorem setTarget_push {target next : Nat} {action : Action} (hearly : early = front.length) :
    setTarget target (push (meeting front e us mid f vs) xs ys next action) early
      = .ok (push (meeting front { e with action := retarget target e.action } us mid f vs)
          xs ys next action) := by
  rw [push, push, length_meeting, length_meeting, meeting, meeting, List.append_assoc,
    List.append_assoc]
  exact patch_at hearly rfl

theorem meeting_meeting {e' f' : Entry} {mid' : List Entry} :
    meeting (meeting front e us mid f vs) e' us' mid' f' vs'
      = meeting (front ++ { e with leaving := us } :: mid) f vs
        ({ e' with leaving := us' } :: mid') f' vs' := by
  simp [meeting]

/-- What is known at the first one of the two when `k` variables have been
compared. -/
def mixedEarly (both : Bool) (xs ys : List Descriptor) (k : Nat) : List Descriptor :=
  if both then mixed xs ys xs k else xs

theorem fixDiffering_eq {k : Nat} (both : Bool) (hearly : early = front.length)
    (hlate : late = front.length + 1 + mid.length) (hx : k < xs.length) (hy : k < ys.length) :
    fixDiffering both early late
        (meeting front e (mixedEarly both xs ys k) mid f (mixed xs ys ys k)) k
      = .ok (meeting front e (mixedEarly both xs ys (k + 1)) mid f (mixed xs ys ys (k + 1))) := by
  have hx := List.getElem?_eq_getElem hx
  have hy := List.getElem?_eq_getElem hy
  generalize xs[k] = x at hx
  generalize ys[k] = y at hy
  have hitem : item (mixedEarly both xs ys k) k = .ok x := by
    unfold mixedEarly
    split
    · exact item_mixed hx hy hx
    · rw [item, hx]
      rfl
  rw [fixDiffering, knownAt_early hearly, hitem, ok_bind, knownAt_late hlate,
    item_mixed hx hy hy, ok_bind]
  by_cases heq : x = y
  · subst heq
    rw [if_pos rfl, mixedEarly, mixedEarly, mixed_succ_of_eq hx hy hx, mixed_succ_of_eq hx hy hy]
    rfl
  rw [if_neg heq]
  cases both with
  | false => exact fix_late hlate (define_mixed hx hy hy heq)
  | true =>
      show (fix k _ early >>= fun entries => fix k entries late) = _
      rw [mixedEarly, if_pos rfl, fix_early hearly (define_mixed hx hy hx heq), ok_bind]
      exact fix_late hlate (define_mixed hx hy hy heq)

/-- All variables are compared, one after the other. -/
theorem fixAll_eq (front mid : List Entry) (both : Bool) (hearly : early = front.length)
    (hlate : late = front.length + 1 + mid.length) (hx : xs.length = numVars)
    (hy : ys.length = numVars) :
    fixAll numVars both early late (meeting front e xs mid f ys)
      = .ok (meeting front e (if both then Descriptor.meetAll xs ys else xs)
          mid f (Descriptor.meetAll xs ys)) := by
  -- the induction is on the number of variables that have been compared
  have hfirst (k : Nat) (hk : k ≤ numVars) :
      (List.range k).foldlM (fixDiffering both early late) (meeting front e xs mid f ys)
        = .ok (meeting front e (mixedEarly both xs ys k) mid f (mixed xs ys ys k)) := by
    induction k with
    | zero =>
        rw [mixedEarly, mixed_zero, mixed_zero, ite_self]
        rfl
    | succ k ih =>
        rw [List.range_succ, List.foldlM_append, ih (by omega), ok_bind, List.foldlM_cons,
          fixDiffering_eq both hearly hlate (by omega) (by omega)]
        rfl
  rw [fixAll, hfirst numVars le_rfl, mixedEarly, mixed_length hx hy hx, mixed_length hx hy hy]

end Patches

end Entries

/-! ## Statements -/

section Statements

variable {names statements inner inner' tail tail' : List String} {entries : List Entry}
  {known : List Descriptor} {e : Expr} {first last first' last' fuel : Nat}
  {block : List Entry → Nat → Nat → CheckedM ProgramError (List Entry)}

/-- What `block` adds for less than `fuel` statements are the entries of the
block that they are. -/
def Adds (names statements : List String) (fuel : Nat)
    (block : List Entry → Nat → Nat → CheckedM ProgramError (List Entry)) : Prop :=
  ∀ ⦃entries : List Entry⦄ ⦃tail part : List String⦄ ⦃i stop : Nat⦄,
    (current names.length entries).length = names.length → Range statements tail i stop part →
    part.length < fuel →
    Passes (block entries i stop) (append names.length entries <$> Block.parse names part)

section Body

variable {numVars next next' : Nat} {action action' : Action} {xs ys : List Descriptor}
  (body : Block)

@[simp] theorem current_push : current numVars (push entries xs ys next action) = ys :=
  current_concat ..

theorem append_push : append numVars (push entries xs ys next action) body
    = entries ++ ⟨entries.length, xs, ys, next, action⟩
      :: body.layout (entries.length + 1) ys := by
  rw [append, current_push, push, List.length_append, List.append_assoc]
  rfl

theorem length_append_push :
    (append numVars (push entries xs ys next action) body).length
      = entries.length + 1 + body.size := by
  rw [append_push, List.length_append, List.length_cons, Block.length_layout]
  omega

/-- The entry of a header, those of its block, and that of the end of the
block, after which is known what the block leaves. -/
theorem pushPassing_append_push :
    pushPassing numVars (append numVars (push entries xs ys next action) body) next' action'
      = meeting entries ⟨entries.length, xs, ys, next, action⟩ ys
        (body.layout (entries.length + 1) ys)
        ⟨entries.length + 1 + body.size, body.leaving ys, body.leaving ys, next', action'⟩
        (body.leaving ys) := by
  rw [pushPassing, push, current_append, length_append_push, append_push, current_push,
    List.append_assoc]
  rfl

end Body

/-- The block of a loop, or of an `if` without `else`. -/
theorem passes_addBody (hblock : Adds names statements fuel block)
    (hknown : known.length = names.length) (hinner : Range statements tail (first + 1) last inner)
    (hfuel : inner.length < fuel) {action : Action} {group : Group} {B : Block → Block}
    (hB : ∀ body : Block, (B body).layout entries.length known
      = ⟨entries.length, known, known, entries.length + 1,
          retarget (entries.length + 1 + body.size + 1) action⟩
        :: body.layout (entries.length + 1) known
        ++ [⟨entries.length + 1 + body.size, body.leaving known,
          Descriptor.meetAll known (body.leaving known),
          if group = .loopBody then entries.length else entries.length + 1 + body.size + 1,
          .groupEnd entries.length group⟩]) :
    Passes (addBody names block (push entries known known (entries.length + 1) action)
        entries.length group first last)
      ((fun body => entries ++ (B body).layout entries.length known)
        <$> Block.parse names inner) := by
  rw [map_eq_pure_bind]
  refine passes_bind_map (hblock (by rwa [current_push]) hinner hfuel) ?_
  intro body _
  have hlayout : (body.layout (entries.length + 1) known).length = body.size :=
    Block.length_layout ..
  simp only [pushPassing_append_push, length_append_push]
  refine passes_check (setTarget_early rfl) (passes_lift ?_)
  rw [fixAll_eq _ _ false rfl (by rw [hlayout]) hknown (length_leaving hknown body), hB]
  rfl

/-- The blocks of an `if` and of its `else`. -/
theorem passes_addBodies (hblock : Adds names statements fuel block)
    (hknown : known.length = names.length) (hinner : Range statements tail (first + 1) last inner)
    (hfuel : inner.length < fuel)
    (hinner' : Range statements tail' (first' + 1) last' inner') (hfuel' : inner'.length < fuel) :
    Passes (addBodies names block
        (push entries known known (entries.length + 1) (.branch e (entries.length + 1) 0))
        entries.length known first last first' last')
      ((fun p => entries ++ (Block.ifElse e p.1 p.2 .done).layout entries.length known)
        <$> (do return (← Block.parse names inner, ← Block.parse names inner'))) := by
  rw [map_bind]
  refine passes_bind_map (hblock (by rwa [current_push]) hinner hfuel) ?_
  intro body _
  have hlayout : (body.layout (entries.length + 1) known).length = body.size :=
    Block.length_layout ..
  simp only [pushPassing_append_push, map_bind]
  refine passes_check (setTarget_push rfl) ?_
  refine passes_bind_map (hblock (by rwa [current_push]) hinner' hfuel') ?_
  intro body' _
  have hlayout' (pc : Nat) : (body'.layout pc known).length = body'.size := Block.length_layout ..
  simp only [pushPassing_append_push, length_append_push, length_meeting, hlayout, meeting_meeting]
  -- the ways meet at the ends of both blocks, so the header belongs to what is in front
  have hthen : entries.length + 1 + body.size
      = (entries ++ ⟨entries.length, known, known, entries.length + 1,
        retarget (entries.length + 1 + body.size + 1) (.branch e (entries.length + 1) 0)⟩
        :: body.layout (entries.length + 1) known).length := by
    rw [List.length_append, List.length_cons, hlayout]
    omega
  refine passes_check (setNext_early hthen) (passes_lift ?_)
  rw [fixAll_eq _ _ true hthen (by rw [← hthen, List.length_cons, hlayout']; omega)
    (length_leaving hknown body) (length_leaving hknown body')]
  simp only [meeting, Block.layout, List.append_assoc, List.cons_append]
  rfl

theorem passes_compileIn (names : List String) (text : String) :
    Passes (compileIn names text) (Block.compileExpr names text) := by
  refine passes_check (passes_compileExpr text names) ?_
  rw [Block.compileExpr]
  cases Expr.compile text names with
  | ok e => rfl
  | error cause =>
      cases cause with
      | unknownIdentifier => rfl
      | _ => rfl

theorem write_eq {var : Nat} {d : Descriptor} {action : Action} {name : String}
    (hcurrent : (current names.length entries).length = names.length)
    (hvar : Block.resolve names name = .ok var) :
    write names entries var d action = .ok (push entries (current names.length entries)
      ((current names.length entries).set var d) (entries.length + 1) action) := by
  have hlt := (List.idxOf?_eq_some_iff.mp (Block.resolve_eq_ok_iff.mp hvar)).1
  rw [write, define, ensure_bind (hcurrent.symm ▸ hlt)]
  rfl

section Step

variable {part : List String} {s cond : String} {i stop : Nat}
  {k : List Entry × Nat → CheckedM ProgramError (List Entry)}

/-- What is to be done after a statement: the statements `after` it are added,
where `B` says what the statement makes of their block. -/
def Continues (names statements tail : List String) (entries : List Entry) (stop fuel : Nat)
    (k : List Entry × Nat → CheckedM ProgramError (List Entry)) : Prop :=
  ∀ ⦃B : Block → Block⦄ ⦃after : List String⦄ ⦃next : Nat⦄,
    (∀ rest, append names.length entries (B rest)
      = append names.length (append names.length entries (B .done)) rest) →
    Range statements tail next stop after → after.length < fuel →
    Passes (k (append names.length entries (B .done), next))
      (append names.length entries <$> B <$> Block.parse names after)

theorem passes_addWhile (hblock : Adds names statements fuel block)
    (hcurrent : (current names.length entries).length = names.length)
    (hs : Statement.classify s = .ok (.whileHeader cond))
    (h : Range statements tail i stop (s :: part)) (hfuel : part.length < fuel)
    (hk : Continues names statements tail entries stop fuel k) :
    Passes (addWhile names statements block entries i cond >>= k)
      (append names.length entries <$> Block.parse names (s :: part)) := by
  obtain ⟨hopen, hclose⟩ := Block.ne_brace_of_classify hs (by simp) (by simp)
  have hpart := h.of_cons hopen hclose
  rw [Block.parse_while hs, map_bind, addWhile, bind_assoc]
  refine passes_bind (passes_compileIn names cond) ?_
  intro e _
  rw [map_bind, bind_assoc]
  refine passes_bind_map (hpart.passes_findBlock h.item_eq) ?_
  intro p hsplit
  obtain ⟨inner, after⟩ := p
  have hlength := Block.length_splitBlock hsplit
  dsimp only at hlength ⊢
  rw [map_bind, bind_assoc]
  refine passes_bind_map (passes_addBody (B := (.loop e · .done)) hblock hcurrent
    (hpart.inside hsplit) (by omega) fun _ => rfl) ?_
  intro body _
  rw [pure_bind, bind_pure_comp]
  exact hk (append_loop e body) (hpart.behind hsplit) (by omega)

/-- The blocks of an `if` whose `else` stands at `i`, and what follows them. -/
theorem passes_addElse (hblock : Adds names statements fuel block)
    (hcurrent : (current names.length entries).length = names.length)
    (hinner : Range statements tail' (first + 1) last inner) (hfuel : inner.length < fuel)
    (h : Range statements tail i stop ("else" :: part)) (hfuel' : part.length < fuel)
    (hk : Continues names statements tail entries stop fuel k) :
    Passes ((do
        let range ← findBlock statements i
        let known := current names.length entries
        let entries' ← addBodies names block
          (push entries known known (entries.length + 1) (.branch e (entries.length + 1) 0))
          entries.length known first last range.1 range.2
        return (entries', range.2 + 1)) >>= k)
      (append names.length entries <$> do
        let parts ← Block.splitBlock "else" part
        return .ifElse e (← Block.parse names inner) (← Block.parse names parts.1)
          (← Block.parse names parts.2)) := by
  have hpart := h.of_cons (by decide) (by decide)
  rw [map_bind, bind_assoc]
  refine passes_bind_map (hpart.passes_findBlock h.item_eq) ?_
  intro p hsplit
  obtain ⟨inner', after⟩ := p
  have hlength := Block.length_splitBlock hsplit
  have hbodies : (do
      let body ← Block.parse names inner
      let body' ← Block.parse names inner'
      let rest ← Block.parse names after
      return Block.ifElse e body body' rest)
      = (do return (← Block.parse names inner, ← Block.parse names inner'))
        >>= fun p => Block.ifElse e p.1 p.2 <$> Block.parse names after := by
    simp only [bind_assoc, bind_pure_comp, bind_map_left]
  dsimp only at hlength ⊢
  rw [hbodies, map_bind, bind_assoc]
  refine passes_bind_map (passes_addBodies hblock hcurrent hinner hfuel
    (hpart.inside hsplit) (by omega)) ?_
  intro bodies _
  rw [pure_bind]
  exact hk (append_ifElse e bodies.1 bodies.2) (hpart.behind hsplit) (by omega)

theorem passes_addIf (hblock : Adds names statements fuel block)
    (hcurrent : (current names.length entries).length = names.length)
    (hs : Statement.classify s = .ok (.ifHeader cond))
    (h : Range statements tail i stop (s :: part)) (hfuel : part.length < fuel)
    (hk : Continues names statements tail entries stop fuel k) :
    Passes (addIf names statements block entries i cond >>= k)
      (append names.length entries <$> Block.parse names (s :: part)) := by
  obtain ⟨hopen, hclose⟩ := Block.ne_brace_of_classify hs (by simp) (by simp)
  have hpart := h.of_cons hopen hclose
  rw [Block.parse_if hs, map_bind, addIf, bind_assoc]
  refine passes_bind (passes_compileIn names cond) ?_
  intro e _
  rw [map_bind, bind_assoc]
  refine passes_bind_map (hpart.passes_findBlock h.item_eq) ?_
  intro p hsplit
  obtain ⟨inner, after⟩ := p
  have hlength := Block.length_splitBlock hsplit
  have hafter := hpart.behind hsplit
  dsimp only at hlength ⊢
  rw [bind_assoc]
  refine passes_check (item_at rfl) ?_
  rw [bind_assoc]
  refine passes_check (skipWhile_nextStart ..) ?_
  -- the look ahead does not leave the range: it finds an `else` where the range has one
  cases helse : Block.afterElse? after with
  | none =>
      rw [if_neg (hafter.getElem?_nextStart_ne helse), bind_assoc]
      dsimp only
      rw [map_bind]
      refine passes_bind_map (passes_addBody (B := (.ifThen e · .done)) hblock hcurrent
        (hpart.inside hsplit) (by omega) fun _ => rfl) ?_
      intro body _
      rw [pure_bind, bind_pure_comp]
      exact hk (append_ifThen e body) hafter (by omega)
  | some rest =>
      have helseAt := hafter.fromElse helse
      have hlt := Block.length_afterElse? helse
      rw [if_pos (List.head?_drop ▸ helseAt.drop_eq ▸ rfl)]
      exact passes_addElse hblock hcurrent (hpart.inside hsplit) (by omega) helseAt (by omega) hk

/-- What one statement adds. -/
theorem passes_addStatement (hblock : Adds names statements fuel block)
    (hcurrent : (current names.length entries).length = names.length)
    (h : Range statements tail i stop (s :: part)) (hfuel : part.length < fuel)
    (hk : Continues names statements tail entries stop fuel k) :
    Passes (addStatement names statements block entries i s >>= k)
      (append names.length entries <$> Block.parse names (s :: part)) := by
  cases hs : Statement.classify s with
  | error e =>
      rw [addStatement, hs, Block.parse, hs]
      rfl
  | ok kind =>
      -- behind anything but a brace, the rest of the range is a range
      have hpart (hopen : kind ≠ .openBrace) (hclose : kind ≠ .closeBrace) :
          Range statements tail (i + 1) stop part := by
        obtain ⟨hopen, hclose⟩ := Block.ne_brace_of_classify hs hopen hclose
        exact h.of_cons hopen hclose
      rw [addStatement, hs, bind_assoc]
      refine passes_ok ?_
      cases kind with
      | ignored =>
          have hnext := hk (B := id) (fun rest => by rw [id, id, append_done])
            (hpart (by simp) (by simp)) hfuel
          rw [id_map, id, append_done] at hnext
          rw [pure_bind, Block.parse_ignored hs]
          exact hnext
      | read name =>
          rw [Block.parse_read hs, map_bind, bind_assoc]
          refine passes_bind (passes_ofExcept _) ?_
          intro var hvar
          rw [bind_assoc]
          refine passes_check (write_eq hcurrent hvar) ?_
          rw [pure_bind, bind_pure_comp]
          exact hk (append_read var) (hpart (by simp) (by simp)) hfuel
      | assign name rhs =>
          rw [Block.parse_assign hs, map_bind, bind_assoc]
          refine passes_bind (passes_ofExcept _) ?_
          intro var hvar
          rw [map_bind, bind_assoc]
          refine passes_bind (passes_compileIn names rhs) ?_
          intro e _
          rw [bind_assoc]
          refine passes_check (write_eq hcurrent hvar) ?_
          rw [pure_bind, bind_pure_comp]
          exact hk (append_assign var e) (hpart (by simp) (by simp)) hfuel
      | ifHeader cond => exact passes_addIf hblock hcurrent hs h hfuel hk
      | whileHeader cond => exact passes_addWhile hblock hcurrent hs h hfuel hk
      | openBrace =>
          rw [Block.parse, hs]
          rfl
      | closeBrace =>
          rw [Block.parse, hs]
          rfl
      | elseHeader =>
          rw [Block.parse, hs]
          rfl

/-- What all statements of a range add. -/
theorem adds_blockWithin (names statements : List String) (fuel : Nat) :
    Adds names statements fuel (blockWithin names statements fuel) := by
  induction fuel with
  | zero =>
      intro entries tail part i stop _ _ hfuel
      exact absurd hfuel (Nat.not_lt_zero _)
  | succ fuel ih =>
      intro entries tail part i stop hcurrent h hfuel
      have hstop := h.stop_eq
      rw [blockWithin]
      cases part with
      | nil =>
          rw [if_pos (by rw [hstop]; exact Nat.le_refl i), Block.parse]
          show Passes _ (.ok (append names.length entries .done))
          rw [append_done]
          rfl
      | cons s part =>
          rw [List.length_cons] at hstop hfuel
          rw [if_neg (by omega)]
          refine passes_check h.item_eq ?_
          refine passes_addStatement ih hcurrent h (by omega) ?_
          intro B after next hB hafter hlength
          -- the entries of `B rest` are those of the statement and then those of `rest`
          have hnext : (current names.length (append names.length entries (B .done))).length
              = names.length := by
            rw [current_append]
            exact length_leaving hcurrent (B .done)
          rw [Functor.map_map, funext hB]
          exact ih hnext hafter hlength

/-- The entries of all statements are the layout of their block. -/
theorem passes_entriesOf (names statements : List String) : Passes (entriesOf names statements)
    ((fun P => (ControlTable.ofBlock names.length P).entries)
      <$> Block.parse names statements) := by
  have hrange : Range statements [] 0 statements.length statements := {
    drop_eq := (List.append_nil statements).symm
    stop_eq := (Nat.zero_add _).symm
    closed := .inl rfl }
  exact adds_blockWithin names statements (statements.length + 1) List.length_replicate hrange
    (Nat.lt_succ_self _)

theorem ofEntries?_ofBlock (numVars : Nat) (P : Block) :
    ofEntries? (ControlTable.ofBlock numVars P).entries = ControlTable.ofBlock? numVars P := by
  have hsize : (ControlTable.ofBlock numVars P).entries.length = P.size :=
    ControlTable.size_ofBlock
  rw [ofEntries?, ControlTable.ofBlock?, hsize]

/-- The builder that goes by indices builds the same tables, and fails for the
same reasons. -/
theorem passes_build (names statements : List String) :
    Passes (build names statements) (ControlTable.build names statements) := by
  refine passes_bind_map (passes_entriesOf names statements) ?_
  intro P _
  rw [ofEntries?_ofBlock]
  exact passes_ofExcept _

end Step

end Statements

end BranchingTime.Guarded
