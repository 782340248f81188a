import BranchingTime.Proofs.BlockSemantics

/-!
# Tables of well-nested programs

A list of statements has a table exactly when it is well nested, its names
are declared, its expressions compile, and its entries fit. `Nested` is that
grammar without a word about names or expressions, and counts the entries.

In the table, the entries that start a group and those that end one match
like brackets (`Groups`). All jumps are told by that matching: a loop jumps
back from the end of its group, and what is skipped is skipped up to just
past the end of its group (`Entry.LaidAt`).
-/

namespace BranchingTime

/-! ## Well-nested statements -/

/-- All that a statement says of variables makes sense over the names. -/
def Statement.Resolved (names : List String) : Statement → Prop
  | read name => name ∈ names
  | assign name rhs => name ∈ names ∧ ∃ e, Expr.compile rhs names = .ok e
  | ifHeader cond | whileHeader cond => ∃ e, Expr.compile cond names = .ok e
  | elseHeader | openBrace | closeBrace | ignored => True

/-- The statement assigns a right-hand side: what follows its first `=`, without
the blanks around it. That part has the characters of arithmetic only. -/
def Statement.Assigns (s name rhs : String) : Prop :=
  ∃ left right, Text.splitFirst? '=' s.toList = some (left, right)
    ∧ name.toList = Text.trimEnd left ∧ rhs.toList = Text.trim right
    ∧ ∀ c ∈ right, isExpressionChar c = true

theorem Statement.assigns_of_classify {s name rhs : String}
    (h : classify s = .ok (.assign name rhs)) : Assigns s name rhs := by
  unfold classify at h
  simp only at h
  have hassign : assignment? s.toList = some (name, rhs) := by
    repeat' split at h
    all_goals cases h
    assumption
  unfold assignment? at hassign
  obtain ⟨⟨left, right⟩, hsplit, h⟩ := Option.bind_eq_some_iff.mp hassign
  simp only at h
  split at h
  · next hcond =>
      cases h
      simp only [Bool.and_eq_true, List.all_eq_true] at hcond
      exact ⟨left, right, hsplit, String.toList_ofList, String.toList_ofList, hcond.2⟩
  · cases h

namespace Block

/-- Well-nested lists of statements, and how many entries they take. -/
inductive Nested : List String → Nat → Prop
  | done : Nested [] 0
  | ignored {s : String} {rest : List String} {n : Nat}
      (hs : Statement.classify s = .ok .ignored) (h : Nested rest n) : Nested (s :: rest) n
  | read {s name : String} {rest : List String} {n : Nat}
      (hs : Statement.classify s = .ok (.read name)) (h : Nested rest n) :
      Nested (s :: rest) (1 + n)
  | assign {s name rhs : String} {rest : List String} {n : Nat}
      (hs : Statement.classify s = .ok (.assign name rhs)) (h : Nested rest n) :
      Nested (s :: rest) (1 + n)
  | ifThen {s cond : String} {gap k n : Nat} {part rest : List String}
      (hs : Statement.classify s = .ok (.ifHeader cond)) (hpart : Nested part k)
      (h : Nested rest n) : Nested (s :: (braced gap part ++ rest)) (2 + k + n)
  | ifElse {s cond : String} {gap gap' gap'' k k' n : Nat} {part part' rest : List String}
      (hs : Statement.classify s = .ok (.ifHeader cond)) (hpart : Nested part k)
      (hpart' : Nested part' k') (h : Nested rest n) :
      Nested
        (s :: (braced gap part
          ++ (List.replicate gap' "" ++ "else" :: (braced gap'' part' ++ rest))))
        (4 + k + k' + n)
  | loop {s cond : String} {gap k n : Nat} {part rest : List String}
      (hs : Statement.classify s = .ok (.whileHeader cond)) (hpart : Nested part k)
      (h : Nested rest n) : Nested (s :: (braced gap part ++ rest)) (2 + k + n)

section Grammar

variable {names l part : List String} {b : Block} {n : Nat}

theorem Reads.nested (h : Reads names l b) : Nested l b.size := by
  induction h with
  | done => exact .done
  | ignored hs _ ih => exact .ignored hs ih
  | read hs _ _ ih => exact .read hs ih
  | assign hs _ _ _ ih => exact .assign hs ih
  | ifThen hs _ _ _ ihb ih => exact .ifThen hs ihb ih
  | ifElse hs _ _ _ _ ihb ihb' ih => exact .ifElse hs ihb ihb' ih
  | loop hs _ _ _ ihb ih => exact .loop hs ihb ih

/-- The statement is one, and makes sense over the names. -/
def Fine (names : List String) (s : String) : Prop :=
  ∃ kind, Statement.classify s = .ok kind ∧ kind.Resolved names

theorem Fine.resolved {s : String} {kind : Statement} (h : Fine names s)
    (hs : Statement.classify s = .ok kind) : kind.Resolved names := by
  obtain ⟨kind', hs', hkind⟩ := h
  obtain rfl := Except.ok.inj (hs.symm.trans hs')
  exact hkind

theorem mem_iff_idxOf? {name : String} : name ∈ names ↔ ∃ i, names.idxOf? name = some i := by
  rw [← not_iff_not, ← List.idxOf?_eq_none_iff, Option.eq_none_iff_forall_ne_some, not_exists]

theorem forall_fine_replicate (gap : Nat) : ∀ s ∈ List.replicate gap "", Fine names s := by
  intro s hs
  obtain rfl := (List.mem_replicate.mp hs).2
  exact ⟨.ignored, by decide +kernel, trivial⟩

theorem forall_fine_braced {gap : Nat} :
    (∀ s ∈ braced gap part, Fine names s) ↔ ∀ s ∈ part, Fine names s := by
  constructor
  · intro h s hs
    exact h s (by simp [braced, hs])
  · intro h s hs
    simp only [braced, List.append_assoc, List.mem_append, List.cons_append, List.mem_cons,
      List.not_mem_nil, or_false] at hs
    rcases hs with hs | rfl | hs | rfl
    · exact forall_fine_replicate gap s hs
    · exact ⟨.openBrace, by decide +kernel, trivial⟩
    · exact h s hs
    · exact ⟨.closeBrace, by decide +kernel, trivial⟩

theorem Reads.forall_fine (h : Reads names l b) : ∀ s ∈ l, Fine names s := by
  induction h with
  | done => exact List.forall_mem_nil _
  | ignored hs _ ih => exact List.forall_mem_cons.mpr ⟨⟨_, hs, trivial⟩, ih⟩
  | read hs hvar _ ih =>
      exact List.forall_mem_cons.mpr ⟨⟨_, hs, mem_iff_idxOf?.mpr ⟨_, hvar⟩⟩, ih⟩
  | assign hs hvar he _ ih =>
      exact List.forall_mem_cons.mpr ⟨⟨_, hs, mem_iff_idxOf?.mpr ⟨_, hvar⟩, _, he⟩, ih⟩
  | ifThen hs he _ _ ihb ih | loop hs he _ _ ihb ih =>
      simp only [List.forall_mem_cons, List.forall_mem_append, forall_fine_braced]
      exact ⟨⟨_, hs, _, he⟩, ihb, ih⟩
  | ifElse hs he _ _ _ ihb ihb' ih =>
      simp only [List.forall_mem_cons, List.forall_mem_append, forall_fine_braced]
      exact ⟨⟨_, hs, _, he⟩, ihb, forall_fine_replicate _,
        ⟨.elseHeader, by decide +kernel, trivial⟩, ihb', ih⟩

/-- An entry that assigns comes from a statement that assigns. -/
theorem Reads.exists_assigns {pc var : Nat} {known : List Descriptor} {e : Entry} {rhs : Expr}
    (h : Reads names l b) (he : e ∈ b.layout pc known) (hact : e.action = .assign var rhs) :
    ∃ s ∈ l, ∃ name, Statement.Assigns s name rhs.text ∧ names.idxOf? name = some var
      ∧ Expr.compile rhs.text names = .ok rhs := by
  induction h generalizing pc known with
  | done => cases he
  | ignored hs _ ih =>
      obtain ⟨s, hs, hname⟩ := ih he
      exact ⟨s, List.mem_cons_of_mem _ hs, hname⟩
  | read hs _ _ ih =>
      rcases List.mem_cons.mp he with rfl | he
      · cases hact
      · obtain ⟨s, hs, hname⟩ := ih he
        exact ⟨s, List.mem_cons_of_mem _ hs, hname⟩
  | assign hs hvar hc _ ih =>
      rcases List.mem_cons.mp he with rfl | he
      · cases hact
        obtain ⟨code, hcode, hrhs⟩ := exists_of_bind_eq_ok hc
        cases hrhs
        exact ⟨_, List.mem_cons_self, _, Statement.assigns_of_classify hs, hvar, hc⟩
      · obtain ⟨s, hs, hname⟩ := ih he
        exact ⟨s, List.mem_cons_of_mem _ hs, hname⟩
  | ifThen hs _ _ _ ihb ih | loop hs _ _ _ ihb ih =>
      simp only [layout, List.cons_append, List.mem_cons, List.mem_append] at he
      rcases he with rfl | he | rfl | he
      · cases hact
      · obtain ⟨s, hs, hname⟩ := ihb he
        exact ⟨s, by simp [braced, hs], hname⟩
      · cases hact
      · obtain ⟨s, hs, hname⟩ := ih he
        exact ⟨s, by simp [hs], hname⟩
  | ifElse hs _ _ _ _ ihb ihb' ih =>
      simp only [layout, List.cons_append, List.mem_cons, List.mem_append] at he
      rcases he with rfl | (he | rfl | rfl | he) | rfl | he
      · cases hact
      · obtain ⟨s, hs, hname⟩ := ihb he
        exact ⟨s, by simp [braced, hs], hname⟩
      · cases hact
      · cases hact
      · obtain ⟨s, hs, hname⟩ := ihb' he
        exact ⟨s, by simp [braced, hs], hname⟩
      · cases hact
      · obtain ⟨s, hs, hname⟩ := ih he
        exact ⟨s, by simp [hs], hname⟩

/-- What is well nested and makes sense can be read. -/
theorem Nested.exists_reads (h : Nested l n) (hfine : ∀ s ∈ l, Fine names s) :
    ∃ b, Reads names l b ∧ b.size = n := by
  induction h with
  | done => exact ⟨.done, .done, rfl⟩
  | ignored hs _ ih =>
      obtain ⟨b, hb, hsize⟩ := ih (List.forall_mem_cons.mp hfine).2
      exact ⟨b, .ignored hs hb, hsize⟩
  | read hs _ ih =>
      obtain ⟨hhead, hrest⟩ := List.forall_mem_cons.mp hfine
      obtain ⟨var, hvar⟩ := mem_iff_idxOf?.mp (hhead.resolved hs)
      obtain ⟨b, hb, rfl⟩ := ih hrest
      exact ⟨.read var b, .read hs hvar hb, rfl⟩
  | assign hs _ ih =>
      obtain ⟨hhead, hrest⟩ := List.forall_mem_cons.mp hfine
      obtain ⟨hname, e, he⟩ := hhead.resolved hs
      obtain ⟨var, hvar⟩ := mem_iff_idxOf?.mp hname
      obtain ⟨b, hb, rfl⟩ := ih hrest
      exact ⟨.assign var e b, .assign hs hvar he hb, rfl⟩
  | ifThen hs _ _ ihb ih =>
      simp only [List.forall_mem_cons, List.forall_mem_append, forall_fine_braced] at hfine
      obtain ⟨hhead, hpart, hrest⟩ := hfine
      obtain ⟨e, he⟩ := hhead.resolved hs
      obtain ⟨body, hbody, rfl⟩ := ihb hpart
      obtain ⟨b, hb, rfl⟩ := ih hrest
      exact ⟨.ifThen e body b, .ifThen hs he hbody hb, rfl⟩
  | ifElse hs _ _ _ ihb ihb' ih =>
      simp only [List.forall_mem_cons, List.forall_mem_append, forall_fine_braced] at hfine
      obtain ⟨hhead, hpart, -, -, hpart', hrest⟩ := hfine
      obtain ⟨e, he⟩ := hhead.resolved hs
      obtain ⟨body, hbody, rfl⟩ := ihb hpart
      obtain ⟨body', hbody', rfl⟩ := ihb' hpart'
      obtain ⟨b, hb, rfl⟩ := ih hrest
      exact ⟨.ifElse e body body' b, .ifElse hs he hbody hbody' hb, rfl⟩
  | loop hs _ _ ihb ih =>
      simp only [List.forall_mem_cons, List.forall_mem_append, forall_fine_braced] at hfine
      obtain ⟨hhead, hpart, hrest⟩ := hfine
      obtain ⟨e, he⟩ := hhead.resolved hs
      obtain ⟨body, hbody, rfl⟩ := ihb hpart
      obtain ⟨b, hb, rfl⟩ := ih hrest
      exact ⟨.loop e body b, .loop hs he hbody hb, rfl⟩

end Grammar

end Block

/-! ## Groups of entries -/

namespace Action

/-- The group that starts with an entry. -/
def opens? : Action → Option Group
  | branch .. => some .thenPart
  | elseMark _ => some .elsePart
  | loop .. => some .loopBody
  | read _ | assign .. | groupEnd .. => none

/-- The group that ends with an entry. -/
def closes? : Action → Option Group
  | groupEnd _ group => some group
  | _ => none

theorem opens?_of_closes? {a : Action} {group : Group} (h : a.closes? = some group) :
    a.opens? = none := by
  cases a <;> first | rfl | cases h

end Action

/-- Entries of which all groups start and end among them. -/
inductive Entry.Closed : List Entry → Prop
  | nil : Closed []
  | plain {e : Entry} {l : List Entry} (hopens : e.action.opens? = none)
      (hcloses : e.action.closes? = none) (h : Closed l) : Closed (e :: l)
  | group {e e' : Entry} {group : Group} {l l' : List Entry}
      (hopens : e.action.opens? = some group) (hinner : Closed l)
      (hcloses : e'.action.closes? = some group) (h : Closed l') : Closed (e :: (l ++ e' :: l'))

open Block (Segment)

namespace ControlTable

/-- The group that starts at `i` ends at `j`. -/
def Groups (t : ControlTable) (i j : Nat) : Prop :=
  ∃ (e e' : Entry) (group : Group) (inner : List Entry),
    e.action.opens? = some group ∧ e'.action.closes? = some group ∧ Entry.Closed inner
      ∧ Segment t i (e :: (inner ++ [e'])) ∧ j = i + 1 + inner.length

/-- A group starts at `i`, and `pc` is just past its end. -/
def PastGroup (t : ControlTable) (i pc : Nat) : Prop :=
  (∃ j, t.Groups i j) ∧ ∀ j, t.Groups i j → pc = j + 1

/-- The `else` of the header stands at `pc`. -/
def ElseAt (t : ControlTable) (header pc : Nat) : Prop :=
  ∃ e, t.entry? pc = some e ∧ e.action = .elseMark header

end ControlTable

/-- The entry at `i` leads where the groups of the table say. A condition
that fails skips the group of its header, which for an `if` with an `else`
leads to the `else`; the end of a loop leads back to the header that its
group starts with, and the end of the first branch past the second one. -/
def Entry.LaidAt (t : ControlTable) (i : Nat) (e : Entry) : Prop :=
  e.pc = i ∧
  match e.action with
  | .read _ | .assign .. => e.next = i + 1
  | .branch _ yesPc noPc | .loop _ yesPc noPc =>
    e.next = i + 1 ∧ yesPc = i + 1 ∧ t.PastGroup i noPc
  | .elseMark header => e.next = i + 1 ∧ t.PastGroup header i
  | .groupEnd header .loopBody => t.Groups header i ∧ e.next = header
  | .groupEnd header .thenPart =>
    t.Groups header i ∧
      (t.ElseAt header (i + 1) ∧ t.PastGroup (i + 1) e.next
        ∨ (∀ header', ¬ t.ElseAt header' (i + 1)) ∧ e.next = i + 1)
  | .groupEnd header .elsePart =>
    (∃ k, t.ElseAt header k ∧ t.Groups k i) ∧ e.next = i + 1

namespace Entry.Closed

/-- Where the first group ends that has not started does not depend on how
it is found. -/
theorem eq_of_append {l l' r r' : List Entry} {e e' : Entry} {group group' : Group}
    (h : Closed l) (h' : Closed l') (hcloses : e.action.closes? = some group)
    (hcloses' : e'.action.closes? = some group') (heq : l ++ e :: r = l' ++ e' :: r') :
    l = l' := by
  induction h generalizing l' r r' e e' group group' with
  | nil =>
      cases h' with
      | nil => rfl
      | plain _ hplain =>
          obtain rfl := (List.cons.inj heq).1
          simp [hplain] at hcloses
      | group hopens =>
          obtain rfl := (List.cons.inj heq).1
          simp [Action.opens?_of_closes? hcloses] at hopens
  | @plain x l hopens hplain _ ih =>
      cases h' with
      | nil =>
          obtain rfl := (List.cons.inj heq).1
          simp [hplain] at hcloses'
      | plain _ _ h' =>
          obtain ⟨rfl, htail⟩ := List.cons.inj heq
          rw [ih h' hcloses hcloses' htail]
      | group hopens' =>
          obtain rfl := (List.cons.inj heq).1
          simp [hopens] at hopens'
  | @group x y _ inner l hopens _ hends _ ihinner ih =>
      cases h' with
      | nil =>
          obtain rfl := (List.cons.inj heq).1
          simp [Action.opens?_of_closes? hcloses'] at hopens
      | plain hplain =>
          obtain rfl := (List.cons.inj heq).1
          simp [hplain] at hopens
      | group _ hinner' hends' h' =>
          simp only [List.cons_append, List.append_assoc] at heq
          obtain ⟨rfl, htail⟩ := List.cons.inj heq
          obtain rfl := ihinner hinner' hends hends' htail
          obtain ⟨rfl, hrest⟩ := List.cons.inj (List.append_cancel_left htail)
          rw [ih h' hcloses hcloses' hrest]

end Entry.Closed

namespace ControlTable

variable {t : ControlTable} {i j j' : Nat}

theorem segment_iff_isPrefix {pc : Nat} {l : List Entry} :
    Segment t pc l ↔ l <+: t.entries.drop pc := by
  rw [List.prefix_iff_getElem?]
  constructor
  · intro h k hk
    rw [List.getElem?_drop]
    exact h k _ (List.getElem?_eq_getElem hk)
  · intro h k e he
    obtain ⟨hk, rfl⟩ := List.getElem?_eq_some_iff.mp he
    have := h k hk
    rwa [List.getElem?_drop] at this

/-- A group has one end. -/
theorem Groups.unique (h : t.Groups i j) (h' : t.Groups i j') : j = j' := by
  obtain ⟨e, e₁, group, l, -, hcloses, hclosed, hseg, rfl⟩ := h
  obtain ⟨e', e₁', group', l', -, hcloses', hclosed', hseg', rfl⟩ := h'
  have heq : l = l' := by
    rcases List.prefix_or_prefix_of_prefix (segment_iff_isPrefix.mp hseg)
      (segment_iff_isPrefix.mp hseg') with ⟨r, hr⟩ | ⟨r, hr⟩
    · rw [List.cons_append, List.append_assoc] at hr
      exact hclosed.eq_of_append hclosed' hcloses hcloses' (List.cons.inj hr).2
    · rw [List.cons_append, List.append_assoc] at hr
      exact (hclosed'.eq_of_append hclosed hcloses' hcloses (List.cons.inj hr).2).symm
  rw [heq]

theorem Groups.pastGroup (h : t.Groups i j) : t.PastGroup i (j + 1) :=
  ⟨⟨j, h⟩, fun _ h' => congrArg (· + 1) (h.unique h')⟩

end ControlTable

/-! ## The layout of a block -/

namespace Block

theorem closed_layout (P : Block) (pc : Nat) (known : List Descriptor) :
    Entry.Closed (P.layout pc known) := by
  induction P generalizing pc known with
  | done => exact .nil
  | read var rest ih => exact .plain rfl rfl (ih ..)
  | assign var rhs rest ih => exact .plain rfl rfl (ih ..)
  | ifThen cond body rest ihb ih => exact .group rfl (ihb ..) rfl (ih ..)
  | loop cond body rest ihb ih => exact .group rfl (ihb ..) rfl (ih ..)
  | ifElse cond body body' rest ihb ihb' ih =>
      simp only [layout, List.cons_append, List.append_assoc]
      exact .group rfl (ihb ..) rfl (.group rfl (ihb' ..) rfl (ih ..))

section Laid

variable {t : ControlTable} {pc : Nat} {e : Entry} {l l' : List Entry} {known : List Descriptor}

/-- All these entries, which stand from `pc` on, lead where the groups of
the table say. -/
def Laid (t : ControlTable) (pc : Nat) (l : List Entry) : Prop :=
  ∀ (k : Nat) (e : Entry), l[k]? = some e → e.LaidAt t (pc + k)

namespace Laid

theorem nil : Laid t pc [] := by simp [Laid]

theorem cons (h : e.LaidAt t pc) (hl : Laid t (pc + 1) l) : Laid t pc (e :: l) := by
  intro k e' hk
  cases k with
  | zero =>
      obtain rfl := Option.some.inj hk
      exact h
  | succ k =>
      rw [Nat.add_comm k, ← Nat.add_assoc]
      exact hl k e' hk

theorem append (hl : Laid t pc l) (hl' : Laid t (pc + l.length) l') : Laid t pc (l ++ l') := by
  intro k e hk
  rw [List.getElem?_append] at hk
  split at hk
  · exact hl k e hk
  · next hlt =>
      have := hl' _ e hk
      rwa [Nat.add_assoc, Nat.add_sub_of_le (Nat.le_of_not_lt hlt)] at this

end Laid

/-- The entry at `pc`, if there is one, is no `else`. -/
def NoElse (t : ControlTable) (pc : Nat) : Prop := ∀ header, ¬ t.ElseAt header pc

theorem noElse_of_entry (h : t.entry? pc = some e) (he : ∀ header, e.action ≠ .elseMark header) :
    NoElse t pc := by
  intro header ⟨e', he', hmark⟩
  obtain rfl := Option.some.inj (h.symm.trans he')
  exact he header hmark

/-- A block does not start with an `else`, so one that it starts with is not
in the block. -/
theorem Segment.noElse {P : Block} (h : Segment t pc (P.layout pc known))
    (hout : NoElse t (pc + P.size)) : NoElse t pc := by
  cases P with
  | done => exact hout
  | read | assign | ifThen | ifElse | loop => exact noElse_of_entry h.head (by simp)

/-- A body between the entries that start and end its group. -/
theorem Segment.framed {n : Nat} {e' : Entry} {group : Group} {body : Block} {rest : List Entry}
    (h : Segment t n (e :: (body.layout (n + 1) known ++ e' :: rest)))
    (hopens : e.action.opens? = some group) (hcloses : e'.action.closes? = some group) :
    t.Groups n (n + 1 + body.size) ∧ Segment t (n + 1) (body.layout (n + 1) known)
      ∧ NoElse t (n + 1 + body.size) ∧ Segment t (n + 1 + body.size) (e' :: rest) := by
  have hend := h.tail.right
  rw [length_layout] at hend
  have hclosed := body.closed_layout (n + 1) known
  have hinner : Segment t n ((e :: (body.layout (n + 1) known ++ [e'])) ++ rest) := by
    rwa [List.cons_append, List.append_assoc]
  refine ⟨⟨e, e', group, _, hopens, hcloses, hclosed, hinner.left, by rw [length_layout]⟩,
    h.tail.left, noElse_of_entry hend.head fun header hmark => ?_, hend⟩
  rw [hmark] at hcloses
  cases hcloses

theorem Laid.framed {n : Nat} {e' : Entry} {body : Block} {rest : List Entry}
    (hstart : e.LaidAt t n) (hbody : Laid t (n + 1) (body.layout (n + 1) known))
    (hend : e'.LaidAt t (n + 1 + body.size)) (hrest : Laid t (n + 1 + body.size + 1) rest) :
    Laid t n (e :: (body.layout (n + 1) known ++ e' :: rest)) := by
  refine .cons hstart (hbody.append ?_)
  rw [length_layout]
  exact .cons hend hrest

/-- A block is laid out by its groups, where no `else` follows it. -/
theorem Segment.laid {P : Block} (h : Segment t pc (P.layout pc known))
    (hout : NoElse t (pc + P.size)) : Laid t pc (P.layout pc known) := by
  induction P generalizing pc known with
  | done => exact .nil
  | read var rest ih =>
      rw [size, ← Nat.add_assoc] at hout
      exact .cons ⟨rfl, rfl⟩ (ih h.tail hout)
  | assign var rhs rest ih =>
      rw [size, ← Nat.add_assoc] at hout
      exact .cons ⟨rfl, rfl⟩ (ih h.tail hout)
  | ifThen cond body rest ihb ih =>
      obtain ⟨hgroup, hbody, hno, hend⟩ := Segment.framed h rfl rfl
      replace hout : NoElse t (pc + 1 + body.size + 1 + rest.size) := by
        rw [size] at hout
        convert hout using 1
        omega
      exact .framed ⟨rfl, rfl, rfl, hgroup.pastGroup⟩ (ihb hbody hno)
        ⟨rfl, hgroup, .inr ⟨hend.tail.noElse hout, rfl⟩⟩ (ih hend.tail hout)
  | ifElse cond body body' rest ihb ihb' ih =>
      simp only [layout, List.cons_append, List.append_assoc] at h ⊢
      obtain ⟨hgroup, hbody, hno, hend⟩ := h.framed rfl rfl
      obtain ⟨hgroup', hbody', hno', hend'⟩ := hend.tail.framed rfl rfl
      have helse : t.ElseAt pc (pc + 1 + body.size + 1) := ⟨_, hend.tail.head, rfl⟩
      replace hout : NoElse t (pc + 1 + body.size + 1 + 1 + body'.size + 1 + rest.size) := by
        rw [size] at hout
        convert hout using 1
        omega
      exact .framed ⟨rfl, rfl, rfl, hgroup.pastGroup⟩ (ihb hbody hno)
        ⟨rfl, hgroup, .inl ⟨helse, hgroup'.pastGroup⟩⟩
        (.framed ⟨rfl, rfl, hgroup.pastGroup⟩ (ihb' hbody' hno')
          ⟨rfl, ⟨_, helse, hgroup'⟩, rfl⟩ (ih hend'.tail hout))
  | loop cond body rest ihb ih =>
      obtain ⟨hgroup, hbody, hno, hend⟩ := Segment.framed h rfl rfl
      replace hout : NoElse t (pc + 1 + body.size + 1 + rest.size) := by
        rw [size] at hout
        convert hout using 1
        omega
      exact .framed ⟨rfl, rfl, rfl, hgroup.pastGroup⟩ (ihb hbody hno) ⟨rfl, hgroup, rfl⟩
        (ih hend.tail hout)

end Laid

end Block

/-! ## Tables that are built -/

namespace ControlTable

variable {names statements : List String} {table : ControlTable}

theorem exists_build_iff :
    (∃ table, build names statements = .ok table) ↔
      (∀ s ∈ statements, Block.Fine names s)
        ∧ ∃ n, Block.Nested statements n ∧ n ≤ maxEntries := by
  simp only [build_eq_ok_iff]
  constructor
  · rintro ⟨_, P, hP, hsize, -⟩
    exact ⟨hP.forall_fine, P.size, hP.nested, hsize⟩
  · rintro ⟨hfine, n, hn, hle⟩
    obtain ⟨P, hP, rfl⟩ := hn.exists_reads hfine
    exact ⟨_, P, hP, hle, rfl⟩

theorem laidAt_ofBlock {numVars i : Nat} {P : Block} {e : Entry}
    (h : ControlTable.entry? (ofBlock numVars P) i = some e) : e.LaidAt (ofBlock numVars P) i := by
  have hseg : Segment (ofBlock numVars P) 0 (P.layout 0 (List.replicate numVars .undefined)) := by
    intro k e hk
    rwa [Nat.zero_add]
  have hout : Block.NoElse (ofBlock numVars P) (0 + P.size) := by
    rintro header ⟨e', he', -⟩
    rw [Nat.zero_add, entry?_ofBlock_size] at he'
    cases he'
  have := Block.Segment.laid hseg hout i e h
  rwa [Nat.zero_add] at this

/-- A list of statements has a table exactly when every statement is one
that makes sense over the names, the list is well nested, and the entries it
takes are at most 255. The table has that many entries, each leads where the
groups of the table say, and none leads past the end of the program. -/
theorem build_exact (names statements : List String) :
    ((∃ table, build names statements = .ok table) ↔
      (∀ s ∈ statements, ∃ kind, Statement.classify s = .ok kind ∧ kind.Resolved names)
        ∧ ∃ n, Block.Nested statements n ∧ n ≤ 255)
    ∧ ∀ table, build names statements = .ok table →
      Block.Nested statements table.size ∧ table.size ≤ 255
        ∧ ∀ i e, table.entry? i = some e →
          e.LaidAt table i ∧ ∀ target ∈ e.targets, target ≤ table.size := by
  refine ⟨exists_build_iff, fun table h => ?_⟩
  have hrange := inRange_of_build h
  obtain ⟨P, hP, -, rfl⟩ := build_eq_ok_iff.mp h
  refine ⟨size_ofBlock.symm ▸ hP.nested, hrange.size_le, fun i e he => ⟨laidAt_ofBlock he, ?_⟩⟩
  exact fun target htarget => hrange.targets_le (List.mem_of_getElem? he) htarget

/-- A loop around a statement with two branches: the loop's group ends with
its last entry, and the end of the first branch leads past the second. -/
theorem build_exact_branches :
    ∃ table, build ["x"] ["read(x)", "while (x > 0)", "\x7b", "if (x == 1)", "", "\x7b",
        "x = x - 1", "\x7d", "", "else", "\x7b", "\x7d", "\x7d"] = .ok table
      ∧ table.size = 8 ∧ (table.Groups 1 7 ∧ table.PastGroup 1 8) ∧ table.PastGroup 5 7 := by
  let P : Block := .read 0 (.loop ⟨"x > 0", [.var 0 "x", .num 0, .binary .gt]⟩
    (.ifElse ⟨"x == 1", [.var 0 "x", .num 1, .binary .eq]⟩
      (.assign 0 ⟨"x - 1", [.var 0 "x", .num 1, .binary .sub]⟩ .done) .done .done) .done)
  have hbuild : build ["x"] ["read(x)", "while (x > 0)", "\x7b", "if (x == 1)", "", "\x7b",
      "x = x - 1", "\x7d", "", "else", "\x7b", "\x7d", "\x7d"] = .ok (ofBlock 1 P) := by
    decide +kernel
  obtain ⟨-, -, hlaid⟩ := (build_exact _ _).2 _ hbuild
  have hloop := (hlaid 1 _ rfl).1.2.2.2
  have hend := (hlaid 7 _ rfl).1.2.1
  have hthen : PastGroup (ofBlock 1 P) 5 7 := by
    rcases (hlaid 4 _ rfl).1.2.2 with ⟨-, hpast⟩ | ⟨-, hnext⟩
    · exact hpast
    · cases hnext
  exact ⟨_, hbuild, rfl, ⟨hend, hloop⟩, hthen⟩

end ControlTable

end BranchingTime
