import Mathlib.Data.List.Chain
import Mathlib.Data.List.TakeWhile
import BranchingTime.Program.Source
import BranchingTime.Proofs.Continuations
import BranchingTime.Proofs.MaximalMunch
import BranchingTime.Proofs.TextPieces

/-!
# The normal form of a program

The parts of a text have no comment markers, and each is a brace or has no
brace (`whole_of_mem_parts`, `not_marked_of_mem_parts`). A part that declares
no variable becomes a statement in normal form (`Normal`): it has no
semicolon, no blanks but spaces, and none at its ends. The names that are
declared are different identifiers, none of them reserved (`Declarable`), and
this is all that a text needs to be accepted (`parse_eq_ok_iff`).
-/

namespace BranchingTime.Program

open Text

variable {cs part : List Char} {c : Char}

/-! ## Comment markers -/

/-- The two slashes that start a comment are in the text. -/
def Marked (cs : List Char) : Prop := ['/', '/'] <:+: cs

instance (cs : List Char) : Decidable (Marked cs) :=
  inferInstanceAs (Decidable (['/', '/'] <:+: cs))

/-- Not both are slashes. -/
def Apart (a b : Char) : Prop := a = '/' → b ≠ '/'

theorem not_marked_iff : ¬ Marked cs ↔ cs.IsChain Apart := by
  rw [List.isChain_iff_forall_rel_of_append_cons_cons]
  constructor
  · rintro h a b l₁ l₂ rfl rfl rfl
    exact h ⟨l₁, l₂, by simp⟩
  · rintro h ⟨l₁, l₂, hcs⟩
    have hcs' : cs = l₁ ++ '/' :: '/' :: l₂ := by rw [← hcs]; simp
    exact h hcs' rfl rfl

/-- A line is what stands before its comment, or that and a comment. -/
theorem dropComment_cases (cs : List Char) :
    (¬ Marked cs ∧ dropComment cs = cs) ∨ ∃ rest, cs = dropComment cs ++ '/' :: '/' :: rest := by
  fun_induction dropComment cs with
  | case1 => exact .inl ⟨by decide, rfl⟩
  | case2 rest => exact .inr ⟨rest, rfl⟩
  | case3 c cs hc ih =>
      rcases ih with ⟨hcs, heq⟩ | ⟨rest, hrest⟩
      · refine .inl ⟨?_, by rw [heq]⟩
        rw [not_marked_iff] at hcs ⊢
        refine hcs.cons fun d hd hslash hslash' => ?_
        subst hslash hslash'
        obtain ⟨rest, rfl⟩ := List.head?_eq_some_iff.mp hd
        exact hc rest rfl rfl
      · exact .inr ⟨rest, by rw [List.cons_append, ← hrest]⟩

theorem dropComment_of_not_marked (h : ¬ Marked cs) : dropComment cs = cs := by
  rcases dropComment_cases cs with ⟨-, heq⟩ | ⟨rest, hrest⟩
  · exact heq
  · refine absurd ?_ h
    exact ⟨dropComment cs, rest, by rw [List.append_assoc]; exact hrest.symm⟩

theorem dropComment_isPrefix (cs : List Char) : dropComment cs <+: cs := by
  rcases dropComment_cases cs with ⟨-, h⟩ | ⟨rest, h⟩
  · rw [h]
  · exact ⟨_, h.symm⟩

theorem not_marked_dropComment (cs : List Char) : ¬ Marked (dropComment cs) := by
  rw [not_marked_iff]
  fun_induction dropComment cs with
  | case1 => exact .nil
  | case2 rest => exact .nil
  | case3 c cs hc ih =>
      refine ih.cons fun d hd hslash hslash' => ?_
      subst hslash hslash'
      obtain ⟨rest, hrest⟩ := List.head?_eq_some_iff.mp hd
      obtain ⟨rest', hcs⟩ := dropComment_isPrefix cs
      rw [hrest, List.cons_append] at hcs
      exact hc _ rfl hcs.symm

/-- A character that is no slash keeps the slashes on its two sides apart. -/
theorem not_marked_append_cons {u v : List Char} (hc : c ≠ '/') :
    ¬ Marked (u ++ c :: v) ↔ ¬ Marked u ∧ ¬ Marked v := by
  simp only [not_marked_iff]
  rw [List.isChain_append, List.isChain_cons]
  have hv : ∀ d ∈ v.head?, Apart c d := fun _ _ h => absurd h hc
  have hu : ∀ d ∈ u.getLast?, ∀ e ∈ (c :: v).head?, Apart d e := by
    rintro d - e he -
    obtain rfl := Option.some.inj he
    exact hc
  tauto

theorem not_marked_intercalate {ls : List (List Char)} (h : ∀ l ∈ ls, ¬ Marked l) :
    ¬ Marked (['\n'].intercalate ls) := by
  induction ls with
  | nil => decide
  | cons l ls ih =>
      rw [List.forall_mem_cons] at h
      cases ls with
      | nil => simpa using h.1
      | cons l' ls =>
          rw [List.intercalate_cons_cons, List.append_assoc, List.singleton_append,
            not_marked_append_cons (by decide)]
          exact ⟨h.1, ih h.2⟩

/-! ## Braces -/

/-- The part is one brace, or has none. -/
def Whole (part : List Char) : Prop :=
  part = ['\x7b'] ∨ part = ['\x7d'] ∨ '\x7b' ∉ part ∧ '\x7d' ∉ part

theorem isolateBrace_cases (c : Char) :
    (c = '\x7b' ∨ c = '\x7d') ∧ isolateBrace c = [';', c, ';']
      ∨ (c ≠ '\x7b' ∧ c ≠ '\x7d') ∧ isolateBrace c = [c] := by
  by_cases h : c = '\x7b' ∨ c = '\x7d'
  · exact .inl ⟨h, by simp [isolateBrace, h]⟩
  · rw [not_or] at h
    exact .inr ⟨h, by simp [isolateBrace, h]⟩

theorem flatMap_isolateBrace (hopen : '\x7b' ∉ cs) (hclose : '\x7d' ∉ cs) :
    cs.flatMap isolateBrace = cs := by
  induction cs with
  | nil => rfl
  | cons c cs ih =>
      rw [List.mem_cons, not_or] at hopen hclose
      have hc : isolateBrace c = [c] := by
        simp [isolateBrace, Ne.symm hopen.1, Ne.symm hclose.1]
      rw [List.flatMap_cons, hc, ih hopen.2 hclose.2, List.singleton_append]

/-- A brace is a piece between two separators. -/
theorem pieces_brace_cons (hc : c = '\x7b' ∨ c = '\x7d') (cs : List Char) :
    pieces ';' ((c :: cs).flatMap isolateBrace)
      = [] :: [c] :: pieces ';' (cs.flatMap isolateBrace) := by
  have hsep : ';' ∉ [c] := by rcases hc with rfl | rfl <;> decide
  have hisolated : isolateBrace c = [';', c, ';'] := by simp [isolateBrace, hc]
  calc pieces ';' ((c :: cs).flatMap isolateBrace)
    _ = pieces ';' (';' :: ([c] ++ ';' :: cs.flatMap isolateBrace)) := by
        rw [List.flatMap_cons, hisolated]
        rfl
    _ = [] :: (pieces ';' [c] ++ pieces ';' (cs.flatMap isolateBrace)) := by
        rw [pieces_cons_sep, pieces_append_sep]
    _ = [] :: [c] :: pieces ';' (cs.flatMap isolateBrace) := by
        rw [pieces_of_not_mem hsep, List.singleton_append]

/-- Braces that are set apart cut a text like semicolons do. The pieces are
found in the text itself, the first at its start. -/
theorem pieces_flatMap_isolateBrace {p : List Char} {ps : List (List Char)}
    (h : pieces ';' (cs.flatMap isolateBrace) = p :: ps) :
    (p <+: cs ∧ '\x7b' ∉ p ∧ '\x7d' ∉ p) ∧ ∀ q ∈ ps, q <:+: cs ∧ Whole q := by
  induction cs generalizing p ps with
  | nil =>
      cases h
      exact ⟨⟨List.prefix_rfl, List.not_mem_nil, List.not_mem_nil⟩, List.forall_mem_nil _⟩
  | cons c cs ih =>
      obtain ⟨q, qs, hq⟩ := List.exists_cons_of_ne_nil (pieces_ne_nil ';' (cs.flatMap isolateBrace))
      obtain ⟨⟨hfirst, hopen, hclose⟩, hothers⟩ := ih hq
      have hnil : [] <+: c :: cs := List.nil_prefix
      have hlater : ∀ r ∈ q :: qs, r <:+: c :: cs ∧ Whole r := by
        refine List.forall_mem_cons.mpr ⟨⟨?_, .inr (.inr ⟨hopen, hclose⟩)⟩, fun r hr => ⟨?_, ?_⟩⟩
        · exact hfirst.isInfix.trans (List.suffix_cons _ _).isInfix
        · exact (hothers r hr).1.trans (List.suffix_cons _ _).isInfix
        · exact (hothers r hr).2
      rcases isolateBrace_cases c with ⟨hbrace, -⟩ | ⟨hplain, hc⟩
      · rw [pieces_brace_cons hbrace, hq] at h
        cases h
        refine ⟨⟨hnil, List.not_mem_nil, List.not_mem_nil⟩,
          List.forall_mem_cons.mpr ⟨⟨⟨[], cs, rfl⟩, ?_⟩, hlater⟩⟩
        rcases hbrace with rfl | rfl
        · exact .inl rfl
        · exact .inr (.inl rfl)
      · rw [List.flatMap_cons, hc, List.singleton_append] at h
        by_cases hsep : c = ';'
        · subst hsep
          rw [pieces_cons_sep, hq] at h
          cases h
          exact ⟨⟨hnil, List.not_mem_nil, List.not_mem_nil⟩, hlater⟩
        · rw [pieces_cons hsep hq] at h
          cases h
          refine ⟨⟨List.cons_prefix_cons.mpr ⟨rfl, hfirst⟩,
            List.not_mem_cons_of_ne_of_not_mem (Ne.symm hplain.1) hopen,
            List.not_mem_cons_of_ne_of_not_mem (Ne.symm hplain.2) hclose⟩, fun r hr => ?_⟩
          exact hlater r (List.mem_cons_of_mem _ hr)

theorem isInfix_of_mem_pieces_isolateBrace (h : part ∈ pieces ';' (cs.flatMap isolateBrace)) :
    part <:+: cs ∧ Whole part := by
  obtain ⟨p, ps, hp⟩ :=
    List.exists_cons_of_ne_nil (pieces_ne_nil ';' (cs.flatMap isolateBrace))
  obtain ⟨⟨hfirst, hbraces⟩, hothers⟩ := pieces_flatMap_isolateBrace hp
  rw [hp] at h
  rcases List.mem_cons.mp h with rfl | h
  · exact ⟨hfirst.isInfix, .inr (.inr hbraces)⟩
  · exact hothers part h

/-! ## Parts -/

section Parts

variable {text : List Char}

/-- Only empty pieces are left out of the parts. -/
theorem pieces_bare_eq (text : List Char) :
    ∃ k, pieces ';' (bare text) = parts text ++ List.replicate k [] := by
  generalize hl : (pieces ';' (bare text)).reverse = l
  refine ⟨(l.takeWhile List.isEmpty).length, ?_⟩
  have hempty : l.takeWhile List.isEmpty = List.replicate (l.takeWhile List.isEmpty).length [] :=
    List.eq_replicate_of_mem fun q hq => List.isEmpty_iff.mp (List.mem_takeWhile_imp hq)
  rw [parts, hl, ← List.reverse_replicate, ← hempty, ← List.reverse_append,
    List.takeWhile_append_dropWhile, ← hl, List.reverse_reverse]

theorem mem_pieces_of_mem_parts (h : part ∈ parts text) : part ∈ pieces ';' (bare text) := by
  obtain ⟨k, hk⟩ := pieces_bare_eq text
  rw [hk]
  exact List.mem_append_left _ h

theorem not_mem_of_mem_parts (h : part ∈ parts text) : ';' ∉ part :=
  not_mem_of_mem_pieces (mem_pieces_of_mem_parts h)

theorem whole_of_mem_parts (h : part ∈ parts text) : Whole part :=
  (isInfix_of_mem_pieces_isolateBrace (mem_pieces_of_mem_parts h)).2

theorem not_marked_of_mem_parts (h : part ∈ parts text) : ¬ Marked part := by
  have hinfix := (isInfix_of_mem_pieces_isolateBrace (mem_pieces_of_mem_parts h)).1
  refine fun hmarked => not_marked_intercalate ?_ (hmarked.trans hinfix)
  intro l hl
  obtain ⟨line, -, rfl⟩ := List.mem_map.mp hl
  exact not_marked_dropComment line

end Parts

/-! ## Statements -/

/-- The form of a statement: a brace or no brace in it, no semicolon, and no
blanks but spaces between other characters. -/
structure Normal (s : List Char) : Prop where
  whole : Whole s
  undivided : ';' ∉ s
  spaced : ∀ c ∈ s, isBlank c = true → c = ' '
  trimmed : Trimmed s

theorem statement_sublist (part : List Char) : (statement part).Sublist part :=
  (trim_isInfix _).sublist.trans List.filter_sublist

theorem Whole.sublist {s : List Char} (h : Whole part) (hs : s.Sublist part) : Whole s := by
  rcases h with rfl | rfl | ⟨hopen, hclose⟩
  · rcases List.sublist_singleton.mp hs with rfl | rfl
    · exact .inr (.inr ⟨List.not_mem_nil, List.not_mem_nil⟩)
    · exact .inl rfl
  · rcases List.sublist_singleton.mp hs with rfl | rfl
    · exact .inr (.inr ⟨List.not_mem_nil, List.not_mem_nil⟩)
    · exact .inr (.inl rfl)
  · exact .inr (.inr ⟨fun h => hopen (hs.subset h), fun h => hclose (hs.subset h)⟩)

theorem normal_statement (hwhole : Whole part) (hsep : ';' ∉ part) :
    Normal (statement (trim part)) where
  whole := hwhole.sublist ((statement_sublist _).trans (trim_isInfix part).sublist)
  undivided h := hsep (mem_of_mem_trim ((statement_sublist _).subset h))
  spaced c hc hblank := by
    have := List.of_mem_filter (mem_of_mem_trim hc)
    simpa [hblank] using this
  trimmed := trimmed_trim _

theorem filter_spaced (h : ∀ c ∈ cs, isBlank c = true → c = ' ') :
    cs.filter (fun c => c = ' ' || !isBlank c) = cs := by
  refine List.filter_eq_self.mpr fun c hc => ?_
  cases hblank : isBlank c with
  | false => simp
  | true => simp [h c hc hblank]

/-- A part without blanks that do not count is the statement. -/
theorem statement_trim_of_spaced (h : ∀ c ∈ trim part, isBlank c = true → c = ' ') :
    statement (trim part) = trim part := by
  rw [statement, filter_spaced h, (trimmed_trim part).trim_eq]

theorem Normal.statement_eq (h : Normal cs) : statement cs = cs := by
  rw [statement, filter_spaced h.spaced, h.trimmed.trim_eq]

/-! ## Declarations -/

theorem isWordChar_of_isIdentifier {name : List Char} (h : isIdentifier name = true)
    (hc : c ∈ name) : isWordChar c = true := by
  cases name with
  | nil => cases hc
  | cons d name =>
      rw [isIdentifier, Bool.and_eq_true, List.all_eq_true] at h
      rcases List.mem_cons.mp hc with rfl | hc
      · exact Expr.isWordChar_iff.mpr (.inl (.inl h.1))
      · exact h.2 c hc

theorem dropWhile_space_of_isIdentifier {name : List Char} (h : isIdentifier name = true)
    (k : Nat) : (List.replicate k ' ' ++ name).dropWhile (· = ' ') = name := by
  have hname : name.dropWhile (· = ' ') = name := by
    cases name with
    | nil => rfl
    | cons c name =>
        have hc : c ≠ ' ' := by
          rintro rfl
          exact absurd (isWordChar_of_isIdentifier h List.mem_cons_self) (by decide)
        rw [List.dropWhile_cons, if_neg (by simpa using hc)]
  rw [List.dropWhile_append_of_pos fun c hc => by simpa using List.eq_of_mem_replicate hc, hname]

/-- A declaration is the word `int`, spaces and an identifier. -/
theorem declared?_eq_some_iff {name : List Char} :
    declared? part = some name ↔
      isIdentifier name = true
        ∧ ∃ k, part = "int ".toList ++ (List.replicate k ' ' ++ name) := by
  constructor
  · intro h
    obtain ⟨rest, hrest, h⟩ := Option.bind_eq_some_iff.mp h
    obtain ⟨hname, h⟩ := Option.ite_none_right_eq_some.mp h
    have hspaces : rest.takeWhile (· = ' ')
        = List.replicate (rest.takeWhile (· = ' ')).length ' ' :=
      List.eq_replicate_of_mem fun c hc => by simpa using List.mem_takeWhile_imp hc
    obtain rfl := Option.some.inj h
    refine ⟨hname, (rest.takeWhile (· = ' ')).length, ?_⟩
    rw [← hspaces, List.takeWhile_append_dropWhile]
    exact after?_eq_some_iff.mp hrest
  · rintro ⟨hname, k, rfl⟩
    rw [declared?, after?_eq_some_iff.mpr rfl]
    simp [dropWhile_space_of_isIdentifier hname, hname]

/-! ## Programs -/

/-- The names that the parts declare. -/
def declaredIn (l : List (List Char)) : List String :=
  l.filterMap fun part => (declared? (trim part)).map String.ofList

/-- The statements that the other parts are. -/
def statedIn (l : List (List Char)) : List String :=
  (l.filter fun part => (declared? (trim part)).isNone).map fun part =>
    String.ofList (statement (trim part))

/-- The program that the parts make up. -/
def ofParts (l : List (List Char)) : Program := ⟨declaredIn l, statedIn l⟩

theorem ofParts_of_some {name : List Char} (h : declared? (trim part) = some name) :
    ofParts [part] = ⟨[String.ofList name], []⟩ := by
  simp [ofParts, declaredIn, statedIn, h]

theorem ofParts_of_none (h : declared? (trim part) = none) :
    ofParts [part] = ⟨[], [String.ofList (statement (trim part))]⟩ := by
  simp [ofParts, declaredIn, statedIn, h]

/-- The names of the variables of one program. -/
structure Declarable (names : List String) : Prop where
  nodup : names.Nodup
  unreserved : ∀ x ∈ names, x ∉ reserved

theorem Declarable.append_iff {names new : List String} (h : Declarable names) (hnew : new.Nodup) :
    Declarable (names ++ new) ↔ ∀ x ∈ new, x ∉ reserved ∧ x ∉ names := by
  constructor
  · intro h' x hx
    exact ⟨h'.unreserved x (List.mem_append_right _ hx),
      fun hold => List.disjoint_of_nodup_append h'.nodup hold hx⟩
  · intro h'
    refine ⟨List.nodup_append'.mpr ⟨h.nodup, hnew, fun x hold hx => (h' x hx).2 hold⟩, ?_⟩
    exact List.forall_mem_append.mpr ⟨h.unreserved, fun x hx => (h' x hx).1⟩

theorem Declarable.left_of_append {names new : List String} (h : Declarable (names ++ new)) :
    Declarable names :=
  ⟨h.nodup.of_append_left, fun x hx => h.unreserved x (List.mem_append_left _ hx)⟩

theorem add_eq_ok_iff {p q : Program} (hp : Declarable p.names) :
    p.add part = .ok q ↔
      q = ⟨p.names ++ declaredIn [part], p.statements ++ statedIn [part]⟩
        ∧ Declarable (p.names ++ declaredIn [part]) := by
  have hnodup : (declaredIn [part]).Nodup := by
    cases hd : declared? (trim part) <;> simp [declaredIn, hd]
  rw [hp.append_iff hnodup]
  simp only [add]
  cases hd : declared? (trim part) with
  | none => simp [declaredIn, statedIn, hd, eq_comm]
  | some name =>
      by_cases hreserved : String.ofList name ∈ reserved
      · simp [declaredIn, hd, hreserved]
      · by_cases hold : String.ofList name ∈ p.names
        · simp [declaredIn, hd, hreserved, hold]
        · simp [declaredIn, statedIn, hd, hreserved, hold, eq_comm]

@[simp]
theorem declaredIn_append (l l' : List (List Char)) :
    declaredIn (l ++ l') = declaredIn l ++ declaredIn l' := List.filterMap_append

@[simp]
theorem statedIn_append (l l' : List (List Char)) :
    statedIn (l ++ l') = statedIn l ++ statedIn l' := by
  simp only [statedIn, List.filter_append, List.map_append]

theorem foldlM_add_eq_ok_iff {p q : Program} {l : List (List Char)} (hp : Declarable p.names) :
    l.foldlM add p = .ok q ↔
      q = ⟨p.names ++ declaredIn l, p.statements ++ statedIn l⟩
        ∧ Declarable (p.names ++ declaredIn l) := by
  induction l generalizing p with
  | nil => simp [declaredIn, statedIn, hp, pure, Except.pure, eq_comm]
  | cons part l ih =>
      have hnames : p.names ++ declaredIn (part :: l)
          = p.names ++ declaredIn [part] ++ declaredIn l := by
        rw [List.append_assoc, ← declaredIn_append, List.singleton_append]
      have hstatements : p.statements ++ statedIn (part :: l)
          = p.statements ++ statedIn [part] ++ statedIn l := by
        rw [List.append_assoc, ← statedIn_append, List.singleton_append]
      rw [List.foldlM_cons, hnames, hstatements]
      constructor
      · intro h
        obtain ⟨p₁, hadd, hrest⟩ := exists_of_bind_eq_ok h
        obtain ⟨rfl, hp₁⟩ := (add_eq_ok_iff hp).mp hadd
        exact (ih hp₁).mp hrest
      · intro h
        have hp₁ := h.2.left_of_append
        rw [(add_eq_ok_iff hp).mpr ⟨rfl, hp₁⟩]
        exact (ih hp₁).mpr h

theorem isIdentifier_of_mem_declaredIn {l : List (List Char)} {x : String}
    (h : x ∈ declaredIn l) : isIdentifier x.toList = true := by
  obtain ⟨part, -, hpart⟩ := List.mem_filterMap.mp h
  obtain ⟨name, hname, rfl⟩ := Option.map_eq_some_iff.mp hpart
  rw [String.toList_ofList]
  exact (declared?_eq_some_iff.mp hname).1

theorem mem_statedIn_iff {l : List (List Char)} {s : String} :
    s ∈ statedIn l ↔
      ∃ part ∈ l, declared? (trim part) = none ∧ String.ofList (statement (trim part)) = s := by
  simp [statedIn, and_assoc]

/-- What a text is read as, and when it is read. -/
theorem parse_eq_ok_iff {text : String} {p : Program} :
    parse text = .ok p ↔
      p = ofParts (parts text.toList) ∧ Declarable p.names := by
  have hnil : Declarable [] := ⟨List.nodup_nil, List.forall_mem_nil _⟩
  rw [parse, foldlM_add_eq_ok_iff hnil, List.nil_append, List.nil_append, ← ofParts]
  refine and_congr_right fun hp => ?_
  rw [hp, ofParts]

section Accepted

variable {text : String} {p : Program}

theorem names_of_parse (h : parse text = .ok p) : p.names = declaredIn (parts text.toList) := by
  rw [(parse_eq_ok_iff.mp h).1, ofParts]

theorem statements_of_parse (h : parse text = .ok p) :
    p.statements = statedIn (parts text.toList) := by
  rw [(parse_eq_ok_iff.mp h).1, ofParts]

theorem isIdentifier_of_mem_names (h : parse text = .ok p) :
    ∀ x ∈ p.names, isIdentifier x.toList = true := by
  rw [names_of_parse h]
  exact fun x hx => isIdentifier_of_mem_declaredIn hx

theorem normal_of_mem_statements (h : parse text = .ok p) {s : String} (hs : s ∈ p.statements) :
    Normal s.toList := by
  rw [statements_of_parse h, mem_statedIn_iff] at hs
  obtain ⟨part, hpart, -, rfl⟩ := hs
  rw [String.toList_ofList]
  exact normal_statement (whole_of_mem_parts hpart) (not_mem_of_mem_parts hpart)

end Accepted

end BranchingTime.Program
