import BranchingTime.Proofs.NormalForm

/-!
# Reading a normal form again

A program is written out as its declarations and its statements, with a
semicolon after each (`Program.render`). Reading this text gives the program
back, apart from empty statements, if and only if none of the statements is a
declaration or has a comment marker in it (`Program.parse_render_iff`). Such a
statement comes from a part of the text that has a blank other than a space
inside: the blanks go after comments and declarations were looked for.
-/

namespace BranchingTime.Program

open Text

variable {cs : List Char} {l : List (List Char)}

/-! ## Programs written out -/

/-- The declarations and the statements of a program. -/
def sentences (p : Program) : List String := p.names.map ("int " ++ ·) ++ p.statements

/-- The text of a program, with a semicolon after each sentence. -/
def render (p : Program) : String := String.join (p.sentences.map (· ++ ";"))

/-- The statements without the empty ones. -/
def nonempty (statements : List String) : List String := statements.filter (· ≠ "")

/-- Two programs are the same but for empty statements. -/
def Alike (p q : Program) : Prop :=
  p.names = q.names ∧ nonempty p.statements = nonempty q.statements

/-- The texts with a semicolon after each. -/
def terminated (l : List (List Char)) : List Char := l.flatMap (· ++ [';'])

theorem toList_render (p : Program) :
    p.render.toList = terminated (p.sentences.map String.toList) := by
  rw [render, String.toList_join, terminated, List.flatMap_map, List.flatMap_map]
  simp only [String.toList_append]
  rfl

theorem terminated_cons (s : List Char) (l : List (List Char)) :
    terminated (s :: l) = s ++ ';' :: terminated l := by
  simp [terminated]

theorem bare_of_not_mem (h : '\n' ∉ cs) : bare cs = (dropComment cs).flatMap isolateBrace := by
  rw [bare, lines_of_not_mem h]
  cases cs with
  | nil => rfl
  | cons c cs => simp

/-! ## What is read from sentences -/

theorem not_marked_terminated : ¬ Marked (terminated l) ↔ ∀ s ∈ l, ¬ Marked s := by
  induction l with
  | nil => exact iff_of_true (by decide) (List.forall_mem_nil _)
  | cons s l ih =>
      rw [terminated_cons, not_marked_append_cons (by decide), ih, List.forall_mem_cons]

theorem not_mem_terminated (h : ∀ s ∈ l, Normal s) : '\n' ∉ terminated l := by
  intro hmem
  obtain ⟨s, hs, hmem⟩ := List.mem_flatMap.mp hmem
  rcases List.mem_append.mp hmem with hmem | hmem
  · exact absurd ((h s hs).spaced '\n' hmem (by decide)) (by decide)
  · exact absurd (List.mem_singleton.mp hmem) (by decide)

theorem Alike.append {l₁ l₂ l₁' l₂' : List (List Char)}
    (h₁ : Alike (ofParts l₁) (ofParts l₁')) (h₂ : Alike (ofParts l₂) (ofParts l₂')) :
    Alike (ofParts (l₁ ++ l₂)) (ofParts (l₁' ++ l₂')) := by
  obtain ⟨hnames₁, hstatements₁⟩ := h₁
  obtain ⟨hnames₂, hstatements₂⟩ := h₂
  simp only [ofParts, nonempty] at hnames₁ hnames₂ hstatements₁ hstatements₂
  constructor
  · simp only [ofParts, declaredIn_append, hnames₁, hnames₂]
  · simp only [ofParts, nonempty, statedIn_append, List.filter_append, hstatements₁, hstatements₂]

theorem alike_append_replicate_nil (l : List (List Char)) (k : Nat) :
    Alike (ofParts (l ++ List.replicate k [])) (ofParts l) := by
  induction k with
  | zero => rw [List.replicate_zero, List.append_nil]; exact ⟨rfl, rfl⟩
  | succ k ih =>
      rw [List.replicate_succ', ← List.append_assoc]
      have hnil : Alike (ofParts [[]]) (ofParts []) := ⟨rfl, rfl⟩
      have := ih.append hnil
      rwa [List.append_nil] at this

/-- The pieces of a sentence make up what the sentence does. -/
theorem Normal.alike_pieces {s : List Char} (h : Normal s) :
    Alike (ofParts (pieces ';' (s.flatMap isolateBrace))) (ofParts [s]) := by
  rcases h.whole with rfl | rfl | ⟨hopen, hclose⟩
  · exact ⟨rfl, by decide +kernel⟩
  · exact ⟨rfl, by decide +kernel⟩
  · rw [flatMap_isolateBrace hopen hclose, pieces_of_not_mem h.undivided]
    exact ⟨rfl, rfl⟩

theorem alike_pieces_terminated (h : ∀ s ∈ l, Normal s) :
    Alike (ofParts (pieces ';' ((terminated l).flatMap isolateBrace))) (ofParts l) := by
  induction l with
  | nil => exact ⟨rfl, rfl⟩
  | cons s l ih =>
      rw [List.forall_mem_cons] at h
      have hsep : (';' :: terminated l).flatMap isolateBrace
          = ';' :: (terminated l).flatMap isolateBrace := by
        rw [List.flatMap_cons]
        rfl
      rw [terminated_cons, List.flatMap_append, hsep, pieces_append_sep]
      exact h.1.alike_pieces.append (ih h.2)

/-- Sentences without comment markers are read as they are. -/
theorem alike_parts_terminated (h : ∀ s ∈ l, Normal s) (hl : ∀ s ∈ l, ¬ Marked s) :
    Alike (ofParts (parts (terminated l))) (ofParts l) := by
  have hbare : bare (terminated l) = (terminated l).flatMap isolateBrace := by
    rw [bare_of_not_mem (not_mem_terminated h),
      dropComment_of_not_marked (not_marked_terminated.mpr hl)]
  obtain ⟨k, hk⟩ := pieces_bare_eq (terminated l)
  have hpieces := alike_pieces_terminated h
  rw [← hbare, hk] at hpieces
  have hparts := alike_append_replicate_nil (parts (terminated l)) k
  exact ⟨hparts.1.symm.trans hpieces.1, hparts.2.symm.trans hpieces.2⟩

/-! ## Declarations and statements as sentences -/

section Declaration

variable {name : List Char}

theorem isWordChar_or_space_of_mem (h : isIdentifier name = true) {c : Char}
    (hc : c ∈ "int ".toList ++ name) : isWordChar c = true ∨ c = ' ' := by
  rcases List.mem_append.mp hc with hc | hc
  · have hint : "int ".toList.all (fun d => isWordChar d || d = ' ') = true := by decide
    simpa using List.all_eq_true.mp hint c hc
  · exact .inl (isWordChar_of_isIdentifier h hc)

theorem not_mem_declaration (h : isIdentifier name = true) {c : Char}
    (hword : isWordChar c = false) (hc : c ≠ ' ') : c ∉ "int ".toList ++ name := by
  intro hmem
  rcases isWordChar_or_space_of_mem h hmem with hc' | hc'
  · rw [hword] at hc'
    cases hc'
  · exact hc hc'

theorem normal_declaration (h : isIdentifier name = true) : Normal ("int ".toList ++ name) where
  whole := .inr (.inr ⟨not_mem_declaration h (by decide) (by decide),
    not_mem_declaration h (by decide) (by decide)⟩)
  undivided := not_mem_declaration h (by decide) (by decide)
  spaced c hc hblank := by
    rcases isWordChar_or_space_of_mem h hc with hword | hspace
    · rw [Expr.isBlank_of_isWordChar hword] at hblank
      cases hblank
    · exact hspace
  trimmed := by
    have hname : name ≠ [] := by
      rintro rfl
      cases h
    refine ⟨fun c hc => ?_, fun c hc => ?_⟩
    · obtain rfl : 'i' = c := Option.some.inj hc
      decide
    · rw [List.getLast?_append_of_ne_nil _ hname] at hc
      exact Expr.isBlank_of_isWordChar
        (isWordChar_of_isIdentifier h (List.mem_of_getLast? hc))

theorem not_marked_declaration (h : isIdentifier name = true) :
    ¬ Marked ("int ".toList ++ name) := by
  intro hmarked
  refine not_mem_declaration h (c := '/') (by decide) (by decide) ?_
  exact hmarked.mem List.mem_cons_self

theorem ofParts_declaration (h : isIdentifier name = true) :
    ofParts ["int ".toList ++ name] = ⟨[String.ofList name], []⟩ := by
  have hdeclared : declared? (trim ("int ".toList ++ name)) = some name := by
    rw [(normal_declaration h).trimmed.trim_eq]
    exact declared?_eq_some_iff.mpr ⟨h, 0, rfl⟩
  exact ofParts_of_some hdeclared

end Declaration

section Sentences

variable {p : Program} {names statements : List String}

theorem ofParts_cons (s : List Char) (l : List (List Char)) :
    ofParts (s :: l) = ⟨(ofParts [s]).names ++ (ofParts l).names,
      (ofParts [s]).statements ++ (ofParts l).statements⟩ := by
  rw [← List.singleton_append, ofParts, declaredIn_append, statedIn_append]
  rfl

theorem ofParts_sentences (h : ∀ x ∈ p.names, isIdentifier x.toList = true) :
    ofParts (p.sentences.map String.toList)
      = ⟨p.names ++ declaredIn (p.statements.map String.toList),
        statedIn (p.statements.map String.toList)⟩ := by
  obtain ⟨names, statements⟩ := p
  induction names with
  | nil => rfl
  | cons x names ih =>
      rw [List.forall_mem_cons] at h
      have hsentence : ("int " ++ x).toList = "int ".toList ++ x.toList := String.toList_append
      change ofParts (("int " ++ x).toList :: (sentences ⟨names, statements⟩).map _) = _
      rw [ofParts_cons, ih h.2, hsentence, ofParts_declaration h.1, String.ofList_toList]
      rfl

theorem ofParts_statements (h : ∀ s ∈ statements, Normal s.toList)
    (hnone : ∀ s ∈ statements, declared? s.toList = none) :
    ofParts (statements.map String.toList) = ⟨[], statements⟩ := by
  induction statements with
  | nil => rfl
  | cons s statements ih =>
      rw [List.forall_mem_cons] at h hnone
      have htrim : trim s.toList = s.toList := h.1.trimmed.trim_eq
      rw [List.map_cons, ofParts_cons, ih h.2 hnone.2,
        ofParts_of_none (by rw [htrim]; exact hnone.1), htrim, h.1.statement_eq,
        String.ofList_toList]
      rfl

theorem not_declared_of_declaredIn_eq_nil {statements : List String}
    (h : ∀ s ∈ statements, Normal s.toList)
    (hnil : declaredIn (statements.map String.toList) = []) :
    ∀ s ∈ statements, declared? s.toList = none := by
  intro s hs
  have hpart := List.filterMap_eq_nil_iff.mp hnil s.toList (List.mem_map_of_mem hs)
  rw [(h s hs).trimmed.trim_eq] at hpart
  exact Option.map_eq_none_iff.mp hpart

end Sentences

/-! ## How long the sentences are -/

/-- How many characters the sentences of a program have. -/
def size (p : Program) : Nat := (p.sentences.map String.length).sum

theorem size_eq (p : Program) :
    p.size = (p.names.map fun x => x.length + 4).sum + (p.statements.map String.length).sum := by
  have hint : String.length "int " = 4 := by decide
  simp only [size, sentences, List.map_append, List.map_map, List.sum_append, Function.comp_def,
    String.length_append, hint, Nat.add_comm 4]

theorem size_append (names names' statements statements' : List String) :
    size ⟨names ++ names', statements ++ statements'⟩
      = size ⟨names, statements⟩ + size ⟨names', statements'⟩ := by
  simp only [size_eq, List.map_append, List.sum_append]
  omega

theorem sum_length_nonempty (statements : List String) :
    ((nonempty statements).map String.length).sum = (statements.map String.length).sum := by
  induction statements with
  | nil => rfl
  | cons s statements ih =>
      by_cases hs : s = ""
      · subst hs
        simpa [nonempty] using ih
      · simpa [nonempty, hs] using ih

theorem Alike.size_eq {p q : Program} (h : Alike p q) : p.size = q.size := by
  rw [Program.size_eq, Program.size_eq, h.1, ← sum_length_nonempty, h.2, sum_length_nonempty]

/-- Reading keeps no more of a part than is there. -/
theorem size_ofParts_singleton_le (part : List Char) : size (ofParts [part]) ≤ part.length := by
  have htrim : (trim part).length ≤ part.length := (trim_isInfix part).length_le
  cases hd : declared? (trim part) with
  | none =>
      have hstatement := (statement_sublist (trim part)).length_le
      rw [ofParts_of_none hd, size_eq]
      simp only [List.map_nil, List.sum_nil, List.map_cons, List.sum_cons, String.length_ofList]
      omega
  | some name =>
      obtain ⟨-, k, hpart⟩ := declared?_eq_some_iff.mp hd
      have hint : "int ".toList.length = 4 := by decide
      have hlength := congrArg List.length hpart
      rw [List.length_append, List.length_append, hint] at hlength
      rw [ofParts_of_some hd, size_eq]
      simp only [List.map_nil, List.sum_nil, List.map_cons, List.sum_cons, String.length_ofList]
      omega

theorem size_ofParts_le (l : List (List Char)) : size (ofParts l) ≤ (l.map List.length).sum := by
  induction l with
  | nil => exact Nat.le_refl _
  | cons part l ih =>
      have hpart := size_ofParts_singleton_le part
      rw [ofParts_cons, size_append, List.map_cons, List.sum_cons]
      exact Nat.add_le_add hpart ih

theorem countP_flatMap_isolateBrace (cs : List Char) :
    (cs.flatMap isolateBrace).countP (· ≠ ';') = cs.countP (· ≠ ';') := by
  induction cs with
  | nil => rfl
  | cons c cs ih =>
      rw [List.flatMap_cons, List.countP_append, ih, ← List.singleton_append, List.countP_append]
      rcases isolateBrace_cases c with ⟨rfl | rfl, hc⟩ | ⟨-, hc⟩
      · rfl
      · rfl
      · rw [hc]

theorem size_ofParts_parts_le (cs : List Char) :
    size (ofParts (parts cs)) ≤ (bare cs).countP (· ≠ ';') := by
  obtain ⟨k, hk⟩ := pieces_bare_eq cs
  calc size (ofParts (parts cs))
    _ = size (ofParts (pieces ';' (bare cs))) := by
        rw [hk, (alike_append_replicate_nil (parts cs) k).size_eq]
    _ ≤ ((pieces ';' (bare cs)).map List.length).sum := size_ofParts_le _
    _ = (bare cs).countP (· ≠ ';') := sum_length_pieces ';' (bare cs)

theorem countP_terminated (h : ∀ s ∈ l, ';' ∉ s) :
    (terminated l).countP (· ≠ ';') = (l.map List.length).sum := by
  induction l with
  | nil => rfl
  | cons s l ih =>
      rw [List.forall_mem_cons] at h
      have hs : s.countP (· ≠ ';') = s.length :=
        List.countP_eq_length.mpr fun c hc => by
          have : c ≠ ';' := fun heq => h.1 (heq ▸ hc)
          simpa using this
      rw [terminated_cons, List.countP_append, hs, List.countP_cons_of_neg (by simp), ih h.2,
        List.map_cons, List.sum_cons]

/-- Something is lost if a comment starts in a text. -/
theorem countP_dropComment_lt (h : Marked cs) :
    (dropComment cs).countP (· ≠ ';') < cs.countP (· ≠ ';') := by
  rcases dropComment_cases cs with ⟨hcs, -⟩ | ⟨rest, hrest⟩
  · exact absurd h hcs
  · have hcount := congrArg (List.countP (· ≠ ';')) hrest
    rw [List.countP_append, List.countP_cons_of_pos (by decide)] at hcount
    omega

/-! ## Programs that are read again -/

section Reading

variable {text : String} {p : Program}

theorem normal_of_mem_sentences (h : parse text = .ok p) :
    ∀ s ∈ p.sentences.map String.toList, Normal s := by
  intro s hs
  obtain ⟨sentence, hsentence, rfl⟩ := List.mem_map.mp hs
  rcases List.mem_append.mp hsentence with hs | hs
  · obtain ⟨x, hx, rfl⟩ := List.mem_map.mp hs
    rw [String.toList_append]
    exact normal_declaration (isIdentifier_of_mem_names h x hx)
  · exact normal_of_mem_statements h hs

/-- Only statements can have comment markers. -/
theorem not_marked_sentences_iff (h : parse text = .ok p) :
    (∀ s ∈ p.sentences.map String.toList, ¬ Marked s) ↔ ∀ s ∈ p.statements, ¬ Marked s.toList := by
  rw [List.forall_mem_map, sentences, List.forall_mem_append, List.forall_mem_map]
  refine and_iff_right fun x hx => ?_
  rw [String.toList_append]
  exact not_marked_declaration (isIdentifier_of_mem_names h x hx)

/-- What is read from a program that was written out. -/
theorem parse_render_alike_iff (h : parse text = .ok p) :
    (∃ q, parse p.render = .ok q ∧ Alike q p) ↔
      Alike (ofParts (parts (terminated (p.sentences.map String.toList)))) p := by
  rw [← toList_render]
  constructor
  · rintro ⟨q, hq, halike⟩
    rwa [(parse_eq_ok_iff.mp hq).1] at halike
  · intro halike
    refine ⟨_, parse_eq_ok_iff.mpr ⟨rfl, ?_⟩, halike⟩
    rw [halike.1]
    exact (parse_eq_ok_iff.mp h).2

theorem size_eq_countP (h : parse text = .ok p) :
    p.size = (terminated (p.sentences.map String.toList)).countP (· ≠ ';') := by
  rw [countP_terminated fun s hs => (normal_of_mem_sentences h s hs).undivided, size, List.map_map]
  rfl

/-- No comment starts in what is read again as it was. -/
theorem not_marked_of_alike (h : parse text = .ok p)
    (halike : Alike (ofParts (parts (terminated (p.sentences.map String.toList)))) p) :
    ∀ s ∈ p.statements, ¬ Marked s.toList := by
  rw [← not_marked_sentences_iff h, ← not_marked_terminated]
  intro hmarked
  have hlost := countP_dropComment_lt hmarked
  have hread := size_ofParts_parts_le (terminated (p.sentences.map String.toList))
  rw [halike.size_eq, size_eq_countP h, bare_of_not_mem
    (not_mem_terminated (normal_of_mem_sentences h)), countP_flatMap_isolateBrace] at hread
  omega

theorem exists_blank_of_mem_statements (h : parse text = .ok p) {s : String}
    (hs : s ∈ p.statements) (hread : (declared? s.toList).isSome ∨ Marked s.toList) :
    ∃ part ∈ parts text.toList, String.ofList (statement (trim part)) = s
      ∧ ∃ c ∈ trim part, isBlank c = true ∧ c ≠ ' ' := by
  rw [statements_of_parse h, mem_statedIn_iff] at hs
  obtain ⟨part, hpart, hnone, rfl⟩ := hs
  refine ⟨part, hpart, rfl, ?_⟩
  by_contra! hspaced
  -- Then the statement is the part itself, where neither was found.
  rw [String.toList_ofList, statement_trim_of_spaced hspaced] at hread
  rcases hread with hdeclared | hmarked
  · simp [hnone] at hdeclared
  · exact not_marked_of_mem_parts hpart (hmarked.trans (trim_isInfix part))

/-- A program that was read and is written out, with `int x;` for each of its
variables and a semicolon after each of its statements, is read again as the
same program, apart from empty statements, if and only if no statement is a
declaration or has a comment marker in it. If one is or has, it lost a blank
that is no space. -/
theorem parse_render_iff (h : parse text = .ok p) :
    ((∃ q, parse p.render = .ok q ∧ Alike q p)
        ↔ ∀ s ∈ p.statements, declared? s.toList = none ∧ ¬ Marked s.toList)
      ∧ ∀ s ∈ p.statements, (declared? s.toList).isSome ∨ Marked s.toList →
        ∃ part ∈ parts text.toList, String.ofList (statement (trim part)) = s
          ∧ ∃ c ∈ trim part, isBlank c = true ∧ c ≠ ' ' := by
  have hnormal : ∀ s ∈ p.statements, Normal s.toList := fun s hs => normal_of_mem_statements h hs
  refine ⟨?_, fun s hs => exists_blank_of_mem_statements h hs⟩
  rw [parse_render_alike_iff h]
  have hread := ofParts_sentences (isIdentifier_of_mem_names h)
  constructor
  · intro halike
    have hunmarked := not_marked_of_alike h halike
    have hparts := alike_parts_terminated (normal_of_mem_sentences h)
      ((not_marked_sentences_iff h).mpr hunmarked)
    have hnames := hparts.1.symm.trans halike.1
    rw [hread, List.append_right_eq_self] at hnames
    have hnone := not_declared_of_declaredIn_eq_nil hnormal hnames
    exact fun s hs => ⟨hnone s hs, hunmarked s hs⟩
  · intro hs
    have hparts := alike_parts_terminated (normal_of_mem_sentences h)
      ((not_marked_sentences_iff h).mpr fun s hmem => (hs s hmem).2)
    have hstatements := ofParts_statements hnormal fun s hmem => (hs s hmem).1
    rw [ofParts, Program.mk.injEq] at hstatements
    rw [hread, hstatements.1, hstatements.2, List.append_nil] at hparts
    exact hparts

/-- The statements of a text that is read again, and one that is not. -/
theorem parse_render_iff_tabs :
    (parse "int x;\tif (x == 0) \x7b\tx =\n1; \x7d // one"
        = .ok ⟨["x"], ["if (x == 0)", "\x7b", "x =1", "", "\x7d", ""]⟩
      ∧ ∃ q, parse (render ⟨["x"], ["if (x == 0)", "\x7b", "x =1", "", "\x7d", ""]⟩) = .ok q
        ∧ Alike q ⟨["x"], ["if (x == 0)", "\x7b", "x =1", "", "\x7d", ""]⟩)
    ∧ parse "int x; x = 8 /\t/ 2; x = 1;" = .ok ⟨["x"], ["x = 8 // 2", "x = 1"]⟩
      ∧ ¬ ∃ q, parse (render ⟨["x"], ["x = 8 // 2", "x = 1"]⟩) = .ok q
        ∧ Alike q ⟨["x"], ["x = 8 // 2", "x = 1"]⟩ := by
  have hkept : parse "int x;\tif (x == 0) \x7b\tx =\n1; \x7d // one"
      = .ok ⟨["x"], ["if (x == 0)", "\x7b", "x =1", "", "\x7d", ""]⟩ := by decide +kernel
  have hcut : parse "int x; x = 8 /\t/ 2; x = 1;" = .ok ⟨["x"], ["x = 8 // 2", "x = 1"]⟩ := by
    decide +kernel
  refine ⟨⟨hkept, (parse_render_iff hkept).1.mpr (by decide +kernel)⟩, hcut, ?_⟩
  rw [(parse_render_iff hcut).1]
  decide +kernel

/-- Where a tab goes, a declaration or a comment can come up that was none. -/
theorem parse_render_changes :
    (parse "int \tx; x = 1;" = .ok ⟨[], ["int x", "x = 1"]⟩
      ∧ parse (render ⟨[], ["int x", "x = 1"]⟩) = .ok ⟨["x"], ["x = 1"]⟩)
    ∧ (parse "a = 8 /\t/ 2; b = 3;" = .ok ⟨[], ["a = 8 // 2", "b = 3"]⟩
      ∧ parse (render ⟨[], ["a = 8 // 2", "b = 3"]⟩) = .ok ⟨[], ["a = 8"]⟩)
    ∧ parse "int x; int \tx;" = .ok ⟨["x"], ["int x"]⟩
      ∧ parse (render ⟨["x"], ["int x"]⟩) = .error (.duplicateVariable "x") := by
  decide +kernel

end Reading

end BranchingTime.Program
