import BranchingTime.Proofs.NormalForm

/-!
# Braces and comments

A comment starts at two slashes and goes on to the end of their line. Which
positions of a text it takes up is said here without cutting the text into
lines (`Program.Commented`). The braces at the other positions become
statements of their own, each of them and in their order, and no other
statement is a brace (`Program.braces_statements`). With it the normal form of
a program is complete (`Program.normal_form`).
-/

namespace BranchingTime.Program

open Text

variable {cs rest part : List Char} {c : Char} {p : Nat}

/-! ## What is outside of comments -/

/-- Position `p` of a text is in a comment: two slashes stand there or before
it, and no line ends in between. -/
def Commented (cs : List Char) (p : Nat) : Prop :=
  ∃ q ≤ p, cs[q]? = some '/' ∧ cs[q + 1]? = some '/' ∧ ∀ r ≤ p, q ≤ r → cs[r]? ≠ some '\n'

instance (cs : List Char) (p : Nat) : Decidable (Commented cs p) :=
  inferInstanceAs (Decidable (∃ q, q ≤ p ∧ cs[q]? = some '/' ∧ cs[q + 1]? = some '/'
    ∧ ∀ r ≤ p, q ≤ r → cs[r]? ≠ some '\n'))

/-- The characters of a text that are in no comment. -/
def uncommented (cs : List Char) : List Char :=
  (cs.zipIdx.filter fun x => ¬ Commented cs x.2).map Prod.fst

/-- The first two slashes are where `dropComment` stops. -/
theorem slashes_dropComment (cs : List Char) :
    (∀ q < (dropComment cs).length, cs[q]? = some '/' → cs[q + 1]? ≠ some '/')
      ∧ ((dropComment cs).length < cs.length → cs[(dropComment cs).length]? = some '/'
        ∧ cs[(dropComment cs).length + 1]? = some '/') := by
  fun_induction dropComment cs with
  | case1 => exact ⟨fun q hq => absurd hq (Nat.not_lt_zero q), fun h => absurd h (Nat.lt_irrefl 0)⟩
  | case2 rest => exact ⟨fun q hq => absurd hq (Nat.not_lt_zero q), fun _ => ⟨rfl, rfl⟩⟩
  | case3 c cs hc ih =>
      obtain ⟨hbefore, hat⟩ := ih
      constructor
      · intro q hq hslash hslash'
        cases q with
        | zero =>
            obtain rfl : c = '/' := by simpa using hslash
            cases cs with
            | nil => simp at hslash'
            | cons d cs =>
                obtain rfl : d = '/' := by simpa using hslash'
                exact hc cs rfl rfl
        | succ q => exact hbefore q (Nat.lt_of_succ_lt_succ hq) hslash hslash'
      · intro hlt
        exact hat (Nat.lt_of_succ_lt_succ hlt)

/-- In one line, the comment is all from where `dropComment` stops. -/
theorem commented_line_iff (hline : '\n' ∉ cs) (hp : p < cs.length) :
    Commented cs p ↔ (dropComment cs).length ≤ p := by
  obtain ⟨hbefore, hat⟩ := slashes_dropComment cs
  constructor
  · rintro ⟨q, hqp, hslash, hslash', -⟩
    by_contra hlt
    exact hbefore q (by omega) hslash hslash'
  · intro hle
    obtain ⟨hslash, hslash'⟩ := hat (by omega)
    exact ⟨_, hle, hslash, hslash', fun r _ _ hr => hline (List.mem_of_getElem? hr)⟩

theorem uncommented_line (hline : '\n' ∉ cs) : uncommented cs = dropComment cs := by
  obtain ⟨rest, hrest⟩ := dropComment_isPrefix cs
  have hlength : (dropComment cs).length + rest.length = cs.length := by
    rw [← List.length_append, hrest]
  have hkept : (dropComment cs).zipIdx.filter (fun x => ¬ Commented cs x.2)
      = (dropComment cs).zipIdx := by
    refine List.filter_eq_self.mpr fun x hx => ?_
    have hlt := List.snd_lt_of_mem_zipIdx hx
    rw [decide_eq_true_eq, commented_line_iff hline (by omega)]
    omega
  have hdropped : (rest.zipIdx (0 + (dropComment cs).length)).filter
      (fun x => ¬ Commented cs x.2) = [] := by
    refine List.filter_eq_nil_iff.mpr fun x hx => ?_
    have hle := List.le_snd_of_mem_zipIdx hx
    have hlt := List.snd_lt_of_mem_zipIdx hx
    rw [decide_eq_true_eq, not_not, commented_line_iff hline (by omega)]
    omega
  have hsplit : cs.zipIdx
      = (dropComment cs).zipIdx ++ rest.zipIdx (0 + (dropComment cs).length) := by
    rw [← List.zipIdx_append, hrest]
  rw [uncommented, hsplit, List.filter_append, hkept, hdropped, List.append_nil,
    List.zipIdx_map_fst]

/-! ## Lines -/

theorem commented_append_left (hp : p < cs.length) :
    Commented (cs ++ '\n' :: rest) p ↔ Commented cs p := by
  have hsame : ∀ q ≤ p, (cs ++ '\n' :: rest)[q]? = cs[q]? := fun q hq =>
    List.getElem?_append_left (by omega)
  have hnext : ∀ q ≤ p, ((cs ++ '\n' :: rest)[q + 1]? = some '/' ↔ cs[q + 1]? = some '/') := by
    intro q hq
    rcases Nat.lt_or_ge (q + 1) cs.length with hlt | hge
    · rw [List.getElem?_append_left hlt]
    · -- the line ends after `q`, and no slash is next
      obtain heq : q + 1 = cs.length := by omega
      simp [heq]
  constructor
  · rintro ⟨q, hq, hslash, hslash', hnone⟩
    refine ⟨q, hq, hsame q hq ▸ hslash, (hnext q hq).mp hslash', fun r hr hqr => ?_⟩
    exact hsame r hr ▸ hnone r hr hqr
  · rintro ⟨q, hq, hslash, hslash', hnone⟩
    refine ⟨q, hq, (hsame q hq).symm ▸ hslash, (hnext q hq).mpr hslash', fun r hr hqr => ?_⟩
    exact (hsame r hr).symm ▸ hnone r hr hqr

theorem not_commented_line_feed : ¬ Commented (cs ++ '\n' :: rest) cs.length := by
  rintro ⟨q, hq, -, -, hnone⟩
  exact hnone cs.length le_rfl hq (by simp)

theorem commented_append_right :
    Commented (cs ++ '\n' :: rest) (cs.length + 1 + p) ↔ Commented rest p := by
  have hshift : ∀ q, (cs ++ '\n' :: rest)[cs.length + 1 + q]? = rest[q]? := by
    intro q
    rw [List.getElem?_append_right (by omega), Nat.add_assoc, Nat.add_sub_cancel_left,
      Nat.add_comm 1 q, List.getElem?_cons_succ]
  constructor
  · rintro ⟨q, hq, hslash, hslash', hnone⟩
    have hfeed : cs.length < q := by
      by_contra hle
      exact hnone cs.length (by omega) (by omega) (by simp)
    obtain ⟨k, rfl⟩ : ∃ k, q = cs.length + 1 + k := ⟨q - (cs.length + 1), by omega⟩
    rw [hshift] at hslash
    rw [Nat.add_assoc _ k 1, hshift] at hslash'
    refine ⟨k, by omega, hslash, hslash', fun r hr hkr => ?_⟩
    rw [← hshift]
    exact hnone _ (by omega) (by omega)
  · rintro ⟨q, hq, hslash, hslash', hnone⟩
    refine ⟨cs.length + 1 + q, by omega, by rw [hshift, hslash],
      by rw [Nat.add_assoc _ q 1, hshift, hslash'], fun r hr hqr => ?_⟩
    obtain ⟨k, rfl⟩ : ∃ k, r = cs.length + 1 + k := ⟨r - (cs.length + 1), by omega⟩
    rw [hshift]
    exact hnone k (by omega) (by omega)

/-- A comment does not go beyond its line. -/
theorem uncommented_append (cs rest : List Char) :
    uncommented (cs ++ '\n' :: rest) = uncommented cs ++ '\n' :: uncommented rest := by
  have hline : cs.zipIdx.filter (fun x => ¬ Commented (cs ++ '\n' :: rest) x.2)
      = cs.zipIdx.filter (fun x => ¬ Commented cs x.2) := by
    refine List.filter_congr fun x hx => ?_
    have hlt := List.snd_lt_of_mem_zipIdx hx
    exact decide_eq_decide.mpr (not_congr (commented_append_left (by omega)))
  have hrest : (rest.zipIdx (0 + cs.length + 1)).filter
        (fun x => ¬ Commented (cs ++ '\n' :: rest) x.2)
      = (rest.zipIdx.filter fun x => ¬ Commented rest x.2).map
        fun x => (x.1, cs.length + 1 + x.2) := by
    rw [List.zipIdx_eq_map_add, List.filter_map, Nat.zero_add]
    congr 1
    refine List.filter_congr fun x _ => ?_
    simp only [Function.comp_apply, commented_append_right]
  have hfeed : decide (¬ Commented (cs ++ '\n' :: rest) (0 + cs.length)) = true := by
    rw [Nat.zero_add]
    exact decide_eq_true not_commented_line_feed
  rw [uncommented, List.zipIdx_append, List.filter_append, hline, List.zipIdx_cons,
    List.filter_cons, if_pos hfeed, hrest, List.map_append, List.map_cons, List.map_map]
  rfl

/-! ## Braces -/

/-- Is the character a brace? -/
def isBrace (c : Char) : Bool := c = '\x7b' || c = '\x7d'

/-- The braces of a line, outside of its comment. -/
def lineBraces (line : List Char) : List Char := (dropComment line).filter isBrace

theorem dropComment_concat (hc : c ≠ '/') (cs : List Char) :
    dropComment (cs ++ [c]) = dropComment cs ∨ dropComment (cs ++ [c]) = dropComment cs ++ [c] := by
  fun_induction dropComment cs with
  | case1 => exact .inr (by simp [dropComment])
  | case2 rest => exact .inl rfl
  | case3 d cs hd ih =>
      have hcons : dropComment (d :: (cs ++ [c])) = d :: dropComment (cs ++ [c]) := by
        rw [dropComment]
        intro rest hslash hrest
        cases cs with
        | nil =>
            obtain rfl : c = '/' := by simpa using (List.cons.inj hrest).1
            exact hc rfl
        | cons e cs =>
            obtain ⟨rfl, -⟩ := List.cons.inj hrest
            exact hd cs hslash rfl
      rw [List.cons_append, hcons]
      exact ih.imp (congrArg (d :: ·)) (congrArg (d :: ·))

/-- The carriage return of a line end is no brace. -/
theorem lineBraces_dropReturn (line : List Char) :
    lineBraces (dropReturn line) = lineBraces line := by
  unfold dropReturn
  split
  · next hlast =>
      obtain ⟨start, rfl⟩ := List.getLast?_eq_some_iff.mp hlast
      have hreturn : ['\r'].filter isBrace = [] := by decide
      rw [List.dropLast_concat, lineBraces, lineBraces]
      rcases dropComment_concat (c := '\r') (by decide) start with h | h
      · rw [h]
      · rw [h, List.filter_append, hreturn, List.append_nil]
  · rfl

theorem flatMap_lineBraces_linesOfPieces (ps : List (List Char)) :
    (linesOfPieces ps).flatMap lineBraces = ps.flatMap lineBraces := by
  induction ps with
  | nil => rfl
  | cons p ps ih =>
      cases ps with
      | nil => cases p <;> rfl
      | cons q qs =>
          have hfirst : linesOfPieces (p :: q :: qs) = dropReturn p :: linesOfPieces (q :: qs) := by
            cases p <;> rfl
          rw [hfirst, List.flatMap_cons, ih, lineBraces_dropReturn, ← List.flatMap_cons]

theorem filter_isBrace_intercalate (ls : List (List Char)) :
    (['\n'].intercalate ls).filter isBrace = ls.flatMap (List.filter isBrace) := by
  induction ls with
  | nil => rfl
  | cons l ls ih =>
      cases ls with
      | nil => simp
      | cons l' ls =>
          have hfeed : ['\n'].filter isBrace = [] := by decide
          rw [List.intercalate_cons_cons, List.filter_append, List.filter_append, hfeed, ih,
            List.append_nil, List.flatMap_cons (x := l)]

/-- The braces outside of comments, line by line. -/
theorem filter_isBrace_uncommented (cs : List Char) :
    (uncommented cs).filter isBrace = (pieces '\n' cs).flatMap lineBraces := by
  -- induction on the length: each step takes off the first line
  induction hn : cs.length using Nat.strong_induction_on generalizing cs with
  | h n ih =>
      by_cases hfeed : '\n' ∈ cs
      · obtain ⟨line, rest, rfl, hline⟩ := List.eq_append_cons_of_mem hfeed
        have hshorter : rest.length < n := by
          rw [List.length_append, List.length_cons] at hn
          omega
        have hbrace : isBrace '\n' = false := by decide
        rw [uncommented_append, uncommented_line hline, List.filter_append, List.filter_cons,
          hbrace, if_neg Bool.false_ne_true, ih _ hshorter rest rfl, pieces_append_sep,
          pieces_of_not_mem hline, List.singleton_append, List.flatMap_cons, lineBraces]
      · rw [uncommented_line hfeed, pieces_of_not_mem hfeed, List.flatMap_singleton, lineBraces]

/-! ## Statements that are braces -/

/-- Is the part a brace? -/
def isBracePart : List Char → Bool
  | [c] => isBrace c
  | _ => false

theorem isBracePart_eq_false (hopen : '\x7b' ∉ part) (hclose : '\x7d' ∉ part) :
    isBracePart part = false := by
  unfold isBracePart
  split
  · next c =>
      rw [List.mem_singleton] at hopen hclose
      simp [isBrace, Ne.symm hopen, Ne.symm hclose]
  · rfl

theorem filter_isBracePart_pieces (cs : List Char) :
    (pieces ';' (cs.flatMap isolateBrace)).filter isBracePart = (cs.filter isBrace).map ([·]) := by
  induction cs with
  | nil => rfl
  | cons c cs ih =>
      rcases isolateBrace_cases c with ⟨hbrace, -⟩ | ⟨hplain, hc⟩
      · have hc : isBrace c = true := by simpa [isBrace] using hbrace
        have hpart : isBracePart [c] = true := hc
        have hnil : isBracePart [] = false := rfl
        rw [pieces_brace_cons hbrace, List.filter_cons, List.filter_cons, List.filter_cons, hnil,
          hpart, hc, if_neg Bool.false_ne_true, if_pos rfl, if_pos rfl, ih, List.map_cons]
      · have hnot : isBrace c = false := by simp [isBrace, hplain]
        obtain ⟨p, ps, hp⟩ :=
          List.exists_cons_of_ne_nil (pieces_ne_nil ';' (cs.flatMap isolateBrace))
        obtain ⟨⟨-, hopen, hclose⟩, -⟩ := pieces_flatMap_isolateBrace hp
        have hfirst := isBracePart_eq_false hopen hclose
        rw [List.flatMap_cons, hc, List.singleton_append, List.filter_cons (p := isBrace), hnot,
          if_neg Bool.false_ne_true, ← ih]
        by_cases hsep : c = ';'
        · subst hsep
          rw [pieces_cons_sep]
          rfl
        · have hlonger : isBracePart (c :: p) = false :=
            isBracePart_eq_false (List.not_mem_cons_of_ne_of_not_mem (Ne.symm hplain.1) hopen)
              (List.not_mem_cons_of_ne_of_not_mem (Ne.symm hplain.2) hclose)
          rw [pieces_cons hsep hp, hp, List.filter_cons, List.filter_cons, hfirst, hlonger,
            if_neg Bool.false_ne_true, if_neg Bool.false_ne_true]

theorem filter_isBracePart_parts (cs : List Char) :
    (parts cs).filter isBracePart = ((uncommented cs).filter isBrace).map ([·]) := by
  obtain ⟨k, hk⟩ := pieces_bare_eq cs
  have hnil : (List.replicate k ([] : List Char)).filter isBracePart = [] := by
    rw [List.filter_replicate]
    rfl
  calc (parts cs).filter isBracePart
    _ = (pieces ';' (bare cs)).filter isBracePart := by
        rw [hk, List.filter_append, hnil, List.append_nil]
    _ = ((['\n'].intercalate ((lines cs).map dropComment)).filter isBrace).map ([·]) :=
        filter_isBracePart_pieces _
    _ = ((lines cs).flatMap lineBraces).map ([·]) := by
        rw [filter_isBrace_intercalate, List.flatMap_map]
        rfl
    _ = ((uncommented cs).filter isBrace).map ([·]) := by
        rw [lines, flatMap_lineBraces_linesOfPieces, filter_isBrace_uncommented]

/-- The statements that are braces. -/
def braces (statements : List String) : List String :=
  statements.filter fun s => s = "\x7b" || s = "\x7d"

theorem braces_statedIn {l : List (List Char)} (h : ∀ part ∈ l, Whole part) :
    braces (statedIn l) = (l.filter isBracePart).map String.ofList := by
  induction l with
  | nil => rfl
  | cons part l ih =>
      rw [List.forall_mem_cons] at h
      have hpart : braces (statedIn [part]) = ([part].filter isBracePart).map String.ofList := by
        rcases h.1 with rfl | rfl | ⟨hopen, hclose⟩
        · decide +kernel
        · decide +kernel
        · -- no statement without braces is one
          rw [List.filter_singleton, isBracePart_eq_false hopen hclose]
          refine List.filter_eq_nil_iff.mpr fun s hs hbrace => ?_
          obtain ⟨part', hmem, -, rfl⟩ := mem_statedIn_iff.mp hs
          obtain rfl := List.mem_singleton.mp hmem
          have hsub : ∀ c ∈ statement (trim part'), c ∈ part' := fun c hc =>
            mem_of_mem_trim ((statement_sublist _).subset hc)
          rw [Bool.or_eq_true, decide_eq_true_eq, decide_eq_true_eq] at hbrace
          rcases hbrace with heq | heq
          · have hlist := congrArg String.toList heq
            rw [String.toList_ofList] at hlist
            exact hopen (hsub _ (hlist ▸ List.mem_singleton_self _))
          · have hlist := congrArg String.toList heq
            rw [String.toList_ofList] at hlist
            exact hclose (hsub _ (hlist ▸ List.mem_singleton_self _))
      rw [← List.singleton_append, statedIn_append, braces, List.filter_append, ← braces, ← braces,
        hpart, ih h.2, List.filter_append, List.map_append]

section Accepted

variable {text : String} {q : Program}

/-- The braces outside of comments are the statements that are braces. -/
theorem braces_statements (h : parse text = .ok q) :
    braces q.statements = ((uncommented text.toList).filter isBrace).map String.singleton := by
  rw [statements_of_parse h, braces_statedIn fun part hpart => whole_of_mem_parts hpart,
    filter_isBracePart_parts, List.map_map]
  exact List.map_congr_left fun c _ => String.singleton_eq_ofList.symm

theorem spelling_of_mem_names (h : parse text = .ok q) {x : String} (hx : x ∈ q.names) :
    ∃ c cs, x.toList = c :: cs ∧ c.isAlpha = true
      ∧ ∀ d ∈ cs, d.isAlphanum = true ∨ d = '_' := by
  have hname := isIdentifier_of_mem_names h x hx
  cases hcs : x.toList with
  | nil =>
      rw [hcs] at hname
      cases hname
  | cons c cs =>
      rw [hcs, isIdentifier, Bool.and_eq_true, List.all_eq_true] at hname
      refine ⟨c, cs, rfl, hname.1, fun d hd => ?_⟩
      simpa [isWordChar] using hname.2 d hd

theorem Normal.cases {s : String} (h : Normal s.toList) : s = "\x7b" ∨ s = "\x7d"
    ∨ ('\x7b' ∉ s.toList ∧ '\x7d' ∉ s.toList ∧ ';' ∉ s.toList
      ∧ (∀ c ∈ s.toList, isBlank c = true → c = ' ')
      ∧ s.toList.head? ≠ some ' ' ∧ s.toList.getLast? ≠ some ' ') := by
  have hspace : isBlank ' ' ≠ false := by decide
  rcases h.whole with hbrace | hbrace | ⟨hopen, hclose⟩
  · exact .inl (String.toList_inj.mp hbrace)
  · exact .inr (.inl (String.toList_inj.mp hbrace))
  · exact .inr (.inr ⟨hopen, hclose, h.undivided, h.spaced,
      fun hhead => hspace (h.trimmed.head ' ' hhead),
      fun hlast => hspace (h.trimmed.last ' ' hlast)⟩)

/-- The form of a program that is read from a text. Its names are different
from each other, each is a letter followed by letters, digits and underscores,
and none is reserved. Each statement is a brace, or it has no brace, no
semicolon, no blank but spaces, and no space at either end. The braces among
the statements are those of the text that are in no comment, in their order. -/
theorem normal_form (h : parse text = .ok q) :
    (q.names.Nodup ∧ ∀ x ∈ q.names, x ∉ reserved ∧ ∃ c cs, x.toList = c :: cs
        ∧ c.isAlpha = true ∧ ∀ d ∈ cs, d.isAlphanum = true ∨ d = '_')
      ∧ (∀ s ∈ q.statements, s = "\x7b" ∨ s = "\x7d"
        ∨ ('\x7b' ∉ s.toList ∧ '\x7d' ∉ s.toList ∧ ';' ∉ s.toList
          ∧ (∀ c ∈ s.toList, isBlank c = true → c = ' ')
          ∧ s.toList.head? ≠ some ' ' ∧ s.toList.getLast? ≠ some ' '))
      ∧ braces q.statements = ((uncommented text.toList).filter isBrace).map String.singleton := by
  have hnames := (parse_eq_ok_iff.mp h).2
  refine ⟨⟨hnames.nodup, ?_⟩, ?_, braces_statements h⟩
  · intro x hx
    exact ⟨hnames.unreserved x hx, spelling_of_mem_names h hx⟩
  · intro s hs
    exact (normal_of_mem_statements h hs).cases

end Accepted

/-- Braces in comments do not count, whether the line ends with a carriage
return or not. -/
theorem normal_form_commented :
    parse "int x;// \x7b\r\nwhile (x /= 0)\x7b /\t/ 1; // \x7d\n\x7d"
        = .ok ⟨["x"], ["while (x /= 0)", "\x7b", "// 1", "", "\x7d"]⟩
      ∧ ((uncommented "int x;// \x7b\r\nwhile (x /= 0)\x7b /\t/ 1; // \x7d\n\x7d".toList).filter
        isBrace).map String.singleton = ["\x7b", "\x7d"] := by
  have hparse : parse "int x;// \x7b\r\nwhile (x /= 0)\x7b /\t/ 1; // \x7d\n\x7d"
      = .ok ⟨["x"], ["while (x /= 0)", "\x7b", "// 1", "", "\x7d"]⟩ := by decide +kernel
  exact ⟨hparse, (normal_form hparse).2.2.symm.trans (by decide +kernel)⟩

end BranchingTime.Program
