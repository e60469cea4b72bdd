import Cminusf.Parser.LexicalAnalyzer
import Mathlib.Data.List.Infix

/-! What the scanner makes of a text: the rules of `<COMMENT>` lead to the first star and slash, and
the calls of `yylex` return the tokens among the pieces of the text. -/

namespace Cminusf

open Regex

variable {k : Terminal} {text more cs body stars tail rest : List Char} {c d : Char} {a : Action}
  {s : Scanner} {n fuel : Nat} {ps qs : List Piece} {condition : StartCondition}

def Scanned.emit (xs : List Lexeme) (r : Scanned) : Scanned :=
  { r with lexemes := xs ++ r.lexemes }

def Scanned.echo (c : Char) (r : Scanned) : Scanned := { r with echoed := c :: r.echoed }

theorem scanFrom_fuel (h : cs.length ≤ fuel) : scanFrom fuel s cs = scan s cs := by
  have key : ∀ fuel fuel' : Nat, ∀ s cs, cs.length ≤ fuel → cs.length ≤ fuel' →
      scanFrom fuel s cs = scanFrom fuel' s cs := by
    intro fuel
    induction fuel with
    | zero =>
      intro fuel' s cs h _
      cases cs with
      | nil => cases fuel' <;> rfl
      | cons c cs => simp at h
    | succ fuel ih =>
      intro fuel' s cs h h'
      cases cs with
      | nil => cases fuel' <;> rfl
      | cons c cs =>
        cases fuel' with
        | zero => simp at h'
        | succ fuel' =>
          simp only [List.length_cons] at h h'
          rw [scanFrom, scanFrom]
          cases hsel : select (activeRules s.condition) (c :: cs) with
          | none => simp only [ih fuel' s cs (by omega) (by omega)]
          | some r =>
            obtain ⟨n, a⟩ := r
            obtain ⟨hpos, -⟩ := longest_bounds hsel
            have hlen : ((c :: cs).drop n).length ≤ cs.length := by
              rw [List.length_drop, List.length_cons]
              omega
            simp only [ih fuel' _ _ (hlen.trans (by omega)) (hlen.trans (by omega))]
  exact key fuel cs.length s cs h (Nat.le_refl _)

@[simp] theorem scan_nil (s : Scanner) : scan s [] = ⟨[], [], s⟩ := rfl

/-- One call of a rule. -/
theorem scan_append (hsel : select (activeRules s.condition) (text ++ cs) = some (text.length, a)) :
    scan s (text ++ cs) = (scan (a.run text s).1 cs).emit (a.run text s).2 := by
  obtain ⟨hpos, -⟩ := longest_bounds hsel
  obtain ⟨c, text, rfl⟩ := List.exists_cons_of_ne_nil (List.ne_nil_of_length_pos hpos)
  rw [scan, List.cons_append, List.length_cons, scanFrom]
  rw [List.cons_append] at hsel
  rw [hsel]
  dsimp only
  rw [← List.cons_append, List.take_left, List.drop_left, scanFrom_fuel (by simp)]
  rfl

theorem scan_cons_echo (hsel : select (activeRules s.condition) (c :: cs) = none) :
    scan s (c :: cs) = (scan s cs).echo c := by
  rw [scan, List.length_cons, scanFrom, hsel]
  rfl

/-- The second rule of `<COMMENT>`. -/
def Starred (text : List Char) : Prop :=
  ∃ stars ≠ [], ∃ tail, (∀ c ∈ stars, c = '*') ∧ (∀ c ∈ tail, c ≠ '*' ∧ c ≠ '/' ∧ c ≠ '\n') ∧
    stars ++ tail = text

/-- The last rule of `<COMMENT>`. -/
def Closes (text : List Char) : Prop :=
  ∃ stars ≠ [], (∀ c ∈ stars, c = '*') ∧ stars ++ ['/'] = text

theorem first_comment (text : List Char) : first commentRules text =
    if (star (cls fun c => c ≠ '*' && c ≠ '\n')).accepts text then some .nothing
    else if (seq (plus (cls (· = '*')))
      (star (cls fun c => c ≠ '*' && c ≠ '/' && c ≠ '\n'))).accepts text then some .nothing
    else if (lit "\n".toList).accepts text then some .commentNewline
    else if (seq (plus (cls (· = '*'))) (lit "/".toList)).accepts text then
      some (.begin .initial)
    else none := by
  rw [commentRules, first_cons, first_cons, first_cons, first_cons]
  rfl

theorem accepts_eaten : (star (cls fun c => c ≠ '*' && c ≠ '\n')).accepts text ↔
    ∀ c ∈ text, c ≠ '*' ∧ c ≠ '\n' := by
  rw [accepts_iff, mem_star_cls]
  simp

theorem accepts_starred : (seq (plus (cls (· = '*')))
    (star (cls fun c => c ≠ '*' && c ≠ '/' && c ≠ '\n'))).accepts text ↔ Starred text := by
  rw [accepts_iff, mem_seq]
  constructor
  · rintro ⟨stars, hs, tail, ht, he⟩
    obtain ⟨hne, hs⟩ := mem_plus_cls.mp hs
    refine ⟨stars, hne, tail, by simpa using hs, fun c hc => ?_, he⟩
    have := mem_star_cls.mp ht c hc
    simpa [and_assoc] using this
  · rintro ⟨stars, hne, tail, hs, ht, he⟩
    refine ⟨stars, mem_plus_cls.mpr ⟨hne, by simpa using hs⟩, tail, mem_star_cls.mpr ?_, he⟩
    intro c hc
    have := ht c hc
    simpa [and_assoc] using this

theorem accepts_newline : (lit "\n".toList).accepts text ↔ text = ['\n'] :=
  accepts_iff.trans mem_lit

theorem accepts_closes : (seq (plus (cls (· = '*'))) (lit "/".toList)).accepts text ↔
    Closes text := by
  have hslash : ∀ xs, xs ∈ (lit "/".toList).language ↔ xs = ['/'] := fun xs => mem_lit
  rw [accepts_iff, mem_seq]
  constructor
  · rintro ⟨stars, hs, tail, ht, he⟩
    obtain ⟨hne, hs⟩ := mem_plus_cls.mp hs
    rw [(hslash tail).mp ht] at he
    exact ⟨stars, hne, by simpa using hs, he⟩
  · rintro ⟨stars, hne, hs, he⟩
    exact ⟨stars, mem_plus_cls.mpr ⟨hne, by simpa using hs⟩, ['/'], (hslash _).mpr rfl, he⟩

theorem of_first_comment (h : first commentRules text = some a) :
    (∀ c ∈ text, c ≠ '*' ∧ c ≠ '\n') ∨ Starred text ∨ text = ['\n'] ∨ Closes text := by
  rw [first_comment] at h
  split at h
  · rename_i ha
    exact .inl (accepts_eaten.mp ha)
  split at h
  · rename_i ha
    exact .inr (.inl (accepts_starred.mp ha))
  split at h
  · rename_i ha
    exact .inr (.inr (.inl (accepts_newline.mp ha)))
  split at h
  · rename_i ha
    exact .inr (.inr (.inr (accepts_closes.mp ha)))
  · cases h

theorem Starred.mem (h : Starred text) : '*' ∈ text ∧ '/' ∉ text ∧ '\n' ∉ text := by
  obtain ⟨stars, hne, tail, hs, ht, rfl⟩ := h
  obtain ⟨c, hc⟩ := List.exists_mem_of_ne_nil _ hne
  refine ⟨List.mem_append_left _ (hs c hc ▸ hc), fun hmem => ?_, fun hmem => ?_⟩
  · rcases List.mem_append.mp hmem with hmem | hmem
    · cases hs _ hmem
    · exact (ht _ hmem).2.1 rfl
  · rcases List.mem_append.mp hmem with hmem | hmem
    · cases hs _ hmem
    · exact (ht _ hmem).2.2 rfl

/-- After another character there is no star. -/
theorem Starred.after (h : Starred (text ++ c :: more)) (hc : c ≠ '*') : '*' ∉ more := by
  obtain ⟨stars, -, tail, hs, ht, he⟩ := h
  intro hmem
  rcases List.append_eq_append_iff.mp he with ⟨xs, -, rfl⟩ | ⟨xs, rfl, he'⟩
  · exact (ht '*' (by simp [hmem])).1 rfl
  · cases xs with
    | nil =>
      rw [List.nil_append] at he'
      exact (ht '*' (by simp [← he', hmem])).1 rfl
    | cons x xs =>
      obtain ⟨rfl, -⟩ := List.cons.inj he'
      exact hc (hs c (by simp))

theorem Closes.mem (h : Closes text) : '*' ∈ text ∧ '/' ∈ text ∧ ∀ c ∈ text, c = '*' ∨ c = '/' := by
  obtain ⟨stars, hne, hs, rfl⟩ := h
  obtain ⟨c, hc⟩ := List.exists_mem_of_ne_nil _ hne
  refine ⟨List.mem_append_left _ (hs c hc ▸ hc), by simp, fun d hd => ?_⟩
  rcases List.mem_append.mp hd with hd | hd
  · exact .inl (hs d hd)
  · exact .inr (List.mem_singleton.mp hd)

/-- Before the last character there are stars only. -/
theorem Closes.before (h : Closes (text ++ more)) (hmore : more ≠ []) : ∀ c ∈ text, c = '*' := by
  obtain ⟨stars, -, hs, he⟩ := h
  have hdrop := congrArg List.dropLast he
  rw [List.dropLast_concat, List.dropLast_append_of_ne_nil hmore] at hdrop
  intro c hc
  exact hs c (by simp [hdrop, hc])

theorem begins_of_stars (hne : stars ≠ []) (hs : ∀ c ∈ stars, c = '*')
    (he : stars ++ tail = c :: text) : c = '*' := by
  obtain ⟨d, stars, rfl⟩ := List.exists_cons_of_ne_nil hne
  obtain ⟨rfl, -⟩ := List.cons.inj he
  exact hs d List.mem_cons_self

theorem Starred.begins (h : Starred (c :: text)) : c = '*' := by
  obtain ⟨stars, hne, tail, hs, -, he⟩ := h
  exact begins_of_stars hne hs he

theorem Closes.begins (h : Closes (c :: text)) : c = '*' := by
  obtain ⟨stars, hne, hs, he⟩ := h
  exact begins_of_stars hne hs he

theorem first_eaten (h : ∀ c ∈ text, c ≠ '*' ∧ c ≠ '\n') :
    first commentRules text = some .nothing := by
  rw [first_comment, if_pos (accepts_eaten.mpr h)]

theorem first_starred (h : Starred text) : first commentRules text = some .nothing := by
  have hno : ¬ ∀ c ∈ text, c ≠ '*' ∧ c ≠ '\n' := fun ha => (ha '*' h.mem.1).1 rfl
  rw [first_comment, if_neg (mt accepts_eaten.mp hno), if_pos (accepts_starred.mpr h)]

theorem first_closes (h : Closes text) : first commentRules text = some (.begin .initial) := by
  obtain ⟨hstar, hslash, -⟩ := h.mem
  have heaten : ¬ ∀ c ∈ text, c ≠ '*' ∧ c ≠ '\n' := fun ha => (ha '*' hstar).1 rfl
  have hstarred : ¬ Starred text := fun ha => ha.mem.2.1 hslash
  have hline : ¬ text = ['\n'] := by
    rintro rfl
    simp at hstar
  rw [first_comment, if_neg (mt accepts_eaten.mp heaten), if_neg (mt accepts_starred.mp hstarred),
    if_neg (mt accepts_newline.mp hline), if_pos (accepts_closes.mpr h)]

/-- A rule of `<COMMENT>` is selected when none matches a longer text. -/
theorem select_in_comment (hne : text ≠ []) (hfirst : first commentRules text = some a)
    (heaten : ∀ d more, rest.head? = some d → ¬ ∀ c ∈ text ++ d :: more, c ≠ '*' ∧ c ≠ '\n')
    (hstarred : ∀ d more, rest.head? = some d → ¬ Starred (text ++ d :: more))
    (hcloses : ∀ d more, rest.head? = some d → ¬ Closes (text ++ d :: more)) :
    select commentRules (text ++ rest) = some (text.length, a) := by
  apply select_append hne hfirst
  rintro more hmore ⟨end', rfl⟩
  obtain ⟨d, more, rfl⟩ := List.exists_cons_of_ne_nil hmore
  cases hf : first commentRules (text ++ d :: more) with
  | none => rfl
  | some b =>
    rcases of_first_comment hf with h | h | h | h
    · exact absurd h (heaten d more rfl)
    · exact absurd h (hstarred d more rfl)
    · have hlen := congrArg List.length h
      have := List.length_pos_of_ne_nil hne
      simp only [List.length_append, List.length_cons, List.length_nil] at hlen
      omega
    · exact absurd h (hcloses d more rfl)

theorem select_run (hc : c ≠ '*') (hrun : ∀ d ∈ c :: text, d ≠ '*' ∧ d ≠ '\n')
    (hrest : ∀ d ∈ rest.head?, d = '*' ∨ d = '\n') :
    select commentRules (c :: text ++ rest) = some ((c :: text).length, .nothing) := by
  apply select_in_comment (List.cons_ne_nil c text) (first_eaten hrun)
  · intro d more hd h
    have hmem := h d (by simp)
    rcases hrest d hd with rfl | rfl
    · exact hmem.1 rfl
    · exact hmem.2 rfl
  · intro d more _ h
    exact hc h.begins
  · intro d more _ h
    exact hc h.begins

theorem select_newline (rest : List Char) :
    select commentRules ('\n' :: rest) = some (1, .commentNewline) := by
  show select commentRules (['\n'] ++ rest) = some (['\n'].length, _)
  apply select_in_comment (by simp) rfl
  · intro d more _ h
    exact (h '\n' (by simp)).2 rfl
  · intro d more _ h
    exact h.mem.2.2 (by simp)
  · intro d more _ h
    have := h.mem.2.2 '\n' (by simp)
    simp at this

/-- Stars and what follows them; a slash right after the stars would close the comment. -/
theorem select_stars (hne : stars ≠ []) (hs : ∀ c ∈ stars, c = '*')
    (ht : ∀ c ∈ tail, c ≠ '*' ∧ c ≠ '/' ∧ c ≠ '\n')
    (hrest : ∀ d ∈ rest.head?, d = '\n' ∨ tail ≠ [] ∧ (d = '*' ∨ d = '/')) :
    select commentRules (stars ++ tail ++ rest) = some ((stars ++ tail).length, .nothing) := by
  have hstarred : Starred (stars ++ tail) := ⟨stars, hne, tail, hs, ht, rfl⟩
  apply select_in_comment (by simp [hne]) (first_starred hstarred)
  · intro d more _ h
    exact (h '*' (List.mem_append_left _ hstarred.mem.1)).1 rfl
  · intro d more hd h
    rcases hrest d hd with rfl | ⟨htail, rfl | rfl⟩
    · exact h.mem.2.2 (by simp)
    · obtain ⟨c, tail, rfl⟩ := List.exists_cons_of_ne_nil htail
      rw [List.append_assoc, List.cons_append] at h
      exact h.after (ht c List.mem_cons_self).1 (by simp)
    · exact h.mem.2.1 (by simp)
  · intro d more hd h
    obtain rfl | ⟨htail, -⟩ := hrest d hd
    · have := h.mem.2.2 '\n' (by simp)
      simp at this
    · obtain ⟨c, tail, rfl⟩ := List.exists_cons_of_ne_nil htail
      obtain ⟨hstar, hslash, -⟩ := ht c List.mem_cons_self
      rcases h.mem.2.2 c (by simp) with hc | hc
      · exact hstar hc
      · exact hslash hc

theorem select_close (hne : stars ≠ []) (hs : ∀ c ∈ stars, c = '*') (rest : List Char) :
    select commentRules (stars ++ ['/'] ++ rest) =
      some ((stars ++ ['/']).length, .begin .initial) := by
  have hcloses : Closes (stars ++ ['/']) := ⟨stars, hne, hs, rfl⟩
  apply select_in_comment (by simp) (first_closes hcloses)
  · intro d more _ h
    exact (h '*' (List.mem_append_left _ hcloses.mem.1)).1 rfl
  · intro d more _ h
    exact h.mem.2.1 (by simp)
  · intro d more _ h
    have := h.before (List.cons_ne_nil d more) '/' (by simp)
    simp at this

/-- The longest run of characters of a class, and what follows it. -/
theorem exists_run (p : Char → Bool) (cs : List Char) : ∃ text rest, cs = text ++ rest ∧
    (∀ c ∈ text, p c) ∧ ∀ d ∈ rest.head?, p d = false := by
  refine ⟨cs.takeWhile p, cs.dropWhile p, List.takeWhile_append_dropWhile.symm, ?_, ?_⟩
  · exact List.all_eq_true.mp List.all_takeWhile
  · intro d hd
    have := List.head?_dropWhile_not p cs
    rw [Option.mem_def.mp hd] at this
    simpa using this

/-- What follows the body of a comment: its end, or the end of the text. -/
inductive CommentEnds : List Char → List Char → StartCondition → Prop where
  | closed {cs : List Char} : CommentEnds ('*' :: '/' :: cs) cs .initial
  | unclosed : CommentEnds [] [] .comment

theorem mem_closed (hne : stars ≠ []) (hs : ∀ c ∈ stars, c = '*') :
    "*/".toList <:+: stars ++ '/' :: rest := by
  obtain ⟨before, c, rfl⟩ := (List.eq_nil_or_concat stars).resolve_left hne
  rw [hs c (by simp)]
  exact ⟨before, rest, by simp⟩

/-- A rule eats the text and goes on; it counts the newline when the text is one. -/
def Eats (text rest : List Char) : Prop :=
  text = ['\n'] ∧ select commentRules (text ++ rest) = some (1, .commentNewline) ∨
    '\n' ∉ text ∧ select commentRules (text ++ rest) = some (text.length, .nothing)

theorem CommentEnds.begins (h : CommentEnds tail cs condition) : ∀ d ∈ tail.head?, d = '*' := by
  cases h with
  | closed => simp
  | unclosed => simp

theorem eats_run (hend : CommentEnds tail cs condition) (hstar : c ≠ '*') (hline : c ≠ '\n') :
    ∃ text rest, c :: body = text ++ rest ∧ text ≠ [] ∧ Eats text (rest ++ tail) := by
  obtain ⟨run, rest, he, hrun, hrest⟩ := exists_run (fun c => c ≠ '*' && c ≠ '\n') body
  have hrun : ∀ d ∈ c :: run, d ≠ '*' ∧ d ≠ '\n' := by
    refine List.forall_mem_cons.mpr ⟨⟨hstar, hline⟩, fun d hd => ?_⟩
    have := hrun d hd
    simpa using this
  refine ⟨c :: run, rest, by rw [he, List.cons_append], by simp, .inr ⟨?_, ?_⟩⟩
  · exact fun hmem => (hrun _ hmem).2 rfl
  · apply select_run hstar hrun
    intro d hd
    cases rest with
    | nil => exact .inl (hend.begins d hd)
    | cons e rest =>
      obtain rfl : e = d := by simpa using hd
      have := hrest e rfl
      simpa [or_iff_not_imp_left] using this

/-- Stars with the run after them, when the comment does not end right there. -/
theorem eats_stars (hend : CommentEnds tail cs condition) (hne : stars ≠ [])
    (hs : ∀ c ∈ stars, c = '*') (hbody : ¬ "*/".toList <:+: stars ++ body)
    (hstop : ∀ d ∈ body.head?, d ≠ '*') (hopen : condition = .initial → body ≠ []) :
    ∃ text rest, stars ++ body = text ++ rest ∧ text ≠ [] ∧ Eats text (rest ++ tail) := by
  obtain ⟨run, rest, rfl, hrun, hrest⟩ :=
    exists_run (fun c => c ≠ '*' && c ≠ '/' && c ≠ '\n') body
  have hrun : ∀ c ∈ run, c ≠ '*' ∧ c ≠ '/' ∧ c ≠ '\n' := by
    intro c hc
    have := hrun c hc
    simpa [and_assoc] using this
  refine ⟨stars ++ run, rest, by rw [List.append_assoc], by simp [hne], .inr ⟨?_, ?_⟩⟩
  · exact (Starred.mem ⟨stars, hne, run, hs, hrun, rfl⟩).2.2
  apply select_stars hne hs hrun
  intro d hd
  cases rest with
  | nil =>
    refine .inr ⟨?_, .inl (hend.begins d hd)⟩
    rintro rfl
    cases hend with
    | closed => exact hopen rfl rfl
    | unclosed => simp at hd
  | cons e rest =>
    obtain rfl : e = d := by simpa using hd
    have hstop' := hrest e rfl
    simp only [Bool.and_eq_false_iff, decide_eq_false_iff_not, not_not] at hstop'
    by_cases hnil : run = []
    · subst hnil
      rcases hstop' with (rfl | rfl) | rfl
      · exact absurd rfl (hstop '*' rfl)
      · exact absurd (mem_closed hne hs) hbody
      · exact .inl rfl
    · rcases hstop' with hstop' | rfl
      · exact .inr ⟨hnil, hstop'⟩
      · exact .inl rfl

/-- A rule eats the beginning of a body; stars right before the end are left to the last rule. -/
theorem eats_body (hend : CommentEnds tail cs condition) (hbody : ¬ "*/".toList <:+: body)
    (hne : body ≠ []) (hstars : condition = .initial → ∃ c ∈ body, c ≠ '*') :
    ∃ text rest, body = text ++ rest ∧ text ≠ [] ∧ Eats text (rest ++ tail) := by
  obtain ⟨c, body, rfl⟩ := List.exists_cons_of_ne_nil hne
  by_cases hline : c = '\n'
  · subst hline
    exact ⟨['\n'], body, rfl, by simp, .inl ⟨rfl, select_newline _⟩⟩
  by_cases hstar : c = '*'
  · obtain ⟨stars, after, he, hs, hafter⟩ := exists_run (· = '*') (c :: body)
    have hs : ∀ c ∈ stars, c = '*' := fun c hc => of_decide_eq_true (hs c hc)
    rw [he] at hbody hstars ⊢
    apply eats_stars hend _ hs hbody
    · exact fun d hd => of_decide_eq_false (hafter d hd)
    · rintro hcond rfl
      obtain ⟨d, hd, hdne⟩ := hstars hcond
      rw [List.append_nil] at hd
      exact hdne (hs d hd)
    · rintro rfl
      rw [List.nil_append] at he
      have := hafter c (by simp [← he])
      simp [hstar] at this
  · exact eats_run hend hstar hline

theorem scan_close (hs : s.condition = .comment) (hne : stars ≠ [])
    (hstars : ∀ c ∈ stars, c = '*') :
    scan s (stars ++ ['/'] ++ cs) = scan { s with condition := .initial } cs := by
  rw [scan_append (a := .begin .initial) (by rw [hs]; exact select_close hne hstars cs)]
  rfl

/-- The rules of `<COMMENT>` lead to the end of the comment, and count its lines. -/
theorem scan_comment (hend : CommentEnds tail cs condition) (hs : s.condition = .comment)
    (hbody : ¬ "*/".toList <:+: body) : scan s (body ++ tail) =
      scan { s with condition := condition, lines := s.lines + body.count '\n' } cs := by
  induction hn : body.length using Nat.strong_induction_on generalizing body s with
  | _ n ih =>
    by_cases hall : condition = .initial ∧ ∀ c ∈ body, c = '*'
    · obtain ⟨hcond, hall⟩ := hall
      have hline : body.count '\n' = 0 := by
        apply List.count_eq_zero.mpr
        intro hmem
        cases hall _ hmem
      rw [hline, Nat.add_zero]
      cases hend with
      | closed =>
        have hstars : ∀ c ∈ body ++ ['*'], c = '*' := by
          intro c hc
          rcases List.mem_append.mp hc with hc | hc
          · exact hall c hc
          · exact List.mem_singleton.mp hc
        have hclose : scan s (body ++ ['*'] ++ ['/'] ++ cs) = _ := scan_close hs (by simp) hstars
        simpa using hclose
      | unclosed => cases hcond
    by_cases hnil : body = []
    · subst hnil
      cases hend with
      | closed => exact absurd ⟨rfl, by simp⟩ hall
      | unclosed =>
        rw [← hs]
        rfl
    have hstars : condition = .initial → ∃ c ∈ body, c ≠ '*' := by
      intro hcond
      by_contra hno
      exact hall ⟨hcond, fun c hc => by_contra fun hne => hno ⟨c, hc, hne⟩⟩
    obtain ⟨text, rest, rfl, hne, hstep⟩ := eats_body hend hbody hnil hstars
    have hrest : ¬ "*/".toList <:+: rest :=
      fun h => hbody (h.trans (List.suffix_append text rest).isInfix)
    have hlen := List.length_pos_of_ne_nil hne
    rw [List.length_append] at hn
    rw [List.append_assoc, List.count_append]
    obtain ⟨rfl, hsel⟩ | ⟨hline, hsel⟩ := hstep
    · rw [scan_append (a := .commentNewline) (by rw [hs]; exact hsel)]
      have hrun := ih rest.length (by simp at hn; omega)
        (s := { s with lines := s.lines + 1 }) hs hrest rfl
      rw [List.count_singleton_self, ← Nat.add_assoc]
      exact hrun
    · rw [scan_append (a := .nothing) (by rw [hs]; exact hsel), List.count_eq_zero.mpr hline,
        Nat.zero_add]
      exact ih rest.length (by omega) hs hrest rfl

namespace Piece

/-- The state after a piece. -/
def after (s : Scanner) : Piece → Scanner
  | token _ text => s.advance text.length
  | blank c => if c = '\n' then { s with lines := s.lines + 1, posStart := 1, posEnd := 1 }
      else s.advance 1
  | comment body => { s with lines := s.lines + body.count '\n' }
  | unclosed body => { s with condition := .comment, lines := s.lines + body.count '\n' }
  | other _ => s

def lexemes (s : Scanner) : Piece → List Lexeme
  | token k text => [(s.advance text.length).lexeme k text]
  | _ => []

def echoed : Piece → List Char
  | other c => [c]
  | _ => []

end Piece

def scanPieces (s : Scanner) : List Piece → Scanned
  | [] => ⟨[], [], s⟩
  | p :: ps =>
    let rest := scanPieces (p.after s) ps
    ⟨p.lexemes s ++ rest.lexemes, p.echoed ++ rest.echoed, rest.final⟩

theorem scan_token (hs : s.condition = .initial) (h : (Piece.token k text).Begins cs) :
    scan s (text ++ cs) =
      (scan (s.advance text.length) cs).emit [(s.advance text.length).lexeme k text] := by
  obtain ⟨hno, hk, hlong⟩ := h
  obtain ⟨w, hsel, hw⟩ := select_token hno hk hlong
  rw [scan_append (a := .ret w k) (by rw [hs]; exact hsel)]
  simp only [Action.run, hw]

theorem scan_blank (hs : s.condition = .initial) (hc : isBlank c) :
    scan s (c :: cs) = scan ((Piece.blank c).after s) cs := by
  have hsel : select (activeRules s.condition) ([c] ++ cs) = some ([c].length, blankAction c) := by
    rw [hs]
    exact select_blank hc cs
  have hrun : (blankAction c).run [c] s = ((Piece.blank c).after s, []) := by
    simp only [blankAction, Piece.after]
    split
    · rfl
    · split <;> rfl
  have hstep := scan_append hsel
  rw [hrun] at hstep
  exact hstep

theorem scan_in_comment (hs : s.condition = .initial) (hend : CommentEnds tail cs condition)
    (hbody : ¬ "*/".toList <:+: body) : scan s ("/*".toList ++ body ++ tail) =
      scan { s with condition := condition, lines := s.lines + body.count '\n' } cs := by
  have hbegin : scan s ("/*".toList ++ (body ++ tail)) =
      scan { s with condition := .comment } (body ++ tail) := by
    rw [scan_append (a := .begin .comment) (by rw [hs]; exact select_comment _)]
    rfl
  rw [List.append_assoc, hbegin, scan_comment hend rfl hbody]

variable {p q : Piece}

theorem Piece.Begins.text_ne_nil (h : p.Begins rest) : p.text ≠ [] := by
  cases p with
  | token k text =>
    rintro rfl
    exact not_isLexeme_nil ⟨k, h.2.1⟩
  | _ => simp [Piece.text]

theorem munches_nil (h : Munches [] ps) : ps = [] := by
  generalize hcs : ([] : List Char) = cs at h
  cases h with
  | nil => rfl
  | cons hp _ => exact absurd (List.append_eq_nil_iff.mp hcs.symm).1 hp.text_ne_nil

/-- The rules make of each piece what it is for. -/
theorem scan_munches (h : Munches cs ps) (hs : s.condition = .initial) :
    scan s cs = scanPieces s ps := by
  induction h generalizing s with
  | nil => rfl
  | @cons p rest ps hp hps ih =>
    cases p with
    | token k text =>
      rw [Piece.text, scan_token hs hp, ih (s := s.advance text.length) hs]
      rfl
    | blank c =>
      have hcond : ((Piece.blank c).after s).condition = .initial := by
        simp only [Piece.after]
        split <;> exact hs
      have hstep : scan s (c :: rest) = _ := scan_blank hs hp
      exact hstep.trans (congrArg (Scanned.emit []) (ih hcond))
    | comment body =>
      have hend : CommentEnds ('*' :: '/' :: rest) rest .initial := .closed
      have hstep := scan_in_comment hs hend hp
      rw [← hs] at hstep
      rw [Piece.text, List.append_assoc]
      exact hstep.trans (ih (s := (Piece.comment body).after s) hs)
    | unclosed body =>
      obtain ⟨hbody, rfl⟩ := hp
      rw [munches_nil hps, Piece.text]
      exact scan_in_comment hs .unclosed hbody
    | other c =>
      obtain ⟨hc, hno, hlex⟩ := hp
      have := scan_cons_echo (s := s) (by rw [hs]; exact select_other hc hno hlex)
      rw [ih hs] at this
      exact this

theorem Munches.flatten (h : Munches cs ps) : (ps.map Piece.text).flatten = cs := by
  induction h with
  | nil => rfl
  | cons _ _ ih => rw [List.map_cons, List.flatten_cons, ih]

/-- The first star and slash of a text. -/
theorem exists_body (h : "*/".toList <:+: cs) :
    ∃ body rest, cs = body ++ '*' :: '/' :: rest ∧ ¬ "*/".toList <:+: body := by
  induction cs with
  | nil => simp at h
  | cons c cs ih =>
    by_cases hpre : "*/".toList <+: c :: cs
    · obtain ⟨rest, he⟩ := hpre
      exact ⟨[], rest, he.symm, by simp⟩
    · obtain ⟨body, rest, rfl, hbody⟩ := ih ((List.infix_cons_iff.mp h).resolve_left hpre)
      refine ⟨c :: body, rest, rfl, fun hin => ?_⟩
      rcases List.infix_cons_iff.mp hin with hp | hin
      · exact hpre (hp.trans ⟨'*' :: '/' :: rest, rfl⟩)
      · exact hbody hin

/-- A body ends before the first star and slash. -/
theorem body_ends_first {body' rest' : List Char} (hend : CommentEnds tail cs condition)
    (hbody : ¬ "*/".toList <:+: body) (he : body ++ tail = body' ++ '*' :: '/' :: rest') :
    body <+: body' := by
  rcases List.append_eq_append_iff.mp he with ⟨xs, hxs, -⟩ | ⟨xs, rfl, he'⟩
  · exact ⟨xs, hxs.symm⟩
  · cases xs with
    | nil => exact ⟨[], by simp⟩
    | cons c xs =>
      cases xs with
      | nil =>
        cases hend with
        | closed => simp at he'
        | unclosed => simp at he'
      | cons d xs =>
        simp only [List.cons_append, List.cons.injEq] at he'
        obtain ⟨rfl, rfl, -⟩ := he'
        exact absurd ⟨body', xs, by simp⟩ hbody

theorem exists_longest {P : List Char → Prop} (h : ∃ text, P text ∧ text <+: cs) :
    ∃ text rest, cs = text ++ rest ∧ P text ∧
      ∀ longer, P longer → longer <+: cs → longer.length ≤ text.length := by
  classical
  obtain ⟨text, hP, hpre⟩ := h
  have htake : ∀ text, P text → text <+: cs → P (cs.take text.length) := by
    intro text hP hpre
    rwa [← List.prefix_iff_eq_take.mp hpre]
  have hspec := Nat.findGreatest_spec (P := fun n => P (cs.take n)) hpre.length_le
    (htake text hP hpre)
  refine ⟨_, _, (List.take_append_drop _ cs).symm, hspec, fun longer hl hp => ?_⟩
  rw [List.length_take, Nat.min_eq_left (Nat.findGreatest_le _)]
  exact Nat.le_findGreatest hp.length_le (htake longer hl hp)

theorem exists_begins (c : Char) (cs : List Char) :
    ∃ p rest, c :: cs = Piece.text p ++ rest ∧ p.Begins rest := by
  by_cases hc : isBlank c
  · exact ⟨.blank c, cs, rfl, hc⟩
  by_cases hcomment : "/*".toList <+: c :: cs
  · obtain ⟨inside, he⟩ := hcomment
    by_cases hclose : "*/".toList <:+: inside
    · obtain ⟨body, rest, rfl, hbody⟩ := exists_body hclose
      exact ⟨.comment body, rest, by rw [← he, Piece.text]; simp, hbody⟩
    · exact ⟨.unclosed inside, [], by rw [← he, Piece.text, List.append_nil], hclose, rfl⟩
  by_cases hlex : ∃ text, IsLexeme text ∧ text <+: c :: cs
  · obtain ⟨text, rest, he, ⟨k, hk⟩, hlong⟩ := exists_longest hlex
    rw [he] at hcomment hlong
    exact ⟨.token k text, rest, he, hcomment, hk, hlong⟩
  · exact ⟨.other c, cs, rfl, by simpa using hc, hcomment, fun text hl hp => hlex ⟨text, hl, hp⟩⟩

theorem exists_munches (cs : List Char) : ∃ ps, Munches cs ps := by
  induction hn : cs.length using Nat.strong_induction_on generalizing cs with
  | _ n ih =>
    cases cs with
    | nil => exact ⟨[], .nil⟩
    | cons c cs =>
      obtain ⟨p, rest, he, hp⟩ := exists_begins c cs
      have hlen := List.length_pos_of_ne_nil hp.text_ne_nil
      have := congrArg List.length he
      rw [List.length_append] at this
      obtain ⟨ps, hps⟩ := ih rest.length (by omega) rest rfl
      rw [he]
      exact ⟨p :: ps, .cons hp hps⟩

/-- What is selected where a piece begins. -/
def Piece.Selects (r : Option (Nat × Action)) : Piece → Prop
  | .token k text => ∃ w, r = some (text.length, .ret w k)
  | .blank c => r = some (1, blankAction c)
  | .comment _ | .unclosed _ => r = some (2, .begin .comment)
  | .other _ => r = none

theorem Piece.Begins.selects (h : p.Begins rest) :
    p.Selects (select initialRules (p.text ++ rest)) := by
  cases p with
  | token k text =>
    obtain ⟨hno, hk, hlong⟩ := h
    obtain ⟨w, hsel, -⟩ := select_token hno hk hlong
    exact ⟨w, hsel⟩
  | blank c => exact select_blank h rest
  | comment body =>
    rw [Piece.text, List.append_assoc, List.append_assoc]
    exact select_comment _
  | unclosed body =>
    rw [Piece.text, List.append_assoc]
    exact select_comment _
  | other c =>
    obtain ⟨hc, hno, hlex⟩ := h
    exact select_other hc hno hlex

theorem blankAction_ne_begin (c : Char) : blankAction c ≠ .begin condition := by
  unfold blankAction
  split
  · exact Action.noConfusion
  · split <;> exact Action.noConfusion

theorem blankAction_ne_ret (c : Char) (w : Width) : blankAction c ≠ .ret w k := by
  unfold blankAction
  split
  · exact Action.noConfusion
  · split <;> exact Action.noConfusion

/-- Two pieces at one place are of the same kind. -/
theorem Piece.Selects.kinds {r : Option (Nat × Action)} (hp : p.Selects r) (hq : q.Selects r) :
    (∃ k text text', p = .token k text ∧ q = .token k text' ∧ text.length = text'.length) ∨
      (∃ c c', p = .blank c ∧ q = .blank c') ∨ (∃ c c', p = .other c ∧ q = .other c') ∨
      (∃ body, p = .comment body ∨ p = .unclosed body) ∧
        ∃ body, q = .comment body ∨ q = .unclosed body := by
  have hne : ∀ c, blankAction c ≠ .begin .comment := blankAction_ne_begin
  have hne' : ∀ c w k, blankAction c ≠ .ret w k := fun c w k => blankAction_ne_ret c w
  cases p <;> cases q
  case token.token k text k' text' =>
    obtain ⟨w, hp⟩ := hp
    obtain ⟨w', hq⟩ := hq
    rw [hp, Option.some.injEq, Prod.mk.injEq, Action.ret.injEq] at hq
    exact .inl ⟨k, text, text', rfl, by rw [hq.2.2], hq.1⟩
  all_goals simp_all [Piece.Selects]

theorem comment_unique {body' rest' : List Char} (hbody : ¬ "*/".toList <:+: body)
    (hbody' : ¬ "*/".toList <:+: body')
    (he : body ++ '*' :: '/' :: rest = body' ++ '*' :: '/' :: rest') : body = body' :=
  (body_ends_first .closed hbody he).eq_of_length_le
    (body_ends_first .closed hbody' he.symm).length_le

theorem Piece.Begins.unique {rest' : List Char} (h : p.Begins rest) (h' : q.Begins rest')
    (he : p.text ++ rest = q.text ++ rest') : p = q := by
  have hq := h'.selects
  rw [← he] at hq
  obtain ⟨k, text, text', rfl, rfl, hlen⟩ | ⟨c, c', rfl, rfl⟩ | ⟨c, c', rfl, rfl⟩ |
    ⟨⟨body, hbody⟩, body', hbody'⟩ := h.selects.kinds hq
  · obtain rfl : text = text' := List.append_inj_left he hlen
    rfl
  · rw [(List.cons.inj he).1]
  · rw [(List.cons.inj he).1]
  · have hopen : ∀ body : List Char, ¬ "*/".toList <:+: body →
        ∀ after rest, body ≠ after ++ '*' :: '/' :: rest := by
      rintro _ hno after rest rfl
      exact hno ⟨after, rest, by simp⟩
    rcases hbody with rfl | rfl
    · rcases hbody' with rfl | rfl
      · rw [comment_unique h h' (by simpa [Piece.text] using he)]
      · obtain ⟨hno, rfl⟩ := h'
        exact absurd (by simpa [Piece.text] using he.symm) (hopen body' hno body rest)
    · obtain ⟨hno, rfl⟩ := h
      rcases hbody' with rfl | rfl
      · exact absurd (by simpa [Piece.text] using he) (hopen body hno body' rest')
      · obtain ⟨-, rfl⟩ := h'
        rw [show body = body' by simpa [Piece.text] using he]

theorem Munches.unique (h : Munches cs ps) (h' : Munches cs qs) : ps = qs := by
  induction h generalizing qs with
  | nil => exact (munches_nil h').symm
  | @cons p rest ps hp _ ih =>
    generalize hcs : p.text ++ rest = cs at h'
    cases h' with
    | nil => exact absurd (List.append_eq_nil_iff.mp hcs).1 hp.text_ne_nil
    | @cons q rest' qs hq hqs =>
      obtain rfl := hp.unique hq hcs
      rw [List.append_cancel_left hcs] at ih
      rw [ih hqs]

/-- The token of a piece, with its text. -/
def Piece.returned : Piece → Option (Terminal × List Char)
  | token k text => some (k, text)
  | _ => none

theorem scanPieces_lexemes (s : Scanner) (ps : List Piece) :
    (scanPieces s ps).lexemes.map (fun x => (x.token, x.text)) = ps.filterMap Piece.returned := by
  induction ps generalizing s with
  | nil => rfl
  | cons p ps ih =>
    have hrest := ih (p.after s)
    cases p with
    | token k text => exact congrArg ((k, text) :: ·) hrest
    | _ => exact hrest

theorem scanPieces_echoed (s : Scanner) (ps : List Piece) :
    (scanPieces s ps).echoed = ps.flatMap Piece.echoed := by
  induction ps generalizing s with
  | nil => rfl
  | cons p ps ih => exact congrArg (p.echoed ++ ·) (ih (p.after s))

/-- Each piece begins the text that it and the following ones make. -/
theorem Munches.begins {before after : List Piece} (h : Munches cs (before ++ p :: after)) :
    p.Begins (after.map Piece.text).flatten := by
  induction before generalizing cs with
  | nil =>
    cases h with
    | cons hp hps => rwa [hps.flatten]
  | cons q before ih =>
    cases h with
    | cons _ hps => exact ih hps

/-- A token of letters, keyword or identifier, is a whole word. -/
theorem Piece.Begins.whole_word (h : (Piece.token k text).Begins rest)
    (ht : ∀ c ∈ text, c.isAlpha) : ∀ c ∈ rest.head?, c.isAlpha = false := by
  intro c hc
  obtain ⟨rest, rfl⟩ := List.head?_eq_some_iff.mp hc
  by_contra halpha
  have hword : ∀ d ∈ text ++ [c], d.isAlpha := by
    intro d hd
    rcases List.mem_append.mp hd with hd | hd
    · exact ht d hd
    · rw [List.mem_singleton.mp hd]
      simpa using halpha
  have hlen := h.2.2 (text ++ [c]) (isLexeme_of_isAlpha (by simp) hword) ⟨rest, by simp⟩
  rw [List.length_append, List.length_singleton] at hlen
  omega

/-- A text has exactly one list of pieces, `yylex` returns the tokens among them, and no word is cut
into tokens. -/
theorem scan_exact (cs : List Char) : ∃ ps, (∀ qs, Munches cs qs ↔ qs = ps) ∧
    (ps.map Piece.text).flatten = cs ∧
    (scan .start cs).lexemes.map (fun x => (x.token, x.text)) = ps.filterMap Piece.returned ∧
    (scan .start cs).echoed = ps.flatMap Piece.echoed ∧
    ∀ before k text after, ps = before ++ .token k text :: after → (∀ c ∈ text, c.isAlpha) →
      ∀ c ∈ (after.map Piece.text).flatten.head?, c.isAlpha = false := by
  obtain ⟨ps, hps⟩ := exists_munches cs
  have hscan := scan_munches hps (s := .start) rfl
  refine ⟨ps, fun qs => ⟨fun hqs => hqs.unique hps, fun he => he ▸ hps⟩, hps.flatten, ?_, ?_, ?_⟩
  · rw [hscan, scanPieces_lexemes]
  · rw [hscan, scanPieces_echoed]
  · rintro before k text after rfl
    exact hps.begins.whole_word

example : (scan .start "1..2/***/".toList).lexemes.map Lexeme.token =
    [.floatpoint, .floatpoint] := by
  decide

end Cminusf
