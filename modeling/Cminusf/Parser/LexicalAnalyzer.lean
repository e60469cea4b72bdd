import Cminusf.Flex.Regex
import Cminusf.Parser.SyntaxTree

/-! The rules of `lexical_analyzer.l`, and the pieces of which a text is made by maximal munch. -/

namespace Cminusf

open Regex

inductive StartCondition where
  | initial
  | comment
deriving DecidableEq

/-- What an action adds to `pos_end`. -/
inductive Width where
  | const (n : Nat)
  | strlen
deriving DecidableEq

def Width.of : Width → List Char → Nat
  | const n, _ => n
  | strlen, text => text.length

inductive Action where
  | ret (width : Width) (token : Terminal)
  | skip (width : Width)
  | newline
  | begin (condition : StartCondition)
  | nothing
  | commentNewline
deriving DecidableEq

/-- The rules for single texts, in their order. -/
def fixedRules : List (String × Action) :=
  [("+", .ret (.const 1) .add), ("-", .ret (.const 1) .sub), ("*", .ret (.const 1) .mul),
    ("/", .ret (.const 1) .div), ("<", .ret .strlen .lt), ("<=", .ret (.const 2) .lte),
    (">", .ret .strlen .gt), (">=", .ret .strlen .gte), ("==", .ret .strlen .eq),
    ("!=", .ret .strlen .neq), ("=", .ret .strlen .assin), (";", .ret .strlen .semicolon),
    (",", .ret .strlen .comma), ("(", .ret .strlen .lparenthese),
    (")", .ret .strlen .rparenthese), ("[", .ret .strlen .lbracket),
    ("]", .ret .strlen .rbracket), ("\x7b", .ret .strlen .lbrace),
    ("\x7d", .ret .strlen .rbrace), ("\t", .skip .strlen), ("\n", .newline),
    (" ", .skip (.const 1)), ("else", .ret .strlen .else), ("if", .ret .strlen .if),
    ("int", .ret .strlen .int), ("return", .ret .strlen .return), ("void", .ret .strlen .void),
    ("while", .ret .strlen .while), ("float", .ret .strlen .float)]

def digit : Regex Char := .cls Char.isDigit

def integers : Regex Char := .plus digit

def floats : Regex Char :=
  .alt (.seq (.plus digit) (.lit ".".toList))
    (.seq (.star digit) (.seq (.lit ".".toList) (.plus digit)))

def letter : Regex Char := .cls Char.isAlpha

/-- `IDENTIFIER`. -/
def identifiers : Regex Char := .plus letter

/-- The rules without a start condition. -/
def initialRules : List (Regex Char × Action) :=
  fixedRules.map (fun rule => (.lit rule.1.toList, rule.2)) ++
    [(identifiers, .ret .strlen .identifier), (integers, .ret .strlen .integer),
      (floats, .ret .strlen .floatpoint), (.lit "/*".toList, .begin .comment)]

/-- The rules of `<COMMENT>`. -/
def commentRules : List (Regex Char × Action) :=
  [(.star (.cls fun c => c ≠ '*' && c ≠ '\n'), .nothing),
    (.seq (.plus (.cls (· = '*'))) (.star (.cls fun c => c ≠ '*' && c ≠ '/' && c ≠ '\n')),
      .nothing),
    (.lit "\n".toList, .commentNewline),
    (.seq (.plus (.cls (· = '*'))) (.lit "/".toList), .begin .initial)]

/-- `%x COMMENT`: in a comment its own rules are active only. -/
def activeRules : StartCondition → List (Regex Char × Action)
  | .initial => initialRules
  | .comment => commentRules

/-- The start condition, with `lines`, `pos_start` and `pos_end`. -/
structure Scanner where
  condition : StartCondition
  lines : Nat
  posStart : Nat
  posEnd : Nat
deriving DecidableEq

/-- What `yylex` returns: the token, `yytext` and the positions at that time. -/
structure Lexeme where
  token : Terminal
  text : List Char
  lines : Nat
  posStart : Nat
  posEnd : Nat
deriving DecidableEq

/-- `pos_start = pos_end; pos_end += n`. -/
def Scanner.advance (s : Scanner) (n : Nat) : Scanner :=
  { s with posStart := s.posEnd, posEnd := s.posEnd + n }

def Scanner.lexeme (s : Scanner) (token : Terminal) (text : List Char) : Lexeme :=
  ⟨token, text, s.lines, s.posStart, s.posEnd⟩

def Action.run (action : Action) (text : List Char) (s : Scanner) : Scanner × List Lexeme :=
  match action with
  | .ret width token =>
    (s.advance (width.of text), [(s.advance (width.of text)).lexeme token text])
  | .skip width => (s.advance (width.of text), [])
  | .newline => ({ s with lines := s.lines + 1, posStart := 1, posEnd := 1 }, [])
  | .begin condition => ({ s with condition := condition }, [])
  | .nothing => (s, [])
  | .commentNewline => ({ s with lines := s.lines + 1 }, [])

/-- The lexemes, the characters that are echoed, and the state at the end of the text. -/
structure Scanned where
  lexemes : List Lexeme
  echoed : List Char
  final : Scanner
deriving DecidableEq

/-- The calls of `yylex` on the rest of a text; a character that no rule matches is echoed. -/
def scanFrom : Nat → Scanner → List Char → Scanned
  | _, s, [] => ⟨[], [], s⟩
  | 0, s, _ :: _ => ⟨[], [], s⟩
  | fuel + 1, s, c :: cs =>
    match select (activeRules s.condition) (c :: cs) with
    | some (n, action) =>
      let r := action.run ((c :: cs).take n) s
      let rest := scanFrom fuel r.1 ((c :: cs).drop n)
      { rest with lexemes := r.2 ++ rest.lexemes }
    | none =>
      let rest := scanFrom fuel s cs
      { rest with echoed := c :: rest.echoed }

/-- Each round takes a character at least. -/
def scan (s : Scanner) (cs : List Char) : Scanned := scanFrom cs.length s cs

/-- `parse` sets `lines`, `pos_start` and `pos_end` to 1. -/
def Scanner.start : Scanner := ⟨.initial, 1, 1, 1⟩

/-- A piece of a text. -/
inductive Piece where
  | token (k : Terminal) (text : List Char)
  | blank (c : Char)
  | comment (body : List Char)
  | unclosed (body : List Char)
  | other (c : Char)

namespace Piece

def text : Piece → List Char
  | token _ text => text
  | blank c | other c => [c]
  | comment body => "/*".toList ++ body ++ "*/".toList
  | unclosed body => "/*".toList ++ body

end Piece

def isBlank (c : Char) : Bool := c == ' ' || c == '\t' || c == '\n'

/-- The text is that of a token. -/
def IsLexeme (text : List Char) : Prop := ∃ k : Terminal, k.Matches (String.ofList text)

/-- The first piece of a text, before `rest`: a comment ends with the first star and slash after its
beginning, and a token is the longest one at its place. -/
def Piece.Begins (rest : List Char) : Piece → Prop
  | .blank c => isBlank c
  | .comment body => ¬ "*/".toList <:+: body
  | .unclosed body => ¬ "*/".toList <:+: body ∧ rest = []
  | .token k text => ¬ "/*".toList <+: text ++ rest ∧ k.Matches (String.ofList text) ∧
      ∀ longer, IsLexeme longer → longer <+: text ++ rest → longer.length ≤ text.length
  | .other c => isBlank c = false ∧ ¬ "/*".toList <+: c :: rest ∧
      ∀ text, IsLexeme text → ¬ text <+: c :: rest

/-- Maximal munch. -/
inductive Munches : List Char → List Piece → Prop where
  | nil : Munches [] []
  | cons {p : Piece} {rest : List Char} {ps : List Piece} :
      p.Begins rest → Munches rest ps → Munches (p.text ++ rest) (p :: ps)

variable {k : Terminal} {text more cs body stars tail : List Char} {c d : Char} {a : Action}
  {s : Scanner} {n fuel : Nat} {ps qs : List Piece}

theorem first_initial (text : List Char) : first initialRules text =
    ((fixedRules.find? fun e => e.1.toList = text).map Prod.snd).or
      (if identifiers.accepts text then some (.ret .strlen .identifier)
        else if integers.accepts text then some (.ret .strlen .integer)
        else if floats.accepts text then some (.ret .strlen .floatpoint)
        else if (lit "/*".toList).accepts text then some (.begin .comment) else none) := by
  rw [initialRules, first_append, first_lits String.toList, first_cons, first_cons, first_cons,
    first_cons]
  rfl

theorem accepts_identifiers : identifiers.accepts text ↔ text ≠ [] ∧ ∀ c ∈ text, c.isAlpha :=
  accepts_iff.trans mem_plus_cls

theorem accepts_integers : integers.accepts text ↔ text ≠ [] ∧ ∀ c ∈ text, c.isDigit :=
  accepts_iff.trans mem_plus_cls

theorem accepts_floats : floats.accepts text ↔ ∃ whole part, text = whole ++ '.' :: part ∧
    (whole ≠ [] ∨ part ≠ []) ∧ ∀ c ∈ whole ++ part, c.isDigit := by
  have hdot : ∀ xs, xs ∈ (lit ".".toList).language ↔ xs = ['.'] := fun xs => mem_lit
  rw [accepts_iff, floats, mem_alt]
  constructor
  · rintro (⟨whole, hw, dot, hd, rfl⟩ | ⟨whole, hw, rest, ⟨dot, hd, part, hp, rfl⟩, rfl⟩)
    · obtain ⟨hne, hw⟩ := mem_plus_cls.mp hw
      rw [(hdot dot).mp hd]
      exact ⟨whole, [], rfl, .inl hne, by simpa using hw⟩
    · obtain ⟨hne, hp⟩ := mem_plus_cls.mp hp
      rw [(hdot dot).mp hd]
      refine ⟨whole, part, rfl, .inr hne, fun c hc => ?_⟩
      rcases List.mem_append.mp hc with hc | hc
      · exact mem_star_cls.mp hw c hc
      · exact hp c hc
  · rintro ⟨whole, part, rfl, hne, hdigit⟩
    have hw : ∀ c ∈ whole, c.isDigit := fun c hc => hdigit c (List.mem_append_left _ hc)
    have hp : ∀ c ∈ part, c.isDigit := fun c hc => hdigit c (List.mem_append_right _ hc)
    by_cases hpart : part = []
    · subst hpart
      exact .inl ⟨whole, mem_plus_cls.mpr ⟨hne.resolve_right (by simp), hw⟩, ['.'],
        (hdot _).mpr rfl, rfl⟩
    · exact .inr ⟨whole, mem_star_cls.mpr hw, '.' :: part,
        ⟨['.'], (hdot _).mpr rfl, part, mem_plus_cls.mpr ⟨hpart, hp⟩, rfl⟩, rfl⟩

theorem not_isDigit_of_isAlpha (h : c.isAlpha) : c.isDigit = false := by
  have hletter : (decide ('A'.val ≤ c.val ∧ c.val ≤ 'Z'.val) ||
      (decide ('a'.val ≤ c.val) && decide (c.val ≤ 'z'.val))) = true := h
  show (decide ('0'.val ≤ c.val) && decide (c.val ≤ '9'.val)) = false
  simp only [Bool.or_eq_true, Bool.and_eq_true, Bool.and_eq_false_iff, decide_eq_true_eq,
    decide_eq_false_iff_not, UInt32.le_iff_toNat_le] at hletter ⊢
  have h1 : 'A'.val.toNat = 65 := rfl
  have h2 : 'Z'.val.toNat = 90 := rfl
  have h3 : 'a'.val.toNat = 97 := rfl
  have h4 : '0'.val.toNat = 48 := rfl
  have h5 : '9'.val.toNat = 57 := rfl
  omega

/-- The texts of the fixed rules: keywords, symbols and blanks. -/
theorem fixedRules_texts : ∀ e ∈ fixedRules,
    (∀ c ∈ e.1.toList, c.isAlpha = false) ∨
      e.1 ∈ ["else", "if", "int", "return", "void", "while", "float"] := by
  have hall : fixedRules.all (fun e => e.1.toList.all (fun c => !c.isAlpha) ||
      ["else", "if", "int", "return", "void", "while", "float"].contains e.1) = true := by
    decide
  intro e he
  have := List.all_eq_true.mp hall e he
  rw [Bool.or_eq_true, List.all_eq_true, List.contains_iff_mem] at this
  simpa using this

theorem fixedRules_numbers : ∀ e ∈ fixedRules,
    e.1.toList ≠ [] ∧ ∀ c ∈ e.1.toList, c.isDigit = false ∧ c ≠ '.' := by
  have hall : fixedRules.all (fun e => !e.1.toList.isEmpty &&
      e.1.toList.all fun c => !c.isDigit && c != '.') = true := by
    decide
  intro e he
  have := List.all_eq_true.mp hall e he
  rw [Bool.and_eq_true, List.all_eq_true] at this
  simpa using this

theorem find_fixed_eq_none (h : ∀ e ∈ fixedRules, e.1.toList ≠ text) :
    (fixedRules.find? fun e => e.1.toList = text) = none := by
  simpa using h

/-- The first rule that matches the text of a token is that of the token. -/
theorem first_of_matches (h : k.Matches (String.ofList text)) :
    ∃ w, first initialRules text = some (.ret w k) ∧ w.of text = text.length := by
  have hfixed : ∀ k' : Terminal, String.ofList text = k'.text →
      (∃ w, first initialRules k'.text.toList = some (.ret w k') ∧
        w.of k'.text.toList = k'.text.toList.length) →
      ∃ w, first initialRules text = some (.ret w k') ∧ w.of text = text.length := by
    intro k' he hw
    rwa [← he, String.toList_ofList] at hw
  cases k with
  | identifier =>
    obtain ⟨hne, halpha, hkey⟩ := h
    rw [String.toList_ofList] at halpha
    have htext : text ≠ [] := fun hnil => hne (by rw [hnil])
    refine ⟨.strlen, ?_, rfl⟩
    rw [first_initial, find_fixed_eq_none, if_pos (accepts_identifiers.mpr ⟨htext, halpha⟩)]
    · rfl
    · rintro e he rfl
      rcases fixedRules_texts e he with hno | hmem
      · obtain ⟨c, hc⟩ := List.exists_mem_of_ne_nil _ htext
        have := halpha c hc
        rw [hno c hc] at this
        cases this
      · rw [String.ofList_toList] at hkey
        exact hkey hmem
  | integer =>
    obtain ⟨hne, hdigit⟩ := h
    rw [String.toList_ofList] at hdigit
    have htext : text ≠ [] := fun hnil => hne (by rw [hnil])
    obtain ⟨c, hc⟩ := List.exists_mem_of_ne_nil _ htext
    have hno : ¬ identifiers.accepts text := by
      intro ha
      have := not_isDigit_of_isAlpha ((accepts_identifiers.mp ha).2 c hc)
      rw [hdigit c hc] at this
      cases this
    refine ⟨.strlen, ?_, rfl⟩
    rw [first_initial, find_fixed_eq_none, if_neg hno,
      if_pos (accepts_integers.mpr ⟨htext, hdigit⟩)]
    · rfl
    · rintro e he rfl
      have := (fixedRules_numbers e he).2 c hc
      rw [hdigit c hc] at this
      cases this.1
  | floatpoint =>
    obtain ⟨whole, part, htext, hne, hdigit⟩ := h
    rw [String.toList_ofList] at htext
    have hdot : '.' ∈ text := by simp [htext]
    have hno : ¬ identifiers.accepts text := fun ha => by
      cases (accepts_identifiers.mp ha).2 '.' hdot
    have hno' : ¬ integers.accepts text := fun ha => by
      cases (accepts_integers.mp ha).2 '.' hdot
    refine ⟨.strlen, ?_, rfl⟩
    rw [first_initial, find_fixed_eq_none, if_neg hno, if_neg hno',
      if_pos (accepts_floats.mpr ⟨whole, part, htext, hne, hdigit⟩)]
    · rfl
    · rintro e he rfl
      exact ((fixedRules_numbers e he).2 '.' hdot).2 rfl
  | _ => exact hfixed _ h ⟨_, rfl, rfl⟩

/-- The token of the action. -/
def Action.token : Action → Option Terminal
  | .ret _ token => some token
  | _ => none

/-- What a fixed rule matches is the text of its token, or a blank. -/
theorem fixedRules_actions : ∀ e ∈ fixedRules,
    e.2.token.map Terminal.text = some e.1 ∨ e.1 ∈ ["\t", "\n", " "] := by
  decide

theorem matches_text (h : k.text ≠ "") : k.Matches k.text := by
  cases k <;> first | rfl | exact absurd rfl h

theorem ofList_ne_empty (h : text ≠ []) : String.ofList text ≠ "" := by
  intro he
  apply h
  rw [← String.toList_ofList (l := text), he]
  rfl

theorem isLexeme_of_isAlpha (hne : text ≠ []) (h : ∀ c ∈ text, c.isAlpha) : IsLexeme text := by
  by_cases hkey : String.ofList text ∈ ["else", "if", "int", "return", "void", "while", "float"]
  · simp only [List.mem_cons, List.not_mem_nil, or_false] at hkey
    rcases hkey with he | he | he | he | he | he | he
    · exact ⟨.else, he⟩
    · exact ⟨.if, he⟩
    · exact ⟨.int, he⟩
    · exact ⟨.return, he⟩
    · exact ⟨.void, he⟩
    · exact ⟨.while, he⟩
    · exact ⟨.float, he⟩
  · exact ⟨.identifier, ofList_ne_empty hne, by rwa [String.toList_ofList], hkey⟩

theorem of_first (h : first initialRules text = some a) :
    IsLexeme text ∨ (∃ c, isBlank c ∧ text = [c]) ∨ text = "/*".toList := by
  rw [first_initial] at h
  cases hfind : fixedRules.find? fun e => e.1.toList = text with
  | some e =>
    obtain rfl : e.1.toList = text := by simpa using List.find?_some hfind
    have hmem := List.mem_of_find?_eq_some hfind
    rcases fixedRules_actions e hmem with htoken | hblank
    · obtain ⟨k, -, hk⟩ := Option.map_eq_some_iff.mp htoken
      refine .inl ⟨k, ?_⟩
      rw [String.ofList_toList, ← hk]
      apply matches_text
      intro hnil
      apply (fixedRules_numbers e hmem).1
      rw [← hk, hnil]
      rfl
    · refine .inr (.inl ?_)
      simp only [List.mem_cons, List.not_mem_nil, or_false] at hblank
      rcases hblank with he | he | he
      · exact ⟨'\t', rfl, by rw [he]; rfl⟩
      · exact ⟨'\n', rfl, by rw [he]; rfl⟩
      · exact ⟨' ', rfl, by rw [he]; rfl⟩
  | none =>
    rw [hfind] at h
    simp only [Option.map_none, Option.none_or] at h
    split at h
    · rename_i ha
      obtain ⟨hne, halpha⟩ := accepts_identifiers.mp ha
      exact .inl (isLexeme_of_isAlpha hne halpha)
    split at h
    · rename_i ha
      obtain ⟨hne, hdigit⟩ := accepts_integers.mp ha
      exact .inl ⟨.integer, ofList_ne_empty hne, by rwa [String.toList_ofList]⟩
    split at h
    · rename_i ha
      obtain ⟨whole, part, he, hne, hdigit⟩ := accepts_floats.mp ha
      exact .inl ⟨.floatpoint, whole, part, by rwa [String.toList_ofList], hne, hdigit⟩
    split at h
    · rename_i ha
      exact .inr (.inr (mem_lit.mp (accepts_iff.mp ha)))
    · cases h

/-- No fixed token begins with a blank, and only one begins with a slash. -/
theorem text_begins (k : Terminal) : (k.text.toList.head?.all fun c =>
    !isBlank c && (c != '/' || k.text.toList.tail.isEmpty)) = true := by
  cases k <;> rfl

/-- A class without blanks and slashes. -/
theorem not_blank_of_class {p : Char → Bool} (hp : ∀ d ∈ [' ', '\t', '\n', '/'], p d = false)
    (h : p c) : isBlank c = false ∧ c ≠ '/' := by
  have hne : ∀ d ∈ [' ', '\t', '\n', '/'], c ≠ d := by
    rintro d hd rfl
    rw [hp c hd] at h
    cases h
  simp only [List.forall_mem_cons] at hne
  obtain ⟨hspace, htab, hline, hslash, -⟩ := hne
  exact ⟨by simp [isBlank, hspace, htab, hline], hslash⟩

theorem lexeme_begins (h : IsLexeme (c :: cs)) : isBlank c = false ∧ (c = '/' → cs = []) := by
  obtain ⟨k, h⟩ := h
  have hfixed : String.ofList (c :: cs) = k.text → isBlank c = false ∧ (c = '/' → cs = []) := by
    intro he
    have hk := text_begins k
    rw [← he, String.toList_ofList] at hk
    simp only [List.head?_cons, Option.all_some, List.tail_cons, Bool.and_eq_true,
      Bool.not_eq_true', Bool.or_eq_true, bne_iff_ne, List.isEmpty_iff] at hk
    exact ⟨hk.1, fun hc => hk.2.resolve_left (not_not.mpr hc)⟩
  have hother : isBlank c = false ∧ c ≠ '/' → isBlank c = false ∧ (c = '/' → cs = []) :=
    fun hc => ⟨hc.1, fun he => absurd he hc.2⟩
  cases k with
  | identifier =>
    obtain ⟨-, halpha, -⟩ := h
    rw [String.toList_ofList] at halpha
    exact hother (not_blank_of_class (by simp) (halpha c List.mem_cons_self))
  | integer =>
    obtain ⟨-, hdigit⟩ := h
    rw [String.toList_ofList] at hdigit
    exact hother (not_blank_of_class (by simp) (hdigit c List.mem_cons_self))
  | floatpoint =>
    obtain ⟨whole, part, he, -, hdigit⟩ := h
    rw [String.toList_ofList] at he
    cases whole with
    | nil =>
      obtain ⟨rfl, -⟩ := List.cons.inj he
      exact ⟨rfl, fun h => absurd h (by decide)⟩
    | cons d whole =>
      obtain ⟨rfl, -⟩ := List.cons.inj he
      exact hother (not_blank_of_class (by simp) (hdigit c List.mem_cons_self))
  | _ => exact hfixed h

theorem not_isLexeme_nil : ¬ IsLexeme [] := by
  rintro ⟨k, h⟩
  obtain ⟨w, hw, -⟩ := first_of_matches h
  have hnone : first initialRules [] = none := rfl
  rw [hnone] at hw
  cases hw

/-- A token at its place is selected, when it is the longest one and no comment begins there. -/
theorem select_token (hno : ¬ "/*".toList <+: text ++ cs) (hk : k.Matches (String.ofList text))
    (hlong : ∀ longer, IsLexeme longer → longer <+: text ++ cs → longer.length ≤ text.length) :
    ∃ w, select initialRules (text ++ cs) = some (text.length, .ret w k) ∧
      w.of text = text.length := by
  obtain ⟨w, hfirst, hw⟩ := first_of_matches hk
  have hne : text ≠ [] := by
    rintro rfl
    exact not_isLexeme_nil ⟨k, hk⟩
  refine ⟨w, select_append hne hfirst fun more hmore hend => ?_, hw⟩
  have hpre : text ++ more <+: text ++ cs := by
    obtain ⟨rest, rfl⟩ := hend
    exact ⟨rest, List.append_assoc text more rest⟩
  have hlen := List.length_pos_of_ne_nil hne
  have hlen' := List.length_pos_of_ne_nil hmore
  cases hf : first initialRules (text ++ more) with
  | none => rfl
  | some a =>
    rcases of_first hf with hlex | ⟨c, -, he⟩ | he
    · have := hlong _ hlex hpre
      simp only [List.length_append] at this
      omega
    · have := congrArg List.length he
      simp only [List.length_append, List.length_singleton] at this
      omega
    · exact absurd (he ▸ hpre) hno

/-- The action of the rule for a blank. -/
def blankAction (c : Char) : Action :=
  if c = '\n' then .newline else if c = '\t' then .skip .strlen else .skip (.const 1)

theorem select_blank (hc : isBlank c) (cs : List Char) :
    select initialRules (c :: cs) = some (1, blankAction c) := by
  have hfirst : first initialRules [c] = some (blankAction c) := by
    simp only [isBlank, Bool.or_eq_true, beq_iff_eq] at hc
    rcases hc with (rfl | rfl) | rfl <;> rfl
  apply select_append (List.cons_ne_nil c []) hfirst
  intro more hmore _
  cases hf : first initialRules ([c] ++ more) with
  | none => rfl
  | some a =>
    rcases of_first hf with hlex | ⟨d, -, he⟩ | he
    · have := (lexeme_begins hlex).1
      rw [hc] at this
      cases this
    · obtain ⟨-, rfl⟩ := List.cons.inj he
      exact absurd rfl hmore
    · obtain ⟨rfl, -⟩ := List.cons.inj he
      cases hc

theorem select_comment (cs : List Char) :
    select initialRules ("/*".toList ++ cs) = some (2, .begin .comment) := by
  show select initialRules ("/*".toList ++ cs) = some ("/*".toList.length, _)
  apply select_append (by simp) rfl
  intro more hmore _
  cases hf : first initialRules ("/*".toList ++ more) with
  | none => rfl
  | some a =>
    rcases of_first hf with hlex | ⟨c, -, he⟩ | he
    · have hslash : IsLexeme ('/' :: '*' :: more) := hlex
      cases (lexeme_begins hslash).2 rfl
    · cases he
    · exact absurd (by simpa using he) hmore

theorem select_other (hc : isBlank c = false) (hno : ¬ "/*".toList <+: c :: cs)
    (hlex : ∀ text, IsLexeme text → ¬ text <+: c :: cs) :
    select initialRules (c :: cs) = none := by
  apply select_eq_none
  intro text rest hne he
  cases hf : first initialRules text with
  | none => rfl
  | some a =>
    rcases of_first hf with hl | ⟨d, hd, rfl⟩ | rfl
    · exact absurd ⟨rest, he.symm⟩ (hlex text hl)
    · obtain ⟨rfl, -⟩ := List.cons.inj he
      rw [hc] at hd
      cases hd
    · exact absurd ⟨rest, he.symm⟩ hno

end Cminusf
