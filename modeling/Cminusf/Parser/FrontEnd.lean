import Cminusf.Parser.Delimited
import Cminusf.Parser.Outcome
import Cminusf.Parser.Scan

/-! `parse`, the constructor of `AST` on what it returns, and the language that they should accept. -/

namespace Cminusf

open Grammar Exec

variable {stof : String → Option (BitVec 32)} {cs : List Char} {ps : List Piece}
  {t : SyntaxTreeNode} {v w : List (Terminal × String)}

/-- The tokens that `yylex` returns before the 0 at the end of the text. -/
def tokens (cs : List Char) : List (Terminal × String) :=
  (scan .start cs).lexemes.map fun x => (x.token, String.ofList x.text)

/-- What a call of `yyparse` does: the node that the action of `program` has stored in `gt->root`,
if it has run, and whether `yyerror` has been called. -/
structure Yyparse where
  root : Option SyntaxTreeNode
  error : Bool

/-- What `parse` leaves: the node at which `gt->root` points, if any, and whether `yyerror` has been
called. -/
structure Parsed where
  root : Option StoredNode
  error : Bool

/-- `parse`. `new_syntax_tree` leaves in `gt->root` what lies in the memory that `malloc` returns,
and the status of `yyparse` is not looked at. -/
def parse (yyparse : List (Terminal × String) → Yyparse) (memory : Option StoredNode)
    (cs : List Char) : Parsed :=
  let result := yyparse (tokens cs)
  { root := (result.root.map SyntaxTreeNode.stored).or memory, error := result.error }

/-- The constructor of `AST` on the tree that `parse` returns, which is not null. -/
def AST (stof : String → Option (BitVec 32)) (fuel : Nat) (root : Option StoredNode) :
    Exec ASTProgram := do
  match root with
  | some n => toAST stof fuel (← n.read)
  | none => throw .undefinedBehaviour

/-- The constructor returns. -/
def Constructs (stof : String → Option (BitVec 32)) (root : Option StoredNode) : Prop :=
  ∃ fuel p, AST stof fuel root = .ok p

def Derivable (w : List (Terminal × String)) : Prop :=
  ∃ t, Derives lexemes (.nonterminal .program) t w

/-- The tokens go on behind a program, and not with a declaration. -/
def Premature (w v : List (Terminal × String)) : Prop :=
  Derivable v ∧ ∃ x more, w = v ++ x :: more ∧ x.1 ∉ typeTokens

/-- What bison makes of the grammar. In the state behind `declaration-list` the only reduction is
that of `program`, so it is the default one: its action runs at every token that cannot be shifted,
and only then the error is found. -/
structure Bison (yyparse : List (Terminal × String) → Yyparse) : Prop where
  accepts : ∀ w, Derivable w →
    ∃ t, Derives lexemes (.nonterminal .program) t w ∧ yyparse w = ⟨some t, false⟩
  rejects : ∀ w, ¬ Derivable w → (yyparse w).error = true
  reduces : ∀ w, ¬ Derivable w → (∃ v, Premature w v) → ∃ v t, Premature w v ∧
    Derives lexemes (.nonterminal .program) t v ∧ (yyparse w).root = some t
  keeps : ∀ w, ¬ Derivable w → (∀ v, ¬ Premature w v) → (yyparse w).root = none

/-- The piece is a lexeme, a blank, a tab, a newline or a closed comment. -/
def Piece.Legal : Piece → Prop
  | token _ _ | blank _ | comment _ => True
  | unclosed _ | other _ => False

/-- The tokens among the pieces of a text. -/
def returnedTokens (ps : List Piece) : List (Terminal × String) :=
  (ps.filterMap Piece.returned).map fun x => (x.1, String.ofList x.2)

/-- The language: without blanks and comments the text is a token sequence of the grammar. -/
def IsProgram (cs : List Char) : Prop :=
  ∃ ps, Munches cs ps ∧ (∀ p ∈ ps, p.Legal) ∧ Derivable (returnedTokens ps)

/-- An AST is constructed of the texts in the language, and an error is reported for the others. -/
def Exact (stof : String → Option (BitVec 32)) (yyparse : List (Terminal × String) → Yyparse)
    (memory : Option StoredNode) (cs : List Char) : Prop :=
  (Constructs stof (parse yyparse memory cs).root ↔ IsProgram cs) ∧
    (¬ IsProgram cs → (parse yyparse memory cs).error = true)

/-- The texts of the tokens fit in the nodes, and the numbers can be represented. -/
def Storable (stof : String → Option (BitVec 32)) (w : List (Terminal × String)) : Prop :=
  Fits stof w ∧ ∀ x ∈ w, x.2.length < syntaxTreeNodeNameMax

/-- The pieces of a program that the front end does not fail on. -/
def Accepted (stof : String → Option (BitVec 32)) (ps : List Piece) : Prop :=
  (∀ p ∈ ps, p.Legal) ∧ Derivable (returnedTokens ps) ∧ Storable stof (returnedTokens ps)

/-- The tokens are no program, there is no program to be stored before the wrong one of them, and
without any program before it the memory of the root holds no tree. -/
def Refused (stof : String → Option (BitVec 32)) (memory : Option StoredNode)
    (w : List (Terminal × String)) : Prop :=
  ¬ Derivable w ∧ (∀ v, Premature w v → ¬ Storable stof v) ∧
    ((∀ v, ¬ Premature w v) → ¬ Constructs stof memory)

theorem tokens_of_munches (h : Munches cs ps) : tokens cs = returnedTokens ps := by
  rw [returnedTokens, ← scanPieces_lexemes .start, List.map_map, tokens, scan_munches h rfl]
  rfl

theorem isProgram_iff (h : Munches cs ps) :
    IsProgram cs ↔ (∀ p ∈ ps, p.Legal) ∧ Derivable (returnedTokens ps) := by
  constructor
  · rintro ⟨qs, hqs, hlegal, hder⟩
    obtain rfl := h.unique hqs
    exact ⟨hlegal, hder⟩
  · exact fun hps => ⟨ps, h, hps⟩

theorem constructs_iff (h : Derives lexemes (.nonterminal .program) t w) :
    Constructs stof (some t.stored) ↔ Storable stof w := by
  have hast := settles_toAST stof h
  constructor
  · rintro ⟨fuel, p, hp⟩
    have hrun : (t.stored.read >>= fun n => toAST stof fuel n) = .ok p := hp
    obtain ⟨t', hread, hp'⟩ := Exec.bind_eq_ok.mp hrun
    obtain rfl := eq_of_read_stored t (names_no_zero h) t' hread
    exact ⟨(hast.of_ok fuel p hp').1, (read_iff h).mp hread⟩
  · rintro ⟨hfits, hlen⟩
    obtain ⟨p, -, hev⟩ := hast.returns hfits
    obtain ⟨fuel, hfuel⟩ := hev.exists
    refine ⟨fuel, p, ?_⟩
    rw [AST, (read_iff h).mpr hlen]
    exact hfuel

/-- No two programs are cut off before a token that begins no declaration. -/
theorem Premature.unique {v' : List (Terminal × String)} (h : Premature w v)
    (h' : Premature w v') : v = v' := by
  obtain ⟨⟨t, ht⟩, x, more, rfl, hx⟩ := h
  obtain ⟨⟨t', ht'⟩, x', more', he, hx'⟩ := h'
  rcases List.append_eq_append_iff.mp he with ⟨mid, rfl, hmid⟩ | ⟨mid, rfl, hmid⟩
  · cases mid with
    | nil => simp
    | cons y mid =>
      obtain ⟨rfl, -⟩ := List.cons.inj hmid
      exact absurd (begins_of_derives ht ht') hx
  · cases mid with
    | nil => simp
    | cons y mid =>
      obtain ⟨rfl, -⟩ := List.cons.inj hmid
      exact absurd (begins_of_derives ht' ht) hx'

section

variable {yyparse : List (Terminal × String) → Yyparse} {memory : Option StoredNode}

theorem constructs_of_derivable (stof : String → Option (BitVec 32)) (memory : Option StoredNode)
    (hb : Bison yyparse) (h : Derivable (tokens cs)) :
    (Constructs stof (parse yyparse memory cs).root ↔ Storable stof (tokens cs)) ∧
      (parse yyparse memory cs).error = false := by
  obtain ⟨t, ht, hrun⟩ := hb.accepts _ h
  rw [parse, hrun]
  exact ⟨constructs_iff ht, rfl⟩

/-- After a syntax error the tree is that of the program before the wrong token, or the root has
not been set. -/
theorem constructs_of_error (hb : Bison yyparse) (h : ¬ Derivable (tokens cs)) :
    Constructs stof (parse yyparse memory cs).root ↔
      (∃ v, Premature (tokens cs) v ∧ Storable stof v) ∨
        (∀ v, ¬ Premature (tokens cs) v) ∧ Constructs stof memory := by
  by_cases hpre : ∃ v, Premature (tokens cs) v
  · obtain ⟨v, t, hv, ht, hroot⟩ := hb.reduces _ h hpre
    have hno : ¬ ∀ v, ¬ Premature (tokens cs) v := fun hno => hno v hv
    simp only [parse, hroot, Option.map_some, Option.some_or, constructs_iff ht, hno, false_and,
      or_false]
    constructor
    · exact fun hs => ⟨v, hv, hs⟩
    · rintro ⟨v', hv', hs⟩
      rwa [hv.unique hv']
  · have hno : ∀ v, ¬ Premature (tokens cs) v := not_exists.mp hpre
    have hroot : (parse yyparse memory cs).root = memory := by
      rw [parse, hb.keeps _ h hno]
      rfl
    rw [hroot]
    constructor
    · exact fun hc => .inr ⟨hno, hc⟩
    · rintro (⟨v, hv, -⟩ | ⟨-, hc⟩)
      · exact absurd hv (hno v)
      · exact hc

/-- The front end is right about a program whose texts can be stored, and about a text that the
parser rejects without a tree. -/
theorem exact_iff (hb : Bison yyparse) : Exact stof yyparse memory cs ↔
    ∃ ps, Munches cs ps ∧ (Accepted stof ps ∨ Refused stof memory (returnedTokens ps)) := by
  obtain ⟨ps, hps⟩ := exists_munches cs
  have hunique : (∃ qs, Munches cs qs ∧
      (Accepted stof qs ∨ Refused stof memory (returnedTokens qs))) ↔
      Accepted stof ps ∨ Refused stof memory (returnedTokens ps) := by
    constructor
    · rintro ⟨qs, hqs, h⟩
      rwa [hps.unique hqs]
    · exact fun h => ⟨ps, hps, h⟩
  have htokens := tokens_of_munches hps
  rw [hunique, Exact, isProgram_iff hps]
  by_cases h : Derivable (returnedTokens ps)
  · have h' : Derivable (tokens cs) := by rwa [htokens]
    obtain ⟨hc, herror⟩ := constructs_of_derivable stof memory hb h'
    rw [hc, herror, htokens]
    constructor
    · rintro ⟨hiff, hreport⟩
      have hp : (∀ p ∈ ps, p.Legal) ∧ Derivable (returnedTokens ps) := by
        by_contra hp
        cases hreport hp
      exact .inl ⟨hp.1, h, hiff.mpr hp⟩
    · rintro (⟨hlegal, -, hs⟩ | ⟨hno, -⟩)
      · exact ⟨iff_of_true hs ⟨hlegal, h⟩, fun hno => absurd ⟨hlegal, h⟩ hno⟩
      · exact absurd h hno
  · have h' : ¬ Derivable (tokens cs) := by rwa [htokens]
    have hp : ¬ ((∀ p ∈ ps, p.Legal) ∧ Derivable (returnedTokens ps)) := fun hp => h hp.2
    have herror : (parse yyparse memory cs).error = true := hb.rejects _ h'
    rw [constructs_of_error hb h', herror, htokens]
    constructor
    · rintro ⟨hiff, -⟩
      have hnot := mt hiff.mp hp
      rw [not_or] at hnot
      exact .inr ⟨h, fun v hv hs => hnot.1 ⟨v, hv, hs⟩, fun hno hc => hnot.2 ⟨hno, hc⟩⟩
    · rintro (⟨-, hder, -⟩ | ⟨-, hpre, hmem⟩)
      · exact absurd hder h
      · refine ⟨iff_of_false ?_ hp, fun _ => rfl⟩
        rintro (⟨v, hv, hs⟩ | ⟨hno, hc⟩)
        · exact hpre v hv hs
        · exact hmem hno hc

end

/-- A text that is no more than a program leaves nothing to echo. -/
theorem IsProgram.echoed (h : IsProgram cs) : (scan .start cs).echoed = [] := by
  obtain ⟨ps, hps, hlegal, -⟩ := h
  rw [scan_munches hps rfl, scanPieces_echoed, List.flatMap_eq_nil_iff]
  intro p hp
  have hp' := hlegal p hp
  cases p with
  | token _ _ | blank _ | comment _ => rfl
  | unclosed _ | other _ => cases hp'

open Classical in
/-- A parser that does what bison's does, by any derivation that there is. -/
noncomputable def anyParser (w : List (Terminal × String)) : Yyparse :=
  if h : Derivable w then ⟨some h.choose, false⟩
  else if h : ∃ v, Premature w v then ⟨some h.choose_spec.1.choose, true⟩
  else ⟨none, true⟩

theorem bison_anyParser : Bison anyParser where
  accepts w h := ⟨h.choose, h.choose_spec, by rw [anyParser, dif_pos h]⟩
  rejects w h := by
    rw [anyParser, dif_neg h]
    split <;> rfl
  reduces w h hpre := by
    refine ⟨hpre.choose, hpre.choose_spec.1.choose, hpre.choose_spec,
      hpre.choose_spec.1.choose_spec, ?_⟩
    rw [anyParser, dif_neg h, dif_pos hpre]
  keeps w h hno := by
    rw [anyParser, dif_neg h, dif_neg (not_exists.mpr hno)]

/-- The tokens of `int a;`. -/
def variableTokens : List (Terminal × String) :=
  [(.int, "int"), (.identifier, "a"), (.semicolon, ";")]

theorem derivable_variableTokens : Derivable variableTokens := by
  have leaf : ∀ k text, k.Matches text → Derives lexemes (.terminal k) ⟨text, []⟩ [(k, text)] :=
    fun k text h => .terminal ⟨text, h, rfl, rfl⟩
  have rule : ∀ {rhs cs w} A i, (productions A)[i]? = some rhs → DerivesAll lexemes rhs cs w →
      Derives lexemes (.nonterminal A) (node A.name cs) w :=
    fun A i hrhs h => .production (List.mem_of_getElem? hrhs) h
  have type := rule .typeSpecifier 0 rfl (.cons (leaf .int "int" rfl) .nil)
  have hid : Terminal.identifier.Matches "a" := ⟨by decide, by simp, by decide⟩
  have variable' := rule .varDeclaration 0 rfl (.cons type
    (.cons (leaf .identifier "a" hid) (.cons (leaf .semicolon ";" rfl) .nil)))
  exact ⟨_, rule .program 0 rfl (.cons (rule .declarationList 1 rfl
    (.cons (rule .declaration 0 rfl (.cons variable' .nil)) .nil)) .nil)⟩

/-- A wrong token behind a declaration. -/
theorem exact_iff_wrong_token : Exact (fun _ => none) anyParser none "int a;)".toList ↔
    ∃ ps, Munches "int a;)".toList ps ∧
      (Accepted (fun _ => none) ps ∨ Refused (fun _ => none) none (returnedTokens ps)) :=
  exact_iff bison_anyParser

/-- A character that is in no lexeme is dropped without an error. -/
theorem not_exact_illegal : Bison anyParser ∧
    ¬ Exact (fun _ => none) anyParser none "int a;@".toList := by
  refine ⟨bison_anyParser, fun h => ?_⟩
  have htokens : tokens "int a;@".toList = variableTokens := by decide
  have hder : Derivable (tokens "int a;@".toList) := by
    rw [htokens]
    exact derivable_variableTokens
  have hp : ¬ IsProgram "int a;@".toList := by
    intro hp
    have hechoed := hp.echoed
    revert hechoed
    decide
  obtain ⟨-, herror⟩ := constructs_of_derivable (fun _ => none) none
    bison_anyParser hder
  rw [h.2 hp] at herror
  cases herror

end Cminusf
