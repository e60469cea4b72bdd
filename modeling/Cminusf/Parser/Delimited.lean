import Cminusf.Parser.NodeName

/-! Where a declaration ends: at the first semicolon, or at the brace that closes its body. So no
list of declarations goes on, behind a shorter one, with a token that begins no declaration. -/

namespace Cminusf

open Grammar

variable {s : Symbol Terminal NonTerminal} {rhs : List (Symbol Terminal NonTerminal)}
  {t : SyntaxTreeNode} {cs : List SyntaxTreeNode} {k : Terminal} {text : String}
  {u v w rest more : List (Terminal × String)} {x : Terminal × String}

/-- The tokens behind the first declaration, `depth` braces being open. -/
def afterDeclaration : Nat → List (Terminal × String) → Option (List (Terminal × String))
  | _, [] => none
  | depth, x :: w =>
    if x.1 = .semicolon ∧ depth = 0 then some w
    else if x.1 = .lbrace then afterDeclaration (depth + 1) w
    else if x.1 = .rbrace then if depth ≤ 1 then some w else afterDeclaration (depth - 1) w
    else afterDeclaration depth w

/-- Between braces the tokens end nothing. -/
def Inner (w : List (Terminal × String)) : Prop :=
  ∀ depth rest, afterDeclaration (depth + 1) (w ++ rest) = afterDeclaration (depth + 1) rest

theorem inner_nil : Inner [] := fun _ _ => rfl

theorem Inner.append (hv : Inner v) (hw : Inner w) : Inner (v ++ w) := by
  intro depth rest
  rw [List.append_assoc, hv, hw]

theorem inner_singleton (hl : k ≠ .lbrace) (hr : k ≠ .rbrace) : Inner [(k, text)] := by
  intro depth rest
  simp [afterDeclaration, hl, hr]

theorem inner_block (hw : Inner w) {l r : String} :
    Inner ((.lbrace, l) :: (w ++ [(.rbrace, r)])) := by
  intro depth rest
  have hopen : afterDeclaration (depth + 1) ((.lbrace, l) :: (w ++ [(.rbrace, r)]) ++ rest) =
      afterDeclaration (depth + 1 + 1) (w ++ ((.rbrace, r) :: rest)) := by
    simp [afterDeclaration]
  rw [hopen, hw]
  simp [afterDeclaration]

/-- No brace is passed outside of a block. -/
theorem no_brace {A : NonTerminal} (hA : A ≠ .compoundStmt) (hrhs : rhs ∈ productions A) :
    .terminal .lbrace ∉ rhs ∧ .terminal .rbrace ∉ rhs := by
  have hall : ∀ rhs ∈ productions A, .terminal .lbrace ∉ rhs ∧ .terminal .rbrace ∉ rhs := by
    cases A <;> first | decide | exact absurd rfl hA
  exact hall rhs hrhs

def Enclosed : Symbol Terminal NonTerminal → List (Terminal × String) → Prop
  | .terminal k, w => ∃ text, w = [(k, text)]
  | .nonterminal _, w => Inner w

theorem Enclosed.inner (h : Enclosed s w) (hl : s ≠ .terminal .lbrace)
    (hr : s ≠ .terminal .rbrace) : Inner w := by
  cases s with
  | terminal k =>
    obtain ⟨text, rfl⟩ := h
    exact inner_singleton (fun hk => hl (hk ▸ rfl)) (fun hk => hr (hk ▸ rfl))
  | nonterminal A => exact h

theorem inner_each (h : Each (fun s _ w => Enclosed s w) rhs cs w)
    (hl : .terminal .lbrace ∉ rhs) (hr : .terminal .rbrace ∉ rhs) : Inner w := by
  induction h with
  | nil => exact inner_nil
  | cons hs _ ih =>
    rw [List.mem_cons, not_or] at hl hr
    exact (hs.inner (Ne.symm hl.1) (Ne.symm hr.1)).append (ih hl.2 hr.2)

theorem enclosed_of_derives (h : Derives lexemes s t w) : Enclosed s w := by
  apply h.rec_productions (P := fun s _ w => Enclosed s w)
  · rintro k t w ⟨text, -, -, rfl⟩
    exact ⟨text, rfl⟩
  · intro A rhs hrhs cs w hall
    by_cases hA : A = .compoundStmt
    · subst hA
      change rhs ∈ productions .compoundStmt at hrhs
      simp only [productions, List.mem_singleton] at hrhs
      subst hrhs
      rcases hall with - | ⟨⟨l, rfl⟩, - | ⟨hds, - | ⟨hss, - | ⟨⟨r, rfl⟩, - | -⟩⟩⟩⟩
      have hbody : Inner (_ ++ _) := Inner.append hds hss
      have hblock := inner_block hbody (l := l) (r := r)
      rwa [List.append_assoc] at hblock
    · obtain ⟨hl, hr⟩ := no_brace hA hrhs
      exact inner_each hall hl hr

/-- Before the body of a function, and before the semicolon of a variable. -/
def Plain (w : List (Terminal × String)) : Prop :=
  ∀ x ∈ w, x.1 ≠ .semicolon ∧ x.1 ≠ .lbrace ∧ x.1 ≠ .rbrace

theorem Plain.skip (h : Plain w) (rest : List (Terminal × String)) :
    afterDeclaration 0 (w ++ rest) = afterDeclaration 0 rest := by
  induction w with
  | nil => rfl
  | cons x w ih =>
    obtain ⟨⟨h1, h2, h3⟩, hw⟩ := List.forall_mem_cons.mp h
    simp [afterDeclaration, h1, h2, h3, ih hw]

/-- The symbols of the heads of declarations. -/
def heads : List NonTerminal := [.typeSpecifier, .params, .paramList, .param]

/-- What a symbol of a head may contain. -/
def InHead : Symbol Terminal NonTerminal → Prop
  | .terminal k => k ≠ .semicolon ∧ k ≠ .lbrace ∧ k ≠ .rbrace
  | .nonterminal A => A ∈ heads

instance : DecidablePred InHead
  | .terminal _ => inferInstanceAs (Decidable (_ ∧ _))
  | .nonterminal _ => inferInstanceAs (Decidable (_ ∈ heads))

def Heading : Symbol Terminal NonTerminal → List (Terminal × String) → Prop
  | .terminal k, w => ∃ text, w = [(k, text)]
  | .nonterminal A, w => A ∈ heads → Plain w

theorem Heading.plain (h : Heading s w) (hs : InHead s) : Plain w := by
  cases s with
  | terminal k =>
    obtain ⟨text, rfl⟩ := h
    exact List.forall_mem_singleton.mpr hs
  | nonterminal A => exact h hs

theorem heading_of_derives (h : Derives lexemes s t w) : Heading s w := by
  apply h.rec_productions (P := fun s _ w => Heading s w)
  · rintro k t w ⟨text, -, -, rfl⟩
    exact ⟨text, rfl⟩
  · intro A rhs hrhs cs w hall hA
    have hparts : ∀ A ∈ heads, ∀ rhs ∈ productions A, ∀ s ∈ rhs, InHead s := by decide
    have hin : ∀ s ∈ rhs, InHead s := hparts A hA rhs hrhs
    clear hrhs
    induction hall with
    | nil => exact List.forall_mem_nil _
    | cons hs _ ih =>
      rw [List.forall_mem_cons] at hin
      exact List.forall_mem_append.mpr ⟨hs.plain hin.1, ih hin.2⟩

/-- The tokens that begin a declaration. -/
def typeTokens : List Terminal := [.int, .float, .void]

/-- The tokens begin with a type, and the end of the declaration is theirs. -/
structure Delimited (w : List (Terminal × String)) : Prop where
  begins : ∃ x v, w = x :: v ∧ x.1 ∈ typeTokens
  ends : ∀ rest, afterDeclaration 0 (w ++ rest) = some rest

theorem not_delimiter (hx : x.1 ∈ typeTokens) :
    x.1 ≠ .semicolon ∧ x.1 ≠ .lbrace ∧ x.1 ≠ .rbrace := by
  revert hx
  generalize x.1 = k
  revert k
  decide

theorem delimited_semicolon (hx : x.1 ∈ typeTokens) (hw : Plain w) (text : String) :
    Delimited (x :: (w ++ [(.semicolon, text)])) := by
  have hplain : Plain (x :: w) := List.forall_mem_cons.mpr ⟨not_delimiter hx, hw⟩
  refine ⟨⟨x, _, rfl, hx⟩, fun rest => ?_⟩
  rw [← List.cons_append, List.append_assoc, hplain.skip]
  simp [afterDeclaration]

theorem delimited_block (hx : x.1 ∈ typeTokens) (hw : Plain w) (hv : Inner v) (l r : String) :
    Delimited (x :: (w ++ (.lbrace, l) :: (v ++ [(.rbrace, r)]))) := by
  have hplain : Plain (x :: w) := List.forall_mem_cons.mpr ⟨not_delimiter hx, hw⟩
  refine ⟨⟨x, _, rfl, hx⟩, fun rest => ?_⟩
  have hopen : afterDeclaration 0 ((.lbrace, l) :: (v ++ [(.rbrace, r)]) ++ rest) =
      afterDeclaration 1 (v ++ (.rbrace, r) :: rest) := by
    simp [afterDeclaration]
  rw [← List.cons_append, List.append_assoc, hplain.skip, hopen, hv]
  simp [afterDeclaration]

/-- What the proof tells of the tokens of a symbol. -/
def Extent : Symbol Terminal NonTerminal → List (Terminal × String) → Prop
  | .terminal k, w => ∃ text, w = [(k, text)]
  | .nonterminal .typeSpecifier, w => ∃ x, w = [x] ∧ x.1 ∈ typeTokens
  | .nonterminal .params, w => Plain w
  | .nonterminal .compoundStmt, w =>
    ∃ l v r, w = (.lbrace, l) :: (v ++ [(.rbrace, r)]) ∧ Inner v
  | .nonterminal .varDeclaration, w | .nonterminal .funDeclaration, w
  | .nonterminal .declaration, w => Delimited w
  | .nonterminal .declarationList, w | .nonterminal .program, w =>
    ∃ ds, ds ≠ [] ∧ w = ds.flatten ∧ ∀ d ∈ ds, Delimited d
  | .nonterminal _, _ => True

theorem extent_typeSpecifier (hrhs : rhs ∈ productions .typeSpecifier)
    (h : Each (fun s _ w => Extent s w) rhs cs w) : Extent (.nonterminal .typeSpecifier) w := by
  simp only [productions, List.mem_cons, List.not_mem_nil, or_false] at hrhs
  rcases hrhs with rfl | rfl | rfl
  · rcases h with - | ⟨⟨text, rfl⟩, - | -⟩
    exact ⟨_, rfl, by simp [typeTokens]⟩
  · rcases h with - | ⟨⟨text, rfl⟩, - | -⟩
    exact ⟨_, rfl, by simp [typeTokens]⟩
  · rcases h with - | ⟨⟨text, rfl⟩, - | -⟩
    exact ⟨_, rfl, by simp [typeTokens]⟩

theorem extent_compoundStmt (hrhs : rhs ∈ productions .compoundStmt)
    (h : DerivesAll lexemes rhs cs w) : Extent (.nonterminal .compoundStmt) w := by
  simp only [productions, List.mem_singleton] at hrhs
  subst hrhs
  rcases h with - | ⟨hl, - | ⟨hds, - | ⟨hss, - | ⟨hr, - | -⟩⟩⟩⟩
  obtain ⟨l, rfl⟩ := enclosed_of_derives hl
  obtain ⟨r, rfl⟩ := enclosed_of_derives hr
  have hbody : Inner (_ ++ _) := Inner.append (enclosed_of_derives hds) (enclosed_of_derives hss)
  exact ⟨l, _, r, by simp, hbody⟩

theorem extent_varDeclaration (hrhs : rhs ∈ productions .varDeclaration)
    (h : Each (fun s _ w => Extent s w) rhs cs w) : Extent (.nonterminal .varDeclaration) w := by
  simp only [productions, List.mem_cons, List.not_mem_nil, or_false] at hrhs
  rcases hrhs with rfl | rfl
  · rcases h with - | ⟨⟨x, rfl, hx⟩, - | ⟨⟨id, rfl⟩, - | ⟨⟨text, rfl⟩, - | -⟩⟩⟩
    exact delimited_semicolon hx (w := [(.identifier, id)]) (by simp [Plain]) text
  · rcases h with - | ⟨⟨x, rfl, hx⟩, - | ⟨⟨id, rfl⟩, - | ⟨⟨l, rfl⟩, - | ⟨⟨n, rfl⟩, - |
      ⟨⟨r, rfl⟩, - | ⟨⟨text, rfl⟩, - | -⟩⟩⟩⟩⟩⟩
    exact delimited_semicolon hx (w := [(.identifier, id), (.lbracket, l), (.integer, n),
      (.rbracket, r)]) (by simp [Plain]) text

theorem plain_signature (hw : Plain w) (id l r : String) :
    Plain ((.identifier, id) :: (.lparenthese, l) :: (w ++ [(.rparenthese, r)])) := by
  refine List.forall_mem_cons.mpr ⟨by simp, List.forall_mem_cons.mpr ⟨by simp, ?_⟩⟩
  exact List.forall_mem_append.mpr ⟨hw, by simp⟩

theorem extent_funDeclaration (hrhs : rhs ∈ productions .funDeclaration)
    (h : Each (fun s _ w => Extent s w) rhs cs w) : Extent (.nonterminal .funDeclaration) w := by
  simp only [productions, List.mem_singleton] at hrhs
  subst hrhs
  rcases h with - | ⟨⟨x, rfl, hx⟩, - | ⟨⟨id, rfl⟩, - | ⟨⟨l, rfl⟩, - | ⟨hps, - |
    ⟨⟨r, rfl⟩, - | ⟨⟨l', v, r', rfl, hv⟩, - | -⟩⟩⟩⟩⟩⟩
  show Delimited _
  simpa using delimited_block hx (plain_signature hps id l r) hv l' r'

theorem extent_declarationList (hrhs : rhs ∈ productions .declarationList)
    (h : Each (fun s _ w => Extent s w) rhs cs w) : Extent (.nonterminal .declarationList) w := by
  simp only [productions, List.mem_cons, List.not_mem_nil, or_false] at hrhs
  rcases hrhs with rfl | rfl
  · rcases h with - | ⟨⟨ds, hne, rfl, hds⟩, - | ⟨hd, - | -⟩⟩
    rename_i d
    refine ⟨ds ++ [d], by simp, by simp, ?_⟩
    exact List.forall_mem_append.mpr ⟨hds, List.forall_mem_singleton.mpr hd⟩
  · rcases h with - | ⟨hd, - | -⟩
    rename_i d
    exact ⟨[d], by simp, by simp, List.forall_mem_singleton.mpr hd⟩

theorem extent_of_derives (h : Derives lexemes s t w) : Extent s w := by
  apply h.rec_derived (P := fun s _ w => Extent s w)
  · rintro k t w ⟨text, -, -, rfl⟩
    exact ⟨text, rfl⟩
  · intro A rhs hrhs cs w hall h
    cases A with
    | typeSpecifier => exact extent_typeSpecifier hrhs h
    | params => exact heading_of_derives (.production hrhs hall) (by decide)
    | compoundStmt => exact extent_compoundStmt hrhs hall
    | varDeclaration => exact extent_varDeclaration hrhs h
    | funDeclaration => exact extent_funDeclaration hrhs h
    | declaration =>
      change rhs ∈ productions .declaration at hrhs
      simp only [productions, List.mem_cons, List.not_mem_nil, or_false] at hrhs
      rcases hrhs with rfl | rfl
      · rcases h with - | ⟨hd, - | -⟩
        rwa [List.append_nil]
      · rcases h with - | ⟨hd, - | -⟩
        rwa [List.append_nil]
    | declarationList => exact extent_declarationList hrhs h
    | program =>
      change rhs ∈ productions .program at hrhs
      simp only [productions, List.mem_singleton] at hrhs
      subst hrhs
      rcases h with - | ⟨hds, - | -⟩
      rwa [List.append_nil]
    | _ => trivial

/-- Behind declarations only a declaration can follow. -/
theorem follows_declarations {ds es : List (List (Terminal × String))}
    (hds : ∀ d ∈ ds, Delimited d) (hes : ∀ e ∈ es, Delimited e)
    (he : ds.flatten ++ x :: more = es.flatten) : x.1 ∈ typeTokens := by
  induction ds generalizing es with
  | nil =>
    cases es with
    | nil => cases he
    | cons e es =>
      obtain ⟨y, v, rfl, hy⟩ := (hes e List.mem_cons_self).begins
      obtain ⟨rfl, -⟩ := List.cons.inj he
      exact hy
  | cons d ds ih =>
    cases es with
    | nil => simp at he
    | cons e es =>
      rw [List.flatten_cons, List.flatten_cons, List.append_assoc] at he
      have hd := (hds d List.mem_cons_self).ends (ds.flatten ++ x :: more)
      rw [he, (hes e List.mem_cons_self).ends] at hd
      exact ih (fun d hd => hds d (List.mem_cons_of_mem _ hd))
        (fun e he => hes e (List.mem_cons_of_mem _ he)) (Option.some.inj hd).symm

/-- What follows a program inside a longer one is a declaration. -/
theorem begins_of_derives {t' : SyntaxTreeNode} (h : Derives lexemes (.nonterminal .program) t v)
    (h' : Derives lexemes (.nonterminal .program) t' (v ++ x :: more)) : x.1 ∈ typeTokens := by
  obtain ⟨ds, -, rfl, hds⟩ := extent_of_derives h
  obtain ⟨es, -, he, hes⟩ := extent_of_derives h'
  exact follows_declarations hds hes he

end Cminusf
