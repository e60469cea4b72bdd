import Cminusf.Builder.Scoping
import Cminusf.Parser.SyntaxTree

/-! The rules of the language that the builder relies on: the names and the declarations in force,
the types of expressions, and what statements may return. -/

namespace Cminusf

/-- What a name is declared as. -/
inductive Declared where
  | scalar (type : CminusType)
  | array (type : CminusType)
  | function (type : CminusType) (params : List (CminusType × Bool))
deriving DecidableEq

/-- A variable or an array. -/
def Declared.ofVar (type : CminusType) (isarray : Bool) : Declared :=
  if isarray then .array type else .scalar type

/-- A value, or an array that is passed on. -/
inductive ExprType where
  | value (type : CminusType)
  | array (type : CminusType)
deriving DecidableEq

/-- `IDENTIFIER` of the lexical analyzer. -/
def isIdentifier (text : String) : Bool :=
  text != "" && text.toList.all Char.isAlpha &&
    !(["else", "if", "int", "return", "void", "while", "float"].contains text)

theorem isIdentifier_iff {text : String} :
    isIdentifier text ↔ Terminal.Matches .identifier text := by
  simp only [isIdentifier, Terminal.Matches, Bool.and_eq_true, bne_iff_ne, List.all_eq_true,
    Bool.not_eq_true', List.contains_eq_mem, decide_eq_false_iff_not, and_assoc, ne_eq]

/-- The declarations in force, from the innermost scope outwards. -/
abbrev TypeEnv := List (List (String × Declared))

namespace TypeEnv

def find (Γ : TypeEnv) (id : String) : Option Declared := Γ.findSome? (·.lookup id)

/-- A declaration in the innermost scope: of an identifier of the language, that the scope does not
declare yet. -/
def declare (id : String) (d : Declared) : TypeEnv → Option TypeEnv
  | [] => none
  | top :: outer =>
    if isIdentifier id && (top.lookup id).isNone then some (((id, d) :: top) :: outer) else none

/-- The function that a check of a subscript calls is found. -/
def SeesNegIdxExcept (Γ : TypeEnv) : Prop := Γ.find "neg_idx_except" = some (.function .void [])

/-- What declarations in the innermost scope leave alone. -/
structure Extends (Γ Γ' : TypeEnv) : Prop where
  length : Γ'.length = Γ.length
  sees : Γ.SeesNegIdxExcept → Γ'.SeesNegIdxExcept

variable {Γ Γ' Γ'' : TypeEnv} {id : String} {d : Declared}

theorem Extends.refl (Γ : TypeEnv) : Extends Γ Γ := ⟨rfl, fun h => h⟩

theorem Extends.trans (h : Extends Γ Γ') (h' : Extends Γ' Γ'') : Extends Γ Γ'' :=
  ⟨h'.length.trans h.length, fun hs => h'.sees (h.sees hs)⟩

theorem declare_eq_some (hΓ : Γ.declare id d = some Γ') : ∃ top outer, Γ = top :: outer ∧
    Γ' = ((id, d) :: top) :: outer ∧ Terminal.Matches .identifier id ∧ top.lookup id = none := by
  cases Γ with
  | nil => cases hΓ
  | cons top outer =>
    rw [declare] at hΓ
    split at hΓ
    · rename_i h
      cases hΓ
      rw [Bool.and_eq_true, isIdentifier_iff, Option.isNone_iff_eq_none] at h
      exact ⟨top, outer, rfl, rfl, h.1, h.2⟩
    · cases hΓ

/-- `neg_idx_except` has an underscore, so that no declaration hides it. -/
theorem declare_extends (hΓ : Γ.declare id d = some Γ') : Extends Γ Γ' := by
  obtain ⟨top, outer, rfl, rfl, hid, -⟩ := declare_eq_some hΓ
  refine ⟨rfl, fun hs => ?_⟩
  have hne : ("neg_idx_except" == id) = false := by
    rw [beq_eq_false_iff_ne]
    rintro rfl
    exact absurd (hid.2.1 '_' (by decide)) (by decide)
  rw [SeesNegIdxExcept, find, List.findSome?_cons, List.lookup_cons, hne]
  exact hs

end TypeEnv

def CminusType.isNumeric : CminusType → Bool
  | .int | .float => true
  | .void => false

theorem CminusType.isNumeric_iff {t : CminusType} : t.isNumeric ↔ t = .int ∨ t = .float := by
  cases t <;> simp [CminusType.isNumeric]

/-- The type of an operation on two values. -/
def CminusType.promote : CminusType → CminusType → CminusType
  | .int, .int => .int
  | _, _ => .float

theorem CminusType.promote_isNumeric (t t' : CminusType) : (t.promote t').isNumeric := by
  cases t <;> cases t' <;> rfl

/-- The type of an expression where a value is needed. -/
def valueType : Option ExprType → Option CminusType
  | some (.value t) => if t.isNumeric then some t else none
  | _ => none

theorem valueType_eq_some {o : Option ExprType} {t : CminusType} :
    valueType o = some t ↔ o = some (.value t) ∧ t.isNumeric := by
  cases o with
  | none => simp [valueType]
  | some τ =>
    cases τ with
    | array t' => simp [valueType]
    | value t' =>
      by_cases hn : t'.isNumeric
      · simp only [valueType, if_pos hn, Option.some.injEq, ExprType.value.injEq]
        constructor
        · rintro rfl
          exact ⟨rfl, hn⟩
        · exact And.left
      · simp only [valueType, if_neg hn, Option.some.injEq, ExprType.value.injEq]
        constructor
        · intro h
          cases h
        · rintro ⟨rfl, hn'⟩
          exact absurd hn' hn

/-- Whether an argument can be passed: an array to an array parameter of its element type, a value
to any other parameter. -/
def argFits : Option ExprType → CminusType × Bool → Bool
  | some (.array t), (t', isarray) => isarray && t.isNumeric && decide (t = t')
  | some (.value t), (_, isarray) => !isarray && t.isNumeric
  | none, _ => false

mutual

def ASTExpression.typeIn (Γ : TypeEnv) : ASTExpression → Option ExprType
  | .assign var expression =>
    match valueType (var.typeIn Γ), valueType (expression.typeIn Γ) with
    | some t, some _ => some (.value t)
    | _, _ => none
  | .simple l => l.typeIn Γ
  | .relation l _ r =>
    match valueType (l.typeIn Γ), valueType (r.typeIn Γ) with
    | some _, some _ => some (.value .int)
    | _, _ => none

def ASTAdditiveExpression.typeIn (Γ : TypeEnv) : ASTAdditiveExpression → Option ExprType
  | .ofTerm term => term.typeIn Γ
  | .additive additiveExpression _ term =>
    match valueType (additiveExpression.typeIn Γ), valueType (term.typeIn Γ) with
    | some t, some t' => some (.value (t.promote t'))
    | _, _ => none

def ASTTerm.typeIn (Γ : TypeEnv) : ASTTerm → Option ExprType
  | .ofFactor factor => factor.typeIn Γ
  | .multiplicative term _ factor =>
    match valueType (term.typeIn Γ), valueType (factor.typeIn Γ) with
    | some t, some t' => some (.value (t.promote t'))
    | _, _ => none

def ASTFactor.typeIn (Γ : TypeEnv) : ASTFactor → Option ExprType
  | .num (.int _) => some (.value .int)
  | .num (.float _) => some (.value .float)
  | .var var => var.typeIn Γ
  | .call id args =>
    match Γ.find id with
    | some (.function t params) => if argsFit Γ args params then some (.value t) else none
    | _ => none
  | .expression expression => expression.typeIn Γ

def ASTVar.typeIn (Γ : TypeEnv) : ASTVar → Option ExprType
  | .scalar id =>
    match Γ.find id with
    | some (.scalar t) => some (.value t)
    | some (.array t) => some (.array t)
    | _ => none
  | .subscript id expression =>
    match Γ.find id, valueType (expression.typeIn Γ) with
    | some (.array t), some _ => some (.value t)
    | _, _ => none

def argsFit (Γ : TypeEnv) : List ASTExpression → List (CminusType × Bool) → Bool
  | [], [] => true
  | arg :: args, param :: params => argFits (arg.typeIn Γ) param && argsFit Γ args params
  | _, _ => false

end

def ASTVarDeclaration.declareIn (decl : ASTVarDeclaration) (Γ : TypeEnv) : Option TypeEnv :=
  if decl.type.isNumeric then
    Γ.declare decl.id (.ofVar decl.type decl.num.isSome)
  else none

theorem declareIn_extends {Γ Γ' : TypeEnv} {decl : ASTVarDeclaration}
    (hΓ : decl.declareIn Γ = some Γ') : Γ.Extends Γ' := by
  rw [ASTVarDeclaration.declareIn] at hΓ
  split at hΓ
  · exact TypeEnv.declare_extends hΓ
  · cases hΓ

def declareVars : List ASTVarDeclaration → TypeEnv → Option TypeEnv
  | [], Γ => some Γ
  | decl :: decls, Γ =>
    match decl.declareIn Γ with
    | some Γ' => declareVars decls Γ'
    | none => none

theorem declareVars_extends {Γ Γ' : TypeEnv} {decls : List ASTVarDeclaration}
    (hΓ : declareVars decls Γ = some Γ') : Γ.Extends Γ' := by
  induction decls generalizing Γ with
  | nil =>
    cases hΓ
    exact .refl _
  | cons decl decls ih =>
    rw [declareVars] at hΓ
    split at hΓ
    · rename_i Γ₁ hΓ₁
      exact (declareIn_extends hΓ₁).trans (ih hΓ)
    · cases hΓ

mutual

/-- A statement of a function that returns a `ret`. -/
def ASTStatement.legal (ret : CminusType) : ASTStatement → TypeEnv → Bool
  | .compound ls ss, Γ =>
    match declareVars ls ([] :: Γ) with
    | some Γ' => legalList ret ss Γ'
    | none => false
  | .expressionStmt none, _ => true
  | .expressionStmt (some e), Γ =>
    match e.typeIn Γ with
    | some (.value _) => true
    | _ => false
  | .selection e s, Γ => (valueType (e.typeIn Γ)).isSome && s.legal ret Γ
  | .selectionElse e s₁ s₂, Γ =>
    (valueType (e.typeIn Γ)).isSome && s₁.legal ret Γ && s₂.legal ret Γ
  | .iteration e s, Γ => (valueType (e.typeIn Γ)).isSome && s.legal ret Γ
  | .return none, _ => !ret.isNumeric
  | .return (some e), Γ => (valueType (e.typeIn Γ)).isSome && ret.isNumeric

def ASTStatement.legalList (ret : CminusType) : List ASTStatement → TypeEnv → Bool
  | [], _ => true
  | s :: ss, Γ => s.legal ret Γ && legalList ret ss Γ

end

def declareParams : List ASTParam → TypeEnv → Option TypeEnv
  | [], Γ => some Γ
  | param :: params, Γ =>
    if param.type.isNumeric then
      match Γ.declare param.id (.ofVar param.type param.isarray) with
      | some Γ' => declareParams params Γ'
      | none => none
    else none

theorem declareParams_extends {Γ Γ' : TypeEnv} {params : List ASTParam}
    (hΓ : declareParams params Γ = some Γ') : Γ.Extends Γ' := by
  induction params generalizing Γ with
  | nil =>
    cases hΓ
    exact .refl _
  | cons param params ih =>
    rw [declareParams] at hΓ
    split at hΓ
    · split at hΓ
      · rename_i Γ₁ hΓ₁
        exact (TypeEnv.declare_extends hΓ₁).trans (ih hΓ)
      · cases hΓ
    · cases hΓ

namespace ASTFunDeclaration

def declared (node : ASTFunDeclaration) : Declared :=
  .function node.type (node.params.map fun param => (param.type, param.isarray))

/-- The declarations in force in the statements of the body. -/
def bodyEnv (node : ASTFunDeclaration) (Γ : TypeEnv) : Option TypeEnv :=
  match declareParams node.params ([] :: Γ) with
  | some Γ' => declareVars node.localDeclarations Γ'
  | none => none

end ASTFunDeclaration

/-- Each declaration is legal where it stands; a function is in force in its own body. -/
def legalDeclarations : List ASTDeclaration → TypeEnv → Bool
  | [], _ => true
  | .var decl :: decls, Γ =>
    match decl.declareIn Γ with
    | some Γ' => legalDeclarations decls Γ'
    | none => false
  | .fun node :: decls, Γ =>
    match Γ.declare node.id node.declared with
    | some Γ' =>
      (match node.bodyEnv Γ' with
        | some Γ'' => ASTStatement.legalList node.type node.statementList Γ''
        | none => false) && legalDeclarations decls Γ'
    | none => false

/-- The predefined functions. -/
def libraryEnv : TypeEnv :=
  [[("neg_idx_except", .function .void []), ("outputFloat", .function .void [(.float, false)]),
    ("output", .function .void [(.int, false)]), ("input", .function .int [])]]

/-- A program that keeps the rules. -/
def ASTProgram.legal (program : ASTProgram) : Bool :=
  legalDeclarations program.declarations libraryEnv

end Cminusf
