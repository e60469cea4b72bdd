import Cminusf.Builder.TypedStatements

/-! The IR of a legal program is well typed. -/

namespace Cminusf

namespace CminusfBuilder

open Builder

section

variable {b f argNo : Nat} {Γ Γ' Γ'' : TypeEnv} {ret : CminusType} {σ : BuilderState}
  {param : ASTParam}

theorem visitParam_introduces (h : Ready Γ ret f b σ) (hn : param.type.isNumeric)
    (hΓ : Γ.declare param.id (.ofVar param.type param.isarray) = some Γ')
    (harg : HasType σ.module (.argument f argNo) (paramType param)) :
    ∃ σ', visitParam f param argNo σ = some ((), σ') ∧ Introduces Γ' ret f σ σ' := by
  have ht₁ : TypedInstr σ.module ret.ty (.alloca (paramType param))
      (.pointer (paramType param)) [] := .alloca
  obtain ⟨var, σ₁, hrun₁, b₁, hr₁, hp₁, hv₁⟩ := create_gives h ht₁ rfl
  obtain ⟨w, σ₂, hrun₂, b₂, hr₂, hp₂, -⟩ :=
    create_gives hr₁ (.store (harg.widen hp₁.widens) hv₁) rfl
  have hv₂ := hv₁.widen hp₂.widens
  have hden : Denotes σ₂.module (.ofVar param.type param.isarray) var := by
    rw [paramType] at hv₂
    rcases CminusType.isNumeric_iff.mp hn with ht | ht <;> rw [ht] at hv₂ ⊢ <;>
      cases hb : param.isarray <;> rw [hb] at hv₂
    · exact ⟨rfl, hv₂⟩
    · exact ⟨rfl, .inr hv₂⟩
    · exact ⟨rfl, hv₂⟩
    · exact ⟨rfl, .inr hv₂⟩
  refine ⟨_, ?_, hr₂.bind (hp₁.trans hp₂) hΓ hden⟩
  rw [visitParam]
  have hrun₁ : createAlloca (paramType param) σ = some (var, σ₁) := hrun₁
  have hrun₂ : createStore (.argument f argNo) var σ₁ = some (w, σ₂) := hrun₂
  rw [bind_run hrun₁, bind_run (discard_run hrun₂)]
  rfl

/-- The first parameters have been declared. -/
theorem visitParams_introduces (params : List ASTParam) (h : Ready Γ ret f b σ)
    (hΓ : declareParams params Γ = some Γ')
    (hparams : (σ.module.functions f).paramTypes.drop argNo = params.map paramType) :
    ∃ σ', visitParams f params argNo σ = some ((), σ') ∧ Introduces Γ' ret f σ σ' := by
  induction params generalizing Γ σ b argNo with
  | nil =>
    cases hΓ
    exact ⟨σ, rfl, ⟨b, h⟩, .refl σ, rfl⟩
  | cons param params ih =>
    rw [declareParams] at hΓ
    split at hΓ
    · rename_i hn
      split at hΓ
      · rename_i Γ₁ hΓ₁
        have hf : f < σ.module.numFunctions := h.parent ▸ h.wellTyped.blocks b h.block
        have harg : HasType σ.module (.argument f argNo) (paramType param) := by
          refine ⟨hf, ?_⟩
          have hget := congrArg List.head? hparams
          rw [List.head?_drop] at hget
          rw [Module.getType, List.getD_eq_getElem?_getD, hget]
          rfl
        obtain ⟨σ₁, hrun₁, hi₁⟩ := visitParam_introduces h hn hΓ₁ harg
        obtain ⟨b₁, hr₁⟩ := hi₁.ready
        have hrest : (σ₁.module.functions f).paramTypes.drop (argNo + 1) =
            params.map paramType := by
          have hw : Widens σ.module σ₁.module := hi₁.passed.widens
          rw [hw.paramTypes f hf, ← List.drop_drop, hparams]
          rfl
        obtain ⟨σ₂, hrun₂, hi₂⟩ := ih hr₁ hΓ hrest
        refine ⟨σ₂, ?_, hi₁.trans hi₂⟩
        rw [visitParams_cons, bind_run hrun₁]
        exact hrun₂
      · cases hΓ
    · cases hΓ

/-- The builder between two declarations. -/
structure Outside (Γ : TypeEnv) (σ : BuilderState) : Prop where
  wellTyped : WellTyped σ.module
  scope : Binds σ.module Γ σ.scope.inner
  sees : Γ.SeesNegIdxExcept
  isGlobal : Γ.length = 1
  requireLvalue : σ.requireLvalue = false
  preEnterScope : σ.preEnterScope = false

theorem enterFunction_ready {node : ASTFunDeclaration} (h : Outside Γ σ)
    (hΓ : Γ.declare node.id node.declared = some Γ') :
    ∃ f b σ', enterFunction node σ = some (f, σ') ∧ Ready ([] :: Γ') node.type f b σ' ∧
      Binds σ'.module Γ' σ'.scope.inner.tail ∧ σ'.preEnterScope = true ∧
      (σ'.module.functions f).paramTypes = node.params.map paramType := by
  let m₁ := σ.module.createFunction node.id (returnType node) (node.params.map paramType)
  have hw₁ : Widens σ.module m₁ := createFunction_ext _ _ _ _ _
  have ht₁ : WellTyped m₁ :=
    h.wellTyped.widen hw₁ (fun i hi hlt => absurd hlt (Nat.not_lt.mpr hi))
      fun b hb hlt => absurd hlt (Nat.not_lt.mpr hb)
  have hf₁ : σ.module.numFunctions < m₁.numFunctions := Nat.lt_succ_self _
  have hret₁ : (m₁.functions σ.module.numFunctions).returnType = node.type.ty := by
    have hnew : (m₁.functions σ.module.numFunctions).returnType = returnType node := by
      simp [m₁, Module.createFunction]
    rw [hnew, returnType]
    cases node.type <;> rfl
  have hparams₁ : (m₁.functions σ.module.numFunctions).paramTypes = node.params.map paramType := by
    simp [m₁, Module.createFunction]
  have hden : Denotes m₁ node.declared (.function σ.module.numFunctions) := by
    refine ⟨_, rfl, hf₁, hret₁, ?_⟩
    rw [hparams₁, List.map_map]
    rfl
  have hw₂ := createBasicBlock_widens m₁ "entry" σ.module.numFunctions
  have hbind := ((h.scope.widen hw₁).push hΓ hden).widen hw₂
  have hvac : Vacant σ.module.numFunctions m₁.numBlocks
      { σ with module := m₁.createBasicBlock "entry" σ.module.numFunctions } :=
    createBasicBlock_vacant (σ := { σ with module := m₁ }) "entry" σ.module.numFunctions
  refine ⟨_, _, _, rfl, ⟨⟨ht₁.createBasicBlock hf₁ "entry", rfl, rfl, hvac.block, hvac.parent,
    ?_, .cons .nil hbind, (TypeEnv.declare_extends hΓ).sees h.sees, h.requireLvalue⟩, hvac.isOpen⟩,
    hbind, rfl, ?_⟩
  · exact (hw₂.returnType _ hf₁).trans hret₁
  · exact (hw₂.paramTypes _ hf₁).trans hparams₁

theorem createRetIfOpen_ends (h : Located Γ ret f b σ) :
    ∃ σ', createRetIfOpen σ = some ((), σ') ∧ Ends Γ ret f σ σ' := by
  rw [createRetIfOpen, bind_run (terminated_run h.insertBlock)]
  rcases h.isOpen_or with hr | hc
  · obtain ⟨v, σ', hrun, he⟩ := createDefaultRet_ends hr
    refine ⟨σ', ?_, he⟩
    rw [hr.isOpen]
    exact discard_run hrun
  · refine ⟨σ, ?_, b, h, .refl σ, hc⟩
    rw [if_pos hc]
    rfl

/-- The body of a function, in the scope that its parameters are declared in. -/
theorem visitBody_succeeds {ls : List ASTVarDeclaration} {ss : List ASTStatement}
    (h : Ready Γ ret f b σ) (hlen : 2 ≤ Γ.length) (hΓ : declareVars ls Γ = some Γ')
    (hl : ASTStatement.legalList ret ss Γ') (hpre : σ.preEnterScope = true) :
    Succeeds (visitStatement (.compound ls ss)) σ fun _ σ' =>
      ∃ b', Located Γ' ret f b' σ' ∧ Widens σ.module σ'.module ∧
        σ'.scope.inner.tail = σ.scope.inner.tail ∧ σ'.preEnterScope = false := by
  have hr : Ready Γ ret f b { σ with preEnterScope := false } :=
    ⟨⟨h.wellTyped, h.insertBlock, h.curFun, h.block, h.parent, h.returnType, h.scope, h.sees,
      h.requireLvalue⟩, h.isOpen⟩
  rw [visitStatement]
  apply Succeeds.step (enterCompound_body hpre)
  apply block_succeeds (visitStatementList_compiles ss Γ' (declareVars_ne_nil hlen hΓ)) hl hr hlen
    hΓ rfl
  intro σ₁ b₁ hl₁ hp₁ hs₁
  exact .of_run rfl ⟨b₁, hl₁, hp₁.widens, hs₁, hp₁.preEnterScope⟩

theorem visitFunDeclaration_succeeds {node : ASTFunDeclaration} (h : Outside Γ σ)
    (hΓ : Γ.declare node.id node.declared = some Γ') (hbody : node.bodyEnv Γ' = some Γ'')
    (hl : ASTStatement.legalList node.type node.statementList Γ'') :
    Succeeds (visitFunDeclaration node) σ fun _ σ' => Outside Γ' σ' := by
  obtain ⟨f, b, σ₁, hrun₁, hr₁, hbind, hpre, hparams⟩ := enterFunction_ready h hΓ
  have hglobal : Γ'.length = 1 := (TypeEnv.declare_extends hΓ).length.trans h.isGlobal
  rw [ASTFunDeclaration.bodyEnv] at hbody
  split at hbody
  · rename_i Γ₁ hΓ₁
    have hparams₀ : (σ₁.module.functions f).paramTypes.drop 0 = node.params.map paramType := hparams
    obtain ⟨σ₂, hrun₂, hi₂⟩ := visitParams_introduces node.params hr₁ hΓ₁ hparams₀
    obtain ⟨b₂, hr₂⟩ := hi₂.ready
    have hlen : 2 ≤ Γ₁.length := by
      rw [(declareParams_extends hΓ₁).length, List.length_cons, hglobal]
    apply Succeeds.step hrun₁
    apply Succeeds.step hrun₂
    apply (visitBody_succeeds hr₂ hlen hbody hl (hi₂.passed.preEnterScope.trans hpre)).bind
    rintro _ σ₃ ⟨b₃, hl₃, hw₃, hs₃, hpre₃⟩
    obtain ⟨σ₄, hrun₄, b₄, hl₄, hp₄, -⟩ := createRetIfOpen_ends hl₃
    have hw : Widens σ₁.module σ₄.module := hi₂.passed.widens.trans (hw₃.trans hp₄.widens)
    have hs : σ₄.scope.inner.tail = σ₁.scope.inner.tail := by
      rw [hp₄.scope, hs₃, hi₂.outer]
    apply Succeeds.step hrun₄
    refine .of_run rfl ⟨hl₄.wellTyped, ?_, (TypeEnv.declare_extends hΓ).sees h.sees, hglobal,
      hl₄.requireLvalue, hp₄.preEnterScope.trans hpre₃⟩
    show Binds σ₄.module Γ' σ₄.scope.inner.tail
    rw [hs]
    exact hbind.widen hw
  · cases hbody

theorem visitVarDeclaration_outside {decl : ASTVarDeclaration} (h : Outside Γ σ)
    (hΓ : decl.declareIn Γ = some Γ') :
    ∃ σ', visitVarDeclaration decl σ = some ((), σ') ∧ Outside Γ' σ' := by
  have hsees := (declareIn_extends hΓ).sees h.sees
  have hglobal : Γ'.length = 1 := (declareIn_extends hΓ).length.trans h.isGlobal
  have hscope : σ.scope.inGlobal = true := by
    rw [Scope.inGlobal, ← h.scope.length_eq, h.isGlobal]
    rfl
  let m₁ := σ.module.createGlobalVariable decl.id (varTy decl) (.constZero (varTy decl))
  have hw₁ : Widens σ.module m₁ := createGlobalVariable_ext _ _ _ _ _
  have ht₁ : WellTyped m₁ :=
    h.wellTyped.widen hw₁ (fun i hi hlt => absurd hlt (Nat.not_lt.mpr hi))
      fun b hb hlt => absurd hlt (Nat.not_lt.mpr hb)
  have hv : HasType m₁ (.globalVariable σ.module.numGlobals) (.pointer (varTy decl)) := by
    constructor
    · exact Nat.lt_succ_self _
    · simp [Module.getType, m₁, Module.createGlobalVariable, Module.addUse]
  rw [ASTVarDeclaration.declareIn] at hΓ
  split at hΓ
  · rename_i hτ
    refine ⟨{ σ with
      module := m₁
      scope := σ.scope.push decl.id (.globalVariable σ.module.numGlobals) }, ?_, ht₁,
      (h.scope.widen hw₁).push hΓ (denotes_of_varTy hτ hv), hsees, hglobal,
      h.requireLvalue, h.preEnterScope⟩
    rw [visitVarDeclaration_eq, bind_run (get_run σ), hscope]
    rfl
  · cases hΓ

theorem visitDeclarations_succeeds (ds : List ASTDeclaration) (h : Outside Γ σ)
    (hl : legalDeclarations ds Γ) :
    Succeeds (visitDeclarations ds) σ fun _ σ' => WellTyped σ'.module := by
  induction ds generalizing Γ σ with
  | nil => exact .of_run rfl h.wellTyped
  | cons d ds ih =>
    rw [visitDeclarations]
    cases d with
    | var decl =>
      rw [legalDeclarations] at hl
      split at hl
      · rename_i Γ₁ hΓ₁
        obtain ⟨σ₁, hrun₁, h₁⟩ := visitVarDeclaration_outside h hΓ₁
        exact .step hrun₁ (ih h₁ hl)
      · cases hl
    | «fun» node =>
      rw [legalDeclarations] at hl
      split at hl
      · rename_i Γ₁ hΓ₁
        rw [Bool.and_eq_true] at hl
        obtain ⟨hl, hrest⟩ := hl
        split at hl
        · rename_i Γ₂ hΓ₂
          apply (visitFunDeclaration_succeeds h hΓ₁ hΓ₂ hl).bind
          exact fun _ _ h₁ => ih h₁ hrest
        · cases hl
      · cases hl

theorem outside_initial : Outside libraryEnv initial where
  wellTyped := by
    constructor
    · intro i hi
      cases hi
    · intro b hb
      cases hb
  scope := by
    have hf : ∀ f < 4, f < initial.module.numFunctions := fun f hf => hf
    refine .cons (.cons ⟨rfl, 3, rfl, hf 3 (by decide), ?_, ?_⟩ <| .cons ⟨rfl, 2, rfl,
      hf 2 (by decide), ?_, ?_⟩ <| .cons ⟨rfl, 1, rfl, hf 1 (by decide), ?_, ?_⟩ <|
      .cons ⟨rfl, 0, rfl, hf 0 (by decide), ?_, ?_⟩ .nil) .nil
    all_goals rfl
  sees := rfl
  isGlobal := rfl
  requireLvalue := rfl
  preEnterScope := rfl

end

/-- The builder ends on a legal program, and every instruction that it makes is type-correct. -/
theorem buildModule_wellTyped (program : ASTProgram) (hl : program.legal) :
    ∃ m, buildModule program = some m ∧ WellTyped m := by
  obtain ⟨_, σ', hrun, ht⟩ := visitDeclarations_succeeds program.declarations outside_initial hl
  exact ⟨σ'.module, by rw [buildModule, hrun]; rfl, ht⟩

/-- `float half(float a[], int i) { return a[i] / 2; }`, and
`int main(void) { float a[2]; a[0] = 1; return half(a, 0.5); }`. -/
def halfProgram : ASTProgram :=
  let term (f : ASTFactor) : ASTExpression := .simple (.ofTerm (.ofFactor f))
  let a : ASTFactor := .var (.scalar "a")
  let i : ASTFactor := .var (.scalar "i")
  ⟨[.fun ⟨.float, "half", [⟨.float, "a", true⟩, ⟨.int, "i", false⟩], [],
      [.return (some (.simple (.ofTerm (.multiplicative
        (.ofFactor (.var (.subscript "a" (term i)))) .div (.num (.int 2))))))]⟩,
    .fun ⟨.int, "main", [], [⟨.float, "a", some 2⟩],
      [.expressionStmt (some (.assign (.subscript "a" (term (.num (.int 0))))
          (term (.num (.int 1))))),
        .return (some (term (.call "half" [term a, term (.num (.float 0x3f000000))])))]⟩]⟩

theorem buildModule_wellTyped_halfProgram :
    ∃ m, buildModule halfProgram = some m ∧ WellTyped m :=
  buildModule_wellTyped halfProgram (by decide +kernel)

end CminusfBuilder

end Cminusf
