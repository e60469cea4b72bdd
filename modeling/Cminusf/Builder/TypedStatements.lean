import Cminusf.Builder.TypedExpressions

/-! The visitors of declarations and statements end, in a block of the same function. -/

namespace Cminusf

namespace CminusfBuilder

open Builder

section

variable {b c f t : Nat} {Γ Γ' : TypeEnv} {ret τ : CminusType} {legal : Bool} {e : ASTExpression}
  {σ σ' σ₀ : BuilderState} {v : Value} {x : Builder Unit} {k : Unit → Builder Unit}
  {R : Unit → BuilderState → Prop}

theorem createCondition_gives (h : Ready Γ ret f b σ) (hv : HasType σ.module v τ.ty)
    (hτ : τ.isNumeric) :
    ∃ w σ', createCondition v σ = some (w, σ') ∧ Gives Γ ret f σ .int1 w σ' := by
  rw [createCondition, bind_run (getType_run hv)]
  rcases CminusType.isNumeric_iff.mp hτ with rfl | rfl
  · exact create_gives h (.cmp hv (hasType_constInt 0)) rfl
  · exact create_gives h (.fcmp hv (hasType_constFP 0)) rfl

theorem convertReturned_gives (h : Ready Γ ret f b σ) (hv : HasType σ.module v τ.ty)
    (hτ : τ.isNumeric) (hret : ret.isNumeric) :
    ∃ w σ', convertReturned ret.ty v σ = some (w, σ') ∧ Gives Γ ret f σ ret.ty w σ' := by
  rw [convertReturned, bind_run (getType_run hv)]
  rcases CminusType.isNumeric_iff.mp hτ with rfl | rfl <;>
    rcases CminusType.isNumeric_iff.mp hret with rfl | rfl
  · exact ⟨v, σ, rfl, b, h, .refl σ, hv⟩
  · exact create_gives h (.sitofp hv) rfl
  · exact create_gives h (.fptosi hv) rfl
  · exact ⟨v, σ, rfl, b, h, .refl σ, hv⟩

theorem createBrIfOpen_ends (h : Located Γ ret f b σ) (ht : t < σ.module.numBlocks) :
    ∃ σ', createBrIfOpen t σ = some ((), σ') ∧ Ends Γ ret f σ σ' := by
  rw [createBrIfOpen, bind_run (terminated_run h.insertBlock)]
  rcases h.isOpen_or with hr | hc
  · obtain ⟨v, σ', hrun, he⟩ := createBr_ends hr ht
    refine ⟨σ', ?_, he⟩
    rw [hr.isOpen]
    exact discard_run hrun
  · refine ⟨σ, ?_, b, h, .refl σ, hc⟩
    rw [if_pos hc]
    rfl

/-- The blocks and the condition of `openThen` and `openElse`. -/
theorem createCondition_ready (h : GivesTmp Γ ret f σ₀ τ.ty σ) (hτ : τ.isNumeric) :
    ∃ v σ₁ σ₂ w σ', getTmpVal σ = some (v, σ) ∧
      createBasicBlock "" σ = some (σ.module.numBlocks, σ₁) ∧
      createBasicBlock "" σ₁ = some (σ.module.numBlocks + 1, σ₂) ∧
      createCondition v σ₂ = some (w, σ') ∧ Gives Γ ret f σ₀ .int1 w σ' ∧
      Pending f σ₀ σ.module.numBlocks σ' ∧ Pending f σ₀ (σ.module.numBlocks + 1) σ' := by
  obtain ⟨v, htmp, b, hr, hp, hv⟩ := h
  obtain ⟨σ₁, σ₂, hrun₁, hrun₂, hr₂, hp₂, ht, hc⟩ := createBasicBlocks_ready hr
  obtain ⟨w, σ₃, hrun₃, b₃, hr₃, hp₃, hw⟩ := createCondition_gives hr₂ (hv.widen hp₂.widens) hτ
  exact ⟨v, σ₁, σ₂, w, σ₃, getTmpVal_run htmp, hrun₁, hrun₂, hrun₃,
    ⟨b₃, hr₃, (hp.trans hp₂).trans hp₃, hw⟩, (ht.since hp.widens).after hp₃,
    (hc.since hp.widens).after hp₃⟩

theorem openThen_run (h : GivesTmp Γ ret f σ₀ τ.ty σ) (hτ : τ.isNumeric) :
    ∃ b c σ', openThen σ = some (c, σ') ∧ Ready Γ ret f b σ' ∧ Passed σ₀ σ' ∧
      Pending f σ₀ c σ' := by
  obtain ⟨v, σ₁, σ₂, w, σ₃, hv, hrun₁, hrun₂, hrun₃, ⟨b₃, hr₃, hp₃, hw⟩, ht, hc⟩ :=
    createCondition_ready h hτ
  obtain ⟨u, σ₄, hrun₄, b₄, hl₄, hp₄, -⟩ := createCondBr_ends hr₃ hw ht.vacant.block hc.vacant.block
  have ht := ht.after hp₄
  refine ⟨_, _, _, ?_, hl₄.move ht.vacant, (hp₃.trans hp₄).move ht.new,
    (hc.after hp₄).move (Nat.lt_succ_self _).ne⟩
  rw [openThen, bind_run hv, bind_run hrun₁, bind_run hrun₂, bind_run hrun₃,
    bind_run (discard_run hrun₄)]
  rfl

theorem openElse_run (h : GivesTmp Γ ret f σ₀ τ.ty σ) (hτ : τ.isNumeric) :
    ∃ b c d σ', openElse σ = some ((c, d), σ') ∧ Ready Γ ret f b σ' ∧ Passed σ₀ σ' ∧
      Pending f σ₀ c σ' ∧ Pending f σ₀ d σ' ∧ c ≠ d := by
  obtain ⟨v, σ₁, σ₂, w, σ₃, hv, hrun₁, hrun₂, hrun₃, ⟨b₃, hr₃, hp₃, hw⟩, ht, hd⟩ :=
    createCondition_ready h hτ
  obtain ⟨σ₄, hrun₄, hr₄, hp₄, hc, -⟩ := createBasicBlock_ready hr₃ ""
  have hlt := hd.vacant.block
  obtain ⟨u, σ₅, hrun₅, b₅, hl₅, hp₅, -⟩ := createCondBr_ends hr₄ (hw.widen hp₄.widens)
    (ht.after hp₄).vacant.block hc.vacant.block
  have ht := (ht.after hp₄).after hp₅
  have hc := (hc.after hp₅).since hp₃.widens
  have hd := (hd.after hp₄).after hp₅
  refine ⟨_, _, _, _, ?_, hl₅.move ht.vacant, ((hp₃.trans hp₄).trans hp₅).move ht.new,
    hc.move (by omega), hd.move (Nat.lt_succ_self _).ne, by omega⟩
  rw [openElse, bind_run hv, bind_run hrun₁, bind_run hrun₂, bind_run hrun₃, bind_run hrun₄,
    bind_run (discard_run hrun₅)]
  rfl

theorem openLoop_run (h : Ready Γ ret f b σ) :
    ∃ c σ', openLoop σ = some (c, σ') ∧ Ready Γ ret f c σ' ∧ Passed σ σ' := by
  obtain ⟨σ₁, hrun₁, hr₁, hp₁, hc, -⟩ := createBasicBlock_ready h ""
  obtain ⟨σ₂, hrun₂, b₂, hl₂, hp₂, -⟩ := createBrIfOpen_ends hr₁.toLocated hc.vacant.block
  refine ⟨_, _, ?_, hl₂.move (hc.after hp₂).vacant, (hp₁.trans hp₂).move hc.new⟩
  rw [openLoop, bind_run hrun₁, bind_run hrun₂]
  rfl

/-- A run that ends in a block that is closed or open. -/
def Finishes (Γ : TypeEnv) (ret : CminusType) (f : Nat) (σ σ' : BuilderState) : Prop :=
  ∃ b, Located Γ ret f b σ' ∧ Passed σ σ'

/-- A branch that jumps to `t` unless it returns; the next part starts in the block `c`. -/
theorem arm_succeeds (hx : Succeeds x σ fun _ σ' => Finishes Γ ret f σ σ')
    (ht : t < σ.module.numBlocks) (hc : Pending f σ₀ c σ) (hp : Passed σ₀ σ)
    (hk : ∀ σ', Ready Γ ret f c { σ' with insertBlock := some c } →
      Passed σ₀ { σ' with insertBlock := some c } → Passed σ σ' → Succeeds (k ()) σ' R) :
    Succeeds (x >>= fun _ => createBrIfOpen t >>= k) σ R := by
  apply hx.bind
  rintro _ σ₁ ⟨b₁, hl₁, hp₁⟩
  obtain ⟨σ₂, hrun₂, b₂, hl₂, hp₂, -⟩ :=
    createBrIfOpen_ends hl₁ (ht.trans_le hp₁.widens.numBlocks)
  have hp₃ := hp₁.trans hp₂
  apply Succeeds.step hrun₂
  exact hk σ₂ (hl₂.move (hc.after hp₃).vacant) ((hp.trans hp₃).move hc.new) hp₃

/-- The type of a variable or of an element of an array. -/
def elementTy : CminusType → Ty
  | .int => .int32
  | _ => .float

/-- The type that a variable is allocated with. -/
def varTy (node : ASTVarDeclaration) : Ty :=
  match node.num with
  | none => elementTy node.type
  | some num => .array (elementTy node.type) num.toNat

theorem visitVarDeclaration_eq (node : ASTVarDeclaration) : visitVarDeclaration node = (do
    if (← get).scope.inGlobal then
      let m ← getModule
      setModule (m.createGlobalVariable node.id (varTy node) (.constZero (varTy node)))
      modifyScope (·.push node.id (.globalVariable m.numGlobals))
    else
      let var ← createAlloca (varTy node)
      modifyScope (·.push node.id var)) := by
  obtain ⟨τ, id, num⟩ := node
  cases num <;> rfl

theorem denotes_of_varTy {m : Module} {decl : ASTVarDeclaration} (hτ : decl.type.isNumeric)
    (hv : HasType m v (.pointer (varTy decl))) :
    Denotes m (.ofVar decl.type decl.num.isSome) v := by
  rw [varTy] at hv
  rcases CminusType.isNumeric_iff.mp hτ with ht | ht <;> rw [ht] at hv ⊢ <;>
    cases hnum : decl.num <;> rw [hnum] at hv
  · exact ⟨rfl, hv⟩
  · exact ⟨rfl, .inl ⟨_, hv⟩⟩
  · exact ⟨rfl, hv⟩
  · exact ⟨rfl, .inl ⟨_, hv⟩⟩

theorem visitVarDeclaration_introduces (decl : ASTVarDeclaration) (h : Ready Γ ret f b σ)
    (hlen : 2 ≤ Γ.length) (hΓ : decl.declareIn Γ = some Γ') :
    ∃ σ', visitVarDeclaration decl σ = some ((), σ') ∧ Introduces Γ' ret f σ σ' := by
  rw [ASTVarDeclaration.declareIn] at hΓ
  split at hΓ
  · rename_i hτ
    have hglobal : σ.scope.inGlobal = false := by
      rw [Scope.inGlobal, ← h.scope.length_eq, beq_eq_false_iff_ne]
      omega
    have ht : TypedInstr σ.module ret.ty (.alloca (varTy decl)) (.pointer (varTy decl)) [] :=
      .alloca
    obtain ⟨var, σ₁, hrun₁, b₁, hr₁, hp₁, hv₁⟩ := create_gives h ht rfl
    refine ⟨_, ?_, hr₁.bind hp₁ hΓ (denotes_of_varTy hτ hv₁)⟩
    rw [visitVarDeclaration_eq, bind_run (get_run σ), hglobal]
    exact bind_run hrun₁
  · cases hΓ

theorem visitLocalDeclarations_introduces (decls : List ASTVarDeclaration)
    (h : Ready Γ ret f b σ) (hlen : 2 ≤ Γ.length) (hΓ : declareVars decls Γ = some Γ') :
    ∃ σ', visitLocalDeclarations decls σ = some ((), σ') ∧ Introduces Γ' ret f σ σ' := by
  induction decls generalizing Γ σ b with
  | nil =>
    cases hΓ
    exact ⟨σ, rfl, ⟨b, h⟩, .refl σ, rfl⟩
  | cons decl decls ih =>
    rw [declareVars] at hΓ
    split at hΓ
    · rename_i Γ₁ hΓ₁
      obtain ⟨σ₁, hrun₁, hi₁⟩ := visitVarDeclaration_introduces decl h hlen hΓ₁
      obtain ⟨b₁, hr₁⟩ := hi₁.ready
      obtain ⟨σ₂, hrun₂, hi₂⟩ := ih hr₁ (hlen.trans (declareIn_extends hΓ₁).length.ge) hΓ
      refine ⟨σ₂, ?_, hi₁.trans hi₂⟩
      rw [visitLocalDeclarations, bind_run hrun₁]
      exact hrun₂
    · cases hΓ

/-- What the visitor of a statement does. -/
def CompilesStatement (ret : CminusType) (f : Nat) (Γ : TypeEnv) (legal : Bool)
    (x : Builder Unit) : Prop :=
  legal → ∀ ⦃σ b⦄, Ready Γ ret f b σ → σ.preEnterScope = false →
    Succeeds x σ fun _ σ' => Finishes Γ ret f σ σ'

theorem condition_succeeds (he : (valueType (e.typeIn Γ)).isSome) (h : Ready Γ ret f b σ) :
    ∃ τ : CminusType, τ.isNumeric ∧ Succeeds (visitExpression e) σ fun _ σ' =>
      GivesTmp Γ ret f σ τ.ty σ' := by
  obtain ⟨τ, hτ⟩ := Option.isSome_iff_exists.mp he
  obtain ⟨ht, hn⟩ := valueType_eq_some.mp hτ
  exact ⟨τ, hn, visitExpression_compiles e _ ht σ b h⟩

/-- The declarations and the statements of a compound statement, whose scope is entered. -/
theorem block_succeeds {ls : List ASTVarDeclaration} (hx : CompilesStatement ret f Γ' legal x)
    (hl : legal) (h : Ready Γ ret f b σ) (hlen : 2 ≤ Γ.length)
    (hΓ : declareVars ls Γ = some Γ') (hpre : σ.preEnterScope = false)
    (hk : ∀ σ' b', Located Γ' ret f b' σ' → Passed σ { σ' with scope := σ.scope } →
      σ'.scope.inner.tail = σ.scope.inner.tail → Succeeds (k ()) σ' R) :
    Succeeds (visitLocalDeclarations ls >>= fun _ => x >>= k) σ R := by
  obtain ⟨σ₁, hrun₁, hi⟩ := visitLocalDeclarations_introduces ls h hlen hΓ
  obtain ⟨b₁, hr₁⟩ := hi.ready
  apply Succeeds.step hrun₁
  apply (hx hl hr₁ (hi.passed.preEnterScope.trans hpre)).bind
  rintro _ σ₂ ⟨b₂, hl₂, hp₂⟩
  apply hk σ₂ b₂ hl₂ (hi.passed.trans (hp₂.rescope σ.scope))
  rw [hp₂.scope]
  exact hi.outer

theorem declareVars_ne_nil {ls : List ASTVarDeclaration} (hlen : 2 ≤ Γ.length)
    (hΓ : declareVars ls Γ = some Γ') : Γ' ≠ [] := by
  rintro rfl
  rw [← (declareVars_extends hΓ).length] at hlen
  cases hlen

end

mutual

theorem visitStatement_compiles : ∀ (s : ASTStatement) (Γ : TypeEnv), Γ ≠ [] →
    CompilesStatement ret f Γ (s.legal ret Γ) (visitStatement s)
  | .compound ls ss, Γ, hΓ => by
    intro hl σ b h hpre
    rw [ASTStatement.legal] at hl
    rw [visitStatement]
    split at hl
    · rename_i Γ' hΓ'
      have hr : Ready ([] :: Γ) ret f b { σ with scope := σ.scope.enter } :=
        h.rescope (.cons .nil h.scope) h.sees
      have hlen : 2 ≤ ([] :: Γ).length := Nat.succ_le_succ (List.length_pos_iff.mpr hΓ)
      apply Succeeds.step (enterCompound_inner hpre)
      apply block_succeeds (visitStatementList_compiles ss Γ' (declareVars_ne_nil hlen hΓ')) hl hr
        hlen hΓ' hpre
      intro σ₁ b₁ hl₁ hp₁ hs₁
      have hexit : σ₁.scope.exit = σ.scope := congrArg Scope.mk hs₁
      have hw : Widens σ.module σ₁.module := hp₁.widens
      refine .of_run rfl ⟨b₁, ?_, ?_⟩
      · exact hl₁.rescope (hexit ▸ h.scope.widen hw) h.sees
      · exact ⟨hw, hp₁.instrList, hp₁.insertBlock, hexit, hp₁.preEnterScope⟩
    · cases hl
  | .expressionStmt none, Γ, _ => by
    intro _ σ b h _
    rw [visitStatement]
    exact .of_run rfl ⟨b, h.toLocated, .refl σ⟩
  | .expressionStmt (some e), Γ, _ => by
    intro hl σ b h _
    rw [ASTStatement.legal] at hl
    rw [visitStatement]
    split at hl
    · rename_i τ hτ
      apply (visitExpression_compiles e _ hτ σ b h).mono
      rintro _ σ' ⟨v, -, b', hr, hp, -⟩
      exact ⟨b', hr.toLocated, hp⟩
    · cases hl
  | .selection e s, Γ, hΓ => by
    intro hl σ b h hpre
    rw [ASTStatement.legal, Bool.and_eq_true] at hl
    rw [visitStatement_selection]
    obtain ⟨he, hs⟩ := hl
    obtain ⟨τ, hτ, hx⟩ := condition_succeeds he h
    apply hx.bind
    intro _ σ₁ hg
    obtain ⟨b₂, c, σ₂, hrun₂, hr₂, hp₂, hc⟩ := openThen_run hg hτ
    apply Succeeds.step hrun₂
    apply arm_succeeds (visitStatement_compiles s Γ hΓ hs hr₂ (hp₂.preEnterScope.trans hpre))
      hc.vacant.block hc hp₂
    intro σ₃ hr₃ hp₃ _
    exact .of_run rfl ⟨c, hr₃.toLocated, hp₃⟩
  | .selectionElse e s₁ s₂, Γ, hΓ => by
    intro hl σ b h hpre
    rw [ASTStatement.legal, Bool.and_eq_true, Bool.and_eq_true] at hl
    rw [visitStatement_selectionElse]
    obtain ⟨⟨he, hs₁⟩, hs₂⟩ := hl
    obtain ⟨τ, hτ, hx⟩ := condition_succeeds he h
    apply hx.bind
    intro _ σ₁ hg
    obtain ⟨b₂, c, d, σ₂, hrun₂, hr₂, hp₂, hc, hd, hne⟩ := openElse_run hg hτ
    apply Succeeds.step hrun₂
    apply arm_succeeds (visitStatement_compiles s₁ Γ hΓ hs₁ hr₂
      (hp₂.preEnterScope.trans hpre)) hd.vacant.block hc hp₂
    intro σ₃ hr₃ hp₃ hp₂₃
    have hd₃ := (hd.after hp₂₃).move hne
    apply Succeeds.step (setInsertPoint_run c σ₃)
    apply arm_succeeds (visitStatement_compiles s₂ Γ hΓ hs₂ hr₃
      (hp₃.preEnterScope.trans hpre)) hd₃.vacant.block hd₃ hp₃
    intro σ₄ hr₄ hp₄ _
    exact .of_run rfl ⟨d, hr₄.toLocated, hp₄⟩
  | .iteration e s, Γ, hΓ => by
    intro hl σ b h hpre
    rw [ASTStatement.legal, Bool.and_eq_true] at hl
    rw [visitStatement_iteration]
    obtain ⟨he, hs⟩ := hl
    obtain ⟨c₁, σ₁, hrun₁, hr₁, hp₁⟩ := openLoop_run h
    apply Succeeds.step hrun₁
    obtain ⟨τ, hτ, hx⟩ := condition_succeeds he hr₁
    apply hx.bind
    intro _ σ₂ hg
    obtain ⟨b₃, c, σ₃, hrun₃, hr₃, hp₃, hc⟩ := openThen_run hg hτ
    have hp := hp₁.trans hp₃
    apply Succeeds.step hrun₃
    apply arm_succeeds (visitStatement_compiles s Γ hΓ hs hr₃ (hp.preEnterScope.trans hpre))
      (hr₁.block.trans_le hp₃.widens.numBlocks) (hc.since hp₁.widens) hp
    intro σ₄ hr₄ hp₄ _
    exact .of_run rfl ⟨c, hr₄.toLocated, hp₄⟩
  | .return none, Γ, _ => by
    intro hl σ b h _
    rw [ASTStatement.legal] at hl
    rw [visitStatement]
    have hret : ret.ty = .void := by
      cases ret <;> first | rfl | simp [CminusType.isNumeric] at hl
    obtain ⟨v, σ₁, hrun₁, b₁, hl₁, hp₁, -⟩ := createRet_ends h (.retVoid hret)
    exact .of_run (discard_run hrun₁) ⟨b₁, hl₁, hp₁⟩
  | .return (some e), Γ, _ => by
    intro hl σ b h _
    rw [ASTStatement.legal, Bool.and_eq_true] at hl
    rw [visitStatement]
    obtain ⟨he, hret⟩ := hl
    obtain ⟨τ, hτ, hx⟩ := condition_succeeds he h
    apply Succeeds.step (getCurFun_run h.curFun)
    apply Succeeds.step (getModule_run σ)
    rw [h.returnType]
    apply withTmp hx
    rintro v σ₁ ⟨b₁, hr₁, hp₁, hv₁⟩
    obtain ⟨w, σ₂, hrun₂, b₂, hr₂, hp₂, hw₂⟩ := convertReturned_gives hr₁ hv₁ hτ hret
    apply Succeeds.step hrun₂
    apply Succeeds.step (setTmpVal_run w σ₂)
    obtain ⟨u, σ₃, hrun₃, b₃, hl₃, hp₃, -⟩ := createRet_ends (hr₂.setTmpVal w) (.ret hw₂)
    exact .of_run (discard_run hrun₃) ⟨b₃, hl₃, ((hp₁.trans hp₂).setTmpVal w).trans hp₃⟩

theorem visitStatementList_compiles : ∀ (ss : List ASTStatement) (Γ : TypeEnv), Γ ≠ [] →
    CompilesStatement ret f Γ (ASTStatement.legalList ret ss Γ) (visitStatementList ss)
  | [], Γ, _ => by
    intro _ σ b h _
    rw [visitStatementList]
    exact .of_run rfl ⟨b, h.toLocated, .refl σ⟩
  | s :: ss, Γ, hΓ => by
    intro hl σ b h hpre
    rw [ASTStatement.legalList, Bool.and_eq_true] at hl
    rw [visitStatementList]
    obtain ⟨hs, hss⟩ := hl
    apply (visitStatement_compiles s Γ hΓ hs h hpre).bind
    rintro _ σ₁ ⟨b₁, hl₁, hp₁⟩
    apply Succeeds.step (terminated_run hl₁.insertBlock)
    rcases hl₁.isOpen_or with hr₁ | hc₁
    · rw [hr₁.isOpen]
      apply (visitStatementList_compiles ss Γ hΓ hss hr₁ (hp₁.preEnterScope.trans hpre)).mono
      rintro _ σ₂ ⟨b₂, hl₂, hp₂⟩
      exact ⟨b₂, hl₂, hp₁.trans hp₂⟩
    · rw [if_pos hc₁]
      exact .of_run rfl ⟨b₁, hl₁, hp₁⟩

end

end CminusfBuilder

end Cminusf
