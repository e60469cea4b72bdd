import Cminusf.Builder.Typing

/-! The visitors of expressions end, and give values of the types that the rules of the language
say. -/

namespace Cminusf

namespace CminusfBuilder

open Builder

section

variable {b c f : Nat} {ty elementTy : Ty} {Γ : TypeEnv} {ret t t' : CminusType} {d : Declared}
  {σ σ' σ₀ : BuilderState} {v w ptr : Value} {lv : Bool} {id : String}

/-- The two values have the type of the operation. -/
theorem promote_gives (h : Ready Γ ret f b σ) (hv : HasType σ.module v t.ty)
    (hw : HasType σ.module w t'.ty) (ht : t.isNumeric) (ht' : t'.isNumeric) :
    ∃ l r σ', promote v w σ = some ((decide (t.promote t' = .int), l, r), σ') ∧
      Gives Γ ret f σ (t.promote t').ty l σ' ∧ HasType σ'.module r (t.promote t').ty := by
  rw [promote, bind_run (getType_run hv), bind_run (getType_run hw)]
  rcases CminusType.isNumeric_iff.mp ht with rfl | rfl <;>
    rcases CminusType.isNumeric_iff.mp ht' with rfl | rfl
  · exact ⟨v, w, σ, rfl, ⟨b, h, .refl σ, hv⟩, hw⟩
  · obtain ⟨l, σ', hrun, b', hr, hp, hl⟩ := create_gives h (.sitofp hv) rfl
    exact ⟨l, w, σ', bind_run hrun, ⟨b', hr, hp, hl⟩, hw.widen hp.widens⟩
  · obtain ⟨r, σ', hrun, b', hr, hp, hr'⟩ := create_gives h (.sitofp hw) rfl
    exact ⟨v, r, σ', bind_run hrun, ⟨b', hr, hp, hv.widen hp.widens⟩, hr'⟩
  · exact ⟨v, w, σ, rfl, ⟨b, h, .refl σ, hv⟩, hw⟩

theorem createRelation_gives (h : Ready Γ ret f b σ) (hv : HasType σ.module v t.ty)
    (hw : HasType σ.module w t.ty) (ht : t.isNumeric) (op : RelOp) :
    ∃ c σ', createRelation op (decide (t = .int)) v w σ = some (c, σ') ∧
      Gives Γ ret f σ .int1 c σ' := by
  cases t with
  | int => exact create_gives h (.cmp hv hw) rfl
  | float => exact create_gives h (.fcmp hv hw) rfl
  | void => cases ht

theorem createAdditive_gives (h : Ready Γ ret f b σ) (hv : HasType σ.module v t.ty)
    (hw : HasType σ.module w t.ty) (ht : t.isNumeric) (op : AddOp) :
    ∃ c σ', createAdditive op (decide (t = .int)) v w σ = some (c, σ') ∧
      Gives Γ ret f σ t.ty c σ' := by
  cases t with
  | int => cases op <;> exact create_gives h (.binary hv hw) rfl
  | float => cases op <;> exact create_gives h (.binary hv hw) rfl
  | void => cases ht

theorem createMultiplicative_gives (h : Ready Γ ret f b σ) (hv : HasType σ.module v t.ty)
    (hw : HasType σ.module w t.ty) (ht : t.isNumeric) (op : MulOp) :
    ∃ c σ', createMultiplicative op (decide (t = .int)) v w σ = some (c, σ') ∧
      Gives Γ ret f σ t.ty c σ' := by
  cases t with
  | int => cases op <;> exact create_gives h (.binary hv hw) rfl
  | float => cases op <;> exact create_gives h (.binary hv hw) rfl
  | void => cases ht


/-- The type of what a name of a variable or an array points to. -/
def PointsTo : Declared → Ty → Prop
  | .scalar t, ty => t.isNumeric ∧ ty = t.ty
  | .array t, ty => t.isNumeric ∧ ((∃ n, ty = .array t.ty n) ∨ ty = .pointer t.ty)
  | .function _ _, _ => False

/-- The variable is found. -/
theorem enterVar_run (h : Ready Γ ret f b σ) (hid : Γ.find id = some d)
    (hd : ∀ t params, d ≠ .function t params) (lv : Bool) :
    ∃ var elementTy, enterVar id { σ with requireLvalue := lv } = some ((var, elementTy, lv), σ) ∧
      HasType σ.module var (.pointer elementTy) ∧ PointsTo d elementTy := by
  rcases h.scope.find id with ⟨hnone, -⟩ | ⟨d', var, hd', hfind, hden⟩
  · rw [hid] at hnone
    cases hnone
  rw [hid] at hd'
  cases hd'
  have hty : ∃ elementTy, HasType σ.module var (.pointer elementTy) ∧ PointsTo d elementTy := by
    cases d with
    | scalar t => exact ⟨_, hden.2, hden.1, rfl⟩
    | array t =>
      obtain ⟨hn, ⟨n, hp⟩ | hp⟩ := hden
      · exact ⟨_, hp, hn, .inl ⟨n, rfl⟩⟩
      · exact ⟨_, hp, hn, .inr rfl⟩
    | function t params => exact absurd rfl (hd t params)
  obtain ⟨elementTy, hp, hpt⟩ := hty
  refine ⟨var, elementTy, ?_, hp, hpt⟩
  have hσ : { σ with requireLvalue := false } = σ := by
    rw [← h.requireLvalue]
  have hty' : getType var { σ with requireLvalue := lv } =
      some (.pointer elementTy, { σ with requireLvalue := lv }) :=
    getType_run (σ := { σ with requireLvalue := lv }) hp
  have hfind' : ({ σ with requireLvalue := lv } : BuilderState).scope.find id = some var := hfind
  rw [enterVar, bind_run (get_run _), hfind']
  dsimp only
  rw [bind_run hty']
  dsimp only [Ty.pointerElementType]
  rw [bind_run (get_run _), bind_run (setRequireLvalue_run false _), hσ]
  rfl

/-- The address as the result. -/
theorem setLvalue_run (h : Gives Γ ret f σ₀ ty v σ) :
    ∃ σ', (do setTmpVal v; setRequireLvalue false : Builder Unit) σ = some ((), σ') ∧
      GivesTmp Γ ret f σ₀ ty σ' := by
  obtain ⟨w, hw, b, hr, hp, ht⟩ := h.setTmpVal
  cases hw
  refine ⟨{ σ with tmpVal := some v }, ?_, v, rfl, b, hr, hp, ht⟩
  rw [bind_run (setTmpVal_run v σ)]
  have hσ : { ({ σ with tmpVal := some v } : BuilderState) with requireLvalue := false } =
      { σ with tmpVal := some v } := by
    rw [← hr.requireLvalue]
  exact congrArg (fun s => some ((), s)) hσ

/-- What `visit(ASTVar)` leaves in `tmp_val`: the address, the value, or the address of the first
element. -/
def accessed (lv : Bool) (elementTy : Ty) : Declared → Ty
  | .scalar t => if lv then .pointer t.ty else t.ty
  | .array t => if lv then .pointer elementTy else .pointer t.ty
  | .function _ _ => elementTy

theorem getElementType_array (ty : Ty) (n : Nat) (idx : Value) :
    getElementType (.pointer (.array ty n)) [.constInt 0, idx] = some ty := by
  simp [getElementType, Ty.isArray, elementTypeOfArray]

theorem visitScalar_gives (h : Ready Γ ret f b σ) (hv : HasType σ.module v (.pointer elementTy))
    (hp : PointsTo d elementTy) (lv : Bool) :
    ∃ σ', visitScalar v elementTy lv σ = some ((), σ') ∧
      GivesTmp Γ ret f σ (accessed lv elementTy d) σ' := by
  cases lv with
  | true =>
    have hacc : accessed true elementTy d = .pointer elementTy := by
      cases d with
      | scalar t => rw [hp.2]; rfl
      | array t => rfl
      | function t params => cases hp
    rw [hacc]
    exact setLvalue_run ⟨b, h, .refl σ, hv⟩
  | false =>
    have hload : (elementTy.isInteger || elementTy.isFloat || elementTy.isPointer) = true →
        accessed false elementTy d = elementTy → ∃ σ', visitScalar v elementTy false σ =
          some ((), σ') ∧ GivesTmp Γ ret f σ (accessed false elementTy d) σ' := by
      intro hb hacc
      obtain ⟨w, σ', hrun, hg⟩ := createLoad_gives h hv
      rw [hacc]
      refine ⟨_, ?_, hg.setTmpVal⟩
      rw [visitScalar, if_neg (by simp), if_pos hb, bind_run hrun]
      rfl
    cases d with
    | scalar t =>
      obtain ⟨hn, rfl⟩ := hp
      apply hload _ rfl
      cases t with
      | int => rfl
      | float => rfl
      | void => cases hn
    | array t =>
      obtain ⟨hn, ⟨n, rfl⟩ | rfl⟩ := hp
      · have hidxs : ∀ idx ∈ [Value.constInt 0, .constInt 0], HasType σ.module idx .int32 := by
          intro idx hidx
          simp only [List.mem_cons, List.not_mem_nil, or_false, or_self] at hidx
          rw [hidx]
          exact hasType_constInt 0
        obtain ⟨w, σ', hrun, hg⟩ := createGep_gives h hv (getElementType_array t.ty n _) hidxs
        refine ⟨_, ?_, hg.setTmpVal⟩
        rw [visitScalar, if_neg (by simp),
          if_neg (by simp [Ty.isInteger, Ty.isFloat, Ty.isPointer]), bind_run hrun]
        rfl
      · exact hload rfl rfl
    | function t params => cases hp

theorem toIndex_gives (h : Ready Γ ret f b σ) (hv : HasType σ.module v t.ty)
    (ht : t.isNumeric) :
    ∃ w σ', toIndex v σ = some (w, σ') ∧ Gives Γ ret f σ .int32 w σ' := by
  rw [toIndex, bind_run (getType_run hv)]
  cases t with
  | int => exact ⟨v, σ, rfl, b, h, .refl σ, hv⟩
  | float => exact create_gives h (.fptosi hv) rfl
  | void => cases ht

theorem createElementPtr_gives (h : Ready Γ ret f b σ)
    (hv : HasType σ.module v (.pointer elementTy)) (hp : PointsTo (.array t) elementTy)
    (hw : HasType σ.module w .int32) :
    ∃ p σ', createElementPtr v elementTy w σ = some (p, σ') ∧
      Gives Γ ret f σ (.pointer t.ty) p σ' := by
  obtain ⟨hn, ⟨n, rfl⟩ | rfl⟩ := hp
  · have hrun : createElementPtr v (.array t.ty n) w = createGep v [.constInt 0, w] := by
      rw [createElementPtr, if_neg (by simp [Ty.isInteger, Ty.isFloat]),
        if_neg (by simp [Ty.isPointer])]
    rw [hrun]
    apply createGep_gives h hv (getElementType_array t.ty n w)
    intro idx hidx
    rcases List.mem_cons.mp hidx with rfl | hidx
    · exact ⟨trivial, rfl⟩
    · rw [List.mem_singleton.mp hidx]
      exact hw
  · obtain ⟨p, σ₁, hload, b₁, hr₁, hp₁, ht₁⟩ := createLoad_gives h hv
    have he : getElementType (.pointer t.ty) [w] = some t.ty := by
      cases t with
      | int => rfl
      | float => rfl
      | void => cases hn
    obtain ⟨q, σ₂, hgep, hg⟩ := createGep_gives hr₁ ht₁ he (by
      intro idx hidx
      rw [List.mem_singleton.mp hidx]
      exact hw.widen hp₁.widens)
    refine ⟨q, σ₂, ?_, hg.after hp₁⟩
    rw [createElementPtr, if_neg (by simp [Ty.isInteger, Ty.isFloat]),
      if_pos (by simp [Ty.isPointer]), bind_run hload]
    exact hgep

theorem createNegIdxExcept_ends (h : Ready Γ ret f b σ) :
    ∃ σ', createNegIdxExcept σ = some ((), σ') ∧ Ends Γ ret f σ σ' := by
  have hΓ : Γ.find "neg_idx_except" = some (.function .void []) := h.sees
  rcases h.scope.find "neg_idx_except" with ⟨hnone, -⟩ | ⟨d, v, hd, hfind, hden⟩
  · rw [hΓ] at hnone
    cases hnone
  rw [hΓ] at hd
  cases hd
  obtain ⟨g, rfl, hg, -, hparams⟩ := hden
  have hargs : List.Forall₂ (HasType σ.module) [] (σ.module.functions g).paramTypes := by
    rw [hparams]
    exact .nil
  obtain ⟨w, σ₁, hcall, b₁, hr₁, hp₁, -⟩ := createCall_gives h hg hargs
  obtain ⟨u, σ₂, hret, b₂, hl₂, hp₂, hterm⟩ := createDefaultRet_ends hr₁
  refine ⟨σ₂, ?_, b₂, hl₂, hp₁.trans hp₂, hterm⟩
  have hfind : σ.scope.find "neg_idx_except" = some (.function g) := hfind
  rw [createNegIdxExcept, bind_run (get_run σ), hfind]
  dsimp only
  rw [bind_run (discard_run hcall)]
  exact discard_run hret

/-- Uses the value that a visitor has left in `tmp_val`. -/
theorem withTmp {α : Type} {x : Builder Unit} {k : Value → Builder α}
    {R : α → BuilderState → Prop} (hx : Succeeds x σ fun _ σ' => GivesTmp Γ ret f σ ty σ')
    (hk : ∀ v σ', Gives Γ ret f σ ty v σ' → Succeeds (k v) σ' R) :
    Succeeds (do x; let v ← getTmpVal; k v) σ R := by
  apply hx.bind
  rintro _ σ' ⟨v, hv, hg⟩
  exact .step (getTmpVal_run hv) (hk v σ' hg)

theorem visitSubscript_succeeds (h : Ready Γ ret f b σ)
    (hv : HasType σ.module v (.pointer elementTy)) (hp : PointsTo (.array t) elementTy)
    (htmp : σ.tmpVal = some w) (hw : HasType σ.module w t'.ty) (ht' : t'.isNumeric) (lv : Bool) :
    Succeeds (visitSubscript v elementTy lv) σ fun _ σ' =>
      GivesTmp Γ ret f σ (if lv then .pointer t.ty else t.ty) σ' := by
  rw [visitSubscript]
  apply Succeeds.step (getTmpVal_run htmp)
  obtain ⟨σ₁, σ₂, hrun₁, hrun₂, hr₂, hp₂, he₂, hc₂⟩ := createBasicBlocks_ready h
  apply Succeeds.step hrun₁
  apply Succeeds.step hrun₂
  obtain ⟨idx, σ₃, hrun₃, b₃, hr₃, hp₃, hidx⟩ := toIndex_gives hr₂ (hw.widen hp₂.widens) ht'
  apply Succeeds.step hrun₃
  have ht₄ : TypedInstr σ₃.module ret.ty (.cmp .lt) .int1 [idx, .constInt 0] :=
    .cmp hidx (hasType_constInt 0)
  obtain ⟨neg, σ₄, hrun₄, b₄, hr₄, hp₄, hneg⟩ := create_gives hr₃ ht₄ rfl
  apply Succeeds.step hrun₄
  have he₄ := (he₂.after hp₃).after hp₄
  have hc₄ := (hc₂.after hp₃).after hp₄
  obtain ⟨br, σ₅, hrun₅, b₅, hl₅, hp₅, -⟩ :=
    createCondBr_ends hr₄ hneg he₄.vacant.block hc₄.vacant.block
  apply Succeeds.step (discard_run hrun₅)
  have hr₆ := hl₅.move (he₄.after hp₅).vacant
  have hp₆ := (((hp₂.trans hp₃).trans hp₄).trans hp₅).move he₂.new
  have hc₆ := (hc₄.after hp₅).move (Nat.lt_succ_self _).ne
  apply Succeeds.step (setInsertPoint_run _ σ₅)
  obtain ⟨σ₇, hrun₇, b₇, hl₇, hp₇, -⟩ := createNegIdxExcept_ends hr₆
  apply Succeeds.step hrun₇
  have hc₇ := hc₆.after hp₇
  have hr₈ := hl₇.move hc₇.vacant
  have hp₈ := (hp₆.trans hp₇).move hc₇.new
  have hidx' : HasType σ₇.module idx .int32 := hidx.widen ((hp₄.trans hp₅).widens.trans hp₇.widens)
  apply Succeeds.step (setInsertPoint_run _ σ₇)
  obtain ⟨ptr, σ₉, hrun₉, hg₉⟩ := createElementPtr_gives hr₈ (hv.widen hp₈.widens) hp hidx'
  apply Succeeds.step hrun₉
  cases lv with
  | true =>
    obtain ⟨σ', hrun, hg⟩ := setLvalue_run (hg₉.after hp₈)
    exact .of_run hrun hg
  | false =>
    obtain ⟨b₉, hr₉, hp₉, hptr⟩ := hg₉
    obtain ⟨r, σ', hrun, hg⟩ := createLoad_gives hr₉ hptr
    apply Succeeds.step hrun
    exact .of_run rfl (hg.after (hp₈.trans hp₉)).setTmpVal

theorem convertStored_gives (h : Ready Γ ret f b σ) (hv : HasType σ.module v t'.ty)
    (ht : t.isNumeric) (ht' : t'.isNumeric) :
    ∃ w σ', convertStored (some t.ty) v σ = some (w, σ') ∧ Gives Γ ret f σ t.ty w σ' := by
  rw [convertStored, bind_run (getType_run hv)]
  rcases CminusType.isNumeric_iff.mp ht with rfl | rfl <;>
    rcases CminusType.isNumeric_iff.mp ht' with rfl | rfl
  · exact ⟨v, σ, rfl, b, h, .refl σ, hv⟩
  · exact create_gives h (.fptosi hv) rfl
  · exact create_gives h (.sitofp hv) rfl
  · exact ⟨v, σ, rfl, b, h, .refl σ, hv⟩

theorem visitStore_gives (h : Ready Γ ret f b σ) (hv : HasType σ.module v t'.ty)
    (htmp : σ.tmpVal = some ptr) (hptr : HasType σ.module ptr (.pointer t.ty)) (ht : t.isNumeric)
    (ht' : t'.isNumeric) :
    ∃ σ', visitStore v σ = some ((), σ') ∧ GivesTmp Γ ret f σ t.ty σ' := by
  obtain ⟨w, σ₁, hrun₁, b₁, hr₁, hp₁, hw⟩ := convertStored_gives h hv ht ht'
  have ht₂ : TypedInstr σ₁.module ret.ty .store .void [w, ptr] :=
    .store hw (hptr.widen hp₁.widens)
  obtain ⟨s, σ₂, hrun₂, b₂, hr₂, hp₂, -⟩ := create_gives hr₁ ht₂ rfl
  have hrun₂ : createStore w ptr σ₁ = some (s, σ₂) := hrun₂
  have hg : Gives Γ ret f σ t.ty w σ₂ := ⟨b₂, hr₂, hp₁.trans hp₂, hw.widen hp₂.widens⟩
  refine ⟨_, ?_, hg.setTmpVal⟩
  rw [visitStore, bind_run (getTmpVal_run htmp), bind_run (getType_run hptr)]
  dsimp only [Ty.pointerElementType]
  rw [bind_run hrun₁, bind_run (discard_run hrun₂)]
  rfl

/-- The type of a parameter. -/
abbrev paramTy (param : CminusType × Bool) : Ty := paramType ⟨param.1, "", param.2⟩

theorem convertArg_gives {τ : ExprType} {param : CminusType × Bool} (h : Ready Γ ret f b σ)
    (hfits : argFits (some τ) param) (htmp : σ.tmpVal = some v) (hv : HasType σ.module v τ.ty) :
    ∃ w σ', convertArg (paramTy param) σ = some (w, σ') ∧ Gives Γ ret f σ (paramTy param) w σ' := by
  rw [convertArg, bind_run (getTmpVal_run htmp), bind_run (getType_run hv)]
  obtain ⟨t', isarray⟩ := param
  cases τ with
  | array t =>
    simp only [argFits, Bool.and_eq_true, decide_eq_true_eq] at hfits
    obtain ⟨⟨rfl, hn⟩, rfl⟩ := hfits
    have hty : paramTy (t, true) = .pointer t.ty := by
      cases t with
      | int => rfl
      | float => rfl
      | void => cases hn
    rw [hty]
    exact ⟨v, σ, rfl, b, h, .refl σ, hv⟩
  | value t =>
    simp only [argFits, Bool.and_eq_true, Bool.not_eq_true'] at hfits
    obtain ⟨rfl, hn⟩ := hfits
    cases t with
    | int =>
      cases t' with
      | int => exact ⟨v, σ, rfl, b, h, .refl σ, hv⟩
      | float => exact create_gives h (.sitofp hv) rfl
      | void => exact create_gives h (.sitofp hv) rfl
    | float =>
      cases t' with
      | int => exact create_gives h (.fptosi hv) rfl
      | float => exact ⟨v, σ, rfl, b, h, .refl σ, hv⟩
      | void => exact ⟨v, σ, rfl, b, h, .refl σ, hv⟩
    | void => cases hn

end

/-- What the visitor of an expression with this type does. -/
def Compiles (Γ : TypeEnv) (ret : CminusType) (f : Nat) (o : Option ExprType)
    (x : Builder Unit) : Prop :=
  ∀ τ, o = some τ → ∀ σ b, Ready Γ ret f b σ →
    Succeeds x σ fun _ σ' => GivesTmp Γ ret f σ τ.ty σ'

def CompilesVar (Γ : TypeEnv) (ret : CminusType) (f : Nat) (var : ASTVar) : Prop :=
  ∀ τ, var.typeIn Γ = some τ → ∀ σ b, Ready Γ ret f b σ → ∀ lv : Bool,
    (lv = true → ∃ t, τ = .value t) →
      Succeeds (visitVar var) { σ with requireLvalue := lv } fun _ σ' =>
        GivesTmp Γ ret f σ (if lv then .pointer τ.ty else τ.ty) σ'

def CompilesArgs (Γ : TypeEnv) (ret : CminusType) (f : Nat) (args : List ASTExpression) : Prop :=
  ∀ params, argsFit Γ args params → ∀ σ b, Ready Γ ret f b σ →
    Succeeds (visitArgs args (params.map paramTy)) σ fun vals σ' =>
      ∃ b', Ready Γ ret f b' σ' ∧ Passed σ σ' ∧
        List.Forall₂ (HasType σ'.module) vals (params.map paramTy)

section

variable {b f : Nat} {ty : Ty} {Γ : TypeEnv} {ret t t' : CminusType} {o o' : Option ExprType}
  {x y : Builder Unit} {σ σ' : BuilderState} {v : Value}

/-- The two operands of an operation, promoted. -/
theorem operands_succeeds (hx : Compiles Γ ret f o x) (hy : Compiles Γ ret f o' y)
    (ho : valueType o = some t) (ho' : valueType o' = some t') (h : Ready Γ ret f b σ)
    {rest : Bool × Value × Value → Builder Unit}
    (hrest : ∀ l r σ' b', Ready Γ ret f b' σ' → HasType σ'.module l (t.promote t').ty →
      HasType σ'.module r (t.promote t').ty →
      ∃ σ'', rest (decide (t.promote t' = .int), l, r) σ' = some ((), σ'') ∧
        GivesTmp Γ ret f σ' ty σ'') :
    Succeeds (do
      x
      let lVal ← getTmpVal
      y
      let rVal ← getTmpVal
      promote lVal rVal >>= rest) σ fun _ σ' => GivesTmp Γ ret f σ ty σ' := by
  obtain ⟨ho, ht⟩ := valueType_eq_some.mp ho
  obtain ⟨ho', ht'⟩ := valueType_eq_some.mp ho'
  apply withTmp (hx _ ho σ b h)
  rintro l σ₁ ⟨b₁, hr₁, hp₁, hl⟩
  apply withTmp (hy _ ho' σ₁ b₁ hr₁)
  rintro r σ₂ ⟨b₂, hr₂, hp₂, hr⟩
  have hl' := hl.widen hp₂.widens
  obtain ⟨l', r', σ₃, hrun₃, ⟨b₃, hr₃, hp₃, hl'⟩, hr'⟩ := promote_gives hr₂ hl' hr ht ht'
  obtain ⟨σ₄, hrun₄, hg₄⟩ := hrest l' r' σ₃ b₃ hr₃ hl' hr'
  apply Succeeds.step hrun₃
  exact .of_run hrun₄ (hg₄.after ((hp₁.trans hp₂).trans hp₃))

theorem compiles_of_run {x : Builder Unit} {ty : Ty} (h : Ready Γ ret f b σ)
    (hv : HasType σ.module v ty) (hx : x σ = setTmpVal v σ) :
    Succeeds x σ fun _ σ' => GivesTmp Γ ret f σ ty σ' := by
  have hg : Gives Γ ret f σ ty v σ := ⟨b, h, .refl σ, hv⟩
  exact .of_run hx hg.setTmpVal

end

mutual

theorem visitExpression_compiles : ∀ e : ASTExpression,
    Compiles Γ ret f (e.typeIn Γ) (visitExpression e)
  | .assign var expression => by
    intro τ hτ σ b h
    rw [ASTExpression.typeIn] at hτ
    rw [visitExpression]
    split at hτ
    · rename_i t t' ht ht'
      cases hτ
      obtain ⟨hvar, ht⟩ := valueType_eq_some.mp ht
      obtain ⟨hexp, ht'⟩ := valueType_eq_some.mp ht'
      apply withTmp (visitExpression_compiles expression _ hexp σ b h)
      rintro v σ₁ ⟨b₁, hr₁, hp₁, hv⟩
      apply Succeeds.step (setRequireLvalue_run true σ₁)
      apply (visitVar_compiles var _ hvar σ₁ b₁ hr₁ true fun _ => ⟨t, rfl⟩).bind
      rintro _ σ₂ ⟨ptr, htmp, b₂, hr₂, hp₂, hptr⟩
      obtain ⟨σ₃, hrun₃, hg₃⟩ := visitStore_gives hr₂ (hv.widen hp₂.widens) htmp hptr ht ht'
      exact .of_run hrun₃ (hg₃.after (hp₁.trans hp₂))
    · cases hτ
  | .simple l => by
    intro τ hτ σ b h
    rw [visitExpression]
    exact visitAdditiveExpression_compiles l τ hτ σ b h
  | .relation l op r => by
    intro τ hτ σ b h
    rw [ASTExpression.typeIn] at hτ
    rw [visitExpression]
    split at hτ
    · rename_i t t' ht ht'
      cases hτ
      apply operands_succeeds (visitAdditiveExpression_compiles l)
        (visitAdditiveExpression_compiles r) ht ht' h
      intro lVal rVal σ₁ b₁ hr₁ hl hr
      obtain ⟨c, σ₂, hrun₂, b₂, hr₂, hp₂, hc⟩ :=
        createRelation_gives hr₁ hl hr (CminusType.promote_isNumeric t t') op
      obtain ⟨z, σ₃, hrun₃, hg₃⟩ := create_gives hr₂ (.zext hc) rfl
      refine ⟨_, ?_, (hg₃.after hp₂).setTmpVal⟩
      dsimp only
      have hrun₃ : createZext c .int32 σ₂ = some (z, σ₃) := hrun₃
      rw [bind_run hrun₂, bind_run hrun₃]
      rfl
    · cases hτ

theorem visitAdditiveExpression_compiles : ∀ e : ASTAdditiveExpression,
    Compiles Γ ret f (e.typeIn Γ) (visitAdditiveExpression e)
  | .ofTerm term => by
    intro τ hτ σ b h
    rw [visitAdditiveExpression]
    exact visitTerm_compiles term τ hτ σ b h
  | .additive l op r => by
    intro τ hτ σ b h
    rw [ASTAdditiveExpression.typeIn] at hτ
    rw [visitAdditiveExpression]
    split at hτ
    · rename_i t t' ht ht'
      cases hτ
      apply operands_succeeds (visitAdditiveExpression_compiles l) (visitTerm_compiles r) ht ht' h
      intro lVal rVal σ₁ b₁ hr₁ hl hr
      obtain ⟨c, σ₂, hrun₂, hg₂⟩ :=
        createAdditive_gives hr₁ hl hr (CminusType.promote_isNumeric t t') op
      refine ⟨_, ?_, hg₂.setTmpVal⟩
      dsimp only
      rw [bind_run hrun₂]
      rfl
    · cases hτ

theorem visitTerm_compiles : ∀ e : ASTTerm,
    Compiles Γ ret f (e.typeIn Γ) (visitTerm e)
  | .ofFactor factor => by
    intro τ hτ σ b h
    rw [visitTerm]
    exact visitFactor_compiles factor τ hτ σ b h
  | .multiplicative l op r => by
    intro τ hτ σ b h
    rw [ASTTerm.typeIn] at hτ
    rw [visitTerm]
    split at hτ
    · rename_i t t' ht ht'
      cases hτ
      apply operands_succeeds (visitTerm_compiles l) (visitFactor_compiles r) ht ht' h
      intro lVal rVal σ₁ b₁ hr₁ hl hr
      obtain ⟨c, σ₂, hrun₂, hg₂⟩ :=
        createMultiplicative_gives hr₁ hl hr (CminusType.promote_isNumeric t t') op
      refine ⟨_, ?_, hg₂.setTmpVal⟩
      dsimp only
      rw [bind_run hrun₂]
      rfl
    · cases hτ

theorem visitFactor_compiles : ∀ e : ASTFactor,
    Compiles Γ ret f (e.typeIn Γ) (visitFactor e)
  | .num (.int iVal) => by
    intro τ hτ σ b h
    cases hτ
    exact compiles_of_run h (hasType_constInt iVal) (by rw [visitFactor])
  | .num (.float fVal) => by
    intro τ hτ σ b h
    cases hτ
    exact compiles_of_run h (hasType_constFP fVal) (by rw [visitFactor])
  | .var var => by
    intro τ hτ σ b h
    rw [visitFactor]
    have hσ : { σ with requireLvalue := false } = σ := by rw [← h.requireLvalue]
    have hout := visitVar_compiles var τ hτ σ b h false (by simp)
    rw [hσ] at hout
    exact hout
  | .call id args => by
    intro τ hτ σ b h
    rw [ASTFactor.typeIn] at hτ
    split at hτ
    · rename_i t params hid
      split at hτ
      · rename_i hfit
        cases hτ
        rcases h.scope.find id with ⟨hnone, -⟩ | ⟨d, v, hd, hfind, hden⟩
        · rw [hid] at hnone
          cases hnone
        rw [hid] at hd
        cases hd
        obtain ⟨g, rfl, hg, hret, hparams⟩ := hden
        have hfind : σ.scope.find id = some (.function g) := hfind
        rw [visitFactor]
        apply Succeeds.step (get_run σ)
        rw [hfind]
        apply Succeeds.step (getModule_run σ)
        rw [hparams]
        apply (visitArgs_compiles args params hfit σ b h).bind
        rintro vals σ₁ ⟨b₁, hr₁, hp₁, hvals⟩
        have hvals : List.Forall₂ (HasType σ₁.module) vals (σ₁.module.functions g).paramTypes := by
          rw [hp₁.widens.paramTypes g hg, hparams]
          exact hvals
        obtain ⟨z, σ₂, hrun₂, hg₂⟩ :=
          createCall_gives hr₁ (hg.trans_le hp₁.widens.numFunctions) hvals
        rw [hp₁.widens.returnType g hg, hret] at hg₂
        apply Succeeds.step hrun₂
        exact .of_run rfl (hg₂.after hp₁).setTmpVal
      · cases hτ
    · cases hτ
  | .expression expression => by
    intro τ hτ σ b h
    rw [visitFactor]
    exact visitExpression_compiles expression τ hτ σ b h

theorem visitVar_compiles : ∀ var : ASTVar, CompilesVar Γ ret f var
  | .scalar id => by
    intro τ hτ σ b h lv hlv
    rw [visitVar]
    have hd : ∃ d, Γ.find id = some d ∧ (∀ t params, d ≠ .function t params) ∧
        ∀ elementTy, PointsTo d elementTy →
          accessed lv elementTy d = if lv then .pointer τ.ty else τ.ty := by
      rw [ASTVar.typeIn] at hτ
      split at hτ
      · rename_i t hid
        cases hτ
        exact ⟨_, hid, by simp, fun _ _ => rfl⟩
      · rename_i t hid
        cases hτ
        refine ⟨_, hid, by simp, fun elementTy _ => ?_⟩
        cases lv with
        | false => rfl
        | true =>
          obtain ⟨t', ht'⟩ := hlv rfl
          cases ht'
      · cases hτ
    obtain ⟨d, hid, hne, hacc⟩ := hd
    obtain ⟨var, elementTy, hrun, hv, hp⟩ := enterVar_run h hid hne lv
    obtain ⟨σ', hrun', hg⟩ := visitScalar_gives h hv hp lv
    rw [hacc elementTy hp] at hg
    apply Succeeds.step hrun
    exact Succeeds.of_run hrun' hg
  | .subscript id expression => by
    intro τ hτ σ b h lv _
    rw [visitVar]
    rw [ASTVar.typeIn] at hτ
    split at hτ
    · rename_i t t' hid ht'
      cases hτ
      obtain ⟨hexp, ht'⟩ := valueType_eq_some.mp ht'
      obtain ⟨var, elementTy, hrun, hv, hp⟩ := enterVar_run h hid (by simp) lv
      apply Succeeds.step hrun
      apply (visitExpression_compiles expression _ hexp σ b h).bind
      rintro _ σ₁ ⟨w, htmp, b₁, hr₁, hp₁, hw⟩
      apply (visitSubscript_succeeds hr₁ (hv.widen hp₁.widens) hp htmp hw ht' lv).mono
      exact fun _ _ hg => hg.after hp₁
    · cases hτ

theorem visitArgs_compiles : ∀ args : List ASTExpression, CompilesArgs Γ ret f args
  | [] => by
    intro params hfit σ b h
    cases params with
    | nil =>
      exact .of_run rfl ⟨b, h, .refl σ, .nil⟩
    | cons param params => simp [argsFit] at hfit
  | arg :: args => by
    intro params hfit σ b h
    cases params with
    | nil => simp [argsFit] at hfit
    | cons param params =>
      rw [argsFit, Bool.and_eq_true] at hfit
      obtain ⟨harg, hfit⟩ := hfit
      obtain ⟨τ, hτ⟩ : ∃ τ, arg.typeIn Γ = some τ := by
        cases ha : arg.typeIn Γ with
        | some τ => exact ⟨τ, rfl⟩
        | none =>
          rw [ha] at harg
          cases harg
      rw [hτ] at harg
      rw [List.map_cons, visitArgs]
      apply (visitExpression_compiles arg τ hτ σ b h).bind
      rintro _ σ₁ ⟨v, htmp, b₁, hr₁, hp₁, hv⟩
      obtain ⟨w, σ₂, hrun₂, b₂, hr₂, hp₂, hw⟩ := convertArg_gives hr₁ harg htmp hv
      apply Succeeds.step hrun₂
      apply Succeeds.step (setTmpVal_run w σ₂)
      apply (visitArgs_compiles args params hfit _ b₂ (hr₂.setTmpVal w)).bind
      rintro vals σ₃ ⟨b₃, hr₃, hp₃, hvals⟩
      have hp : Passed σ₂ σ₃ := (Passed.refl σ₂).setTmpVal w |>.trans hp₃
      exact .of_run rfl ⟨b₃, hr₃, (hp₁.trans hp₂).trans hp, .cons (hw.widen hp.widens) hvals⟩

end

end CminusfBuilder

end Cminusf
