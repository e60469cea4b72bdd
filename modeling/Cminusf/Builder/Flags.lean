import Cminusf.Builder.Continues
import Cminusf.Builder.Stored

/-! `require_lvalue` is set for one variable only, which clears it again. -/

namespace Cminusf

namespace CminusfBuilder

open Builder

/-- The flag is kept or cleared. -/
def Clears {α : Type} (x : Builder α) : Prop :=
  ∀ σ r, x σ = some r → r.2.requireLvalue = σ.requireLvalue ∨ r.2.requireLvalue = false

variable {α β : Type} {opId : OpID} {ty : Ty} {ops : List Value}

theorem Clears.bind {x : Builder α} {f : α → Builder β} (hx : Clears x)
    (hf : ∀ a, Clears (f a)) : Clears (x >>= f) := by
  intro σ r h
  obtain ⟨a, σ₁, h₁, h₂⟩ := bind_some h
  rcases hf a σ₁ r h₂ with he | he
  · rw [he]
    exact hx σ _ h₁
  · exact .inr he

theorem Clears.keeps {x : Builder α}
    (h : ∀ σ r, x σ = some r → r.2.requireLvalue = σ.requireLvalue) : Clears x :=
  fun σ r hr => .inl (h σ r hr)

theorem clears_pure (a : α) : Clears (pure a : Builder α) := .keeps fun σ r h => by
  cases h
  rfl

theorem clears_failure : Clears (failure : Builder α) := .keeps fun σ r h => by cases h

theorem clears_get : Clears (get : Builder BuilderState) := .keeps fun σ r h => by
  cases h
  rfl

theorem clears_getModule : Clears getModule := .keeps fun σ r h => by
  cases h
  rfl

theorem clears_getType (v : Value) : Clears (getType v) := .keeps fun σ r h => by
  cases h
  rfl

theorem clears_getTmpVal : Clears getTmpVal := .keeps fun σ r h => by
  rw [getTmpVal_read r h]

theorem clears_setTmpVal (v : Value) : Clears (setTmpVal v) := .keeps fun σ r h => by
  cases h
  rfl

theorem clears_setInsertPoint (b : Nat) : Clears (setInsertPoint b) := .keeps fun σ r h => by
  cases h
  rfl

theorem clears_modifyScope (f : Scope → Scope) : Clears (modifyScope f) := .keeps fun σ r h => by
  cases h
  rfl

theorem clears_create : Clears (create opId ty ops) := .keeps fun σ r h => by
  obtain ⟨b, -, -, hr, -⟩ := create_appended h
  rw [hr]

theorem clears_createBr (t : Nat) : Clears (createBr t) := .keeps fun σ r h => by
  obtain ⟨b, -, hr, -⟩ := createBr_appended h
  rw [hr]

theorem clears_createCondBr (c : Value) (t e : Nat) : Clears (createCondBr c t e) :=
  .keeps fun σ r h => by
    obtain ⟨b, -, hr, -⟩ := createCondBr_appended h
    rw [hr]

theorem clears_createBasicBlock (name : String) : Clears (createBasicBlock name) :=
  .keeps fun σ r h => by
    obtain ⟨f, -, rfl⟩ := createBasicBlock_appended h
    rfl

theorem clears_createCall (func : Value) (args : List Value) : Clears (createCall func args) :=
  .keeps fun σ r h => by
    obtain ⟨f, b, -, -, -, -, hr, -⟩ := createCall_appended h
    rw [hr]

theorem clears_createNegIdxExcept : Clears createNegIdxExcept := .keeps fun σ r h => by
  obtain ⟨f, b, ty, m, -, -, -, -, hr⟩ := createNegIdxExcept_appended h
  rw [hr]

theorem clears_discard {x : Builder α} (hx : Clears x) : Clears (discard x) :=
  hx.bind fun _ => clears_pure _

/-! ### Expressions -/

theorem clears_promote (l r : Value) : Clears (promote l r) := by
  refine (clears_getType l).bind fun lTy => (clears_getType r).bind fun rTy => ?_
  split
  · exact clears_pure _
  · split
    · exact clears_create.bind fun _ => clears_pure _
    · exact clears_create.bind fun _ => clears_pure _

theorem clears_createRelation (op : RelOp) (isInt : Bool) (l r : Value) :
    Clears (createRelation op isInt l r) := by
  cases isInt <;> exact clears_create

theorem clears_createAdditive (op : AddOp) (isInt : Bool) (l r : Value) :
    Clears (createAdditive op isInt l r) := by
  cases op <;> cases isInt <;> exact clears_create

theorem clears_createMultiplicative (op : MulOp) (isInt : Bool) (l r : Value) :
    Clears (createMultiplicative op isInt l r) := by
  cases op <;> cases isInt <;> exact clears_create

theorem clears_createLoad (ptr : Value) : Clears (createLoad ptr) := by
  refine (clears_getType ptr).bind fun ty => ?_
  split
  · exact clears_create
  · exact clears_failure

theorem clears_createGep (ptr : Value) (idxs : List Value) : Clears (createGep ptr idxs) := by
  refine (clears_getType ptr).bind fun ty => ?_
  split
  · exact clears_create
  · exact clears_failure

theorem clears_toIndex (v : Value) : Clears (toIndex v) := by
  refine (clears_getType v).bind fun ty => ?_
  split
  · exact clears_create
  · exact clears_pure _

theorem clears_createElementPtr (var : Value) (ty : Ty) (v : Value) :
    Clears (createElementPtr var ty v) := by
  unfold createElementPtr
  split
  · exact clears_createGep _ _
  · split
    · exact (clears_createLoad _).bind fun _ => clears_createGep _ _
    · exact clears_createGep _ _

theorem clears_convertStored (ty : Option Ty) (v : Value) : Clears (convertStored ty v) := by
  refine (clears_getType v).bind fun exprTy => ?_
  split
  · split
    · exact clears_create
    · exact clears_create
  · exact clears_pure _

theorem clears_visitStore (v : Value) : Clears (visitStore v) :=
  clears_getTmpVal.bind fun addr => (clears_getType addr).bind fun _ =>
    (clears_convertStored _ _).bind fun _ => (clears_discard clears_create).bind fun _ =>
    clears_setTmpVal _

theorem clears_convertArg (ty : Ty) : Clears (convertArg ty) := by
  refine clears_getTmpVal.bind fun v => (clears_getType v).bind fun vTy => ?_
  split
  · split
    · exact clears_create
    · exact clears_create
  · exact clears_pure _

/-- A variable clears the flag. -/
def Resets (x : Builder α) : Prop := ∀ σ r, x σ = some r → r.2.requireLvalue = false

theorem Resets.bind {x : Builder α} {f : α → Builder β} (hx : Resets x)
    (hf : ∀ a, Clears (f a)) : Resets (x >>= f) := by
  intro σ r h
  obtain ⟨a, σ₁, h₁, h₂⟩ := bind_some h
  rcases hf a σ₁ r h₂ with he | he
  · rw [he]
    exact hx σ _ h₁
  · exact he

theorem Resets.clears {x : Builder α} (hx : Resets x) : Clears x := fun σ r h => .inr (hx σ r h)

theorem resets_enterVar (id : String) : Resets (enterVar id) := by
  intro σ r h
  rw [(enterVar_flag h).2]

theorem clears_lvalue (v : Value) :
    Clears (setTmpVal v >>= fun _ => setRequireLvalue false) := fun σ r h => by
  cases h
  exact .inr rfl

theorem clears_visitScalar (var : Value) (ty : Ty) (lval : Bool) :
    Clears (visitScalar var ty lval) := by
  unfold visitScalar
  split
  · exact clears_lvalue var
  · split
    · exact (clears_createLoad _).bind fun _ => clears_setTmpVal _
    · exact (clears_createGep _ _).bind fun _ => clears_setTmpVal _

theorem clears_visitSubscript (var : Value) (ty : Ty) (lval : Bool) :
    Clears (visitSubscript var ty lval) := by
  refine clears_getTmpVal.bind fun v => (clears_createBasicBlock _).bind fun b =>
    (clears_createBasicBlock _).bind fun c => (clears_toIndex v).bind fun v => clears_create.bind
    fun isNeg => (clears_discard (clears_createCondBr _ _ _)).bind fun _ =>
    (clears_setInsertPoint b).bind fun _ => clears_createNegIdxExcept.bind fun _ =>
    (clears_setInsertPoint c).bind fun _ => (clears_createElementPtr _ _ _).bind fun ptr => ?_
  split
  · exact clears_lvalue ptr
  · exact (clears_createLoad _).bind fun _ => clears_setTmpVal _

mutual

theorem clears_visitExpression : ∀ e : ASTExpression, Clears (visitExpression e)
  | .assign var e => by
    rw [visitExpression]
    intro σ r h
    obtain ⟨_, σ₁, h₁, h⟩ := bind_some h
    obtain ⟨v, σ₂, h₂, h⟩ := bind_some h
    obtain ⟨_, σ₃, h₃, h⟩ := bind_some h
    exact .inr (((resets_visitVar var).bind fun _ => clears_visitStore v) σ₃ r h)
  | .simple l => by
    rw [visitExpression]
    exact clears_visitAdditiveExpression l
  | .relation l op r => by
    rw [visitExpression]
    exact (clears_visitAdditiveExpression l).bind fun _ => clears_getTmpVal.bind fun _ =>
      (clears_visitAdditiveExpression r).bind fun _ => clears_getTmpVal.bind fun _ =>
      (clears_promote _ _).bind fun _ => (clears_createRelation _ _ _ _).bind fun _ =>
      clears_create.bind fun _ => clears_setTmpVal _

theorem clears_visitAdditiveExpression :
    ∀ e : ASTAdditiveExpression, Clears (visitAdditiveExpression e)
  | .ofTerm t => by
    rw [visitAdditiveExpression]
    exact clears_visitTerm t
  | .additive l op r => by
    rw [visitAdditiveExpression]
    exact (clears_visitAdditiveExpression l).bind fun _ => clears_getTmpVal.bind fun _ =>
      (clears_visitTerm r).bind fun _ => clears_getTmpVal.bind fun _ =>
      (clears_promote _ _).bind fun _ => (clears_createAdditive _ _ _ _).bind fun _ =>
      clears_setTmpVal _

theorem clears_visitTerm : ∀ e : ASTTerm, Clears (visitTerm e)
  | .ofFactor f => by
    rw [visitTerm]
    exact clears_visitFactor f
  | .multiplicative l op r => by
    rw [visitTerm]
    exact (clears_visitTerm l).bind fun _ => clears_getTmpVal.bind fun _ =>
      (clears_visitFactor r).bind fun _ => clears_getTmpVal.bind fun _ =>
      (clears_promote _ _).bind fun _ => (clears_createMultiplicative _ _ _ _).bind fun _ =>
      clears_setTmpVal _

theorem clears_visitFactor : ∀ e : ASTFactor, Clears (visitFactor e)
  | .num (.int n) => by
    rw [visitFactor]
    exact clears_setTmpVal _
  | .num (.float x) => by
    rw [visitFactor]
    exact clears_setTmpVal _
  | .var var => by
    rw [visitFactor]
    exact (resets_visitVar var).clears
  | .call id args => by
    rw [visitFactor]
    refine clears_get.bind fun σ₀ => ?_
    split
    · exact clears_getModule.bind fun m => (clears_visitArgs args _).bind fun _ =>
        (clears_createCall _ _).bind fun _ => clears_setTmpVal _
    · exact clears_failure
  | .expression e => by
    rw [visitFactor]
    exact clears_visitExpression e

theorem resets_visitVar : ∀ var : ASTVar, Resets (visitVar var)
  | .scalar id => by
    rw [visitVar]
    exact (resets_enterVar id).bind fun _ => clears_visitScalar _ _ _
  | .subscript id e => by
    rw [visitVar]
    exact (resets_enterVar id).bind fun _ => (clears_visitExpression e).bind fun _ =>
      clears_visitSubscript _ _ _

theorem clears_visitArgs :
    ∀ (args : List ASTExpression) (tys : List Ty), Clears (visitArgs args tys)
  | [], _ => by
    rw [visitArgs]
    exact clears_pure _
  | _ :: _, [] => by
    rw [visitArgs]
    exact clears_failure
  | arg :: args, ty :: tys => by
    rw [visitArgs]
    exact (clears_visitExpression arg).bind fun _ => (clears_convertArg ty).bind fun _ =>
      (clears_setTmpVal _).bind fun _ => (clears_visitArgs args tys).bind fun _ => clears_pure _

end

/-! ### Statements -/

theorem clears_parts : Parts (fun _ => True) Clears where
  bind := Clears.bind
  reads h := .keeps fun σ r hr => by rw [h σ r hr]
  setTmpVal := clears_setTmpVal
  create _ := clears_create
  createBr := clears_createBr
  createCondBr := clears_createCondBr
  block hf := (clears_createBasicBlock _).bind fun b => hf b trivial
  setInsertPoint b _ := clears_setInsertPoint b

theorem clears_visitVarDeclaration (decl : ASTVarDeclaration) :
    Clears (visitVarDeclaration decl) := by
  refine clears_get.bind fun σ₀ => ?_
  split
  · refine clears_getModule.bind fun m => Clears.bind (.keeps fun σ r h => ?_) fun _ =>
      clears_modifyScope _
    cases h
    rfl
  · exact clears_create.bind fun _ => clears_modifyScope _

theorem clears_statements : StatementRules (fun _ => True) Clears where
  toParts := clears_parts
  expression := clears_visitExpression
  compound decls _ hstmts := by
    refine clears_parts.compound clears_visitVarDeclaration clears_modifyScope
      (fun b => .keeps fun σ r h => ?_) decls hstmts
    cases h
    rfl

end CminusfBuilder

end Cminusf
