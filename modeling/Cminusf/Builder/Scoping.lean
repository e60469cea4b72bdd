import Cminusf.Builder.Order

/-! Static scoping. What the builder visits is paired with the declarations that are in force at
its place in the text; they are passed down the syntax and never come out of a construct. -/

namespace Cminusf

/-- The scopes at a place in the text, from the innermost one outwards. -/
abbrev Env := List (List (String × Value))

namespace Env

/-- A declaration in the innermost scope. -/
def bind : Env → String → Value → Env
  | [], _, _ => []
  | top :: outer, id, val => ((id, val) :: top) :: outer

/-- The innermost declaration of a name. -/
def find (Γ : Env) (id : String) : Option Value := Γ.findSome? (·.lookup id)

def topNames (Γ : Env) : List String := (Γ.headD []).map Prod.fst

end Env

def ASTVar.id : ASTVar → String
  | .scalar id | .subscript id _ => id

def ASTDeclaration.id : ASTDeclaration → String
  | .var d => d.id
  | .fun f => f.id

mutual

/-- No compound statement declares a name twice. -/
def ASTStatement.distinctNames : ASTStatement → Bool
  | .compound ls ss => decide (ls.map (·.id)).Nodup && distinctNamesList ss
  | .selection _ s | .iteration _ s => s.distinctNames
  | .selectionElse _ s₁ s₂ => s₁.distinctNames && s₂.distinctNames
  | .expressionStmt _ | .return _ => true

def ASTStatement.distinctNamesList : List ASTStatement → Bool
  | [] => true
  | s :: ss => s.distinctNames && distinctNamesList ss

end

/-- The parameters of a function are in one scope with its outermost declarations. -/
def ASTDeclaration.distinctNames : ASTDeclaration → Bool
  | .var _ => true
  | .fun f => decide (f.params.map (·.id) ++ f.localDeclarations.map (·.id)).Nodup &&
      ASTStatement.distinctNamesList f.statementList

/-- The names of the predefined functions, which are declared in the global scope. -/
def libraryNames : List String := ["neg_idx_except", "outputFloat", "output", "input"]

/-- No scope has two declarations of one name. -/
def ASTProgram.distinctNames (program : ASTProgram) : Bool :=
  decide (libraryNames ++ program.declarations.map (·.id)).Nodup &&
    program.declarations.all ASTDeclaration.distinctNames

namespace CminusfBuilder

open Builder

/-- From the value of a condition to the block that is executed if it holds. -/
def openThen : Builder Nat := do
  let retVal ← getTmpVal
  let trueBB ← createBasicBlock ""
  let contBB ← createBasicBlock ""
  let condVal ← createCondition retVal
  discard <| createCondBr condVal trueBB contBB
  setInsertPoint trueBB
  return contBB

def openElse : Builder (Nat × Nat) := do
  let retVal ← getTmpVal
  let trueBB ← createBasicBlock ""
  let contBB ← createBasicBlock ""
  let condVal ← createCondition retVal
  let falseBB ← createBasicBlock ""
  discard <| createCondBr condVal trueBB falseBB
  setInsertPoint trueBB
  return (falseBB, contBB)

def openLoop : Builder Nat := do
  let exprBB ← createBasicBlock ""
  createBrIfOpen exprBB
  setInsertPoint exprBB
  return exprBB

/-- One round of the parameter loop. -/
def visitParam (f : Nat) (param : ASTParam) (argNo : Nat) : Builder Unit := do
  let alloc ← createAlloca (paramType param)
  discard <| createStore (.argument f argNo) alloc
  modifyScope (·.push param.id alloc)

theorem visitStatement_selection (e : ASTExpression) (s : ASTStatement) :
    visitStatement (.selection e s) = (do
      visitExpression e
      let contBB ← openThen
      visitStatement s
      createBrIfOpen contBB
      setInsertPoint contBB) := by
  rw [visitStatement]
  simp only [openThen, bind_assoc, pure_bind]

theorem visitStatement_selectionElse (e : ASTExpression) (s₁ s₂ : ASTStatement) :
    visitStatement (.selectionElse e s₁ s₂) = (do
      visitExpression e
      let bbs ← openElse
      visitStatement s₁
      createBrIfOpen bbs.2
      setInsertPoint bbs.1
      visitStatement s₂
      createBrIfOpen bbs.2
      setInsertPoint bbs.2) := by
  rw [visitStatement]
  simp only [openElse, bind_assoc, pure_bind]

theorem visitStatement_iteration (e : ASTExpression) (s : ASTStatement) :
    visitStatement (.iteration e s) = (do
      let exprBB ← openLoop
      visitExpression e
      let contBB ← openThen
      visitStatement s
      createBrIfOpen exprBB
      setInsertPoint contBB) := by
  rw [visitStatement]
  simp only [openLoop, openThen, bind_assoc, pure_bind]

theorem visitParams_cons (f : Nat) (param : ASTParam) (params : List ASTParam) (argNo : Nat) :
    visitParams f (param :: params) argNo = (do
      visitParam f param argNo
      visitParams f params (argNo + 1)) := by
  rw [visitParams]
  simp only [visitParam, bind_assoc]

/-- What the builder visits. The outermost compound statement of a function is its body. -/
inductive Node where
  | declarations (ds : List ASTDeclaration)
  | params (f : Nat) (params : List ASTParam) (argNo : Nat) (node : ASTFunDeclaration)
  | body (ls : List ASTVarDeclaration) (ss : List ASTStatement)
  | locals (ls : List ASTVarDeclaration) (ss : List ASTStatement)
  | statements (ss : List ASTStatement)
  | statement (s : ASTStatement)
  | expression (e : ASTExpression)
  | additive (e : ASTAdditiveExpression)
  | term (t : ASTTerm)
  | factor (f : ASTFactor)
  | var (v : ASTVar)
  | args (as : List ASTExpression) (tys : List Ty)

/-- A node is visited in a state, at a place with the declarations `Γ`. -/
inductive Visited (program : ASTProgram) : Env → Node → BuilderState → Prop where
  | program : Visited program initial.scope.inner (.declarations program.declarations) initial
  | afterVar {Γ d ds σ σ'} : Visited program Γ (.declarations (.var d :: ds)) σ →
      visitVarDeclaration d σ = some ((), σ') →
      Visited program (Γ.bind d.id (.globalVariable σ.module.numGlobals)) (.declarations ds) σ'
  | afterFun {Γ f ds σ σ'} : Visited program Γ (.declarations (.fun f :: ds)) σ →
      visitFunDeclaration f σ = some ((), σ') →
      Visited program (Γ.bind f.id (.function σ.module.numFunctions)) (.declarations ds) σ'
  | enterFun {Γ f ds σ k σ'} : Visited program Γ (.declarations (.fun f :: ds)) σ →
      enterFunction f σ = some (k, σ') →
      Visited program ([] :: Γ.bind f.id (.function σ.module.numFunctions))
        (.params k f.params 0 f) σ'
  | param {Γ k p ps argNo f σ σ'} : Visited program Γ (.params k (p :: ps) argNo f) σ →
      visitParam k p argNo σ = some ((), σ') →
      Visited program (Γ.bind p.id (.instruction σ.module.numInstrs))
        (.params k ps (argNo + 1) f) σ'
  | body {Γ k argNo f σ} : Visited program Γ (.params k [] argNo f) σ →
      Visited program Γ (.body f.localDeclarations f.statementList) σ
  | enterBody {Γ ls ss σ need σ'} : Visited program Γ (.body ls ss) σ →
      enterCompound σ = some (need, σ') → Visited program Γ (.locals ls ss) σ'
  | enterCompound {Γ ls ss σ need σ'} : Visited program Γ (.statement (.compound ls ss)) σ →
      enterCompound σ = some (need, σ') → Visited program ([] :: Γ) (.locals ls ss) σ'
  | afterLocal {Γ d ls ss σ σ'} : Visited program Γ (.locals (d :: ls) ss) σ →
      visitVarDeclaration d σ = some ((), σ') →
      Visited program (Γ.bind d.id (.instruction σ.module.numInstrs)) (.locals ls ss) σ'
  | statements {Γ ss σ} : Visited program Γ (.locals [] ss) σ → Visited program Γ (.statements ss) σ
  | head {Γ s ss σ} : Visited program Γ (.statements (s :: ss)) σ →
      Visited program Γ (.statement s) σ
  | tail {Γ s ss σ σ' σ''} : Visited program Γ (.statements (s :: ss)) σ →
      visitStatement s σ = some ((), σ') → terminated σ' = some (false, σ'') →
      Visited program Γ (.statements ss) σ''
  | expressionStmt {Γ e σ} : Visited program Γ (.statement (.expressionStmt (some e))) σ →
      Visited program Γ (.expression e) σ
  | ifCondition {Γ e s σ} : Visited program Γ (.statement (.selection e s)) σ →
      Visited program Γ (.expression e) σ
  | ifThen {Γ e s σ k σ'} : Visited program Γ (.statement (.selection e s)) σ →
      (do visitExpression e; openThen) σ = some (k, σ') → Visited program Γ (.statement s) σ'
  | elseCondition {Γ e s₁ s₂ σ} : Visited program Γ (.statement (.selectionElse e s₁ s₂)) σ →
      Visited program Γ (.expression e) σ
  | elseThen {Γ e s₁ s₂ σ k σ'} : Visited program Γ (.statement (.selectionElse e s₁ s₂)) σ →
      (do visitExpression e; openElse) σ = some (k, σ') → Visited program Γ (.statement s₁) σ'
  | elseElse {Γ e s₁ s₂ σ σ'} : Visited program Γ (.statement (.selectionElse e s₁ s₂)) σ →
      (do
        visitExpression e
        let bbs ← openElse
        visitStatement s₁
        createBrIfOpen bbs.2
        setInsertPoint bbs.1) σ = some ((), σ') → Visited program Γ (.statement s₂) σ'
  | whileCondition {Γ e s σ k σ'} : Visited program Γ (.statement (.iteration e s)) σ →
      openLoop σ = some (k, σ') → Visited program Γ (.expression e) σ'
  | whileBody {Γ e s σ k σ'} : Visited program Γ (.statement (.iteration e s)) σ →
      (do discard openLoop; visitExpression e; openThen) σ = some (k, σ') →
      Visited program Γ (.statement s) σ'
  | returned {Γ e σ} : Visited program Γ (.statement (.return (some e))) σ →
      Visited program Γ (.expression e) σ
  | assigned {Γ v e σ} : Visited program Γ (.expression (.assign v e)) σ →
      Visited program Γ (.expression e) σ
  | assignedVar {Γ v e σ σ'} : Visited program Γ (.expression (.assign v e)) σ →
      visitExpression e σ = some ((), σ') →
      Visited program Γ (.var v) { σ' with requireLvalue := true }
  | simple {Γ l σ} : Visited program Γ (.expression (.simple l)) σ →
      Visited program Γ (.additive l) σ
  | relationLeft {Γ l op r σ} : Visited program Γ (.expression (.relation l op r)) σ →
      Visited program Γ (.additive l) σ
  | relationRight {Γ l op r σ σ'} : Visited program Γ (.expression (.relation l op r)) σ →
      visitAdditiveExpression l σ = some ((), σ') → Visited program Γ (.additive r) σ'
  | ofTerm {Γ t σ} : Visited program Γ (.additive (.ofTerm t)) σ → Visited program Γ (.term t) σ
  | additiveLeft {Γ l op r σ} : Visited program Γ (.additive (.additive l op r)) σ →
      Visited program Γ (.additive l) σ
  | additiveRight {Γ l op r σ σ'} : Visited program Γ (.additive (.additive l op r)) σ →
      visitAdditiveExpression l σ = some ((), σ') → Visited program Γ (.term r) σ'
  | ofFactor {Γ f σ} : Visited program Γ (.term (.ofFactor f)) σ → Visited program Γ (.factor f) σ
  | termLeft {Γ l op r σ} : Visited program Γ (.term (.multiplicative l op r)) σ →
      Visited program Γ (.term l) σ
  | termRight {Γ l op r σ σ'} : Visited program Γ (.term (.multiplicative l op r)) σ →
      visitTerm l σ = some ((), σ') → Visited program Γ (.factor r) σ'
  | factorVar {Γ v σ} : Visited program Γ (.factor (.var v)) σ → Visited program Γ (.var v) σ
  | factorExpression {Γ e σ} : Visited program Γ (.factor (.expression e)) σ →
      Visited program Γ (.expression e) σ
  | args {Γ id as σ f} : Visited program Γ (.factor (.call id as)) σ →
      σ.scope.find id = some (.function f) →
      Visited program Γ (.args as (σ.module.functions f).paramTypes) σ
  | subscript {Γ id e σ var σ'} : Visited program Γ (.var (.subscript id e)) σ →
      enterVar id σ = some (var, σ') → Visited program Γ (.expression e) σ'
  | arg {Γ a as ty tys σ} : Visited program Γ (.args (a :: as) (ty :: tys)) σ →
      Visited program Γ (.expression a) σ
  | nextArg {Γ a as ty tys σ σ'} : Visited program Γ (.args (a :: as) (ty :: tys)) σ →
      (do
        visitExpression a
        let val ← convertArg ty
        setTmpVal val) σ = some ((), σ') → Visited program Γ (.args as tys) σ'

section

variable {α β : Type} {σ σ' : BuilderState}

/-- A part of a visit that ends with the scopes it found. -/
def KeepsScope {α : Type} (x : Builder α) : Prop :=
  ∀ σ r, x σ = some r → r.2.scope = σ.scope ∧ r.2.preEnterScope = σ.preEnterScope

theorem KeepsScope.bind {x : Builder α} {f : α → Builder β} (hx : KeepsScope x)
    (hf : ∀ a, KeepsScope (f a)) : KeepsScope (x >>= f) := by
  intro σ r h
  obtain ⟨a, σ₁, h₁, h₂⟩ := bind_some h
  obtain ⟨hs₁, hp₁⟩ := hx σ _ h₁
  obtain ⟨hs₂, hp₂⟩ := hf a σ₁ r h₂
  exact ⟨hs₂.trans hs₁, hp₂.trans hp₁⟩

theorem Quiet.keepsScope {x : Builder α} (hx : Quiet x) : KeepsScope x := by
  intro σ r h
  obtain ⟨v, b, he⟩ := hx σ r h
  rw [he]
  exact ⟨rfl, rfl⟩

theorem setModule_keepsScope (m : Module) : KeepsScope (setModule m) := by
  intro σ r h
  cases h
  exact ⟨rfl, rfl⟩

theorem setInsertPoint_keepsScope (b : Nat) : KeepsScope (setInsertPoint b) := by
  intro σ r h
  cases h
  exact ⟨rfl, rfl⟩

theorem getModule_keepsScope : KeepsScope getModule := by
  intro σ r h
  cases h
  exact ⟨rfl, rfl⟩

theorem getInsertBlock_keepsScope : KeepsScope getInsertBlock := by
  intro σ r h
  obtain ⟨b, -, rfl⟩ := Option.map_eq_some_iff.mp h
  exact ⟨rfl, rfl⟩

theorem getCurFun_keepsScope : KeepsScope getCurFun := by
  intro σ r h
  obtain ⟨b, -, rfl⟩ := Option.map_eq_some_iff.mp h
  exact ⟨rfl, rfl⟩

theorem pure_keepsScope (a : α) : KeepsScope (pure a : Builder α) := by
  intro σ r h
  cases h
  exact ⟨rfl, rfl⟩

theorem create_keepsScope (opId : OpID) (ty : Ty) (ops : List Value) :
    KeepsScope (create opId ty ops) :=
  getInsertBlock_keepsScope.bind fun _ => getModule_keepsScope.bind fun _ =>
    (setModule_keepsScope _).bind fun _ => pure_keepsScope _

theorem createBasicBlock_keepsScope (name : String) : KeepsScope (createBasicBlock name) :=
  getCurFun_keepsScope.bind fun _ => getModule_keepsScope.bind fun _ =>
    (setModule_keepsScope _).bind fun _ => pure_keepsScope _

theorem createBr_keepsScope (b : Nat) : KeepsScope (createBr b) :=
  getInsertBlock_keepsScope.bind fun _ => getModule_keepsScope.bind fun _ =>
    (setModule_keepsScope _).bind fun _ => create_keepsScope _ _ _

theorem createCondBr_keepsScope (c : Value) (t f : Nat) : KeepsScope (createCondBr c t f) :=
  getInsertBlock_keepsScope.bind fun _ => getModule_keepsScope.bind fun _ =>
    (setModule_keepsScope _).bind fun _ => create_keepsScope _ _ _

theorem scope_basics : Basics KeepsScope where
  bind := KeepsScope.bind
  quiet := Quiet.keepsScope
  create _ := create_keepsScope _ _ _

theorem scope_rules : Rules KeepsScope where
  toBasics := scope_basics
  subscript var ty lval := by
    have hB := scope_basics
    refine hB.getTmpVal.bind fun v => (createBasicBlock_keepsScope _).bind fun _ =>
      (createBasicBlock_keepsScope _).bind fun _ => (hB.toIndex v).bind fun v =>
      (create_keepsScope _ _ _).bind fun _ => (hB.discard (createCondBr_keepsScope _ _ _)).bind
      fun _ => (setInsertPoint_keepsScope _).bind fun _ => (hB.createNegIdxExcept).bind
      fun _ => (setInsertPoint_keepsScope _).bind fun _ => (hB.createElementPtr _ _ _).bind
      fun ptr => ?_
    split
    · exact (hB.setTmpVal _).bind fun _ => hB.setRequireLvalue _
    · exact (hB.createLoad _).bind fun _ => hB.setTmpVal _

theorem terminated_keepsScope : KeepsScope terminated :=
  getInsertBlock_keepsScope.bind fun _ => getModule_keepsScope.bind fun _ => pure_keepsScope _

theorem createBrIfOpen_keepsScope (b : Nat) : KeepsScope (createBrIfOpen b) := by
  refine terminated_keepsScope.bind fun t => ?_
  split
  · exact pure_keepsScope _
  · exact scope_basics.discard (createBr_keepsScope _)

theorem createCondition_keepsScope (v : Value) : KeepsScope (createCondition v) := by
  refine (scope_basics.getType v).bind fun ty => ?_
  split
  · exact create_keepsScope _ _ _
  · exact create_keepsScope _ _ _

theorem convertReturned_keepsScope (ty : Ty) (v : Value) : KeepsScope (convertReturned ty v) := by
  refine (scope_basics.getType v).bind fun vTy => ?_
  split
  · split
    · exact create_keepsScope _ _ _
    · exact create_keepsScope _ _ _
  · exact pure_keepsScope _

theorem openThen_keepsScope : KeepsScope openThen :=
  scope_basics.getTmpVal.bind fun _ => (createBasicBlock_keepsScope _).bind fun _ =>
    (createBasicBlock_keepsScope _).bind fun _ => (createCondition_keepsScope _).bind fun _ =>
    (scope_basics.discard (createCondBr_keepsScope _ _ _)).bind fun _ =>
    (setInsertPoint_keepsScope _).bind fun _ => pure_keepsScope _

theorem openElse_keepsScope : KeepsScope openElse :=
  scope_basics.getTmpVal.bind fun _ => (createBasicBlock_keepsScope _).bind fun _ =>
    (createBasicBlock_keepsScope _).bind fun _ => (createCondition_keepsScope _).bind fun _ =>
    (createBasicBlock_keepsScope _).bind fun _ =>
    (scope_basics.discard (createCondBr_keepsScope _ _ _)).bind fun _ =>
    (setInsertPoint_keepsScope _).bind fun _ => pure_keepsScope _

theorem openLoop_keepsScope : KeepsScope openLoop :=
  (createBasicBlock_keepsScope _).bind fun _ => (createBrIfOpen_keepsScope _).bind fun _ =>
    (setInsertPoint_keepsScope _).bind fun _ => pure_keepsScope _

theorem visitExpression_keepsScope (e : ASTExpression) : KeepsScope (visitExpression e) :=
  scope_rules.visitExpression e

/-- The scopes outside the innermost one are the same, and as many. -/
structure Kept (σ σ' : BuilderState) : Prop where
  length : σ'.scope.inner.length = σ.scope.inner.length
  outer : σ'.scope.inner.tail = σ.scope.inner.tail

theorem kept_push (s : Scope) (id : String) (v : Value) :
    (s.push id v).inner.length = s.inner.length ∧ (s.push id v).inner.tail = s.inner.tail := by
  unfold Scope.push
  split
  · exact ⟨rfl, rfl⟩
  · rename_i top rest htop
    split
    · exact ⟨rfl, rfl⟩
    · rw [htop]
      exact ⟨rfl, rfl⟩

theorem visitVarDeclaration_kept {d : ASTVarDeclaration}
    (h : visitVarDeclaration d σ = some ((), σ')) :
    Kept σ σ' ∧ σ'.preEnterScope = σ.preEnterScope := by
  unfold visitVarDeclaration at h
  obtain ⟨_, σ₁, h₁, h⟩ := bind_some h
  cases h₁
  split at h
  · obtain ⟨m, σ₂, h₂, h⟩ := bind_some h
    cases h₂
    cases h
    exact ⟨⟨(kept_push _ _ _).1, (kept_push _ _ _).2⟩, rfl⟩
  · obtain ⟨var, σ₂, h₂, h⟩ := bind_some h
    obtain ⟨hs, hp⟩ := create_keepsScope _ _ _ _ _ h₂
    cases h
    refine ⟨⟨?_, ?_⟩, hp⟩
    · exact (kept_push _ _ _).1.trans (congrArg (fun s : Scope => s.inner.length) hs)
    · exact (kept_push _ _ _).2.trans (congrArg (fun s : Scope => s.inner.tail) hs)

theorem visitLocalDeclarations_kept {ls : List ASTVarDeclaration}
    (h : visitLocalDeclarations ls σ = some ((), σ')) :
    Kept σ σ' ∧ σ'.preEnterScope = σ.preEnterScope := by
  induction ls generalizing σ with
  | nil =>
    cases h
    exact ⟨⟨rfl, rfl⟩, rfl⟩
  | cons d ls ih =>
    obtain ⟨_, σ₁, h₁, h⟩ := bind_some h
    obtain ⟨hk₁, hp₁⟩ := visitVarDeclaration_kept h₁
    obtain ⟨hk, hp⟩ := ih h
    exact ⟨⟨hk.length.trans hk₁.length, hk.outer.trans hk₁.outer⟩, hp.trans hp₁⟩

/-- A statement, which finds `pre_enter_scope` cleared. -/
def Leaves {α : Type} (x : Builder α) : Prop :=
  ∀ σ r, x σ = some r → σ.preEnterScope = false →
    r.2.scope = σ.scope ∧ r.2.preEnterScope = false

theorem KeepsScope.leaves {x : Builder α} (hx : KeepsScope x) : Leaves x := by
  intro σ r h hpre
  obtain ⟨hs, hp⟩ := hx σ r h
  exact ⟨hs, hp.trans hpre⟩

theorem Leaves.bind {x : Builder α} {f : α → Builder β} (hx : Leaves x) (hf : ∀ a, Leaves (f a)) :
    Leaves (x >>= f) := by
  intro σ r h hpre
  obtain ⟨a, σ₁, h₁, h₂⟩ := bind_some h
  obtain ⟨hs₁, hp₁⟩ := hx σ _ h₁ hpre
  obtain ⟨hs₂, hp₂⟩ := hf a σ₁ r h₂ hp₁
  exact ⟨hs₂.trans hs₁, hp₂⟩

theorem enterCompound_inner (hpre : σ.preEnterScope = false) :
    enterCompound σ = some (true, { σ with scope := σ.scope.enter }) := by
  cases σ
  cases hpre
  rfl

theorem enterCompound_body (hpre : σ.preEnterScope = true) :
    enterCompound σ = some (false, { σ with preEnterScope := false }) := by
  cases σ
  cases hpre
  rfl

mutual

/-- A statement leaves the scopes as it finds them. -/
theorem visitStatement_leaves : ∀ s : ASTStatement, Leaves (visitStatement s)
  | .compound ls ss => by
    intro σ r h hpre
    rw [visitStatement] at h
    obtain ⟨need, σ₁, h₁, h⟩ := bind_some h
    rw [enterCompound_inner hpre] at h₁
    cases h₁
    obtain ⟨_, σ₂, h₂, h⟩ := bind_some h
    obtain ⟨hk, hp₂⟩ := visitLocalDeclarations_kept h₂
    obtain ⟨_, σ₃, h₃, h⟩ := bind_some h
    obtain ⟨hs₃, hp₃⟩ := visitStatementList_leaves ss _ _ h₃ (hp₂.trans hpre)
    cases h
    refine ⟨?_, hp₃⟩
    show Scope.exit σ₃.scope = σ.scope
    rw [hs₃, Scope.exit, hk.outer]
    rfl
  | .expressionStmt none => by
    rw [visitStatement]
    exact (pure_keepsScope _).leaves
  | .expressionStmt (some e) => by
    rw [visitStatement]
    exact (visitExpression_keepsScope e).leaves
  | .selection e s => by
    rw [visitStatement_selection]
    exact (visitExpression_keepsScope e).leaves.bind fun _ => openThen_keepsScope.leaves.bind
      fun _ => (visitStatement_leaves s).bind fun _ => (createBrIfOpen_keepsScope _).leaves.bind
      fun _ => (setInsertPoint_keepsScope _).leaves
  | .selectionElse e s₁ s₂ => by
    rw [visitStatement_selectionElse]
    exact (visitExpression_keepsScope e).leaves.bind fun _ => openElse_keepsScope.leaves.bind
      fun _ => (visitStatement_leaves s₁).bind fun _ => (createBrIfOpen_keepsScope _).leaves.bind
      fun _ => (setInsertPoint_keepsScope _).leaves.bind fun _ => (visitStatement_leaves s₂).bind
      fun _ => (createBrIfOpen_keepsScope _).leaves.bind
      fun _ => (setInsertPoint_keepsScope _).leaves
  | .iteration e s => by
    rw [visitStatement_iteration]
    exact openLoop_keepsScope.leaves.bind fun _ => (visitExpression_keepsScope e).leaves.bind
      fun _ => openThen_keepsScope.leaves.bind fun _ => (visitStatement_leaves s).bind
      fun _ => (createBrIfOpen_keepsScope _).leaves.bind
      fun _ => (setInsertPoint_keepsScope _).leaves
  | .return none => by
    rw [visitStatement]
    exact (scope_basics.discard (create_keepsScope _ _ _)).leaves
  | .return (some e) => by
    rw [visitStatement]
    exact getCurFun_keepsScope.leaves.bind fun _ => getModule_keepsScope.leaves.bind fun _ =>
      (visitExpression_keepsScope e).leaves.bind fun _ => scope_basics.getTmpVal.leaves.bind
      fun _ => (convertReturned_keepsScope _ _).leaves.bind fun _ =>
      (scope_basics.setTmpVal _).leaves.bind fun _ =>
      (scope_basics.discard (create_keepsScope _ _ _)).leaves

theorem visitStatementList_leaves : ∀ ss : List ASTStatement, Leaves (visitStatementList ss)
  | [] => by
    rw [visitStatementList]
    exact (pure_keepsScope _).leaves
  | s :: ss => by
    rw [visitStatementList]
    refine (visitStatement_leaves s).bind fun _ => terminated_keepsScope.leaves.bind fun t => ?_
    split
    · exact (pure_keepsScope _).leaves
    · exact visitStatementList_leaves ss

end

/-- The body of a function declares in the scope of its parameters. -/
theorem visitBody_kept {ls : List ASTVarDeclaration} {ss : List ASTStatement}
    (hpre : σ.preEnterScope = true) (h : visitStatement (.compound ls ss) σ = some ((), σ')) :
    Kept σ σ' ∧ σ'.preEnterScope = false := by
  rw [visitStatement] at h
  obtain ⟨need, σ₁, h₁, h⟩ := bind_some h
  rw [enterCompound_body hpre] at h₁
  cases h₁
  obtain ⟨_, σ₂, h₂, h⟩ := bind_some h
  obtain ⟨hk, hp₂⟩ := visitLocalDeclarations_kept h₂
  obtain ⟨_, σ₃, h₃, h⟩ := bind_some h
  obtain ⟨hs₃, hp₃⟩ := visitStatementList_leaves ss _ _ h₃ hp₂
  cases h
  exact ⟨⟨by rw [hs₃]; exact hk.length, by rw [hs₃]; exact hk.outer⟩, hp₃⟩

theorem visitParam_run {k : Nat} {p : ASTParam} {argNo : Nat}
    (h : visitParam k p argNo σ = some ((), σ')) :
    σ'.scope = σ.scope.push p.id (.instruction σ.module.numInstrs) ∧
      σ'.preEnterScope = σ.preEnterScope ∧ (σ'.module.instrs σ.module.numInstrs).isAlloca := by
  obtain ⟨alloc, σ₁, h₁, h⟩ := bind_some h
  obtain ⟨hs₁, hp₁⟩ := create_keepsScope _ _ _ _ _ h₁
  obtain ⟨halloc, -, bb, hc₁⟩ := create_created h₁
  obtain ⟨_, σ₂, h₂, h⟩ := bind_some h
  obtain ⟨hs₂, hp₂⟩ := scope_basics.discard (create_keepsScope _ _ _) _ _ h₂
  obtain ⟨_, h₂⟩ := discard_some h₂
  obtain ⟨-, -, bb', hc₂⟩ := create_created h₂
  cases h
  dsimp only at halloc hs₁ hp₁ hs₂ hp₂ hc₁ hc₂
  refine ⟨?_, hp₂.trans hp₁, ?_⟩
  · show σ₂.scope.push p.id alloc = _
    rw [hs₂, hs₁, halloc]
  · show (σ₂.module.instrs σ.module.numInstrs).isAlloca
    rw [hc₂.old _ (hc₁.numInstrs ▸ Nat.lt_succ_self _), Instruction.isAlloca, hc₁.opId]

theorem visitParams_kept {k : Nat} {ps : List ASTParam} {argNo : Nat}
    (h : visitParams k ps argNo σ = some ((), σ')) :
    Kept σ σ' ∧ σ'.preEnterScope = σ.preEnterScope := by
  induction ps generalizing σ argNo with
  | nil =>
    cases h
    exact ⟨⟨rfl, rfl⟩, rfl⟩
  | cons p ps ih =>
    rw [visitParams_cons] at h
    obtain ⟨_, σ₁, h₁, h⟩ := bind_some h
    obtain ⟨hs₁, hp₁, -⟩ := visitParam_run h₁
    obtain ⟨hk, hp⟩ := ih h
    refine ⟨⟨hk.length.trans ?_, hk.outer.trans ?_⟩, hp.trans hp₁⟩
    · rw [hs₁]
      exact (kept_push _ _ _).1
    · rw [hs₁]
      exact (kept_push _ _ _).2

theorem createRetIfOpen_keepsScope : KeepsScope createRetIfOpen := by
  refine terminated_keepsScope.bind fun t => ?_
  split
  · exact pure_keepsScope _
  · exact scope_basics.discard (scope_basics.createDefaultRet)

theorem enterFunction_run {f : ASTFunDeclaration} {k : Nat} (h : enterFunction f σ = some (k, σ')) :
    (k = σ.module.numFunctions ∧ (σ'.module.functions k).name = f.id) ∧
      σ'.scope = (σ.scope.push f.id (.function σ.module.numFunctions)).enter ∧
      σ'.preEnterScope = true := by
  cases h
  exact ⟨⟨rfl, by simp [Module.createFunction, Module.createBasicBlock]⟩, rfl, rfl⟩

/-- A function declares its name in the scope that it is declared in. -/
theorem visitFunDeclaration_run {f : ASTFunDeclaration}
    (h : visitFunDeclaration f σ = some ((), σ')) :
    σ'.scope = σ.scope.push f.id (.function σ.module.numFunctions) ∧ σ'.preEnterScope = false := by
  obtain ⟨k, σ₁, h₁, h⟩ := bind_some h
  obtain ⟨-, hs₁, hp₁⟩ := enterFunction_run h₁
  obtain ⟨_, σ₂, h₂, h⟩ := bind_some h
  obtain ⟨hk₂, hp₂⟩ := visitParams_kept h₂
  obtain ⟨_, σ₃, h₃, h⟩ := bind_some h
  obtain ⟨hk₃, hp₃⟩ := visitBody_kept (hp₂.trans hp₁) h₃
  obtain ⟨_, σ₄, h₄, h⟩ := bind_some h
  obtain ⟨hs₄, hp₄⟩ := createRetIfOpen_keepsScope _ _ h₄
  cases h
  refine ⟨?_, hp₄.trans hp₃⟩
  show Scope.exit σ₄.scope = _
  rw [hs₄, Scope.exit, hk₃.outer, hk₂.outer, hs₁]
  rfl

theorem push_inner {s : Scope} {id : String} {v : Value} (hid : id ∉ Env.topNames s.inner) :
    (s.push id v).inner = Env.bind s.inner id v := by
  unfold Scope.push Env.bind
  cases hs : s.inner with
  | nil => exact hs
  | cons top outer =>
    have hnone : top.lookup id = none := by
      rw [hs] at hid
      apply List.lookup_eq_none_iff.mpr
      intro q hq
      rw [bne_iff_ne]
      rintro rfl
      exact hid (List.mem_map.mpr ⟨q, hq, rfl⟩)
    simp [hnone]

/-- What is declared in the innermost scope, and below the node, has distinct names. -/
def Node.Distinct (Γ : Env) : Node → Prop
  | .declarations ds => (Γ.topNames ++ ds.map (·.id)).Nodup ∧ ds.all ASTDeclaration.distinctNames
  | .params _ ps _ f => (Γ.topNames ++ (ps.map (·.id) ++ f.localDeclarations.map (·.id))).Nodup ∧
      ASTStatement.distinctNamesList f.statementList
  | .body ls ss | .locals ls ss => (Γ.topNames ++ ls.map (·.id)).Nodup ∧
      ASTStatement.distinctNamesList ss
  | .statements ss => ASTStatement.distinctNamesList ss
  | .statement s => s.distinctNames
  | _ => True

/-- Whether the scope of a function has just been entered. -/
def Node.inEntry : Node → Bool
  | .params _ _ _ _ | .body _ _ => true
  | _ => false

def Node.IsGlobal : Node → Prop
  | .declarations _ => True
  | _ => False

/-- The scopes of the builder are those of the text. -/
structure Agrees (Γ : Env) (node : Node) (σ : BuilderState) : Prop where
  scope : σ.scope.inner = Γ
  preEnterScope : σ.preEnterScope = node.inEntry
  distinct : node.Distinct Γ
  ne_nil : Γ ≠ []
  global : node.IsGlobal ↔ Γ.length = 1

theorem topNames_bind {Γ : Env} {id : String} {v : Value} (hΓ : Γ ≠ []) :
    (Γ.bind id v).topNames = id :: Γ.topNames := by
  cases Γ with
  | nil => exact absurd rfl hΓ
  | cons top outer => rfl

theorem length_bind {Γ : Env} {id : String} {v : Value} : (Γ.bind id v).length = Γ.length := by
  cases Γ <;> rfl

theorem bind_ne_nil {Γ : Env} {id : String} {v : Value} (hΓ : Γ ≠ []) : Γ.bind id v ≠ [] := by
  cases Γ with
  | nil => exact absurd rfl hΓ
  | cons top outer => simp [Env.bind]

theorem nodup_bind {Γ : Env} {id : String} {v : Value} {ids : List String} (hΓ : Γ ≠ [])
    (h : (Γ.topNames ++ id :: ids).Nodup) : ((Γ.bind id v).topNames ++ ids).Nodup := by
  rw [topNames_bind hΓ, List.cons_append, ← List.nodup_middle]
  exact h

/-- A declaration outside the functions makes a global variable, and inside them an `alloca`. -/
theorem visitVarDeclaration_run {d : ASTVarDeclaration}
    (h : visitVarDeclaration d σ = some ((), σ')) :
    σ'.scope = σ.scope.push d.id (if σ.scope.inner.length = 1 then
        .globalVariable σ.module.numGlobals else .instruction σ.module.numInstrs) ∧
      if σ.scope.inner.length = 1 then σ'.module.numGlobals = σ.module.numGlobals + 1 ∧
        (σ'.module.globals σ.module.numGlobals).name = d.id
      else (σ'.module.instrs σ.module.numInstrs).isAlloca := by
  unfold visitVarDeclaration at h
  obtain ⟨_, σ₁, h₁, h⟩ := bind_some h
  cases h₁
  split at h
  · rename_i hglobal
    have hlen : σ.scope.inner.length = 1 := by simpa [Scope.inGlobal] using hglobal
    obtain ⟨m, σ₂, h₂, h⟩ := bind_some h
    cases h₂
    cases h
    rw [if_pos hlen, if_pos hlen]
    have hname : ∀ ty init, ((σ.module.createGlobalVariable d.id ty init).globals
        σ.module.numGlobals).name = d.id := by
      simp [Module.createGlobalVariable, Module.addUse]
    exact ⟨rfl, rfl, hname _ _⟩
  · rename_i hlocal
    have hlen : ¬ σ.scope.inner.length = 1 := by simpa [Scope.inGlobal] using hlocal
    obtain ⟨var, σ₂, h₂, h⟩ := bind_some h
    obtain ⟨hs, -⟩ := create_keepsScope _ _ _ _ _ h₂
    obtain ⟨hvar, -, bb, hc⟩ := create_created h₂
    cases h
    dsimp only at hs hvar hc
    rw [if_neg hlen, if_neg hlen]
    constructor
    · show σ₂.scope.push d.id var = _
      rw [hs, hvar]
    · show (σ₂.module.instrs σ.module.numInstrs).isAlloca
      rw [Instruction.isAlloca, hc.opId]

variable {program : ASTProgram} {Γ : Env} {node : Node}

/-- A node that is visited in the scopes of its parent. -/
theorem Agrees.child {node' : Node} (h : Agrees Γ node σ) (hs : σ'.scope = σ.scope)
    (hp : σ'.preEnterScope = σ.preEnterScope) (he : node'.inEntry = node.inEntry)
    (hd : node.Distinct Γ → node'.Distinct Γ) (hg : node'.IsGlobal ↔ node.IsGlobal) :
    Agrees Γ node' σ' where
  scope := by rw [hs, h.scope]
  preEnterScope := by rw [hp, h.preEnterScope, he]
  distinct := hd h.distinct
  ne_nil := h.ne_nil
  global := hg.trans h.global

/-- A new name is bound. -/
theorem Agrees.push {id : String} {v : Value} {ids : List String} (h : Agrees Γ node σ)
    (hid : (Γ.topNames ++ id :: ids).Nodup) : (σ.scope.push id v).inner = Γ.bind id v := by
  have hnew : id ∉ Env.topNames σ.scope.inner := by
    rw [h.scope]
    intro hmem
    exact (List.nodup_append.mp hid).2.2 id hmem id (by simp) rfl
  rw [push_inner hnew, h.scope]

/-- A part of an expression. -/
theorem Agrees.part {node' : Node} (h : Agrees Γ node σ) (hs : σ'.scope = σ.scope)
    (hp : σ'.preEnterScope = σ.preEnterScope) (hd : node'.Distinct Γ)
    (hn : node.inEntry = false ∧ ¬ node.IsGlobal := by exact ⟨rfl, id⟩)
    (hn' : node'.inEntry = false ∧ ¬ node'.IsGlobal := by exact ⟨rfl, id⟩) : Agrees Γ node' σ' :=
  h.child hs hp (hn'.1.trans hn.1.symm) (fun _ => hd) (iff_of_false hn'.2 hn.2)

theorem Agrees.after {node' : Node} {x : Builder α} {r : α × BuilderState} (h : Agrees Γ node σ)
    (hx : KeepsScope x) (hrun : x σ = some r) (hd : node'.Distinct Γ)
    (hn : node.inEntry = false ∧ ¬ node.IsGlobal := by exact ⟨rfl, id⟩)
    (hn' : node'.inEntry = false ∧ ¬ node'.IsGlobal := by exact ⟨rfl, id⟩) :
    Agrees Γ node' r.2 :=
  h.part (hx _ _ hrun).1 (hx _ _ hrun).2 hd hn hn'

theorem agrees_initial (h : program.distinctNames) :
    Agrees initial.scope.inner (.declarations program.declarations) initial := by
  obtain ⟨hnodup, hall⟩ := Bool.and_eq_true_iff.mp h
  have hΓ : initial.scope.inner ≠ [] := by simp [initial, Scope.push, Scope.enter]
  exact ⟨rfl, rfl, ⟨of_decide_eq_true hnodup, hall⟩, hΓ, iff_of_true trivial rfl⟩

theorem agrees_of_visited (hd : program.distinctNames) (h : Visited program Γ node σ) :
    Agrees Γ node σ := by
  induction h with
  | program => exact agrees_initial hd
  | afterVar _ hrun ih =>
    obtain ⟨hnodup, hall⟩ := ih.distinct
    obtain ⟨-, hp⟩ := visitVarDeclaration_kept hrun
    have hlen := ih.global.mp trivial
    refine ⟨?_, hp.trans ih.preEnterScope, ⟨nodup_bind ih.ne_nil hnodup,
      (Bool.and_eq_true_iff.mp hall).2⟩, bind_ne_nil ih.ne_nil,
      iff_of_true trivial (length_bind.trans hlen)⟩
    rw [(visitVarDeclaration_run hrun).1, ih.scope, if_pos hlen]
    exact ih.push hnodup
  | afterFun _ hrun ih =>
    obtain ⟨hnodup, hall⟩ := ih.distinct
    obtain ⟨hs, hp⟩ := visitFunDeclaration_run hrun
    refine ⟨?_, hp, ⟨nodup_bind ih.ne_nil hnodup, (Bool.and_eq_true_iff.mp hall).2⟩,
      bind_ne_nil ih.ne_nil, iff_of_true trivial (length_bind.trans (ih.global.mp trivial))⟩
    rw [hs]
    exact ih.push hnodup
  | enterFun _ hrun ih =>
    obtain ⟨hnodup, hall⟩ := ih.distinct
    obtain ⟨-, hs, hp⟩ := enterFunction_run hrun
    obtain ⟨hnames, hstmts⟩ := Bool.and_eq_true_iff.mp (Bool.and_eq_true_iff.mp hall).1
    refine ⟨?_, hp, ⟨of_decide_eq_true hnames, hstmts⟩, by simp, iff_of_false id ?_⟩
    · rw [hs]
      exact congrArg ([] :: ·) (ih.push hnodup)
    · rw [List.length_cons, length_bind, ih.global.mp trivial]
      omega
  | param _ hrun ih =>
    obtain ⟨hnodup, hstmts⟩ := ih.distinct
    obtain ⟨hs, hp, -⟩ := visitParam_run hrun
    refine ⟨?_, hp.trans ih.preEnterScope, ⟨nodup_bind ih.ne_nil hnodup, hstmts⟩,
      bind_ne_nil ih.ne_nil, ?_⟩
    · rw [hs]
      exact ih.push hnodup
    · rw [length_bind]
      exact ih.global
  | body _ ih => exact ih.child rfl rfl rfl id Iff.rfl
  | enterBody _ hrun ih =>
    rw [enterCompound_body ih.preEnterScope] at hrun
    cases hrun
    exact ⟨ih.scope, rfl, ih.distinct, ih.ne_nil, ih.global⟩
  | enterCompound _ hrun ih =>
    rw [enterCompound_inner ih.preEnterScope] at hrun
    cases hrun
    obtain ⟨hnames, hstmts⟩ := Bool.and_eq_true_iff.mp ih.distinct
    refine ⟨?_, ih.preEnterScope, ⟨of_decide_eq_true hnames, hstmts⟩, by simp, iff_of_false id ?_⟩
    · rw [← ih.scope]
      rfl
    · have := List.length_pos_iff.mpr ih.ne_nil
      rw [List.length_cons]
      omega
  | afterLocal _ hrun ih =>
    obtain ⟨hnodup, hstmts⟩ := ih.distinct
    obtain ⟨-, hp⟩ := visitVarDeclaration_kept hrun
    have hlen : ¬ _ = 1 := fun h => ih.global.mpr h
    refine ⟨?_, hp.trans ih.preEnterScope, ⟨nodup_bind ih.ne_nil hnodup, hstmts⟩,
      bind_ne_nil ih.ne_nil, ?_⟩
    · rw [(visitVarDeclaration_run hrun).1, ih.scope, if_neg hlen]
      exact ih.push hnodup
    · rw [length_bind]
      exact ih.global
  | statements _ ih => exact ih.part rfl rfl ih.distinct.2
  | head _ ih =>
    exact ih.part rfl rfl (Bool.and_eq_true_iff.mp ih.distinct).1
  | tail _ hs ht ih =>
    obtain ⟨hs₁, hp₁⟩ := visitStatement_leaves _ _ _ hs ih.preEnterScope
    obtain ⟨hs₂, hp₂⟩ := terminated_keepsScope _ _ ht
    exact ih.part (hs₂.trans hs₁) (hp₂.trans (hp₁.trans ih.preEnterScope.symm))
      (Bool.and_eq_true_iff.mp ih.distinct).2
  | expressionStmt _ ih => exact ih.part rfl rfl trivial
  | ifCondition _ ih => exact ih.part rfl rfl trivial
  | ifThen _ hrun ih =>
    exact ih.after ((visitExpression_keepsScope _).bind fun _ => openThen_keepsScope) hrun
      ih.distinct
  | elseCondition _ ih => exact ih.part rfl rfl trivial
  | elseThen _ hrun ih =>
    exact ih.after ((visitExpression_keepsScope _).bind fun _ => openElse_keepsScope) hrun
      (Bool.and_eq_true_iff.mp ih.distinct).1
  | @elseElse _ e s₁ _ _ _ _ hrun ih =>
    have hx : Leaves _ := (visitExpression_keepsScope e).leaves.bind fun _ =>
      openElse_keepsScope.leaves.bind fun bbs => (visitStatement_leaves s₁).bind fun _ =>
      (createBrIfOpen_keepsScope bbs.2).leaves.bind fun _ =>
      (setInsertPoint_keepsScope bbs.1).leaves
    obtain ⟨hs, hp⟩ := hx _ _ hrun ih.preEnterScope
    exact ih.part hs (hp.trans ih.preEnterScope.symm)
      (Bool.and_eq_true_iff.mp ih.distinct).2
  | whileCondition _ hrun ih =>
    exact ih.after (openLoop_keepsScope) hrun trivial
  | whileBody _ hrun ih =>
    exact ih.after ((scope_basics.discard openLoop_keepsScope).bind fun _ =>
      (visitExpression_keepsScope _).bind fun _ => openThen_keepsScope) hrun ih.distinct
  | returned _ ih => exact ih.part rfl rfl trivial
  | assigned _ ih => exact ih.part rfl rfl trivial
  | assignedVar _ hrun ih =>
    obtain ⟨hs, hp⟩ := visitExpression_keepsScope _ _ _ hrun
    exact ih.part hs hp trivial
  | simple _ ih => exact ih.part rfl rfl trivial
  | relationLeft _ ih => exact ih.part rfl rfl trivial
  | relationRight _ hrun ih =>
    exact ih.after (scope_rules.visitAdditiveExpression _) hrun trivial
  | ofTerm _ ih => exact ih.part rfl rfl trivial
  | additiveLeft _ ih => exact ih.part rfl rfl trivial
  | additiveRight _ hrun ih =>
    exact ih.after (scope_rules.visitAdditiveExpression _) hrun trivial
  | ofFactor _ ih => exact ih.part rfl rfl trivial
  | termLeft _ ih => exact ih.part rfl rfl trivial
  | termRight _ hrun ih =>
    exact ih.after (scope_rules.visitTerm _) hrun trivial
  | factorVar _ ih => exact ih.part rfl rfl trivial
  | factorExpression _ ih => exact ih.part rfl rfl trivial
  | args _ hfind ih => exact ih.part rfl rfl trivial
  | subscript _ hrun ih => exact ih.after (scope_basics.enterVar _) hrun trivial
  | arg _ ih => exact ih.part rfl rfl trivial
  | nextArg _ hrun ih =>
    exact ih.after ((visitExpression_keepsScope _).bind fun _ =>
      (scope_basics.convertArg _).bind fun _ => scope_basics.setTmpVal _) hrun trivial

/-- Each declaration makes the variable that it is bound to, names are looked up where the text puts
them, and the visits of statements and functions leave the scopes around them alone. -/
structure StaticallyScoped (program : ASTProgram) : Prop where
  globalVar : ∀ Γ d ds σ σ', Visited program Γ (.declarations (.var d :: ds)) σ →
    visitVarDeclaration d σ = some ((), σ') →
    σ'.module.numGlobals = σ.module.numGlobals + 1 ∧
      (σ'.module.globals σ.module.numGlobals).name = d.id
  fn : ∀ Γ f ds σ k σ', Visited program Γ (.declarations (.fun f :: ds)) σ →
    enterFunction f σ = some (k, σ') →
    k = σ.module.numFunctions ∧ (σ'.module.functions k).name = f.id
  param : ∀ Γ k p ps argNo f σ σ', Visited program Γ (.params k (p :: ps) argNo f) σ →
    visitParam k p argNo σ = some ((), σ') → (σ'.module.instrs σ.module.numInstrs).isAlloca
  localVar : ∀ Γ d ls ss σ σ', Visited program Γ (.locals (d :: ls) ss) σ →
    visitVarDeclaration d σ = some ((), σ') → (σ'.module.instrs σ.module.numInstrs).isAlloca
  var : ∀ Γ v σ, Visited program Γ (.var v) σ → σ.scope.find v.id = Γ.find v.id
  call : ∀ Γ id as σ, Visited program Γ (.factor (.call id as)) σ → σ.scope.find id = Γ.find id
  statement : ∀ Γ s σ σ', Visited program Γ (.statement s) σ → visitStatement s σ = some ((), σ') →
    σ'.scope = σ.scope
  body : ∀ Γ ls ss σ σ', Visited program Γ (.body ls ss) σ →
    visitStatement (.compound ls ss) σ = some ((), σ') → Kept σ σ'
  function : ∀ Γ f ds σ σ', Visited program Γ (.declarations (.fun f :: ds)) σ →
    visitFunDeclaration f σ = some ((), σ') → Kept σ σ'

theorem staticallyScoped (hd : program.distinctNames) : StaticallyScoped program where
  globalVar Γ d ds σ σ' h hrun := by
    have ha := agrees_of_visited hd h
    have hrun := (visitVarDeclaration_run hrun).2
    rwa [ha.scope, if_pos (ha.global.mp trivial)] at hrun
  fn Γ f ds σ k σ' _ hrun := (enterFunction_run hrun).1
  param Γ k p ps argNo f σ σ' _ hrun := (visitParam_run hrun).2.2
  localVar Γ d ls ss σ σ' h hrun := by
    have ha := agrees_of_visited hd h
    have hrun := (visitVarDeclaration_run hrun).2
    rwa [ha.scope, if_neg fun hlen => ha.global.mpr hlen] at hrun
  var Γ v σ h := by
    rw [Scope.find, (agrees_of_visited hd h).scope]
    rfl
  call Γ id as σ h := by
    rw [Scope.find, (agrees_of_visited hd h).scope]
    rfl
  statement Γ s σ σ' h hrun :=
    (visitStatement_leaves s _ _ hrun (agrees_of_visited hd h).preEnterScope).1
  body Γ ls ss σ σ' h hrun := (visitBody_kept (agrees_of_visited hd h).preEnterScope hrun).1
  function Γ f ds σ σ' h hrun := by
    obtain ⟨hs, -⟩ := visitFunDeclaration_run hrun
    constructor
    · rw [hs]
      exact (kept_push _ _ _).1
    · rw [hs]
      exact (kept_push _ _ _).2

/-- `void main(void) { int a; a = 3; output(a); { int a; a = 11; output(a); } output(a); return; }`,
the test `scope.cminus`. -/
def scopeProgram : ASTProgram :=
  let a : ASTExpression := .simple (.ofTerm (.ofFactor (.var (.scalar "a"))))
  let int (n : BitVec 32) : ASTExpression := .simple (.ofTerm (.ofFactor (.num (.int n))))
  let output : ASTStatement :=
    .expressionStmt (some (.simple (.ofTerm (.ofFactor (.call "output" [a])))))
  ⟨[.fun ⟨.void, "main", [], [⟨.int, "a", none⟩],
    [.expressionStmt (some (.assign (.scalar "a") (int 3))), output,
      .compound [⟨.int, "a", none⟩]
        [.expressionStmt (some (.assign (.scalar "a") (int 11))), output],
      output, .return none]⟩]⟩

theorem staticallyScoped_scopeProgram : StaticallyScoped scopeProgram :=
  staticallyScoped (by decide)

end

end CminusfBuilder

end Cminusf
