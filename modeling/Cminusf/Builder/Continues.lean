import Cminusf.Builder.Rules
import Cminusf.Builder.WellTyped
import Mathlib.Data.List.Infix

/-! Modules that are the beginning of another one. What the visitors have emitted stays where it
is, and what they emit later comes behind it. -/

namespace Cminusf

namespace Builder

/-- The module is the beginning of `M`. -/
structure Within (m M : Module) : Prop where
  widens : Widens m M
  instrList : ∀ b < m.numBlocks, (m.blocks b).instrList <+: (M.blocks b).instrList
  basicBlocks : ∀ f < m.numFunctions, (m.functions f).basicBlocks <+: (M.functions f).basicBlocks
  name : ∀ f < m.numFunctions, (M.functions f).name = (m.functions f).name

variable {m m' m'' M : Module} {b c f : Nat} {opId : OpID} {ty : Ty} {ops : List Value}

theorem Within.refl (m : Module) : Within m m :=
  ⟨.refl _ _, fun _ _ => List.prefix_rfl, fun _ _ => List.prefix_rfl, fun _ _ => rfl⟩

theorem Within.trans (h : Within m m') (h' : Within m' m'') : Within m m'' where
  widens := h.widens.trans h'.widens
  instrList b hb := (h.instrList b hb).trans (h'.instrList b (hb.trans_le h.widens.numBlocks))
  basicBlocks f hf :=
    (h.basicBlocks f hf).trans (h'.basicBlocks f (hf.trans_le h.widens.numFunctions))
  name f hf := (h'.name f (hf.trans_le h.widens.numFunctions)).trans (h.name f hf)

theorem Appended.within (h : Appended m b opId ty ops m') : Within m m' where
  widens := h.widens
  instrList x _ := by
    rw [h.instrList]
    exact List.prefix_append _ _
  basicBlocks f _ := by
    rw [h.functions]
  name f _ := by rw [h.functions]

theorem createBasicBlock_within (m : Module) (name : String) (f : Nat) :
    Within m (m.createBasicBlock name f) where
  widens := createBasicBlock_widens m name f
  instrList b hb := by
    rw [createBasicBlock_blocks, if_neg hb.ne]
  basicBlocks g _ := by
    by_cases hg : g = f
    · subst hg
      rw [show ((m.createBasicBlock name g).functions g).basicBlocks =
        (m.functions g).basicBlocks ++ [m.numBlocks] by simp [Module.createBasicBlock]]
      exact List.prefix_append _ _
    · rw [show (m.createBasicBlock name f).functions g = m.functions g by
        simp [Module.createBasicBlock, hg]]
  name g _ := by
    by_cases hg : g = f
    · simp [Module.createBasicBlock, hg]
    · simp [Module.createBasicBlock, hg]

theorem createFunction_within (m : Module) (name : String) (retTy : Ty) (paramTypes : List Ty) :
    Within m (m.createFunction name retTy paramTypes) where
  widens := createFunction_ext m _ name retTy paramTypes
  instrList _ _ := List.prefix_rfl
  basicBlocks g hg := by
    rw [show (m.createFunction name retTy paramTypes).functions g = m.functions g by
      simp [Module.createFunction, hg.ne]]
  name g hg := by simp [Module.createFunction, hg.ne]

theorem createGlobalVariable_within (m : Module) (name : String) (ty : Ty) (init : Value) :
    Within m (m.createGlobalVariable name ty init) where
  widens := createGlobalVariable_ext m _ name ty init
  instrList _ _ := List.prefix_rfl
  basicBlocks _ _ := List.prefix_rfl
  name _ _ := rfl

/-- Edges between blocks are no code. -/
theorem Appended.of_linked {ts ss : List Nat} (hl : Linked m c ts ss m')
    (h : Appended m' b opId ty ops m'') : Appended m b opId ty ops m'' where
  functions := h.functions.trans hl.functions
  numFunctions := h.numFunctions.trans hl.numFunctions
  globals := h.globals.trans hl.globals
  numGlobals := h.numGlobals.trans hl.numGlobals
  numBlocks := h.numBlocks.trans hl.numBlocks
  instrs := by rw [h.instrs, hl.instrs, hl.numInstrs]
  numInstrs := by rw [h.numInstrs, hl.numInstrs]
  parent x := (h.parent x).trans (hl.parent x)
  instrList x := by rw [h.instrList, hl.instrList, hl.numInstrs]

section

variable {σ : BuilderState} {r : Value × BuilderState}

/-- The state after an instruction has been created. -/
theorem create_appended (h : create opId ty ops σ = some r) : ∃ b, σ.insertBlock = some b ∧
    r.1 = .instruction σ.module.numInstrs ∧ r.2 = { σ with module := r.2.module } ∧
      Appended σ.module b opId ty ops r.2.module := by
  obtain ⟨b, σ₁, hb, h⟩ := bind_some h
  obtain ⟨b', hb', he⟩ := Option.map_eq_some_iff.mp hb
  cases he
  cases h
  exact ⟨b, hb', rfl, rfl, createInstruction_appended _ _ _ _ _⟩

/-- The state after a branch has been created. -/
theorem createEdge_appended (ts : List Nat)
    (h : create .br .void ops { σ with module := link σ.module c ts } = some r) :
    ∃ b, σ.insertBlock = some b ∧ r.2 = { σ with module := r.2.module } ∧
      Appended σ.module b .br .void ops r.2.module := by
  obtain ⟨b, hb, -, hr, hap⟩ := create_appended h
  exact ⟨b, hb, hr, hap.of_linked (linked_link _ _ _)⟩

theorem createBr_appended {t : Nat} (h : createBr t σ = some r) : ∃ b, σ.insertBlock = some b ∧
    r.2 = { σ with module := r.2.module } ∧
      Appended σ.module b .br .void [.basicBlock t] r.2.module := by
  obtain ⟨b, σ₁, hb, h⟩ := bind_some h
  obtain ⟨b', hb', he⟩ := Option.map_eq_some_iff.mp hb
  cases he
  exact createEdge_appended [t] h

theorem createCondBr_appended {c : Value} {t e : Nat} (h : createCondBr c t e σ = some r) :
    ∃ b, σ.insertBlock = some b ∧ r.2 = { σ with module := r.2.module } ∧
      Appended σ.module b .br .void [c, .basicBlock t, .basicBlock e] r.2.module := by
  obtain ⟨b, σ₁, hb, h⟩ := bind_some h
  obtain ⟨b', hb', he⟩ := Option.map_eq_some_iff.mp hb
  cases he
  exact createEdge_appended [t, e] h

/-- The state after a call has been created. -/
theorem createCall_appended {func : Value} {args : List Value} (h : createCall func args σ = some r) :
    ∃ f b, func = .function f ∧ (σ.module.functions f).paramTypes.length = args.length ∧
      σ.insertBlock = some b ∧ r.1 = .instruction σ.module.numInstrs ∧
      r.2 = { σ with module := r.2.module } ∧
      Appended σ.module b .call (σ.module.functions f).returnType (.function f :: args)
        r.2.module := by
  obtain ⟨m, σ₁, h₁, h⟩ := bind_some h
  cases h₁
  cases func with
  | function f =>
    dsimp only at h
    split at h
    · rename_i hlen
      obtain ⟨b, hb, hval, hσ, hap⟩ := create_appended h
      exact ⟨f, b, rfl, hlen, hb, hval, hσ, hap⟩
    · cases h
  | _ => cases h

theorem createBasicBlock_appended {name : String} {r : Nat × BuilderState}
    (h : createBasicBlock name σ = some r) : ∃ f, σ.curFun = some f ∧
      r = (σ.module.numBlocks, { σ with module := σ.module.createBasicBlock name f }) := by
  obtain ⟨f, σ₁, hf, h⟩ := bind_some h
  obtain ⟨g, hg, he⟩ := Option.map_eq_some_iff.mp hf
  cases he
  cases h
  exact ⟨f, hg, rfl⟩

end

end Builder

namespace CminusfBuilder

open Builder

/-- A part of a visitor that adds to the module, in the current function. -/
def Continues {α : Type} (x : Builder α) : Prop :=
  ∀ σ r, x σ = some r → Within σ.module r.2.module ∧ r.2.curFun = σ.curFun

section

variable {α β : Type}

theorem Continues.bind {x : Builder α} {f : α → Builder β} (hx : Continues x)
    (hf : ∀ a, Continues (f a)) : Continues (x >>= f) := by
  intro σ r h
  obtain ⟨a, σ₁, h₁, h₂⟩ := bind_some h
  obtain ⟨hw, hc⟩ := hx σ _ h₁
  obtain ⟨hw', hc'⟩ := hf a σ₁ r h₂
  exact ⟨hw.trans hw', hc'.trans hc⟩

/-- A part that leaves the module alone. -/
theorem Continues.still {x : Builder α}
    (h : ∀ σ r, x σ = some r → r.2.module = σ.module ∧ r.2.curFun = σ.curFun) : Continues x := by
  intro σ r hr
  obtain ⟨hm, hc⟩ := h σ r hr
  exact ⟨hm ▸ .refl _, hc⟩

theorem continues_modifyScope (f : Scope → Scope) : Continues (modifyScope f) :=
  .still fun σ r h => by
    cases h
    exact ⟨rfl, rfl⟩

theorem continues_setInsertPoint (b : Nat) : Continues (setInsertPoint b) :=
  .still fun σ r h => by
    cases h
    exact ⟨rfl, rfl⟩

theorem continues_createBasicBlock (name : String) : Continues (createBasicBlock name) := by
  intro σ r h
  obtain ⟨f, -, rfl⟩ := createBasicBlock_appended h
  exact ⟨createBasicBlock_within _ _ _, rfl⟩

theorem continues_createBr (t : Nat) : Continues (createBr t) := by
  intro σ r h
  obtain ⟨b, -, hr, hap⟩ := createBr_appended h
  exact ⟨hap.within, by rw [hr]⟩

theorem continues_createCondBr (c : Value) (t e : Nat) : Continues (createCondBr c t e) := by
  intro σ r h
  obtain ⟨b, -, hr, hap⟩ := createCondBr_appended h
  exact ⟨hap.within, by rw [hr]⟩

theorem continues_basics : Basics Continues where
  bind := Continues.bind
  quiet hq := .still fun σ r h => by
    obtain ⟨v, b, hr⟩ := hq σ r h
    rw [hr]
    exact ⟨rfl, rfl⟩
  create _ := fun σ r h => by
    obtain ⟨b, -, -, hr, hap⟩ := create_appended h
    exact ⟨hap.within, by rw [hr]⟩

theorem createDefaultRet_only {σ : BuilderState} {r : Value × BuilderState}
    (h : createDefaultRet σ = some r) : r.2 = { σ with module := r.2.module } := by
  obtain ⟨f, σ₁, h₁, h⟩ := bind_some h
  obtain ⟨_, -, he⟩ := Option.map_eq_some_iff.mp h₁
  cases he
  obtain ⟨m, σ₂, h₂, h⟩ := bind_some h
  cases h₂
  dsimp only at h
  split at h
  · obtain ⟨_, -, -, hr, -⟩ := create_appended h
    exact hr
  · split at h
    · obtain ⟨_, -, -, hr, -⟩ := create_appended h
      exact hr
    · obtain ⟨_, -, -, hr, -⟩ := create_appended h
      exact hr

/-- The call of `neg_idx_except` is the first instruction that is emitted. -/
theorem createNegIdxExcept_appended {σ : BuilderState} {r : Unit × BuilderState}
    (h : createNegIdxExcept σ = some r) :
    ∃ f b ty m, σ.scope.find "neg_idx_except" = some (.function f) ∧ σ.insertBlock = some b ∧
      Appended σ.module b .call ty [.function f] m ∧ Within m r.2.module ∧
      r.2 = { σ with module := r.2.module } := by
  obtain ⟨σ₀, σ₁, h₀, h⟩ := bind_some h
  cases h₀
  cases hfind : σ.scope.find "neg_idx_except" with
  | none =>
    rw [hfind] at h
    cases h
  | some func =>
    rw [hfind] at h
    obtain ⟨_, σ₁, h₁, h₂⟩ := bind_some h
    obtain ⟨_, h₁⟩ := discard_some h₁
    obtain ⟨_, h₂⟩ := discard_some h₂
    obtain ⟨f, b, rfl, -, hb, -, hσ, hap⟩ := createCall_appended h₁
    have hw := (continues_basics.createDefaultRet _ _ h₂).1
    refine ⟨f, b, _, σ₁.module, rfl, hb, hap, hw, ?_⟩
    rw [createDefaultRet_only h₂]
    dsimp only at hσ ⊢
    rw [hσ]

theorem continues_visitSubscript (var : Value) (ty : Ty) (lval : Bool) :
    Continues (visitSubscript var ty lval) := by
  have hB := continues_basics
  refine hB.getTmpVal.bind fun v => (continues_createBasicBlock _).bind fun t =>
    (continues_createBasicBlock _).bind fun c => (hB.toIndex v).bind fun v =>
    (hB.create (by simp)).bind fun isNeg => (hB.discard (continues_createCondBr _ _ _)).bind
    fun _ => (continues_setInsertPoint t).bind fun _ => (hB.createNegIdxExcept).bind
    fun _ => (continues_setInsertPoint c).bind fun _ => (hB.createElementPtr _ _ _).bind
    fun ptr => ?_
  split
  · exact (hB.setTmpVal _).bind fun _ => hB.setRequireLvalue _
  · exact (hB.createLoad _).bind fun _ => hB.setTmpVal _

theorem continues_rules : Rules Continues where
  toBasics := continues_basics
  subscript := continues_visitSubscript

theorem continues_visitExpression (e : ASTExpression) : Continues (visitExpression e) :=
  continues_rules.visitExpression e

theorem continues_parts : Parts (fun _ => True) Continues where
  bind := Continues.bind
  reads h := .still fun σ r hr => by
    rw [h σ r hr]
    exact ⟨rfl, rfl⟩
  setTmpVal := continues_basics.setTmpVal
  create h := continues_basics.create h
  createBr := continues_createBr
  createCondBr := continues_createCondBr
  block hf := (continues_createBasicBlock _).bind fun b => hf b trivial
  setInsertPoint b _ := continues_setInsertPoint b

theorem continues_setModule {m : Module} {f : Unit → Builder β} {σ : BuilderState}
    (hm : Within σ.module m) (hf : Continues (f ())) {r : β × BuilderState}
    (h : (setModule m >>= f) σ = some r) : Within σ.module r.2.module ∧ r.2.curFun = σ.curFun := by
  obtain ⟨a, σ₁, h₁, h₂⟩ := bind_some h
  cases h₁
  obtain ⟨hw, hc⟩ := hf _ r h₂
  exact ⟨hm.trans hw, hc⟩

theorem continues_visitVarDeclaration (decl : ASTVarDeclaration) :
    Continues (visitVarDeclaration decl) := by
  refine continues_basics.get.bind fun σ₀ => ?_
  split
  · intro σ r h
    obtain ⟨m, σ₁, h₁, h⟩ := bind_some h
    cases h₁
    exact continues_setModule (createGlobalVariable_within _ _ _ _) (continues_modifyScope _) h
  · exact (continues_basics.create (by simp)).bind fun _ => continues_modifyScope _

theorem continues_visitLocalDeclarations (decls : List ASTVarDeclaration) :
    Continues (visitLocalDeclarations decls) :=
  continues_parts.visitLocalDeclarations continues_visitVarDeclaration decls

theorem continues_visitParam (f : Nat) (param : ASTParam) (argNo : Nat) :
    Continues (visitParam f param argNo) :=
  continues_parts.visitParam (fun _ _ => continues_modifyScope _) f param argNo

theorem continues_visitParams (f : Nat) (params : List ASTParam) (argNo : Nat) :
    Continues (visitParams f params argNo) :=
  continues_parts.visitParams (fun _ _ => continues_modifyScope _) f params argNo

theorem continues_statements : StatementRules (fun _ => True) Continues where
  toParts := continues_parts
  expression := continues_visitExpression
  compound decls _ hstmts := by
    refine continues_parts.compound continues_visitVarDeclaration continues_modifyScope
      (fun b => .still fun σ r h => ?_) decls hstmts
    cases h
    exact ⟨rfl, rfl⟩

theorem continues_visitStatement (s : ASTStatement) : Continues (visitStatement s) :=
  continues_statements.visitStatement s

theorem continues_visitStatementList (ss : List ASTStatement) : Continues (visitStatementList ss) :=
  continues_statements.visitStatementList ss

end

end CminusfBuilder

end Cminusf
