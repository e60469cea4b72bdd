import Cminusf.Builder.Continues
import Cminusf.Builder.Stored

/-! A block that is made for later stays empty until the visitors go to it. -/

namespace Cminusf

namespace CminusfBuilder

open Builder

section

variable {α β : Type} {t : Nat}

theorem KeepsEmpty.bind {x : Builder α} {f : α → Builder β} (hx : KeepsEmpty t x)
    (hf : ∀ a, KeepsEmpty t (f a)) : KeepsEmpty t (x >>= f) := empty_basics.bind hx hf

theorem KeepsEmpty.still {x : Builder α} (h : ∀ σ r, x σ = some r →
    r.2.module = σ.module ∧ r.2.insertBlock = σ.insertBlock) : KeepsEmpty t x := by
  intro σ r hr he
  obtain ⟨hm, hb⟩ := h σ r hr
  exact ⟨hm ▸ he.lt, hm ▸ he.nil, hb ▸ he.away⟩

theorem keepsEmpty_modifyScope (f : Scope → Scope) : KeepsEmpty t (modifyScope f) :=
  .still fun σ r h => by
    cases h
    exact ⟨rfl, rfl⟩

theorem keepsEmpty_setInsertPoint {b : Nat} (hb : b ≠ t) : KeepsEmpty t (setInsertPoint b) := by
  intro σ r h he
  cases h
  exact ⟨he.lt, he.nil, by simpa using hb⟩

/-- A new block is empty and is not one that has been there before. -/
theorem createBasicBlock_empty {name : String} {σ : BuilderState} {r : Nat × BuilderState}
    (h : createBasicBlock name σ = some r) (hb : σ.insertBlock ≠ some σ.module.numBlocks) :
    Empty r.1 r.2 := by
  obtain ⟨f, -, rfl⟩ := createBasicBlock_appended h
  refine ⟨Nat.lt_succ_self _, ?_, hb⟩
  show ((σ.module.createBasicBlock name f).blocks σ.module.numBlocks).instrList = []
  rw [createBasicBlock_new]

theorem KeepsEmpty.block {name : String} {f : Nat → Builder β}
    (hf : ∀ b, b ≠ t → KeepsEmpty t (f b)) : KeepsEmpty t (createBasicBlock name >>= f) := by
  intro σ r h he
  obtain ⟨b, σ₁, h₁, h⟩ := bind_some h
  obtain ⟨g, -, hr⟩ := createBasicBlock_appended h₁
  cases hr
  refine hf _ he.lt.ne' _ r h ⟨he.lt.trans (Nat.lt_succ_self _), ?_, he.away⟩
  show ((σ.module.createBasicBlock name g).blocks t).instrList = []
  rw [createBasicBlock_old he.lt, he.nil]

theorem empty_of_appended {σ σ' : BuilderState} {b : Nat} {opId : OpID} {ty : Ty} {ops : List Value}
    (h : Appended σ.module b opId ty ops σ'.module) (hb : σ.insertBlock = some b)
    (hm : σ'.insertBlock = σ.insertBlock) (he : Empty t σ) : Empty t σ' := by
  have hne : t ≠ b := by
    intro ht
    exact he.away (ht ▸ hb)
  refine ⟨by rw [h.numBlocks]; exact he.lt, ?_, hm ▸ he.away⟩
  rw [h.instrList, if_neg hne, List.append_nil]
  exact he.nil

theorem keepsEmpty_createBr (b : Nat) : KeepsEmpty t (createBr b) := by
  intro σ r h he
  obtain ⟨bb, hb, hr, hap⟩ := createBr_appended h
  exact empty_of_appended hap hb (by rw [hr]) he

theorem keepsEmpty_createCondBr (c : Value) (b e : Nat) : KeepsEmpty t (createCondBr c b e) := by
  intro σ r h he
  obtain ⟨bb, hb, hr, hap⟩ := createCondBr_appended h
  exact empty_of_appended hap hb (by rw [hr]) he

theorem keepsEmpty_visitSubscript (var : Value) (ty : Ty) (lval : Bool) :
    KeepsEmpty t (visitSubscript var ty lval) := by
  have hB : Basics (KeepsEmpty t) := empty_basics
  refine hB.getTmpVal.bind fun v => .block fun b hb => .block fun c hc => (hB.toIndex v).bind
    fun v => (hB.create (by simp)).bind fun isNeg =>
    (hB.discard (keepsEmpty_createCondBr _ _ _)).bind fun _ =>
    (keepsEmpty_setInsertPoint hb).bind fun _ => (hB.createNegIdxExcept).bind fun _ =>
    (keepsEmpty_setInsertPoint hc).bind fun _ => (hB.createElementPtr _ _ _).bind fun ptr => ?_
  split
  · exact (hB.setTmpVal _).bind fun _ => hB.setRequireLvalue _
  · exact (hB.createLoad _).bind fun _ => hB.setTmpVal _

theorem keepsEmpty_rules : Rules (KeepsEmpty t) where
  toBasics := empty_basics
  subscript := keepsEmpty_visitSubscript

theorem keepsEmpty_visitExpression (e : ASTExpression) : KeepsEmpty t (visitExpression e) :=
  keepsEmpty_rules.visitExpression e

theorem keepsEmpty_parts : Parts (· ≠ t) (KeepsEmpty t) where
  bind := KeepsEmpty.bind
  reads h := .still fun σ r hr => by
    rw [h σ r hr]
    exact ⟨rfl, rfl⟩
  setTmpVal := empty_basics.setTmpVal
  create h := empty_basics.create h
  createBr := keepsEmpty_createBr
  createCondBr := keepsEmpty_createCondBr
  block := .block
  setInsertPoint _ := keepsEmpty_setInsertPoint

theorem keepsEmpty_visitVarDeclaration (decl : ASTVarDeclaration) :
    KeepsEmpty t (visitVarDeclaration decl) := by
  refine empty_basics.get.bind fun σ₀ => ?_
  split
  · intro σ r h he
    obtain ⟨m, σ₁, h₁, h⟩ := bind_some h
    cases h₁
    cases h
    exact ⟨he.lt, he.nil, he.away⟩
  · exact (empty_basics.create (by simp)).bind fun _ => keepsEmpty_modifyScope _

theorem keepsEmpty_statements : StatementRules (· ≠ t) (KeepsEmpty t) where
  toParts := keepsEmpty_parts
  expression := keepsEmpty_visitExpression
  compound decls _ hstmts := by
    refine keepsEmpty_parts.compound keepsEmpty_visitVarDeclaration keepsEmpty_modifyScope
      (fun b => .still fun σ r h => ?_) decls hstmts
    cases h
    exact ⟨rfl, rfl⟩

end

end CminusfBuilder

end Cminusf
