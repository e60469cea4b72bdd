import Cminusf.Builder.Continues
import Cminusf.Builder.TypedStatements

/-! The body of a function adds to that function only. -/

namespace Cminusf

namespace CminusfBuilder

open Builder

/-- The functions but the current one, and the global variables, are as they have been. -/
structure Confined (σ σ' : BuilderState) : Prop where
  length : σ'.scope.inner.length = σ.scope.inner.length
  curFun : σ'.curFun = σ.curFun
  numGlobals : σ'.module.numGlobals = σ.module.numGlobals
  numFunctions : σ'.module.numFunctions = σ.module.numFunctions
  functions : ∀ f, σ.curFun ≠ some f → σ'.module.functions f = σ.module.functions f

/-- A part of a visitor that is confined, in a scope of the function. -/
def Confines {α : Type} (x : Builder α) : Prop :=
  ∀ σ r, x σ = some r → 2 ≤ σ.scope.inner.length → Confined σ r.2

variable {α β : Type} {σ σ' σ'' : BuilderState}

theorem Confined.refl (σ : BuilderState) : Confined σ σ := ⟨rfl, rfl, rfl, rfl, fun _ _ => rfl⟩

theorem Confined.trans (h : Confined σ σ') (h' : Confined σ' σ'') : Confined σ σ'' where
  length := h'.length.trans h.length
  curFun := h'.curFun.trans h.curFun
  numGlobals := h'.numGlobals.trans h.numGlobals
  numFunctions := h'.numFunctions.trans h.numFunctions
  functions f hf := (h'.functions f (by rwa [h.curFun])).trans (h.functions f hf)

theorem Confines.bind {x : Builder α} {f : α → Builder β} (hx : Confines x)
    (hf : ∀ a, Confines (f a)) : Confines (x >>= f) := by
  intro σ r h hlen
  obtain ⟨a, σ₁, h₁, h₂⟩ := bind_some h
  have hc := hx σ _ h₁ hlen
  have hlen₁ : 2 ≤ σ₁.scope.inner.length := hc.length.symm ▸ hlen
  exact hc.trans (hf a σ₁ r h₂ hlen₁)

theorem confined_of_appended {m : Module} {b : Nat} {opId : OpID} {ty : Ty} {ops : List Value}
    (h : Appended σ.module b opId ty ops m) (hσ : σ' = { σ with module := m }) :
    Confined σ σ' := by
  subst hσ
  exact ⟨rfl, rfl, h.numGlobals, h.numFunctions, fun f _ => by rw [h.functions]⟩

theorem confines_create {opId : OpID} {ty : Ty} {ops : List Value} :
    Confines (create opId ty ops) := by
  intro σ r h _
  obtain ⟨b, -, -, hr, hap⟩ := create_appended h
  exact confined_of_appended hap hr

theorem confines_createBr (t : Nat) : Confines (createBr t) := by
  intro σ r h _
  obtain ⟨b, -, hr, hap⟩ := createBr_appended h
  exact confined_of_appended hap hr

theorem confines_createCondBr (c : Value) (t e : Nat) : Confines (createCondBr c t e) := by
  intro σ r h _
  obtain ⟨b, -, hr, hap⟩ := createCondBr_appended h
  exact confined_of_appended hap hr

theorem confines_createBasicBlock (name : String) : Confines (createBasicBlock name) := by
  intro σ r h _
  obtain ⟨f, hf, rfl⟩ := createBasicBlock_appended h
  refine ⟨rfl, rfl, rfl, rfl, fun g hg => ?_⟩
  have hne : g ≠ f := by
    rintro rfl
    exact hg hf
  exact Function.update_of_ne hne _ _

theorem confines_basics : Basics Confines where
  bind := Confines.bind
  quiet hq := fun σ r h _ => by
    obtain ⟨v, b, hr⟩ := hq σ r h
    rw [hr]
    exact ⟨rfl, rfl, rfl, rfl, fun _ _ => rfl⟩
  create _ := confines_create

theorem confines_setInsertPoint (b : Nat) : Confines (setInsertPoint b) := by
  intro σ r h _
  cases h
  exact ⟨rfl, rfl, rfl, rfl, fun _ _ => rfl⟩

theorem confines_visitSubscript (var : Value) (ty : Ty) (lval : Bool) :
    Confines (visitSubscript var ty lval) := by
  have hB := confines_basics
  refine hB.getTmpVal.bind fun v => (confines_createBasicBlock _).bind fun t =>
    (confines_createBasicBlock _).bind fun c => (hB.toIndex v).bind fun v =>
    confines_create.bind fun isNeg => (hB.discard (confines_createCondBr _ _ _)).bind
    fun _ => (confines_setInsertPoint t).bind fun _ => (hB.createNegIdxExcept).bind
    fun _ => (confines_setInsertPoint c).bind fun _ => (hB.createElementPtr _ _ _).bind
    fun ptr => ?_
  split
  · exact (hB.setTmpVal _).bind fun _ => hB.setRequireLvalue _
  · exact (hB.createLoad _).bind fun _ => hB.setTmpVal _

theorem confines_rules : Rules Confines where
  toBasics := confines_basics
  subscript := confines_visitSubscript

theorem confines_parts : Parts (fun _ => True) Confines where
  bind := Confines.bind
  reads h := fun σ r hr _ => by
    rw [h σ r hr]
    exact .refl σ
  setTmpVal := confines_basics.setTmpVal
  create _ := confines_create
  createBr := confines_createBr
  createCondBr := confines_createCondBr
  block hf := (confines_createBasicBlock _).bind fun b => hf b trivial
  setInsertPoint b _ := confines_setInsertPoint b

theorem confines_push (id : String) (v : Value) : Confines (modifyScope (·.push id v)) := by
  intro σ r h _
  cases h
  exact ⟨(kept_push _ _ _).1, rfl, rfl, rfl, fun _ _ => rfl⟩

theorem confines_visitVarDeclaration (decl : ASTVarDeclaration) :
    Confines (visitVarDeclaration decl) := by
  intro σ r h hlen
  rw [visitVarDeclaration_eq] at h
  obtain ⟨_, _, h₀, h⟩ := bind_some h
  cases h₀
  have hglobal : σ.scope.inGlobal = false := by
    refine beq_eq_false_iff_ne.mpr ?_
    omega
  rw [hglobal] at h
  exact (confines_create.bind fun v => confines_push _ v) σ r h hlen

theorem confines_statements : StatementRules (fun _ => True) Confines where
  toParts := confines_parts
  expression e := confines_rules.visitExpression e
  compound decls stmts hstmts := by
    intro σ r h hlen
    have hblock := (confines_parts.visitLocalDeclarations confines_visitVarDeclaration decls).bind
      fun _ => hstmts
    rw [visitStatement] at h
    obtain ⟨need, σ₁, h₁, h⟩ := bind_some h
    cases hpre : σ.preEnterScope with
    | true =>
      rw [enterCompound_body hpre] at h₁
      cases h₁
      obtain ⟨_, σ₂, h₂, h⟩ := bind_some h
      obtain ⟨_, σ₃, h₃, h⟩ := bind_some h
      cases h
      have hc := hblock _ _ ((bind_run h₂).trans h₃) hlen
      exact ⟨hc.length, hc.curFun, hc.numGlobals, hc.numFunctions, hc.functions⟩
    | false =>
      rw [enterCompound_inner hpre] at h₁
      cases h₁
      obtain ⟨_, σ₂, h₂, h⟩ := bind_some h
      obtain ⟨_, σ₃, h₃, h⟩ := bind_some h
      cases h
      have hc := hblock _ _ ((bind_run h₂).trans h₃) (by simp [Scope.enter]; omega)
      refine ⟨?_, hc.curFun, hc.numGlobals, hc.numFunctions, hc.functions⟩
      have hlen₃ := hc.length
      simp only [Scope.enter, List.length_cons] at hlen₃
      simp only [Scope.exit, List.length_tail]
      omega

end CminusfBuilder

end Cminusf
