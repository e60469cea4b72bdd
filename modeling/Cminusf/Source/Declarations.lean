import Cminusf.Builder.TypedStatements
import Cminusf.Source.Expressions

/-! The declarations of a block, and how the block is left. -/

namespace Cminusf

namespace Source

open Machine Builder CminusfBuilder

variable {S : Setting} {c : Context} {σ σ' σ₁ : BuilderState} {frame frame' : Frame}
  {t t' : Store} {w w' : World} {μ : Layout} {Γ Γ' : Env} {var : Value} {ty : Ty} {n : Nat}
  {b : Binding} {id : String}

/-- The same construct with other declarations in force. -/
abbrev Setting.inside (S : Setting) (Γ : Env) (μ : Layout) : Setting :=
  { S with env := Γ, layout := μ }

theorem Matches.push (h : S.Matches σ frame t w) (hΓ : S.env.declare id b = some Γ')
    (hb : Bound S.layout σ.module frame b var) :
    (S.inside Γ' S.layout).Matches { σ with scope := σ.scope.push id var } frame t w where
  curFun := h.curFun
  func := h.func
  requireLvalue := h.requireLvalue
  insertBlock := h.insertBlock
  block := h.block
  isOpen := h.isOpen
  rest := h.rest
  binds := h.binds.declare hΓ hb
  made := h.made
  mirrors := h.mirrors

/-- A new variable: the location `t.next` is what the `alloca` gives. -/
theorem createAlloca_emulates (ety : Ty) {r : Value × BuilderState} (h : S.Matches σ frame t w)
    (hr : create (.alloca ty) (.pointer ty) [] σ = some r) (hM : Within r.2.module S.target)
    (hn : ty.words = n) :
    ∃ frame₁ o, step S.ops S.target (.running frame S.callers w) =
        some (.running frame₁ S.callers w) ∧
      Later σ.module.numInstrs frame frame₁ ∧ Only σ r.2 ∧ Within σ.module r.2.module ∧
      HasType r.2.module r.1 (.pointer ty) ∧ frame₁.value r.1 = some (.pointer ⟨o, 0⟩) ∧
      S.layout.Le (Function.update S.layout t.next (some (o, ety))) ∧
      (S.inside S.env (Function.update S.layout t.next (some (o, ety)))).Matches r.2 frame₁
        { t with cells := Function.update t.cells t.next (List.replicate n none),
                 next := t.next + 1 } w := by
  obtain ⟨bb, hbb, hval, honly, hap⟩ := create_appended hr
  obtain rfl : frame.block = bb := Option.some.inj (h.insertBlock.symm.trans hbb)
  obtain ⟨rest, hrest, hins, hty, hnext⟩ := h.emit hap hM
  generalize hi : σ.module.numInstrs = i at hval hrest hins hty hnext
  have hact : Machine.action S.ops S.target S.callers.length frame w i =
      some (.yields (some (.pointer ⟨.slot S.callers.length i (frame.count i), 0⟩)) w) := by
    simp [Machine.action, hins]
  have hlater : Later i frame (frame.next i rest
      (some (.pointer ⟨.slot S.callers.length i (frame.count i), 0⟩))) := .next rest _ le_rfl
  have hm := hnext rfl (some (.pointer ⟨.slot S.callers.length i (frame.count i), 0⟩)) t w h.mirrors
  have hle : S.layout.Le (Function.update S.layout t.next
      (some (.slot S.callers.length i (frame.count i), ety))) := by
    intro l p hl
    rwa [Function.update_of_ne (h.mirrors.bound l p hl).ne]
  have hnew : ∀ l ty, S.layout l ≠ some (.slot S.callers.length i (frame.count i), ty) := by
    intro l ty hl
    have hmade := h.made l _ ty hl
    rcases hmade with hd | ⟨-, hc⟩
    · exact lt_irrefl _ hd
    · exact lt_irrefl _ hc
  have hwords : (Object.slot S.callers.length i (frame.count i)).words S.target = n := by
    simp [Object.words, hins, hn]
  refine ⟨_, .slot S.callers.length i (frame.count i), step_yields hrest hact, hlater, honly,
    hap.within, ?_, ?_, hle, ?_⟩
  · rw [hval]
    exact hty
  · rw [hval]
    exact Function.update_self _ _ _
  · rw [honly]
    refine ⟨hm.curFun, hm.func, hm.requireLvalue, hm.insertBlock, hm.block, hm.isOpen, hm.rest, ?_,
      ?_, h.mirrors.allocate hnew hwords⟩
    · exact hm.binds.later (.refl _) (.refl _ _) hle
    · intro l o ty hl
      dsimp only at hl
      by_cases he : l = t.next
      · rw [he, Function.update_self] at hl
        cases hl
        refine .inr ⟨rfl, ?_⟩
        show frame.count i < Function.update frame.count i (frame.count i + 1) i
        rw [Function.update_self]
        exact Nat.lt_succ_self _
      · rw [Function.update_of_ne he] at hl
        exact hm.made l o ty hl

/-- Declarations have been made: nothing that was declared before is lost, and no function is new. -/
def Adds (S : Setting) (σ : BuilderState) (frame : Frame) (t : Store) (σ' : BuilderState) (Γ' : Env)
    (t' : Store) (s' : State) : Prop :=
  ∃ μ frame' w', s' = .running frame' S.callers w' ∧ S.layout.Le μ ∧
    (S.inside Γ' μ).Matches σ' frame' t' w' ∧ Later σ.module.numInstrs frame frame' ∧
    Stable S.layout t t' ∧
    ∀ id f, Γ'.find id = some (.function f) → S.env.find id = some (.function f)

theorem Env.find_declare {f : Callee} {id' : String} (h : Γ.declare id b = some Γ')
    (hb : ∀ f, b ≠ .function f) (hf : Γ'.find id' = some (.function f)) :
    Γ.find id' = some (.function f) := by
  obtain ⟨top, rest, rfl, hnone, rfl⟩ := Env.declare_eq h
  rw [Env.find, List.findSome?_cons] at hf ⊢
  by_cases he : id' = id
  · subst he
    rw [List.lookup_cons_self] at hf
    exact absurd (Option.some.inj hf) (hb f)
  · have hne : (id' == id) = false := beq_eq_false_iff_ne.mpr he
    rwa [List.lookup_cons, hne] at hf

theorem stable_allocate (h : Mirrors S.target S.layout t w) (cells : List (Option Val)) :
    Stable S.layout t
      { t with cells := Function.update t.cells t.next cells, next := t.next + 1 } :=
  ⟨Nat.le_succ _, fun l _ _ hl => Function.update_of_ne (h.bound l _ hl).ne _ _⟩

theorem words_varTy (decl : ASTVarDeclaration) : (varTy decl).words = size decl := by
  obtain ⟨ty, id, num⟩ := decl
  cases num with
  | none => cases ty <;> rfl
  | some num => cases ty <;> simp [varTy, CminusfBuilder.elementTy, Ty.words, size]

theorem elementTy_eq {ty : CminusType} (h : ty ≠ .void) : CminusfBuilder.elementTy ty = ty.ty := by
  cases ty with
  | int => rfl
  | float => rfl
  | void => exact absurd rfl h

theorem binding_ne_function {decl : ASTVarDeclaration} {l : Nat} (hb : binding decl l = some b)
    (f : Callee) : b ≠ .function f := by
  rw [binding, Option.ite_none_left_eq_some] at hb
  obtain ⟨-, hb⟩ := hb
  split at hb <;> cases hb <;> simp

/-- What a new variable is bound to. -/
theorem bound_binding {m : Module} {decl : ASTVarDeclaration} {l : Nat} {o : Object}
    (hb : binding decl l = some b) (hl : μ l = some (o, decl.type.ty))
    (ht : HasType m var (.pointer (varTy decl)))
    (hv : frame.value var = some (.pointer ⟨o, 0⟩)) : Bound μ m frame b var := by
  rw [binding, Option.ite_none_left_eq_some] at hb
  obtain ⟨hty, hb⟩ := hb
  rw [varTy, elementTy_eq hty] at ht
  cases hnum : decl.num with
  | none =>
    rw [hnum] at hb ht
    cases hb
    exact .scalar hty hl ht hv
  | some n =>
    rw [hnum] at hb ht
    cases hb
    exact .array hty hl ht hv

theorem visitVarDeclaration_emulates {decl : ASTVarDeclaration} {r : Unit × BuilderState}
    (h : S.Matches σ frame t w) (hglobal : σ.scope.inGlobal = false)
    (hr : visitVarDeclaration decl σ = some r) (hM : Within r.2.module S.target) :
    Emulates (step S.ops S.target) (Adds S σ frame t r.2) (S.Fails t)
      (.running frame S.callers w) ((do
        let l ← allocate (List.replicate (size decl) none)
        let b ← defined (binding decl l)
        defined (S.env.declare decl.id b)) t) := by
  rw [visitVarDeclaration_eq] at hr
  obtain ⟨_, _, h₀, hr⟩ := bind_some hr
  cases h₀
  rw [hglobal] at hr
  obtain ⟨var, σ₁, h₁, hr⟩ := bind_some hr
  cases hr
  obtain ⟨frame₁, o, hstep, hlater, honly, hw, hty, hv, hle, hm⟩ :=
    createAlloca_emulates decl.type.ty h h₁ hM (words_varTy decl)
  have hal : allocate (List.replicate (size decl) none) t = (.ok t.next,
      { t with cells := Function.update t.cells t.next (List.replicate (size decl) none),
               next := t.next + 1 }) := rfl
  rw [bind_of_ok hal]
  cases hb : binding decl t.next with
  | none => exact trivial
  | some b =>
    have hb' : ∀ s, (defined (some b) >>= fun b => defined (S.env.declare decl.id b)) s =
        defined (S.env.declare decl.id b) s := fun _ => rfl
    rw [hb']
    cases hΓ : S.env.declare decl.id b with
    | none => exact trivial
    | some Γ' =>
      have hbound : Bound (Function.update S.layout t.next (some (o, decl.type.ty))) σ₁.module
          frame₁ b var := bound_binding hb (Function.update_self _ _ _) hty hv
      refine .of_step (S.backward t) hstep (.of_now ⟨_, frame₁, w, rfl, hle, hm.push hΓ hbound,
        hlater, stable_allocate h.mirrors _, fun id f hf =>
          Env.find_declare hΓ (binding_ne_function hb) hf⟩)

/-- A return with other declarations in force is one from the whole. -/
theorem Setting.Returns.leave {o : Option Val} {u : Store} {s : State}
    (h : (S.inside Γ μ).Returns t' o u s) (hm : Mirrors S.target S.layout t w)
    (hle : S.layout.Le μ) (hst : Stable S.layout t t') : S.Returns t o u s := by
  obtain ⟨x, w', ha, hm', hst', hr⟩ := h
  have hst₁ : Stable S.layout t u := hst.trans (hst'.mono hle)
  exact ⟨x, w', ha, hm.restrict hm' hle hst₁, hst₁, hr⟩

theorem Setting.Fails.leave {e : Stop} {u : Store} {s : State}
    (h : (S.inside Γ μ).Fails t' e u s) (hm : Mirrors S.target S.layout t w)
    (hle : S.layout.Le μ) (hst : Stable S.layout t t') : S.Fails t e u s := by
  cases e with
  | returned v => exact Setting.Returns.leave h hm hle hst
  | exited => exact h
  | outOfFuel => exact h
  | undefined => exact trivial

theorem visitLocalDeclarations_emulates (decls : List ASTVarDeclaration)
    {r : Unit × BuilderState} (h : S.Matches σ frame t w)
    (hglobal : σ.scope.inner.length ≠ 1) (hr : visitLocalDeclarations decls σ = some r)
    (hM : Within r.2.module S.target) :
    Emulates (step S.ops S.target) (Adds S σ frame t r.2) (S.Fails t)
      (.running frame S.callers w) (Source.declareVars decls S.env t) := by
  induction decls generalizing S σ frame t w with
  | nil =>
    cases hr
    exact .of_now ⟨S.layout, frame, w, rfl, .refl _, h, .refl _ _, .refl _ _, fun _ _ hf => hf⟩
  | cons decl decls ih =>
    obtain ⟨_, σ₁, h₁, hr⟩ := bind_some hr
    have hlen : σ₁.scope.inner.length ≠ 1 := by
      rw [(visitVarDeclaration_kept h₁).1.length]
      exact hglobal
    have hM₁ : Within σ₁.module S.target := (continues_visitLocalDeclarations decls σ₁ r hr).1.trans hM
    have hnot : σ.scope.inGlobal = false := beq_eq_false_iff_ne.mpr hglobal
    have hy : Source.declareVars (decl :: decls) S.env = (do
        let l ← allocate (List.replicate (size decl) none)
        let b ← defined (binding decl l)
        defined (S.env.declare decl.id b)) >>= Source.declareVars decls := by
      rw [Source.declareVars]
      simp only [bind_assoc]
    rw [hy]
    refine (visitVarDeclaration_emulates h hnot h₁ hM₁).bind (S.backward t) fun Γ t₁ s₁ hs₁ => ?_
    obtain ⟨μ, frame₁, w₁, rfl, hle, hm₁, hl₁, hst₁, hf₁⟩ := hs₁
    refine (ih hm₁ hlen hr hM).mono ?_ fun e u he => he.leave h.mirrors hle hst₁
    intro Γ₂ t₂ s₂ hs₂
    obtain ⟨μ₂, frame₂, w₂, rfl, hle₂, hm₂, hl₂, hst₂, hf₂⟩ := hs₂
    have hw₁ := (continues_visitVarDeclaration decl σ _ h₁).1
    exact ⟨μ₂, frame₂, w₂, rfl, hle.trans hle₂, hm₂, hl₁.trans hl₂ hw₁.widens.numInstrs,
      hst₁.trans (hst₂.mono hle), fun id f hf => hf₁ id f (hf₂ id f hf)⟩

end Source

end Cminusf
