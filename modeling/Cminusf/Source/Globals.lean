import Cminusf.Builder.Confined
import Cminusf.Builder.Flags
import Cminusf.Source.Declarations

/-! The declarations of a program and what the visitors have made of them. -/

namespace Cminusf

namespace Source

open Machine Builder CminusfBuilder

/-- The type of the elements of a variable. -/
def cellTy : Ty → Ty
  | .array ty _ => ty
  | ty => ty

/-- The global variables have the first locations. -/
def globalLayout (m : Module) : Layout := fun l =>
  if l < m.numGlobals then some (.globalVariable l, cellTy (m.globals l).valueType) else none

/-- What the declarations made so far have become. -/
structure Declared (g : Globals) (σ : BuilderState) : Prop where
  numFunctions : σ.module.numFunctions = 4 + g.bodies.length
  numGlobals : σ.module.numGlobals = g.cells.length
  binds : ∀ frame, Binds (globalLayout σ.module) σ.module frame g.env σ.scope.inner
  isGlobal : g.env.length = 1
  requireLvalue : σ.requireLvalue = false
  library : ∀ f < 4, σ.module.functions f = initial.module.functions f
  cells : ∀ l < g.cells.length, ∃ decl : ASTVarDeclaration, decl.type ≠ .void ∧
    σ.module.globals l = ⟨decl.id, varTy decl, [.constZero (varTy decl)]⟩ ∧
    g.cells[l]? = some (List.replicate (size decl) (Source.zero decl.type))
  named : ∀ k body, g.bodies[k]? = some body → g.env.find body.1.id = some (.function (.user k))
  user : ∀ id k, g.env.find id = some (.function (.user k)) →
    ∃ body, g.bodies[k]? = some body ∧ body.1.id = id
  negIdxExcept : g.env.find "neg_idx_except" = some (.function .negIdxExcept)

/-- The `k`-th function of the program has been visited where `Γ` was declared. -/
structure Visit (M : Module) (k : Nat) (decl : ASTFunDeclaration) (Γ : Env) (σ σ' : BuilderState) :
    Prop where
  run : visitFunDeclaration decl σ = some ((), σ')
  within : Within σ'.module M
  numFunctions : σ.module.numFunctions = 4 + k
  isGlobal : σ.scope.inner.length = 1
  requireLvalue : σ.requireLvalue = false
  declared : ∃ Γ₀ : Env, Γ₀.declare decl.id (.function (.user k)) = some Γ ∧
    ∀ frame, Binds (globalLayout σ.module) σ.module frame Γ₀ σ.scope.inner
  negIdxExcept : ∀ f, Γ.find "neg_idx_except" = some (.function f) → f = .negIdxExcept

variable {g g' : Globals} {m m' M : Module} {σ σ' σ₁ : BuilderState} {Γ Γ' : Env} {id : String}
  {b : Binding} {decl : ASTVarDeclaration} {node : ASTFunDeclaration} {k : Nat}

theorem globalLayout_le (h : Widens m m') : (globalLayout m).Le (globalLayout m') := by
  intro l p hl
  rw [globalLayout, Option.ite_none_right_eq_some] at hl
  obtain ⟨hlt, hp⟩ := hl
  rw [globalLayout, if_pos (hlt.trans_le h.numGlobals), h.globals l hlt, hp]

theorem cellTy_varTy (h : decl.type ≠ .void) : cellTy (varTy decl) = decl.type.ty := by
  rw [varTy, elementTy_eq h]
  cases decl.num with
  | none => cases decl.type <;> rfl
  | some n => rfl

/-- A name that has been declared in the global scope is new there. -/
theorem Env.find_global (h : Γ.declare id b = some Γ') (hlen : Γ.length = 1) :
    Γ'.length = 1 ∧ Γ.find id = none ∧
      ∀ id', Γ'.find id' = if id' = id then some b else Γ.find id' := by
  obtain ⟨top, rest, rfl, hnone, rfl⟩ := Env.declare_eq h
  obtain rfl : rest = [] := List.length_eq_zero_iff.mp (Nat.succ.inj hlen)
  refine ⟨rfl, ?_, fun id' => ?_⟩
  · simp [Env.find, hnone]
  · by_cases he : id' = id
    · subst he
      simp [Env.find]
    · have hne : (id' == id) = false := beq_eq_false_iff_ne.mpr he
      rw [if_neg he]
      simp [Env.find, List.lookup_cons, hne]

theorem declared_initial : Declared Globals.library initial where
  numFunctions := rfl
  numGlobals := rfl
  binds frame := by
    have hf : ∀ f : Callee, f.index < 4 → Bound (globalLayout initial.module) initial.module frame
      (.function f) (.function f.index) := fun f hlt => .function hlt
    exact .cons (.cons ⟨rfl, hf .negIdxExcept (by decide)⟩ <|
      .cons ⟨rfl, hf .outputFloat (by decide)⟩ <| .cons ⟨rfl, hf .output (by decide)⟩ <|
      .cons ⟨rfl, hf .input (by decide)⟩ .nil) .nil
  isGlobal := rfl
  requireLvalue := rfl
  library _ _ := rfl
  cells _ h := absurd h (Nat.not_lt_zero _)
  named _ _ h := by cases h
  user id k h := by
    obtain ⟨top, htop, hk⟩ := List.exists_of_findSome?_eq_some h
    obtain ⟨l₁, l₂, hl, -⟩ := List.lookup_eq_some_iff.mp hk
    have hmem : (id, Binding.function (.user k)) ∈ top := by
      rw [hl]
      simp
    rw [List.mem_singleton.mp htop] at hmem
    simp at hmem
  negIdxExcept := rfl

theorem Declared.scope_length (h : Declared g σ) : σ.scope.inner.length = 1 := by
  have hlen := (h.binds ⟨0, 0, [], fun _ => none, fun _ => 0, []⟩).length_eq
  rw [← hlen, h.isGlobal]

/-- A global variable has the next location. -/
theorem Declared.var {r : Unit × BuilderState} (h : Declared g σ)
    (hr : visitVarDeclaration decl σ = some r) (hg : g.declare (.var decl) = some g') :
    Declared g' r.2 ∧ g'.bodies = g.bodies := by
  obtain ⟨b, hb, hg⟩ := Option.bind_eq_some_iff.mp hg
  obtain ⟨Γ, hΓ, hg⟩ := Option.bind_eq_some_iff.mp hg
  cases hg
  have hlen := h.scope_length
  rw [visitVarDeclaration_eq] at hr
  obtain ⟨_, _, h₀, hr⟩ := bind_some hr
  cases h₀
  have hglobal : σ.scope.inGlobal = true := beq_iff_eq.mpr hlen
  rw [if_pos hglobal] at hr
  obtain ⟨m, _, h₁, hr⟩ := bind_some hr
  cases h₁
  cases hr
  have hw := createGlobalVariable_within σ.module decl.id (varTy decl) (.constZero (varTy decl))
  have hty : decl.type ≠ .void := by
    intro hv
    rw [binding, if_pos hv] at hb
    cases hb
  obtain ⟨hlen', hnone, hfind⟩ := Env.find_global hΓ h.isGlobal
  have hnew : (σ.module.createGlobalVariable decl.id (varTy decl) (.constZero (varTy decl))).globals
      σ.module.numGlobals = ⟨decl.id, varTy decl, [.constZero (varTy decl)]⟩ := by
    simp [Module.createGlobalVariable, Module.addUse]
  have hnum : (σ.module.createGlobalVariable decl.id (varTy decl)
      (.constZero (varTy decl))).numGlobals = σ.module.numGlobals + 1 := rfl
  have hlayout : globalLayout (σ.module.createGlobalVariable decl.id (varTy decl)
      (.constZero (varTy decl))) g.cells.length =
        some (.globalVariable g.cells.length, decl.type.ty) := by
    rw [globalLayout, hnum, h.numGlobals, if_pos (Nat.lt_succ_self _), ← h.numGlobals, hnew,
      cellTy_varTy hty]
  have hvar : HasType (σ.module.createGlobalVariable decl.id (varTy decl) (.constZero (varTy decl)))
      (.globalVariable σ.module.numGlobals) (.pointer (varTy decl)) := by
    refine ⟨Nat.lt_succ_self _, ?_⟩
    rw [Module.getType, hnew]
  refine ⟨⟨h.numFunctions, ?_, fun frame => ?_, hlen', h.requireLvalue, h.library, ?_, ?_, ?_, ?_⟩,
    rfl⟩
  · show σ.module.numGlobals + 1 = (g.cells ++ _).length
    simp [h.numGlobals]
  · have hval : frame.value (.globalVariable σ.module.numGlobals) =
        some (.pointer ⟨.globalVariable g.cells.length, 0⟩) := by
      rw [h.numGlobals]
      rfl
    exact ((h.binds frame).later hw (.refl _ _) (globalLayout_le hw.widens)).declare hΓ
      (bound_binding hb hlayout hvar hval)
  · intro l hl
    dsimp only at hl ⊢
    rw [List.length_append, List.length_singleton] at hl
    by_cases he : l = g.cells.length
    · subst he
      refine ⟨decl, hty, ?_, by simp⟩
      rw [← h.numGlobals]
      exact hnew
    · obtain ⟨decl', hty', hglob, hcell⟩ := h.cells l (by omega)
      refine ⟨decl', hty', ?_, ?_⟩
      · rw [← hglob]
        exact hw.widens.globals l (by rw [h.numGlobals]; omega)
      · rw [List.getElem?_append_left (by omega), hcell]
  · intro k body hk
    have hold := h.named k body hk
    show Γ.find _ = _
    rw [hfind, if_neg, hold]
    intro he
    rw [he, hnone] at hold
    cases hold
  · intro id k hk
    replace hk : Γ.find id = _ := hk
    rw [hfind] at hk
    split at hk
    · exact absurd (Option.some.inj hk) (binding_ne_function hb _)
    · exact h.user id k hk
  · show Γ.find _ = _
    rw [hfind, if_neg, h.negIdxExcept]
    intro he
    rw [← he, h.negIdxExcept] at hnone
    cases hnone

/-- A function is the next one of the module. -/
theorem Declared.function {r : Unit × BuilderState} (h : Declared g σ)
    (hr : visitFunDeclaration node σ = some r) (hg : g.declare (.fun node) = some g') :
    Declared g' r.2 ∧ Within σ.module r.2.module ∧ ∃ Γ, g'.bodies = g.bodies ++ [(node, Γ)] ∧
      Visit r.2.module g.bodies.length node Γ σ r.2 := by
  obtain ⟨Γ, hΓ, hg⟩ := Option.bind_eq_some_iff.mp hg
  cases hg
  have hlen := h.scope_length
  obtain ⟨hlen', hnone, hfind⟩ := Env.find_global hΓ h.isGlobal
  have hne : node.id ≠ "neg_idx_except" := by
    intro he
    rw [he, h.negIdxExcept] at hnone
    cases hnone
  have hneg : Γ.find "neg_idx_except" = some (.function .negIdxExcept) := by
    rw [hfind, if_neg hne.symm, h.negIdxExcept]
  have hscope := (visitFunDeclaration_run hr).1
  have hrun := hr
  obtain ⟨f, σ₁, h₁, hr⟩ := bind_some hr
  obtain ⟨_, σ₂, h₂, hr⟩ := bind_some hr
  obtain ⟨_, σ₃, h₃, hr⟩ := bind_some hr
  obtain ⟨_, σ₄, h₄, hr⟩ := bind_some hr
  cases hr
  have hbody : (visitParams f node.params 0 >>= fun _ =>
      visitStatement (.compound node.localDeclarations node.statementList) >>= fun _ =>
      createRetIfOpen) σ₁ = some ((), σ₄) := by
    rw [bind_run h₂, bind_run h₃]
    exact h₄
  cases h₁
  have hconf := confines_statements.body confines_push _ node _ _ hbody (by
    simp only [Scope.enter, List.length_cons, (kept_push _ _ _).1, hlen]
    omega)
  have hcont := (continues_statements.body (fun _ _ => continues_modifyScope _) _ node _ _ hbody).1
  have hclear := clears_statements.body (fun _ _ => clears_modifyScope _) _ node _ _ hbody
  dsimp only at hcont hclear
  have hw₁ := (createFunction_within σ.module node.id (returnType node)
    (node.params.map paramType)).trans (createBasicBlock_within _ "entry" σ.module.numFunctions)
  have hw : Within σ.module σ₄.module := hw₁.trans hcont
  have hnum : σ₄.module.numFunctions = σ.module.numFunctions + 1 := hconf.numFunctions
  have hglobals : σ₄.module.numGlobals = σ.module.numGlobals := hconf.numGlobals
  have hl : σ₄.requireLvalue = false := by
    rcases hclear with he | he
    · exact he.trans h.requireLvalue
    · exact he
  refine ⟨⟨?_, hglobals.trans h.numGlobals, fun frame => ?_, hlen', hl, fun f hf => ?_, fun l hlt => ?_,
    ?_, ?_, hneg⟩, hw, Γ, rfl, hrun, .refl _, h.numFunctions, hlen, h.requireLvalue,
    ⟨_, hΓ, h.binds⟩, fun f hf => ?_⟩
  · show σ₄.module.numFunctions = 4 + (g.bodies ++ [(node, Γ)]).length
    rw [hnum, h.numFunctions, List.length_append, List.length_singleton]
    omega
  · rw [hscope]
    refine ((h.binds frame).later hw (.refl _ _) (globalLayout_le hw.widens)).declare hΓ ?_
    have hindex : σ.module.numFunctions = (Callee.user g.bodies.length).index := h.numFunctions
    rw [hindex]
    refine .function ?_
    show 4 + g.bodies.length < σ₄.module.numFunctions
    rw [hnum, h.numFunctions]
    omega
  · rw [← h.library f hf]
    have hold := h.numFunctions
    have hcur : some σ.module.numFunctions ≠ some f := by
      intro he
      have := Option.some.inj he
      omega
    refine (hconf.functions f hcur).trans ?_
    have hfne : f ≠ σ.module.numFunctions := by omega
    simp [Module.createFunction, Module.createBasicBlock, hfne]
  · obtain ⟨decl, hty, hglob, hcell⟩ := h.cells l hlt
    exact ⟨decl, hty, (hw.widens.globals l (by rw [h.numGlobals]; exact hlt)).trans hglob, hcell⟩
  · intro k body hk
    dsimp only at hk ⊢
    rw [hfind]
    by_cases hlt : k < g.bodies.length
    · rw [List.getElem?_append_left hlt] at hk
      have hold := h.named k body hk
      rw [if_neg, hold]
      intro he
      rw [he, hnone] at hold
      cases hold
    · rw [List.getElem?_append_right (by omega)] at hk
      have hzero := (List.getElem?_eq_some_iff.mp hk).1
      rw [List.length_singleton] at hzero
      obtain rfl : k = g.bodies.length := by omega
      rw [Nat.sub_self] at hk
      cases hk
      rw [if_pos rfl]
  · intro id k hk
    dsimp only at hk ⊢
    rw [hfind] at hk
    split at hk
    · rename_i he
      cases hk
      exact ⟨(node, Γ), by simp, he.symm⟩
    · obtain ⟨body, hbody, hid⟩ := h.user id k hk
      exact ⟨body, by rw [List.getElem?_append_left (List.getElem?_eq_some_iff.mp hbody).1, hbody], hid⟩
  · rw [hneg] at hf
    cases hf
    rfl

theorem Visit.later (h : Visit m k node Γ σ σ') (hw : Within m M) : Visit M k node Γ σ σ' where
  run := h.run
  within := h.within.trans hw
  numFunctions := h.numFunctions
  isGlobal := h.isGlobal
  requireLvalue := h.requireLvalue
  declared := h.declared
  negIdxExcept := h.negIdxExcept

/-- All the declarations of a program. -/
theorem visitDeclarations_declared (decls : List ASTDeclaration) {r : Unit × BuilderState}
    (h : Declared g σ) (hr : visitDeclarations decls σ = some r)
    (hg : decls.foldlM Globals.declare g = some g') :
    Declared g' r.2 ∧ Within σ.module r.2.module ∧ g.bodies <+: g'.bodies ∧
      ∀ k node Γ, g.bodies.length ≤ k → g'.bodies[k]? = some (node, Γ) →
        ∃ σ₀ σ₁, Visit r.2.module k node Γ σ₀ σ₁ := by
  induction decls generalizing g σ with
  | nil =>
    cases hr
    cases hg
    refine ⟨h, .refl _, List.prefix_rfl, fun k node Γ hk hget => ?_⟩
    have hlt := (List.getElem?_eq_some_iff.mp hget).1
    omega
  | cons decl decls ih =>
    obtain ⟨_, σ₁, h₁, h₂⟩ := bind_some hr
    rw [List.foldlM_cons] at hg
    obtain ⟨g₁, hg₁, hg₂⟩ := Option.bind_eq_some_iff.mp hg
    cases decl with
    | var decl =>
      obtain ⟨hd, hbodies⟩ := h.var h₁ hg₁
      obtain ⟨hd', hw, hpre, hvisit⟩ := ih hd h₂ hg₂
      rw [hbodies] at hpre hvisit
      exact ⟨hd', (continues_visitVarDeclaration decl σ _ h₁).1.trans hw, hpre, hvisit⟩
    | «fun» node =>
      obtain ⟨hd, hw₁, Γ₁, hbodies, hv⟩ := h.function h₁ hg₁
      obtain ⟨hd', hw, hpre, hvisit⟩ := ih hd h₂ hg₂
      rw [hbodies] at hpre hvisit
      refine ⟨hd', hw₁.trans hw, (List.prefix_append _ _).trans hpre, fun k node' Γ hk hget => ?_⟩
      by_cases he : k = g.bodies.length
      · subst he
        have hnew : g'.bodies[g.bodies.length]? = some (node, Γ₁) := by
          obtain ⟨rest, hrest⟩ := hpre
          rw [← hrest]
          simp
        rw [hget] at hnew
        cases hnew
        exact ⟨σ, σ₁, hv.later hw⟩
      · refine hvisit k node' Γ ?_ hget
        rw [List.length_append, List.length_singleton]
        omega

/-- The module of a program and the program. -/
structure Linked (g : Globals) (M : Module) : Prop where
  phis : ∀ b < M.numBlocks, Gvn.phis M b = []
  numFunctions : M.numFunctions = 4 + g.bodies.length
  library : ∀ f < 4, M.functions f = initial.module.functions f
  visit : ∀ k node Γ, g.bodies[k]? = some (node, Γ) → ∃ σ σ', Visit M k node Γ σ σ'

theorem Visit.signature (hv : Visit M k node Γ σ σ') : (M.functions (4 + k)).name = node.id ∧
    (M.functions (4 + k)).returnType = node.type.ty ∧
    (M.functions (4 + k)).paramTypes = node.params.map paramType := by
  have hw := hv.within
  have hr := hv.run
  rw [← hv.numFunctions]
  obtain ⟨f, σ₁, h₁, hr⟩ := bind_some hr
  obtain ⟨_, σ₂, h₂, hr⟩ := bind_some hr
  obtain ⟨_, σ₃, h₃, hr⟩ := bind_some hr
  obtain ⟨_, σ₄, h₄, hr⟩ := bind_some hr
  cases hr
  have hw₁ : Within σ₁.module M := ((continues_visitParams _ _ _ _ _ h₂).1.trans
    ((continues_visitStatement _ _ _ h₃).1.trans (continues_parts.createRetIfOpen _ _ h₄).1)).trans hw
  cases h₁
  dsimp only at hw₁
  have hlt : σ.module.numFunctions < σ.module.numFunctions + 1 := Nat.lt_succ_self _
  have hfun : ((σ.module.createFunction node.id (returnType node)
      (node.params.map paramType)).createBasicBlock "entry" σ.module.numFunctions).functions
        σ.module.numFunctions =
      ⟨node.id, returnType node, node.params.map paramType, [σ.module.numBlocks]⟩ := by
    simp [Module.createFunction, Module.createBasicBlock]
  refine ⟨?_, ?_, ?_⟩
  · rw [hw₁.name _ hlt, hfun]
  · rw [hw₁.widens.returnType _ hlt, hfun, returnType]
    cases node.type <;> rfl
  · rw [hw₁.widens.paramTypes _ hlt, hfun]

theorem Linked.params (h : Linked g M) {f : Callee} (hf : f.index < M.numFunctions) :
    (M.functions f.index).paramTypes = (g.params f).map paramTy := by
  cases f with
  | user k =>
    have hk : k < g.bodies.length := by
      have hlt : 4 + k < M.numFunctions := hf
      rw [h.numFunctions] at hlt
      omega
    obtain ⟨σ, σ', hv⟩ := h.visit k g.bodies[k].1 g.bodies[k].2 (List.getElem?_eq_getElem hk)
    have hsig := hv.signature.2.2
    show (M.functions (4 + k)).paramTypes = _
    rw [hsig, Globals.params, List.getElem?_eq_getElem hk]
    rw [Option.elim_some, List.map_map]
    rfl
  | input => rw [h.library _ (by decide)]; rfl
  | output => rw [h.library _ (by decide)]; rfl
  | outputFloat => rw [h.library _ (by decide)]; rfl
  | negIdxExcept => rw [h.library _ (by decide)]; rfl

/-- The visitors make no phis. -/
theorem phis_eq_nil {origin : Nat → Option Nat} {n : Nat} (h : Inv M origin) (hn : n < M.numBlocks) :
    Gvn.phis M n = [] := by
  refine List.filter_eq_nil_iff.mpr fun i hi => ?_
  obtain ⟨hlt, -⟩ := h.instr_mem n hn i hi
  have hop := (h.emits i hlt).ne_phi
  cases ho : (M.instrs i).opId <;> simp [Instruction.isPhi, ho]
  exact hop _ ho

theorem linked_of_buildModule {program : ASTProgram} (h : buildModule program = some M)
    (hg : Globals.ofProgram program = some g) :
    Linked g M ∧ ∃ σ : BuilderState, σ.module = M ∧ Declared g σ := by
  obtain ⟨origin, hinv⟩ := buildModule_inv h
  obtain ⟨r, hr, rfl⟩ := Option.map_eq_some_iff.mp h
  obtain ⟨hd, -, -, hvisit⟩ := visitDeclarations_declared program.declarations declared_initial hr hg
  exact ⟨⟨fun b hb => phis_eq_nil hinv hb, hd.numFunctions, hd.library, fun k node Γ hk =>
    hvisit k node Γ (Nat.zero_le k) hk⟩, r.2, rfl, hd⟩

end Source

end Cminusf
