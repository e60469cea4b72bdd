import Cminusf.Source.Globals
import Cminusf.Source.Statements

/-! The call of a function: its parameters, its body and the return to the caller. -/

namespace Cminusf

namespace Source

open Machine Builder CminusfBuilder

variable {S : Setting} {c : Context} {σ σ' σ₁ : BuilderState} {frame frame' : Frame}
  {t t' : Store} {w w' : World} {μ μ' : Layout} {Γ Γ' : Env} {v : Val} {x : Word} {o : Object}
  {param : ASTParam} {argNo l : Nat} {m : Module} {var : Value}

theorem bound_paramBinding (hty : param.type ≠ .void)
    (hl : μ l = some (o, paramTy (param.type, param.isarray)))
    (ht : HasType m var (.pointer (paramType param)))
    (hv : frame.value var = some (.pointer ⟨o, 0⟩)) :
    Bound μ m frame (paramBinding param l) var ∧ ∀ f, paramBinding param l ≠ .function f := by
  obtain ⟨ty, id, isarray⟩ := param
  cases isarray with
  | true =>
    refine ⟨?_, by simp [paramBinding]⟩
    cases ty with
    | int => exact .arrayParam hty hl ht hv
    | float => exact .arrayParam hty hl ht hv
    | void => exact absurd rfl hty
  | false =>
    refine ⟨?_, by simp [paramBinding]⟩
    cases ty with
    | int => exact .scalar hty hl ht hv
    | float => exact .scalar hty hl ht hv
    | void => exact absurd rfl hty

theorem words_paramType (param : ASTParam) : (paramType param).words = 1 := by
  obtain ⟨ty, id, isarray⟩ := param
  cases ty <;> cases isarray <;> rfl

/-- A parameter is a variable that starts with its argument. -/
theorem visitParam_emulates {r : Unit × BuilderState} (h : S.Matches σ frame t w)
    (hr : visitParam frame.func param argNo σ = some r) (hM : Within r.2.module S.target)
    (hty : param.type ≠ .void) (hx : frame.args[argNo]? = some x)
    (hden : Denotes S.layout v (paramTy (param.type, param.isarray)) x) :
    Emulates (step S.ops S.target) (Adds S σ frame t r.2) (S.Fails t)
      (.running frame S.callers w) ((do
        let l ← allocate [some v]
        defined (S.env.declare param.id (paramBinding param l))) t) := by
  obtain ⟨var, σ₁, h₁, hr⟩ := bind_some hr
  obtain ⟨_, σ₂, h₂, hr⟩ := bind_some hr
  obtain ⟨_, h₂⟩ := discard_some h₂
  cases hr
  have hM₁ : Within σ₁.module S.target :=
    (continues_basics.create (by simp) σ₁ _ h₂).1.trans hM
  obtain ⟨frame₁, o, hstep, hl₁, honly₁, hw₁, hvar, hval, hle, hm₁⟩ :=
    createAlloca_emulates (paramTy (param.type, param.isarray)) h h₁ hM₁ (words_paramType param)
  dsimp only at honly₁ hw₁ hvar hval hle hm₁
  -- the variable is written at once
  have hμ : Function.update S.layout t.next
      (some (o, paramTy (param.type, param.isarray))) t.next =
        some (o, paramTy (param.type, param.isarray)) := Function.update_self _ _ _
  generalize Function.update S.layout t.next
    (some (o, paramTy (param.type, param.isarray))) = μ at hμ hle hm₁
  obtain ⟨w₂, hwrite, hmem⟩ := hm₁.mirrors.write (k := 0) hμ (hm₁.made _ _ _ hμ) (by simp)
    (hden.mono hle)
  simp only [Function.update_self, Function.update_idem, List.replicate_one, List.set_cons_zero]
    at hmem
  obtain ⟨bb, hbb, -, honly₂, hap⟩ := create_appended h₂
  replace honly₂ : Only σ₁ σ₂ := honly₂
  replace hap : Appended σ₁.module bb .store .void [.argument frame.func argNo, var] σ₂.module := hap
  obtain rfl : frame₁.block = bb := Option.some.inj (hm₁.insertBlock.symm.trans hbb)
  obtain ⟨rest, hrest, hins, -, hnext⟩ := hm₁.emit hap hM
  generalize hi : σ₁.module.numInstrs = i at hrest hins hnext
  replace hins : S.target.instrs i =
      ⟨.store, .void, [.argument frame.func argNo, var], frame₁.block⟩ := hins
  replace hwrite : w.write S.target S.callers.length ⟨o, 0⟩ x = some w₂ := hwrite
  have hact : Machine.action S.ops S.target S.callers.length frame₁ w i =
      some (.yields none w₂) := by
    have harg : frame₁.value (.argument frame.func argNo) = some x := by
      rw [← hx, Frame.value, hl₁.func, if_pos rfl, hl₁.args]
    rw [action_of_computes (by simp [hins, IsSpecial]), hins]
    simp [harg, hval, compute, hwrite]
  have hm₂ := hnext rfl none _ w₂ hmem
  have hl₂ : Later σ₁.module.numInstrs frame₁ (frame₁.next i rest none) :=
    .next rest none hi.le
  have hal : allocate [some v] t = (.ok t.next,
      { t with cells := Function.update t.cells t.next [some v], next := t.next + 1 }) := rfl
  rw [bind_of_ok hal]
  cases hΓ : S.env.declare param.id (paramBinding param t.next) with
  | none => exact trivial
  | some Γ' =>
    have hwithin : Within σ₁.module σ₂.module := hap.within
    obtain ⟨hbound, hnot⟩ := bound_paramBinding hty hμ hvar hval
    have hbound' := hbound.later hwithin hl₂ (.refl _)
    have hm₃ : (S.inside S.env μ).Matches σ₂ (frame₁.next i rest none)
        { t with cells := Function.update t.cells t.next [some v], next := t.next + 1 } w₂ := by
      rw [honly₂]
      exact hm₂
    refine .of_step (S.backward t) hstep (.of_step (S.backward t) (step_yields hrest hact)
      (.of_now ⟨μ, _, w₂, rfl, hle, hm₃.push hΓ hbound', ?_, stable_allocate h.mirrors _,
        fun id f hf => Env.find_declare hΓ hnot hf⟩))
    exact hl₁.trans hl₂ hw₁.widens.numInstrs

theorem Passes.mono {params : List (CminusType × Bool)} {vs : List Val} {xs : List Word}
    (h : Passes μ params vs xs) (hle : μ.Le μ') : Passes μ' params vs xs := by
  induction h with
  | nil => exact .nil
  | cons hty hden _ ih => exact .cons hty (hden.mono hle) ih

/-- The parameters of a function, behind those that have been declared. -/
theorem visitParams_emulates (params : List ASTParam) {vs : List Val} {r : Unit × BuilderState}
    (h : S.Matches σ frame t w) (hr : visitParams frame.func params argNo σ = some r)
    (hM : Within r.2.module S.target)
    (hp : Passes S.layout (params.map fun p => (p.type, p.isarray)) vs (frame.args.drop argNo)) :
    Emulates (step S.ops S.target) (Adds S σ frame t r.2) (S.Fails t)
      (.running frame S.callers w) (declareParams params vs S.env t) := by
  induction params generalizing S σ frame t w vs argNo with
  | nil =>
    cases hr
    generalize frame.args.drop argNo = xs at hp
    cases hp
    exact .of_now ⟨S.layout, frame, w, rfl, .refl _, h, .refl _ _, .refl _ _, fun _ _ hf => hf⟩
  | cons param params ih =>
    rw [visitParams_cons] at hr
    obtain ⟨_, σ₁, h₁, h₂⟩ := bind_some hr
    have hM₁ : Within σ₁.module S.target := (continues_visitParams _ params _ σ₁ r h₂).1.trans hM
    generalize hxs : frame.args.drop argNo = xs at hp
    cases hp with
    | @cons _ _ v vs x xs hty hden hp =>
      have hx : frame.args[argNo]? = some x := by
        rw [← List.head?_drop, hxs]
        rfl
      have hrest : frame.args.drop (argNo + 1) = xs := by
        rw [← List.drop_drop, hxs]
        rfl
      have hy : declareParams (param :: params) (v :: vs) S.env = (do
          let l ← allocate [some v]
          defined (S.env.declare param.id (paramBinding param l))) >>= declareParams params vs := by
        rw [declareParams]
        simp only [bind_assoc]
      rw [hy]
      refine (visitParam_emulates h h₁ hM₁ hty hx hden).bind (S.backward t) fun Γ t₁ s₁ hs₁ => ?_
      obtain ⟨μ, frame₁, w₁, rfl, hle, hm₁, hl₁, hst₁, hf₁⟩ := hs₁
      rw [← hl₁.func] at h₂
      rw [← hrest, ← hl₁.args] at hp
      refine (ih (S := S.inside Γ μ) hm₁ h₂ hM (hp.mono hle)).mono ?_
        fun e u he => he.leave h.mirrors hle hst₁
      intro Γ₂ t₂ s₂ hs₂
      obtain ⟨μ₂, frame₂, w₂, rfl, hle₂, hm₂, hl₂, hst₂, hf₂⟩ := hs₂
      have hw₁ := (continues_visitParam frame.func param argNo σ _ h₁).1
      exact ⟨μ₂, frame₂, w₂, rfl, hle.trans hle₂, hm₂, hl₁.trans hl₂ hw₁.widens.numInstrs,
        hst₁.trans (hst₂.mono hle), fun id f hf => hf₁ id f (hf₂ id f hf)⟩

/-- A function that ends without a `return` returns the default value. -/
theorem createRetIfOpen_returns {r : Unit × BuilderState} (h : S.Matches σ frame t w)
    (hr : createRetIfOpen σ = some r) (hM : Within r.2.module S.target)
    (hret : (S.target.functions frame.func).returnType = S.ret.ty) :
    S.Returns t (zero S.ret) t (.running frame S.callers w) := by
  have hM₀ : Within σ.module S.target := (continues_parts.createRetIfOpen σ r hr).1.trans hM
  rw [createRetIfOpen, bind_run (terminated_run h.insertBlock), h.isOpen] at hr
  obtain ⟨_, hr⟩ := discard_some hr
  rw [createDefaultRet, bind_run (getCurFun_run h.curFun), bind_run (getModule_run σ)] at hr
  have hty : (σ.module.functions frame.func).returnType = S.ret.ty := by
    rw [← hM₀.widens.returnType _ h.func, hret]
  rw [hty] at hr
  cases hS : S.ret with
  | void =>
    rw [hS] at hr
    exact createRet_returns (x := none) h hr hM rfl (.none _)
  | float =>
    rw [hS] at hr
    refine createRet_returns (x := some (.number (.float 0))) h hr hM rfl ?_
    rw [hS]
    exact .float 0
  | int =>
    rw [hS] at hr
    refine createRet_returns (x := some (.number (.int 0))) h hr hM rfl ?_
    rw [hS]
    exact .int 0

/-- The body of a function up to its end. -/
theorem body_emulates {node : ASTFunDeclaration} {vs : List Val} {r : Unit × BuilderState}
    (hS : Serves S c) (h : S.Matches σ frame t w) (hpre : σ.preEnterScope = true)
    (hlen : σ.scope.inner.length = 2)
    (hret : (S.target.functions frame.func).returnType = S.ret.ty)
    (hr : (visitParams frame.func node.params 0 >>= fun _ =>
      visitStatement (.compound node.localDeclarations node.statementList) >>= fun _ =>
      createRetIfOpen) σ = some r) (hM : Within r.2.module S.target)
    (hp : Passes S.layout (node.params.map fun p => (p.type, p.isarray)) vs frame.args) :
    Emulates (step S.ops S.target) (fun _ t' s' => S.Returns t (zero S.ret) t' s') (S.Fails t)
      (.running frame S.callers w) ((do
        let Γ ← declareParams node.params vs S.env
        let Γ ← Source.declareVars node.localDeclarations Γ
        execStatements c S.fuel S.ret node.statementList Γ) t) := by
  obtain ⟨_, σ₁, h₁, hr⟩ := bind_some hr
  obtain ⟨_, σ₂, h₂, h₃⟩ := bind_some hr
  have hM₂ : Within σ₂.module S.target := (continues_parts.createRetIfOpen σ₂ r h₃).1.trans hM
  have hM₁ : Within σ₁.module S.target := (continues_visitStatement _ σ₁ _ h₂).1.trans hM₂
  obtain ⟨hk, hpre₁⟩ := visitParams_kept h₁
  refine (visitParams_emulates node.params h h₁ hM₁ hp).bind (S.backward t) fun Γ t₁ s₁ hs₁ => ?_
  obtain ⟨μ, frame₁, w₁, rfl, hle, hm₁, hl₁, hst₁, hf₁⟩ := hs₁
  rw [visitStatement] at h₂
  obtain ⟨_, σ₃, h₄, h₂⟩ := bind_some h₂
  rw [enterCompound_body (hpre₁.trans hpre)] at h₄
  cases h₄
  obtain ⟨_, σ₄, h₅, h₂⟩ := bind_some h₂
  obtain ⟨_, σ₅, h₆, h₂⟩ := bind_some h₂
  cases h₂
  have hblock : (visitLocalDeclarations node.localDeclarations >>= fun _ =>
      visitStatementList node.statementList) { σ₁ with preEnterScope := false } = some ((), σ₂) :=
    (bind_run h₅).trans h₆
  have hlen₁ : σ₁.scope.inner.length = 2 := hk.length.trans hlen
  have hready : (S.inside Γ μ).Ready { σ₁ with preEnterScope := false } frame₁ t₁ w₁ := by
    refine ⟨hm₁.congr rfl rfl rfl rfl hm₁.requireLvalue, rfl, ?_, ?_⟩
    · intro hnil
      rw [hnil] at hlen₁
      cases hlen₁
    · rw [hl₁.func]
      exact hret
  have hne : σ₁.scope.inner.length ≠ 1 := by omega
  refine ((block_emulates (visitStatementList_runs c node.statementList) (hS.inside hle hf₁) hready
    hne hblock hM₂).mono (fun _ t₂ s₂ hs₂ => ?_) fun _ _ he => he.leave h.mirrors hle hst₁)
  obtain ⟨Γ₂, μ₂, frame₂, w₂, rfl, hle₂, hm₂, hl₂, hst₂⟩ := hs₂
  have hret₂ : (S.target.functions frame₂.func).returnType = S.ret.ty := by
    rw [hl₂.func, hl₁.func]
    exact hret
  have hend : ((S.inside Γ μ).inside Γ₂ μ₂).Returns t₂ (zero S.ret) t₂
      (.running frame₂ S.callers w₂) := createRetIfOpen_returns hm₂ h₃ hM hret₂
  exact (hend.leave hm₁.mirrors hle₂ hst₂).leave h.mirrors hle hst₁

/-- The value of a call is what the caller gets. -/
theorem answer_emulates {y : Eval Unit} {s : State}
    (hres : ∀ x w, ∃ s', resume S.callers x w = some s')
    (h : Emulates (step S.ops S.target) (fun _ t' s' => S.Returns t (zero S.ret) t' s') (S.Fails t)
      s (y t)) :
    Emulates (step S.ops S.target) (fun o t' s' => ∃ x w', Answers S.ret o x ∧
        Mirrors S.target S.layout t' w' ∧ Stable S.layout t t' ∧ resume S.callers x w' = some s')
      (Source.Fails S.ops S.target S.fuel fun _ _ _ => False) s (answer S.ret y t) := by
  have hreturn : ∀ {o t' s'}, Reaches S.ops S.target s s' → S.Returns t o t' s' →
      ∃ s'', Reaches S.ops S.target s s'' ∧ ∃ x w', Answers S.ret o x ∧
        Mirrors S.target S.layout t' w' ∧ Stable S.layout t t' ∧
        resume S.callers x w' = some s'' := by
    intro o t' s' hs hret
    obtain ⟨x, w', ha, hm, hst, hr⟩ := hret
    obtain ⟨s'', hs''⟩ := hres x w'
    exact ⟨s'', hs.trans (hr s'' hs''), x, w', ha, hm, hst, hs''⟩
  rw [answer]
  generalize y t = r at h
  obtain ⟨a | a, t'⟩ := r
  · cases a with
    | returned v => exact hreturn .refl h
    | exited => exact h
    | outOfFuel => exact h
    | undefined => exact trivial
  · obtain ⟨s', hs, hret⟩ := h
    exact hreturn hs hret

/-! ### The entry of a function -/

section

variable {M : Module} {g : Globals} {k n : Nat} {node : ASTFunDeclaration}

theorem Visit.enter (hv : Visit M k node Γ σ σ') (hphis : ∀ b < M.numBlocks, Gvn.phis M b = [])
    (xs : List Word) : ∃ frame σ₁ σ₂, invoke M (4 + k) xs = some frame ∧ frame.func = 4 + k ∧
      frame.args = xs ∧ σ₁.preEnterScope = true ∧ σ₁.scope.inner.length = 2 ∧
      (visitParams frame.func node.params 0 >>= fun _ =>
        visitStatement (.compound node.localDeclarations node.statementList) >>= fun _ =>
        createRetIfOpen) σ₁ = some ((), σ₂) ∧ Within σ₂.module M ∧
      ∀ (depth : Nat) (μ : Layout) (t : Store) (w : World), (globalLayout M).Le μ →
        (∀ count, μ.Made depth count) → Mirrors M μ t w →
        Source.Matches M ([] :: Γ) μ depth σ₁ frame t w := by
  obtain ⟨Γ₀, hΓ, hbinds⟩ := hv.declared
  have hnum := hv.numFunctions
  have hr := hv.run
  rw [← hnum]
  obtain ⟨f, σ₁, h₁, hr⟩ := bind_some hr
  obtain ⟨_, σ₂, h₂, hr⟩ := bind_some hr
  obtain ⟨_, σ₃, h₃, hr⟩ := bind_some hr
  obtain ⟨_, σ₄, h₄, hr⟩ := bind_some hr
  cases hr
  have hw : Within σ₄.module M := hv.within
  have hbody : (visitParams f node.params 0 >>= fun _ =>
      visitStatement (.compound node.localDeclarations node.statementList) >>= fun _ =>
      createRetIfOpen) σ₁ = some ((), σ₄) := by
    rw [bind_run h₂, bind_run h₃]
    exact h₄
  have hcont : Within σ₁.module σ₄.module :=
    (continues_statements.body (fun _ _ => continues_modifyScope _) _ node _ _ hbody).1
  have hw₁ : Within σ₁.module M := hcont.trans hw
  cases h₁
  dsimp only at hw₁ hcont
  have hw₀ : Within σ.module ((σ.module.createFunction node.id (returnType node)
      (node.params.map paramType)).createBasicBlock "entry" σ.module.numFunctions) :=
    (createFunction_within _ _ _ _).trans (createBasicBlock_within _ _ _)
  have hfun : ((σ.module.createFunction node.id (returnType node)
      (node.params.map paramType)).createBasicBlock "entry" σ.module.numFunctions).functions
        σ.module.numFunctions =
      ⟨node.id, returnType node, node.params.map paramType, [σ.module.numBlocks]⟩ := by
    simp [Module.createFunction, Module.createBasicBlock]
  have hlt : σ.module.numFunctions < σ.module.numFunctions + 1 := Nat.lt_succ_self _
  have hblk : σ.module.numBlocks < M.numBlocks :=
    (Nat.lt_succ_self σ.module.numBlocks).trans_le hw₁.widens.numBlocks
  have hempty : (((σ.module.createFunction node.id (returnType node)
      (node.params.map paramType)).createBasicBlock "entry" σ.module.numFunctions).blocks
        σ.module.numBlocks).instrList = [] :=
    congrArg BasicBlock.instrList createBasicBlock_new
  have hhead : (M.functions σ.module.numFunctions).basicBlocks.head? = some σ.module.numBlocks := by
    obtain ⟨rest, hrest⟩ := hw₁.basicBlocks σ.module.numFunctions hlt
    rw [← hrest, hfun]
    rfl
  have hbound : ∀ frame, Bound (globalLayout M) ((σ.module.createFunction node.id (returnType node)
      (node.params.map paramType)).createBasicBlock "entry" σ.module.numFunctions) frame
      (.function (.user k)) (.function σ.module.numFunctions) := by
    intro frame
    have hb : Bound (globalLayout M) ((σ.module.createFunction node.id (returnType node)
        (node.params.map paramType)).createBasicBlock "entry" σ.module.numFunctions) frame
        (.function (.user k)) (.function (4 + k)) := .function (hnum.symm.trans_lt hlt)
    rwa [← hnum] at hb
  refine ⟨⟨σ.module.numFunctions, σ.module.numBlocks, xs, fun _ => none, fun _ => 0,
    (M.blocks σ.module.numBlocks).instrList⟩, _, σ₄, ?_, rfl, rfl, rfl, ?_, hbody, hw, ?_⟩
  · rw [invoke, hhead, Option.map_some, body_eq (hphis _ hblk)]
  · simp only [Scope.enter, List.length_cons, (kept_push _ _ _).1, hv.isGlobal]
  · intro depth μ t w hle hmade hmem
    refine ⟨rfl, hlt, hv.requireLvalue, rfl, Nat.lt_succ_self _, ?_, ?_, .cons .nil ?_, hmade _, hmem⟩
    · simp [Module.getTerminator, hempty]
    · rw [hempty]
      rfl
    · exact ((hbinds _).later hw₀ (.refl _ _) ((globalLayout_le
        (hw₀.widens.trans hw₁.widens)).trans hle)).declare hΓ
        ((hbound _).later (.refl _) (.refl _ _) hle)

/-! ### The functions of the library -/

theorem Mirrors.read_input {ns : List (BitVec 32)} (h : Mirrors m μ t w) :
    Mirrors m μ { t with input := ns } { w with input := ns } where
  bound := h.bound
  injective := h.injective
  words := h.words
  cells := h.cells
  input := rfl
  events := h.events

/-- The call of a function of the library is one step. -/
theorem callLibrary {f : Callee} {i : Nat} {args : List Value} {xs : List Word}
    (hlib : S.target.functions f.index = initial.module.functions f.index) (hf : f.index < 4)
    (hop : (S.target.instrs i).opId = .call)
    (hops : (S.target.instrs i).operands = .function f.index :: args)
    (hxs : args.mapM frame.value = some xs) :
    Machine.action S.ops S.target S.callers.length frame w i =
      external (initial.module.functions f.index).name xs w := by
  have hdecl : (initial.module.functions f.index).isDeclaration = true := by
    cases f with
    | user k =>
      have : 4 + k < 4 := hf
      omega
    | _ => rfl
  simp [Machine.action, hop, hops, hxs, hlib, hdecl]

theorem callsTo_library {f : Callee} (hf : f.index < 4)
    (hlib : ∀ f < 4, S.target.functions f = initial.module.functions f) :
    S.CallsTo f (g.params f) (libraryCall f) := by
  intro vs xs frame t w i rest args _ hrest hop hops hxs hpass _ hmem
  have hact := callLibrary (w := w) (hlib f.index hf) hf hop hops hxs
  cases f with
  | user k =>
    have : 4 + k < 4 := hf
    omega
  | input =>
    cases hpass
    cases hin : t.input with
    | nil =>
      have hcall : libraryCall .input [] t = (.error .undefined, t) := by
        dsimp only [libraryCall]
        rw [hin]
      rw [hcall]
      exact trivial
    | cons n ns =>
      have hcall : libraryCall .input [] t =
          (.ok (some (.int n)), { t with input := ns }.emit (.input n)) := by
        dsimp only [libraryCall]
        rw [hin]
      rw [hcall]
      have hw : w.input = n :: ns := hmem.input.trans hin
      have hext : external (initial.module.functions Callee.input.index).name [] w =
          some (.yields (some (.number (.int n))) ({ w with input := ns }.emit (.input n))) := by
        have hname : (initial.module.functions Callee.input.index).name = "input" := rfl
        simp [external, hname, hw]
      refine .of_step (S.backward t) (step_yields hrest (hact.trans hext))
        (.of_now ⟨_, _, rfl, hmem.read_input.emit _, ⟨le_rfl, fun _ _ _ _ => rfl⟩, fun u hu => ?_⟩)
      cases hu
      refine ⟨_, rfl, ?_⟩
      rw [hlib _ hf]
      exact .int n
  | output =>
    cases hpass with
    | cons _ hden hpass =>
      cases hpass
      cases hden with
      | int n =>
        have hext : external (initial.module.functions Callee.output.index).name
            [.number (.int n)] w = some (.yields none (w.emit (.output n))) := by
          have hname : (initial.module.functions Callee.output.index).name = "output" := rfl
          simp [external, hname]
        exact .of_step (S.backward t) (step_yields hrest (hact.trans hext))
          (.of_now ⟨_, _, rfl, hmem.emit _, .emit _ _ _, fun u hu => by cases hu⟩)
  | outputFloat =>
    cases hpass with
    | cons _ hden hpass =>
      cases hpass
      cases hden with
      | float x =>
        have hext : external (initial.module.functions Callee.outputFloat.index).name
            [.number (.float x)] w = some (.yields none (w.emit (.outputFloat x))) := by
          have hname : (initial.module.functions Callee.outputFloat.index).name = "outputFloat" := rfl
          simp [external, hname]
        exact .of_step (S.backward t) (step_yields hrest (hact.trans hext))
          (.of_now ⟨_, _, rfl, hmem.emit _, .emit _ _ _, fun u hu => by cases hu⟩)
  | negIdxExcept =>
    cases hpass
    have hext : external (initial.module.functions Callee.negIdxExcept.index).name [] w =
        some (.exits (w.emit .negIdxExcept)) := by
      have hname : (initial.module.functions Callee.negIdxExcept.index).name = "neg_idx_except" := rfl
      simp [external, hname]
    refine ⟨w.emit .negIdxExcept, .single ?_, (hmem.emit .negIdxExcept).events⟩
    rw [step, hrest]
    dsimp only
    rw [hact, hext]
    rfl

/-! ### Calls -/

/-- The calls do what they should, wherever they are made, for so much fuel. -/
def CallsAt (ops : FloatOps) (g : Globals) (M : Module) (fuel : Nat) : Prop :=
  ∀ S : Setting, S.ops = ops → S.target = M → S.fuel = fuel → (globalLayout M).Le S.layout →
    S.Calls ⟨ops, g.params, callFunction ops g fuel⟩

theorem serves_function {ops : FloatOps} {fuel : Nat} (hl : Linked g M)
    (hv : Visit M k node Γ σ σ') (hcalls : CallsAt ops g M fuel) (hops : S.ops = ops)
    (htarget : S.target = M) (hglobals : S.globals = globalLayout M)
    (hle : (globalLayout M).Le S.layout) (henv : S.env = [] :: Γ) (hfuel : S.fuel = fuel) :
    Serves S ⟨ops, g.params, callFunction ops g fuel⟩ where
  ops := hops.symm
  globals := by
    rw [hglobals]
    exact hle
  phis := htarget ▸ hl.phis
  negIdxExcept f hf := by
    refine hv.negIdxExcept f ?_
    rwa [henv, Env.find, List.findSome?_cons] at hf
  library := by
    rw [htarget, hl.library 3 (by decide)]
    exact ⟨rfl, rfl⟩
  params f hf := by
    rw [htarget] at hf ⊢
    exact hl.params hf
  call μ' hμ' := hcalls _ hops htarget hfuel (hglobals ▸ hμ')

/-- The run of a function of the program, from its entry to the return. -/
theorem function_emulates {ops : FloatOps} {fuel : Nat} {callers : List Frame} {vs : List Val}
    {xs : List Word} (hl : Linked g M) (hbody : g.bodies[k]? = some (node, Γ))
    (hcalls : CallsAt ops g M fuel) (hle : (globalLayout M).Le μ)
    (hmade : ∀ count, μ.Made callers.length count) (hmem : Mirrors M μ t w)
    (hpass : Passes μ (g.params (.user k)) vs xs)
    (hres : ∀ x w, ∃ s', resume callers x w = some s') :
    ∃ frame, invoke M (4 + k) xs = some frame ∧
      Emulates (step ops M) (fun o t' s' => ∃ x w', Answers node.type o x ∧ Mirrors M μ t' w' ∧
          Stable μ t t' ∧ resume callers x w' = some s')
        (Source.Fails ops M fuel fun _ _ _ => False) (.running frame callers w)
        (callFunction ops g (fuel + 1) (.user k) vs t) := by
  obtain ⟨σ, σ', hv⟩ := hl.visit k node Γ hbody
  obtain ⟨frame, σ₁, σ₂, hinv, hfunc, hargs, hpre, hlen, hrun, hM, hm⟩ := hv.enter hl.phis xs
  let S : Setting := ⟨ops, M, callers, [] :: Γ, globalLayout M, μ, node.type, fuel⟩
  have hS : Serves S ⟨ops, g.params, callFunction ops g fuel⟩ :=
    serves_function (S := S) hl hv hcalls rfl rfl rfl hle rfl rfl
  have hmatch : S.Matches σ₁ frame t w := hm callers.length μ t w hle hmade hmem
  have hret : (S.target.functions frame.func).returnType = S.ret.ty := by
    rw [hfunc]
    exact hv.signature.2.1
  have hp : Passes S.layout (node.params.map fun p => (p.type, p.isarray)) vs frame.args := by
    rw [hargs]
    rwa [Globals.params, hbody] at hpass
  have hcall : callFunction ops g (fuel + 1) (.user k) vs = answer node.type (do
      let Γ ← declareParams node.params vs ([] :: Γ)
      let Γ ← Source.declareVars node.localDeclarations Γ
      execStatements ⟨ops, g.params, callFunction ops g fuel⟩ fuel node.type node.statementList
        Γ) := by
    rw [callFunction, hbody]
  refine ⟨frame, hinv, ?_⟩
  rw [hcall]
  exact answer_emulates (S := S) hres (body_emulates hS hmatch hpre hlen hret hrun hM hp)

theorem Answers.denotes {ret : CminusType} {o : Option Val} {x : Option Word} {u : Val}
    (h : Answers ret o x) (hu : o = some u) (μ : Layout) : ∃ z, x = some z ∧ Denotes μ u ret.ty z := by
  cases h with
  | none => cases hu
  | int n =>
    cases hu
    exact ⟨_, rfl, .int n⟩
  | float y =>
    cases hu
    exact ⟨_, rfl, .float y⟩

/-- The calls of a program, however deep. -/
theorem callsAt (hl : Linked g M) (ops : FloatOps) (fuel : Nat) : CallsAt ops g M fuel := by
  induction fuel with
  | zero =>
    intro S hops htarget hfuel hle f
    by_cases hf : f.index < 4
    · have hcall : callFunction ops g 0 f = libraryCall f := by
        cases f with
        | user k => exact absurd hf (by simp [Callee.index])
        | _ => rfl
      show S.CallsTo f (g.params f) (callFunction ops g 0 f)
      rw [hcall]
      exact callsTo_library hf (htarget ▸ hl.library)
    · cases f with
      | user k =>
        intro vs xs frame t w i rest args _ _ _ _ _ _ _ hmem
        exact ⟨0, _, hfuel.le, rfl, hmem.events⟩
      | _ => exact absurd (by decide) hf
  | succ fuel ih =>
    intro S hops htarget hfuel hle f
    by_cases hf : f.index < 4
    · have hcall : callFunction ops g (fuel + 1) f = libraryCall f := by
        cases f with
        | user k => exact absurd hf (by simp [Callee.index])
        | _ => rfl
      show S.CallsTo f (g.params f) (callFunction ops g (fuel + 1) f)
      rw [hcall]
      exact callsTo_library hf (htarget ▸ hl.library)
    · cases f with
      | user k =>
        subst hops htarget
        intro vs xs frame t w i rest args hlt hrest hop hargs hxs hpass hmade hmem
        have hk : k < g.bodies.length := by
          have hlt : 4 + k < S.target.numFunctions := hlt
          rw [hl.numFunctions] at hlt
          omega
        obtain ⟨⟨node, Γ⟩, hbody⟩ : ∃ body, g.bodies[k]? = some body :=
          ⟨_, List.getElem?_eq_getElem hk⟩
        have hresume : ∀ x w, resume (frame :: S.callers) x w =
            some (.running (frame.next i rest x) S.callers (w.leave (S.callers.length + 1))) := by
          intro x w
          rw [resume, Frame.finish, hrest]
          rfl
        have hmade' : ∀ count, S.layout.Made (frame :: S.callers).length count :=
          fun count l o ty hl => (hmade l o ty hl).above
        obtain ⟨callee, hinv, hrun⟩ := function_emulates hl hbody ih hle hmade' hmem hpass
          fun x w => ⟨_, hresume x w⟩
        have hdecl : (S.target.functions (4 + k)).isDeclaration = false := by
          rw [invoke] at hinv
          obtain ⟨b, hb, -⟩ := Option.map_eq_some_iff.mp hinv
          cases hbs : (S.target.functions (4 + k)).basicBlocks with
          | nil =>
            rw [hbs] at hb
            cases hb
          | cons => rw [Function.isDeclaration, hbs]; rfl
        have hstep : step S.ops S.target (.running frame S.callers w) =
            some (.running callee (frame :: S.callers) w) := by
          have hact : Machine.action S.ops S.target S.callers.length frame w i =
              some (.calls (4 + k) xs) := by
            have hargs : (S.target.instrs i).operands = .function (4 + k) :: args := hargs
            simp [Machine.action, hop, hargs, hxs, hdecl]
          rw [step, hrest]
          dsimp only
          rw [hact, Option.bind_some, perform, hinv, Option.map_some]
        obtain ⟨σ, σ', hv⟩ := hl.visit k node Γ hbody
        refine .after_step hstep (fun e u he => ?_) (hrun.mono (fun o t' s' hs => ?_)
          fun _ _ he => he)
        · exact (he.step hstep fun _ hr => hr.elim).mono hfuel.le fun _ hr => hr.elim
        · obtain ⟨x, w', ha, hm, hst, hs⟩ := hs
          rw [hresume] at hs
          cases hs
          refine ⟨x, _, rfl, hm.leave hmade, hst, fun u hu => ?_⟩
          show ∃ z, x = some z ∧ Denotes S.layout u (S.target.functions (4 + k)).returnType z
          rw [hv.signature.2.1]
          exact ha.denotes hu _
      | _ => exact absurd (by decide) hf

end

end Source

end Cminusf
