import Cminusf.Source.Variables

/-! The code of an expression does what the expression means. -/

namespace Cminusf

namespace CminusfBuilder

open Builder

/-- The conversion of an argument to the type of its parameter. -/
def convertPassed (paramTy : Ty) (val : Value) : Builder Value := do
  let ty ← getType val
  if !ty.isPointer && paramTy ≠ ty then
    if ty.isInteger then createSitofp val .float else createFptosi val .int32
  else return val

theorem convertArg_eq (ty : Ty) : convertArg ty = getTmpVal >>= convertPassed ty := rfl

theorem continues_convertPassed (ty : Ty) (v : Value) : Continues (convertPassed ty v) := by
  refine (continues_basics.getType v).bind fun vTy => ?_
  split
  · split
    · exact continues_basics.create (by simp)
    · exact continues_basics.create (by simp)
  · exact continues_basics.pure _

theorem continues_visitArgs (args : List ASTExpression) (tys : List Ty) :
    Continues (visitArgs args tys) := continues_rules.visitArgs args tys

theorem continues_createCall (func : Value) (args : List Value) :
    Continues (createCall func args) := continues_basics.createCall func args

end CminusfBuilder

namespace Source

open Machine Builder CminusfBuilder

variable {S : Setting} {c : Context} {σ σ' : BuilderState} {frame frame' : Frame}
  {t t' : Store} {w w' : World} {val : Value} {vals : List Value} {u v : Val} {vs : List Val}
  {param : CminusType × Bool} {params : List (CminusType × Bool)} {g : Callee}

/-- The value is `v`, as it is passed for the parameter. -/
def Fits (S : Setting) (param : CminusType × Bool) (v : Val) (σ' : BuilderState) (frame' : Frame)
    (p : Value) : Prop :=
  param.1 ≠ .void ∧ Present σ'.module p ∧
    ∃ x, frame'.value p = some x ∧ Denotes S.layout v (paramTy param) x

theorem fits_of_carries {ty : CminusType} (hc : Carries S.layout σ.module frame val v)
    (hty : ty ≠ .void) (hv : σ.module.getType val = ty.ty) :
    Fits S (ty, false) v σ frame val := by
  obtain ⟨x, hp, hx, hden⟩ := hc
  rw [hv] at hden
  refine ⟨hty, hp, x, hx, ?_⟩
  cases ty with
  | int => exact hden
  | float => exact hden
  | void => exact absurd rfl hty

theorem convertPassed_implements (h : S.Matches σ frame t w)
    (hc : Carries S.layout σ.module frame val u) (hv : u.pass S.ops param = some v) :
    Implements S (convertPassed (paramTy param) val) (pure ()) σ frame t w fun p _ σ' frame' =>
      Fits S param v σ' frame' p := by
  refine .getType ?_
  obtain ⟨ty, isArray⟩ := param
  cases isArray with
  | true =>
    cases u with
    | int => cases hv
    | float => cases hv
    | array ety l =>
      have hpass : (if ety = ty then some (Val.array ety l) else none) = some v := hv
      rw [Option.ite_none_right_eq_some] at hpass
      obtain ⟨rfl, hv'⟩ := hpass
      cases hv'
      obtain ⟨o, hety, ho, hval, hp⟩ := hc.array
      have hpty : paramTy (ety, true) = .pointer ety.ty := by
        cases ety with
        | int => rfl
        | float => rfl
        | void => exact absurd rfl hety
      rw [hp.type, if_neg (by simp [Ty.isPointer])]
      exact .pure h ⟨hety, hp.present, _, hval, hpty ▸ .array hety ho⟩
  | false =>
    replace hv : u.convert S.ops ty = some v := hv
    cases u with
    | int n =>
      cases ty with
      | int =>
        cases hv
        rw [hc.int.2, if_neg (by simp [paramTy, paramType])]
        exact .pure h (fits_of_carries hc (by simp) hc.int.2)
      | float =>
        cases hv
        rw [hc.int.2, if_pos (by simp [paramTy, paramType, Ty.isPointer]), if_pos (by rfl)]
        exact (createSitofp_implements h hc).mono fun _ _ _ _ _ hq =>
          fits_of_carries hq.1 (by simp) hq.1.float.2
      | void => cases hv
    | float x =>
      cases ty with
      | int =>
        obtain ⟨n, hn, rfl⟩ := Option.map_eq_some_iff.mp hv
        rw [hc.float.2, if_pos (by simp [paramTy, paramType, Ty.isPointer]),
          if_neg (by simp [Ty.isInteger])]
        exact (createFptosi_implements h hc hn).mono fun _ _ _ _ _ hq =>
          fits_of_carries hq.1 (by simp) hq.1.int.2
      | float =>
        cases hv
        rw [hc.float.2, if_neg (by simp [paramTy, paramType])]
        exact .pure h (fits_of_carries hc (by simp) hc.float.2)
      | void => cases hv
    | array => cases ty <;> cases hv

/-- The values of the arguments. -/
def GivesArgs (S : Setting) (params : List (CminusType × Bool)) (vals : List Value)
    (vs : List Val) (σ' : BuilderState) (frame' : Frame) : Prop :=
  (∀ v ∈ vals, Present σ'.module v) ∧
    ∃ xs, vals.mapM frame'.value = some xs ∧ Passes S.layout params vs xs

theorem GivesArgs.cons (h : GivesArgs S params vals vs σ' frame')
    (hp : Fits S param v σ frame val) (hw : Within σ.module σ'.module)
    (hl : Later σ.module.numInstrs frame frame') :
    GivesArgs S (param :: params) (val :: vals) (v :: vs) σ' frame' := by
  obtain ⟨hpres, xs, hxs, hpass⟩ := h
  obtain ⟨hty, hpr, x, hx, hden⟩ := hp
  refine ⟨List.forall_mem_cons.mpr ⟨hpr.widen hw.widens, hpres⟩, x :: xs, ?_, .cons hty hden hpass⟩
  have hx' : frame'.value val = some x := (hl.value hpr).trans hx
  simp [hx', hxs]

/-- A call does what the call of the program does. -/
theorem createCall_implements (hS : Serves S c) (h : S.Matches σ frame t w)
    (hg : g.index < σ.module.numFunctions) (ha : GivesArgs S (c.params g) vals vs σ frame) :
    Implements S (createCall (.function g.index) vals) (c.call g vs) σ frame t w
      fun val o σ' frame' => ∀ u, o = some u → Carries S.layout σ'.module frame' val u := by
  intro r hr hM
  obtain ⟨f, b, hf, -, hb, hval, honly, hap⟩ := createCall_appended hr
  cases hf
  obtain rfl : frame.block = b := Option.some.inj (h.insertBlock.symm.trans hb)
  obtain ⟨rest, hrest, hins, hty, hnext⟩ := h.emit hap hM
  obtain ⟨-, xs, hxs, hpass⟩ := ha
  have hwm : Within σ.module S.target := hap.within.trans hM
  have hcall := hS.call S.layout hS.globals g vs xs frame t w σ.module.numInstrs rest vals
    (hg.trans_le hwm.widens.numFunctions) hrest (by rw [hins]) (by rw [hins]) hxs hpass h.made
    h.mirrors
  refine hcall.mono (fun o t' s' hs => ?_) fun _ _ he => he
  obtain ⟨x, w', rfl, hmem, hst, hres⟩ := hs
  refine ⟨_, w', rfl, ?_, .next rest x le_rfl, hst, fun u hu => ?_⟩
  · rw [honly]
    exact hnext rfl x t' w' hmem
  · obtain ⟨z, rfl, hden⟩ := hres u hu
    rw [hval]
    refine carries_of_type hty (Function.update_self _ _ _) ?_
    rwa [← hwm.widens.returnType g.index hg]

/-- The assignment of a value to the variable whose address is in `tmp_val`. -/
theorem visitStore_implements {place : CminusType × Nat × Nat} (h : S.Matches σ frame t w)
    (hp : GivesAddress S () place σ frame) (hc : Carries S.layout σ.module frame val u) :
    Implements S (visitStore val) (do
        let v ← defined (u.convert S.ops place.1)
        write place.2.1 place.2.2 v
        return some v) σ frame t w (Gives S) := by
  obtain ⟨hty, ptr, htmp, hloc⟩ := hp
  have hB := continues_basics
  have hcs : ∀ v, Continues (createStore v ptr) := fun v => hB.create (by simp)
  refine .defined fun v hv => .getTmpVal fun ptr' hptr' => ?_
  obtain rfl : ptr = ptr' := Option.some.inj (htmp.symm.trans hptr')
  refine .getType ?_
  rw [hloc.type.type]
  have hcr : ∀ p, Continues (discard (createStore p ptr) >>= fun _ => setTmpVal p) := fun p =>
    (hB.discard (hcs p)).bind fun _ => hB.setTmpVal p
  refine (convertStored_implements h hc hty hv).before (hB.convertStored _ _) hcr
    fun p σ₁ frame₁ t₁ w₁ _ hw₁ hm₁ hl₁ hq₁ => ?_
  have hstore := createStore_implements hm₁ hty (hloc.later hw₁ hl₁ (.refl _)) hq₁.1
    (type_of_convert hv hq₁.1)
  refine hstore.discard.bind (hB.discard (hcs p)) (fun _ => hB.setTmpVal p)
    fun _ _ σ₂ frame₂ t₂ w₂ _ hw₂ hm₂ hl₂ _ => ?_
  refine .setTmpVal hm₂ fun v' hv' => ?_
  cases hv'
  exact ⟨p, rfl, hq₁.1.later hw₂ hl₂ (.refl _)⟩

/-- The flag is for the variable that is visited next. -/
theorem Implements.setLvalue {γ δ : Type} {f : Unit → Builder γ} {y : Eval δ}
    {R : γ → δ → BuilderState → Frame → Prop}
    (hf : Implements S (f ()) y { σ with requireLvalue := true } frame t w R) :
    Implements S (setRequireLvalue true >>= f) y σ frame t w R := fun r h hM => hf r h hM

/-- What is proved of the visitor of an expression. -/
def Evaluates (S : Setting) (x : Builder Unit) (y : Eval (Option Val)) : Prop :=
  ∀ σ frame t w, S.Matches σ frame t w → Implements S x y σ frame t w (Gives S)

mutual

theorem visitExpression_implements (hS : Serves S c) :
    ∀ e : ASTExpression, Evaluates S (visitExpression e) (evalExpression c S.env e)
  | .assign var e => by
    intro σ frame t w h
    rw [visitExpression, evalExpression, hS.ops]
    have hcv : Continues (visitVar var) := continues_rules.visitVar var
    have hcs : ∀ v, Continues (visitStore v) := continues_basics.visitStore
    refine .operand (visitExpression_implements hS e σ frame t w h) (continues_visitExpression e)
      (fun v => (continues_basics.setRequireLvalue true).bind fun _ => hcv.bind fun _ => hcs v)
      fun val u σ₁ frame₁ t₁ w₁ _ _ hm₁ _ hc₁ => .setLvalue ?_
    refine (visitVar_address hS var σ₁ frame₁ t₁ w₁ hm₁).bind hcv (fun _ => hcs val)
      fun _ place σ₂ frame₂ t₂ w₂ _ hw₂ hm₂ hl₂ hq₂ => ?_
    obtain ⟨ty, l, i⟩ := place
    exact visitStore_implements hm₂ hq₂ (hc₁.later hw₂ hl₂ (.refl _))
  | .simple l => by
    intro σ frame t w h
    rw [visitExpression, evalExpression]
    exact visitAdditiveExpression_implements hS l σ frame t w h
  | .relation l op r => by
    intro σ frame t w h
    rw [visitExpression, evalExpression, hS.ops]
    have hcl : ∀ e, Continues (visitAdditiveExpression e) := fun e =>
      continues_rules.visitAdditiveExpression e
    refine binary (promoting_relation S.ops op)
      (visitAdditiveExpression_implements hS l σ frame t w h) (hcl l) (hcl r) ?_
      (fun σ' frame' t' w' _ hm => visitAdditiveExpression_implements hS r σ' frame' t' w' hm)
      (fun n k u hu σ frame t w l r hm hl hr => createRelation_ints op hu hm hl hr)
      fun x y u hu σ frame t w l r hm hl hr => createRelation_floats op hu hm hl hr
    exact fun p => (continues_basics.createRelation _ _ _ _).bind fun _ =>
      (continues_basics.create (by simp)).bind fun _ => continues_basics.setTmpVal _

theorem visitAdditiveExpression_implements (hS : Serves S c) :
    ∀ e : ASTAdditiveExpression,
      Evaluates S (visitAdditiveExpression e) (evalAdditive c S.env e)
  | .ofTerm term => by
    intro σ frame t w h
    rw [visitAdditiveExpression, evalAdditive]
    exact visitTerm_implements hS term σ frame t w h
  | .additive l op r => by
    intro σ frame t w h
    rw [visitAdditiveExpression, evalAdditive, hS.ops]
    refine binary (promoting_additive S.ops op)
      (visitAdditiveExpression_implements hS l σ frame t w h)
      (continues_rules.visitAdditiveExpression l)
      (continues_rules.visitTerm r) ?_
      (fun σ' frame' t' w' _ hm => visitTerm_implements hS r σ' frame' t' w' hm)
      (fun n k u hu σ frame t w l r hm hl hr => createAdditive_ints op hu hm hl hr)
      fun x y u hu σ frame t w l r hm hl hr => createAdditive_floats op hu hm hl hr
    exact fun p => (continues_basics.createAdditive _ _ _ _).bind fun _ =>
      continues_basics.setTmpVal _

theorem visitTerm_implements (hS : Serves S c) :
    ∀ e : ASTTerm, Evaluates S (visitTerm e) (evalTerm c S.env e)
  | .ofFactor factor => by
    intro σ frame t w h
    rw [visitTerm, evalTerm]
    exact visitFactor_implements hS factor σ frame t w h
  | .multiplicative l op r => by
    intro σ frame t w h
    rw [visitTerm, evalTerm, hS.ops]
    refine binary (promoting_multiplicative S.ops op) (visitTerm_implements hS l σ frame t w h)
      (continues_rules.visitTerm l)
      (continues_rules.visitFactor r) ?_
      (fun σ' frame' t' w' _ hm => visitFactor_implements hS r σ' frame' t' w' hm)
      (fun n k u hu σ frame t w l r hm hl hr => createMultiplicative_ints op hu hm hl hr)
      fun x y u hu σ frame t w l r hm hl hr => createMultiplicative_floats op hu hm hl hr
    exact fun p => (continues_basics.createMultiplicative _ _ _ _).bind fun _ =>
      continues_basics.setTmpVal _

theorem visitFactor_implements (hS : Serves S c) :
    ∀ e : ASTFactor, Evaluates S (visitFactor e) (evalFactor c S.env e)
  | .num (.int n) => by
    intro σ frame t w h
    rw [visitFactor, evalFactor]
    refine .setTmpVal h fun u hu => ?_
    cases hu
    exact ⟨_, rfl, carries_of_type (hasType_constInt n) rfl (.int n)⟩
  | .num (.float x) => by
    intro σ frame t w h
    rw [visitFactor, evalFactor]
    refine .setTmpVal h fun u hu => ?_
    cases hu
    exact ⟨_, rfl, carries_of_type (hasType_constFP x) rfl (.float x)⟩
  | .var var => by
    intro σ frame t w h
    rw [visitFactor, evalFactor]
    exact visitVar_value hS var σ frame t w h
  | .call id args => by
    intro σ frame t w h
    rw [visitFactor, evalFactor]
    have hcall : ∀ f : Nat, Continues (do
        let m ← getModule
        let vals ← visitArgs args (m.functions f).paramTypes
        setTmpVal (← createCall (.function f) vals)) := fun f =>
      continues_basics.getModule.bind fun m => (continues_visitArgs _ _).bind fun vals =>
        (continues_createCall _ _).bind fun _ => continues_basics.setTmpVal _
    refine .reading (by rintro r hr; cases hr; rfl) fun σ₀ hσ₀ => ?_
    cases hσ₀
    cases hfind : σ.scope.find id with
    | none =>
      intro r hr
      cases hr
    | some func =>
      cases func with
      | function f =>
        obtain ⟨b, hb, hbound⟩ := h.binds.find hfind
        obtain ⟨g, rfl, rfl⟩ := hbound.of_function
        have hg : g.index < σ.module.numFunctions := hbound.present
        refine .within (hcall g.index) fun hM => ?_
        have hparams : (σ.module.functions g.index).paramTypes = (c.params g).map paramTy := by
          rw [← hM.widens.paramTypes g.index hg]
          exact hS.params g (hg.trans_le hM.widens.numFunctions)
        refine .reading (by rintro r hr; cases hr; rfl) fun m hm => ?_
        cases hm
        rw [hb, hparams]
        have hcr : ∀ vals, Continues (createCall (.function g.index) vals >>= setTmpVal) :=
          fun vals => (continues_createCall _ _).bind fun _ => continues_basics.setTmpVal _
        refine (visitArgs_implements hS args (c.params g) σ frame t w h).bind
          (continues_visitArgs _ _) hcr fun vals vs σ₁ frame₁ t₁ w₁ _ hw₁ hm₁ _ hq₁ => ?_
        rw [← bind_pure (c.call g vs)]
        refine (createCall_implements hS hm₁ (hg.trans_le hw₁.widens.numFunctions) hq₁).bind
          (continues_createCall _ _) (fun _ => continues_basics.setTmpVal _)
          fun val o σ₂ frame₂ t₂ w₂ _ _ hm₂ _ hq₂ => ?_
        exact .setTmpVal hm₂ fun u hu => ⟨val, rfl, hq₂ u hu⟩
      | _ =>
        intro r hr
        cases hr
  | .expression e => by
    intro σ frame t w h
    rw [visitFactor, evalFactor]
    exact visitExpression_implements hS e σ frame t w h

theorem visitVar_value (hS : Serves S c) :
    ∀ var : ASTVar, Evaluates S (visitVar var) (evalVar c S.env var)
  | .scalar id => by
    intro σ frame t w h
    rw [visitVar]
    exact enterVar_value h fun var elementTy b hb hbound hty => visitScalar_value h hb hbound hty
  | .subscript id e => by
    intro σ frame t w h
    rw [visitVar, evalVar]
    refine enterVar_value h fun var elementTy b hb hbound hty => ?_
    rw [hb]
    exact visitSubscript_value hS (visitExpression_implements hS e σ frame t w h)
      (continues_visitExpression e) hbound hty

theorem visitVar_address (hS : Serves S c) : ∀ (var : ASTVar) (σ : BuilderState) (frame : Frame)
    (t : Store) (w : World), S.Matches σ frame t w →
      Implements S (visitVar var) (locate c S.env var) { σ with requireLvalue := true } frame t w
        (GivesAddress S)
  | .scalar id => by
    intro σ frame t w h
    rw [visitVar]
    exact enterVar_implements h fun var elementTy b hb hbound _ =>
      visitScalar_address h hb hbound
  | .subscript id e => by
    intro σ frame t w h
    rw [visitVar, locate]
    refine enterVar_implements h fun var elementTy b hb hbound hty => ?_
    rw [hb]
    exact visitSubscript_address hS (visitExpression_implements hS e σ frame t w h)
      (continues_visitExpression e) hbound hty

theorem visitArgs_implements (hS : Serves S c) : ∀ (args : List ASTExpression)
    (params : List (CminusType × Bool)) (σ : BuilderState) (frame : Frame) (t : Store) (w : World),
    S.Matches σ frame t w →
      Implements S (visitArgs args (params.map paramTy)) (evalArgs c S.env args params) σ frame t w
        (GivesArgs S params)
  | [], [] => by
    intro σ frame t w h
    rw [List.map_nil, visitArgs, evalArgs]
    exact .pure h ⟨fun v hv => absurd hv List.not_mem_nil, [], rfl, .nil⟩
  | [], param :: params => by
    intro σ frame t w h
    rw [evalArgs]
    · exact .undefined
    all_goals simp
  | arg :: args, [] => by
    intro σ frame t w h r hr
    rw [List.map_nil, visitArgs] at hr
    cases hr
  | arg :: args, param :: params => by
    intro σ frame t w h
    rw [List.map_cons, visitArgs, evalArgs, hS.ops]
    have hca := continues_visitArgs args (params.map paramTy)
    have hcv : ∀ val, Continues (setTmpVal val >>= fun _ => visitArgs args (params.map paramTy) >>=
        fun vals => pure (val :: vals)) := fun val =>
      (continues_basics.setTmpVal val).bind fun _ => hca.bind fun _ => continues_basics.pure _
    simp only [convertArg_eq, bind_assoc]
    refine .operand (visitExpression_implements hS arg σ frame t w h)
      (continues_visitExpression arg) (fun v => (continues_convertPassed _ v).bind hcv)
      fun val u σ₁ frame₁ t₁ w₁ _ _ hm₁ _ hc₁ => .defined fun v hv => ?_
    refine (convertPassed_implements hm₁ hc₁ hv).before (continues_convertPassed _ _) hcv
      fun p σ₂ frame₂ t₂ w₂ _ _ hm₂ _ hq₂ => ?_
    have hset : Implements S (setTmpVal p) (pure ()) σ₂ frame₂ t₂ w₂ fun _ _ σ' frame' =>
      Fits S param v σ' frame' p := .setTmpVal hm₂ hq₂
    refine hset.before (continues_basics.setTmpVal p)
      (fun _ => hca.bind fun _ => continues_basics.pure _)
      fun _ σ₃ frame₃ t₃ w₃ _ _ hm₃ _ hq₃ => ?_
    refine (visitArgs_implements hS args params σ₃ frame₃ t₃ w₃ hm₃).bind hca
      (fun _ => continues_basics.pure _) fun vals vs σ₄ frame₄ t₄ w₄ _ hw₄ hm₄ hl₄ hq₄ => ?_
    exact .pure hm₄ (hq₄.cons hq₃ hw₄ hl₄)

end

end Source

end Cminusf
