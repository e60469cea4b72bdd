import Cminusf.Builder.Flags
import Cminusf.Source.Declarations

/-! The code of a statement does what the statement means. -/

namespace Cminusf

namespace CminusfBuilder

open Builder

/-- The condition of a statement, and the two blocks that are made with it. -/
def visitCondition (e : ASTExpression) : Builder (Value × Nat × Nat) := do
  visitExpression e
  let retVal ← getTmpVal
  let trueBB ← createBasicBlock ""
  let contBB ← createBasicBlock ""
  let condVal ← createCondition retVal
  return (condVal, trueBB, contBB)

/-- The body of a branch, which goes to `bb` unless it returns. -/
def visitArm (s : ASTStatement) (bb : Nat) : Builder Unit := do
  visitStatement s
  createBrIfOpen bb

theorem selection_eq (e : ASTExpression) (s : ASTStatement) :
    visitStatement (.selection e s) = (do
      let q ← visitCondition e
      discard <| createCondBr q.1 q.2.1 q.2.2
      setInsertPoint q.2.1
      visitArm s q.2.2
      setInsertPoint q.2.2) := by
  rw [visitStatement]
  simp only [visitCondition, visitArm, bind_assoc, pure_bind]

theorem selectionElse_eq (e : ASTExpression) (s₁ s₂ : ASTStatement) :
    visitStatement (.selectionElse e s₁ s₂) = (do
      let q ← visitCondition e
      let falseBB ← createBasicBlock ""
      discard <| createCondBr q.1 q.2.1 falseBB
      setInsertPoint q.2.1
      visitArm s₁ q.2.2
      setInsertPoint falseBB
      visitArm s₂ q.2.2
      setInsertPoint q.2.2) := by
  rw [visitStatement]
  simp only [visitCondition, visitArm, bind_assoc, pure_bind]

theorem iteration_eq (e : ASTExpression) (s : ASTStatement) :
    visitStatement (.iteration e s) = (do
      let exprBB ← createBasicBlock ""
      createBrIfOpen exprBB
      setInsertPoint exprBB
      let q ← visitCondition e
      discard <| createCondBr q.1 q.2.1 q.2.2
      setInsertPoint q.2.1
      visitArm s exprBB
      setInsertPoint q.2.2) := by
  rw [visitStatement]
  simp only [visitCondition, visitArm, bind_assoc, pure_bind]

/-- What a part of a visitor leaves alone while the machine is elsewhere. -/
structure Keeps (σ σ' : BuilderState) : Prop where
  within : Within σ.module σ'.module
  curFun : σ'.curFun = σ.curFun
  scope : σ'.scope = σ.scope
  preEnterScope : σ'.preEnterScope = false
  requireLvalue : σ'.requireLvalue = false
  empty : ∀ b, Empty b σ → Empty b σ'

theorem Keeps.trans {σ σ' σ'' : BuilderState} (h : Keeps σ σ') (h' : Keeps σ' σ'') : Keeps σ σ'' where
  within := h.within.trans h'.within
  curFun := h'.curFun.trans h.curFun
  scope := h'.scope.trans h.scope
  preEnterScope := h'.preEnterScope
  requireLvalue := h'.requireLvalue
  empty b hb := h'.empty b (h.empty b hb)

theorem visitStatement_keeps {s : ASTStatement} {σ : BuilderState} {r : Unit × BuilderState}
    (h : visitStatement s σ = some r) (hpre : σ.preEnterScope = false)
    (hl : σ.requireLvalue = false) : Keeps σ r.2 where
  within := (continues_visitStatement s σ r h).1
  curFun := (continues_visitStatement s σ r h).2
  scope := (visitStatement_leaves s σ r h hpre).1
  preEnterScope := (visitStatement_leaves s σ r h hpre).2
  requireLvalue := by
    rcases clears_statements.visitStatement s σ r h with he | he
    · rw [he, hl]
    · exact he
  empty b hb := keepsEmpty_statements.visitStatement s σ r h hb

theorem createBrIfOpen_keeps {b : Nat} {σ : BuilderState} {r : Unit × BuilderState}
    (h : createBrIfOpen b σ = some r) (hpre : σ.preEnterScope = false)
    (hl : σ.requireLvalue = false) : Keeps σ r.2 where
  within := (continues_parts.createBrIfOpen b σ r h).1
  curFun := (continues_parts.createBrIfOpen b σ r h).2
  scope := (createBrIfOpen_keepsScope b σ r h).1
  preEnterScope := (createBrIfOpen_keepsScope b σ r h).2.trans hpre
  requireLvalue := by
    rcases clears_parts.createBrIfOpen b σ r h with he | he
    · rw [he, hl]
    · exact he
  empty c hc := keepsEmpty_parts.createBrIfOpen b σ r h hc

theorem visitArm_keeps {s : ASTStatement} {b : Nat} {σ : BuilderState} {r : Unit × BuilderState}
    (h : visitArm s b σ = some r) (hpre : σ.preEnterScope = false)
    (hl : σ.requireLvalue = false) : Keeps σ r.2 := by
  obtain ⟨_, σ₁, h₁, h⟩ := bind_some h
  have hk := visitStatement_keeps h₁ hpre hl
  exact hk.trans (createBrIfOpen_keeps h hk.preEnterScope hk.requireLvalue)

theorem continues_visitCondition (e : ASTExpression) : Continues (visitCondition e) :=
  (continues_visitExpression e).bind fun _ => continues_basics.getTmpVal.bind fun v =>
    (continues_createBasicBlock _).bind fun _ => (continues_createBasicBlock _).bind fun _ =>
    (continues_parts.createCondition v).bind fun _ => continues_basics.pure _

theorem keepsScope_visitCondition (e : ASTExpression) : KeepsScope (visitCondition e) :=
  (visitExpression_keepsScope e).bind fun _ => scope_basics.getTmpVal.bind fun v =>
    (createBasicBlock_keepsScope _).bind fun _ => (createBasicBlock_keepsScope _).bind fun _ =>
    (createCondition_keepsScope v).bind fun _ => pure_keepsScope _

end CminusfBuilder

namespace Source

open Machine Builder CminusfBuilder

variable {S : Setting} {c : Context} {σ σ' σ₁ : BuilderState} {frame frame' : Frame}
  {t t' : Store} {w w' : World} {μ : Layout} {Γ Γ' : Env} {val var : Value} {a b d n : Nat}

/-- The visitors are at a statement. -/
structure Setting.Ready (S : Setting) (σ : BuilderState) (frame : Frame) (t : Store) (w : World) :
    Prop where
  here : S.Matches σ frame t w
  preEnterScope : σ.preEnterScope = false
  scope : σ.scope.inner ≠ []
  ret : (S.target.functions frame.func).returnType = S.ret.ty

theorem Setting.Ready.next (h : S.Ready σ frame t w) (hm : S.Matches σ' frame' t' w')
    (hl : Later n frame frame') (hscope : σ'.scope = σ.scope)
    (hpre : σ'.preEnterScope = false) : S.Ready σ' frame' t' w' where
  here := hm
  preEnterScope := hpre
  scope := by
    rw [hscope]
    exact h.scope
  ret := by
    rw [hl.func]
    exact h.ret

/-- The condition of a statement. -/
theorem visitCondition_implements (hS : Serves S c) (e : ASTExpression)
    (h : S.Matches σ frame t w) :
    Implements S (visitCondition e) (condition c S.env e) σ frame t w fun q v σ' frame' =>
      frame'.value q.1 = some (.number (.bool v)) ∧ Awaits frame' q.2.1 σ' ∧
        Awaits frame' q.2.2 σ' ∧ q.2.1 ≠ q.2.2 := by
  have hcond : ∀ (a d : Nat) (v : Value), Continues (createCondition v >>= fun p =>
      (pure (p, a, d) : Builder (Value × Nat × Nat))) := fun a d v =>
    (continues_parts.createCondition v).bind fun _ => continues_basics.pure _
  rw [condition, hS.ops]
  refine .operand (visitExpression_implements hS e σ frame t w h) (continues_visitExpression e)
    (fun v => (continues_createBasicBlock _).bind fun a => (continues_createBasicBlock _).bind
      fun d => hcond a d v) fun val u σ₁ frame₁ t₁ w₁ _ _ hm₁ _ hc₁ => ?_
  refine .block hm₁ fun a σ₂ hw₂ hm₂ ha₂ _ _ => .block hm₂ fun d σ₃ hw₃ hm₃ hd₃ _ hold => ?_
  obtain ⟨ha₃, hne⟩ := hold a ha₂
  intro r hr hM
  cases hv : u.truth S.ops with
  | none => exact trivial
  | some v =>
    have hc₃ : Carries S.layout σ₃.module frame₁ val u :=
      hc₁.later (hw₂.trans hw₃) (.refl _ _) (.refl _)
    have himp : Implements S (createCondition val >>= fun p => pure (p, a, d)) (pure v) σ₃ frame₁ t₁
        w₁ fun q v σ' frame' => frame'.value q.1 = some (.number (.bool v)) ∧
          Awaits frame' q.2.1 σ' ∧ Awaits frame' q.2.2 σ' ∧ q.2.1 ≠ q.2.2 := by
      refine (createCondition_implements hm₃ hc₃ hv).before (continues_parts.createCondition _)
        (fun _ => continues_basics.pure _) fun p σ₄ frame₄ t₄ w₄ hrun₄ _ hm₄ hl₄ hq₄ => ?_
      have hkeep : ∀ b, Awaits frame₁ b σ₃ → Awaits frame₄ b σ₄ := fun b hb =>
        (hb.keep hrun₄ (continues_parts.createCondition _) (keepsEmpty_parts.createCondition _)
          hm₃.func).of_later hl₄
      exact .pure hm₄ ⟨hq₄.2, hkeep a ha₃, hkeep d hd₃, hne⟩
    exact himp r hr hM

/-- The machine is at the start of the block `d`, which the visitors have left for later. -/
def Joins (S : Setting) (σ : BuilderState) (frame : Frame) (t : Store) (σ' : BuilderState) (d : Nat)
    (_ : Unit) (t' : Store) (s' : State) : Prop :=
  ∃ frame' w', s' = .running frame' S.callers w' ∧
    S.Matches { σ' with insertBlock := some d } frame' t' w' ∧
    Later σ.module.numInstrs frame frame' ∧ Stable S.layout t t'

theorem Joins.earlier {u : Unit} {t'' : Store} {s : State} (h : Joins S σ₁ frame' t' σ' d u t'' s)
    (hl : Later σ.module.numInstrs frame frame') (hw : Within σ.module σ₁.module)
    (hst : Stable S.layout t t') : Joins S σ frame t σ' d u t'' s := by
  obtain ⟨frame₂, w₂, hs, hm, hl₂, hst₂⟩ := h
  exact ⟨frame₂, w₂, hs, hm, hl.trans hl₂ hw.widens.numInstrs, hst.trans hst₂⟩

/-- The jump at the end of an open block. -/
theorem createBrIfOpen_step {r : Unit × BuilderState} (h : S.Matches σ frame t w)
    (hr : createBrIfOpen d σ = some r) (hM : Within r.2.module S.target)
    (hd : d ∈ (σ.module.functions frame.func).basicBlocks) :
    step S.ops S.target (.running frame S.callers w) =
      some (.running (frame.jump S.target d) S.callers w) := by
  rw [createBrIfOpen, bind_run (terminated_run h.insertBlock), h.isOpen] at hr
  obtain ⟨_, hr⟩ := discard_some hr
  obtain ⟨bb, hbb, -, hap⟩ := createBr_appended hr
  obtain rfl : frame.block = bb := Option.some.inj (h.insertBlock.symm.trans hbb)
  exact branch_step h hap hM (fun i hi => action_br (by rw [hi]) (by rw [hi])) hd

/-- A branch is executed up to its jump to `d`. -/
theorem visitArm_emulates {s : ASTStatement} {y : Eval Unit} {r : Unit × BuilderState}
    (hS : Serves S c) (h : S.Ready σ frame t w)
    (hx : Implements S (visitStatement s) y σ frame t w fun _ _ _ _ => True)
    (hd : Awaits frame d σ) (hr : visitArm s d σ = some r) (hM : Within r.2.module S.target) :
    Emulates (step S.ops S.target) (Joins S σ frame t r.2 d) (S.Fails t)
      (.running frame S.callers w) (y t) := by
  obtain ⟨_, σ₁, h₁, hr⟩ := bind_some hr
  have hk := visitStatement_keeps h₁ h.preEnterScope h.here.requireLvalue
  have hk' := createBrIfOpen_keeps hr hk.preEnterScope hk.requireLvalue
  refine (hx _ h₁ (hk'.within.trans hM)).extend fun _ t' s' hs => ?_
  obtain ⟨frame₁, w₁, rfl, hm₁, hl₁, hst₁, -⟩ := hs
  have hd₁ : Awaits frame₁ d σ₁ :=
    (hd.keep h₁ (continues_visitStatement s) (keepsEmpty_statements.visitStatement s) h.here.func).of_later hl₁
  have he : Empty d r.2 := hk'.empty d hd₁.toEmpty
  have hphis := hS.phis d (he.lt.trans_le hM.widens.numBlocks)
  refine ⟨_, .single (createBrIfOpen_step hm₁ hr hM hd₁.mem), _, w₁, rfl, ?_,
    hl₁.trans (jump_later σ₁.module.numInstrs hphis) hk.within.widens.numInstrs, hst₁⟩
  refine enter_matches hphis (hk'.curFun.trans hm₁.curFun)
    (hm₁.func.trans_le hk'.within.widens.numFunctions) hk'.requireLvalue rfl he.lt he.nil ?_ hm₁.made
    hm₁.mirrors
  show Binds S.layout r.2.module frame₁ S.env r.2.scope.inner
  rw [hk'.scope]
  exact hm₁.binds.later hk'.within (.refl _ _) (.refl _)

/-- What is proved of the visitor of a statement. -/
def Runs (c : Context) (x : Builder Unit) (y : Setting → Eval Unit) : Prop :=
  ∀ (S : Setting) (σ : BuilderState) (frame : Frame) (t : Store) (w : World), Serves S c →
    S.Ready σ frame t w → Implements S x (y S) σ frame t w fun _ _ _ _ => True

/-- The insert point is where the machine joins. -/
theorem implements_of_joins {x : Builder Unit} {y : Eval Unit}
    (h : ∀ r, x σ = some r → Within r.2.module S.target → ∃ σ' d,
      r.2 = { σ' with insertBlock := some d } ∧ Emulates (step S.ops S.target)
        (Joins S σ frame t σ' d) (S.Fails t) (.running frame S.callers w) (y t)) :
    Implements S x y σ frame t w fun _ _ _ _ => True := by
  intro r hr hM
  obtain ⟨σ', d, he, hj⟩ := h r hr hM
  refine hj.mono (fun _ t' s' hs => ?_) fun _ _ hf => hf
  obtain ⟨frame', w', hs, hm, hl, hst⟩ := hs
  exact ⟨frame', w', hs, he ▸ hm, hl, hst, trivial⟩

theorem selection_runs {e : ASTExpression} {s : ASTStatement}
    (hs : Runs c (visitStatement s) fun S => execStatement c S.fuel S.ret s S.env) :
    Runs c (visitStatement (.selection e s))
      fun S => execStatement c S.fuel S.ret (.selection e s) S.env := by
  intro S σ frame t w hS h
  refine implements_of_joins fun r hr hM => ?_
  dsimp only
  rw [selection_eq] at hr
  rw [execStatement]
  obtain ⟨⟨p, a, d⟩, σ₁, h₁, hr⟩ := bind_some hr
  obtain ⟨_, σ₂, h₂, hr⟩ := bind_some hr
  obtain ⟨_, h₂⟩ := discard_some h₂
  obtain ⟨_, σ₃, h₃, hr⟩ := bind_some hr
  cases h₃
  obtain ⟨_, σ₄, h₄, hr⟩ := bind_some hr
  cases hr
  dsimp only at h₂ h₄ hM
  have hw₁ := (continues_visitCondition e σ _ h₁).1
  obtain ⟨hscope, hpre⟩ := keepsScope_visitCondition e σ _ h₁
  have hw₂ := (continues_createCondBr p a d σ₁ _ h₂).1
  have hM₂ : Within σ₂.module S.target :=
    (((continues_visitStatement s).bind fun _ => continues_parts.createBrIfOpen d) _ _ h₄).1.trans hM
  refine ⟨σ₄, d, rfl, ?_⟩
  refine (visitCondition_implements hS e h.here _ h₁ (hw₂.trans hM₂)).bind (S.backward t)
    fun v t₁ s₁ hs₁ => ?_
  obtain ⟨frame₁, w₁, rfl, hm₁, hl₁, hst₁, hv, ha, hd, hne⟩ := hs₁
  dsimp only at hm₁ hv ha hd hne hw₁ hscope hpre
  obtain ⟨hstep, hm₂, honly, -, hea, hed, hl₂⟩ := condBr_step hS hm₁ hv ha hd h₂ hM₂
  dsimp only at honly hm₂ hea hed
  have hpre₂ : σ₂.preEnterScope = false := by
    rw [honly]
    exact hpre.trans h.preEnterScope
  have hscope₂ : σ₂.scope = σ.scope := by
    rw [honly]
    exact hscope
  have hl : Later σ.module.numInstrs frame (frame₁.jump S.target (if v then a else d)) :=
    hl₁.trans (hl₂ σ₁.module.numInstrs) hw₁.widens.numInstrs
  refine .of_step (S.backward t) hstep ?_
  cases v with
  | true =>
    have hready : S.Ready { σ₂ with insertBlock := some a } (frame₁.jump S.target a) t₁ w₁ :=
      h.next hm₂ hl hscope₂ hpre₂
    have hd₂ : Awaits (frame₁.jump S.target a) d { σ₂ with insertBlock := some a } := by
      refine ⟨⟨hed.lt, hed.nil, by simpa using hne⟩, ?_⟩
      exact (hw₂.basicBlocks _ hm₁.func).subset hd.mem
    have harm := visitArm_emulates hS hready
      (hs S _ _ _ _ hS hready) hd₂ h₄ hM
    refine harm.mono (fun u t₂ s₂ hj => ?_) fun _ _ hf => hf.earlier hst₁
    exact hj.earlier hl (hw₁.trans hw₂) hst₁
  | false =>
    have hk := visitArm_keeps h₄ hpre₂ hm₂.requireLvalue
    have hempty : Empty d σ₄ := hk.empty d ⟨hed.lt, hed.nil, by simpa using hne⟩
    have hm := Matches.wait σ₄ hm₂ hed hk.within hk.curFun hk.scope hk.requireLvalue hempty.nil
    exact .of_now ⟨_, w₁, rfl, hm, hl, hst₁⟩

theorem selectionElse_runs {e : ASTExpression} {s s' : ASTStatement}
    (hs : Runs c (visitStatement s) fun S => execStatement c S.fuel S.ret s S.env)
    (hs' : Runs c (visitStatement s') fun S => execStatement c S.fuel S.ret s' S.env) :
    Runs c (visitStatement (.selectionElse e s s'))
      fun S => execStatement c S.fuel S.ret (.selectionElse e s s') S.env := by
  intro S σ frame t w hS h
  refine implements_of_joins fun r hr hM => ?_
  dsimp only
  rw [selectionElse_eq] at hr
  rw [execStatement]
  obtain ⟨⟨p, a, d⟩, σ₁, h₁, hr⟩ := bind_some hr
  obtain ⟨f, σ₂, h₂, hr⟩ := bind_some hr
  obtain ⟨_, σ₃, h₃, hr⟩ := bind_some hr
  obtain ⟨_, h₃⟩ := discard_some h₃
  obtain ⟨_, σ₄, h₄, hr⟩ := bind_some hr
  cases h₄
  obtain ⟨_, σ₅, h₅, hr⟩ := bind_some hr
  obtain ⟨_, σ₆, h₆, hr⟩ := bind_some hr
  cases h₆
  obtain ⟨_, σ₇, h₇, hr⟩ := bind_some hr
  cases hr
  dsimp only at h₂ h₃ h₅ h₇ hM
  have hcarm : ∀ s, Continues (visitArm s d) := fun s =>
    (continues_visitStatement s).bind fun _ => continues_parts.createBrIfOpen d
  have hw₁ := (continues_visitCondition e σ _ h₁).1
  obtain ⟨hscope, hpre⟩ := keepsScope_visitCondition e σ _ h₁
  have hw₃ := (continues_createCondBr p a f σ₂ _ h₃).1
  have hM₅ : Within σ₅.module S.target := (hcarm s' _ _ h₇).1.trans hM
  have hM₃ : Within σ₃.module S.target := (hcarm s _ _ h₅).1.trans hM₅
  have hM₁ : Within σ₁.module S.target :=
    ((continues_createBasicBlock _ σ₁ _ h₂).1.trans hw₃).trans hM₃
  refine ⟨σ₇, d, rfl, ?_⟩
  refine (visitCondition_implements hS e h.here _ h₁ hM₁).bind (S.backward t)
    fun v t₁ s₁ hs₁ => ?_
  obtain ⟨frame₁, w₁, rfl, hm₁, hl₁, hst₁, hv, ha, hd, hne⟩ := hs₁
  dsimp only at hm₁ hv ha hd hne hw₁ hscope hpre
  obtain ⟨hw₂, hm₂, hf₂, honly₂, hold⟩ := createBasicBlock_matches hm₁ h₂
  obtain ⟨ha₂, hna⟩ := hold a ha
  obtain ⟨hd₂, hnd⟩ := hold d hd
  obtain ⟨hstep, hm₃, honly, -, hea, hef, hl₃⟩ := condBr_step hS hm₂ hv ha₂ hf₂ h₃ hM₃
  have hed : Empty d σ₃ := (keepsEmpty_createCondBr p a f) σ₂ _ h₃ hd₂.toEmpty
  dsimp only at honly₂ honly hm₃ hea hef hna hnd hw₂
  have hpre₃ : σ₃.preEnterScope = false := by
    rw [honly, honly₂]
    exact hpre.trans h.preEnterScope
  have hscope₃ : σ₃.scope = σ.scope := by
    rw [honly, honly₂]
    exact hscope
  have hl : Later σ.module.numInstrs frame (frame₁.jump S.target (if v then a else f)) :=
    hl₁.trans (hl₃ σ₁.module.numInstrs) hw₁.widens.numInstrs
  have hw : Within σ.module σ₃.module := (hw₁.trans hw₂).trans hw₃
  have hmem : ∀ v : Bool, d ∈ (σ₃.module.functions
      (frame₁.jump S.target (if v then a else f)).func).basicBlocks := fun v =>
    (hw₃.basicBlocks _ hm₂.func).subset hd₂.mem
  have hk := visitArm_keeps h₅ hpre₃ hm₃.requireLvalue
  have hda : Empty d { σ₃ with insertBlock := some a } := ⟨hed.lt, hed.nil, by simpa using hne⟩
  have hfa : Empty f { σ₃ with insertBlock := some a } := ⟨hef.lt, hef.nil, by simpa using hna⟩
  have hk' := visitArm_keeps h₇ hk.preEnterScope hk.requireLvalue
  have hdf : Empty d { σ₅ with insertBlock := some f } :=
    ⟨(hk.empty d hda).lt, (hk.empty d hda).nil, by simpa using hnd.symm⟩
  refine .of_step (S.backward t) hstep ?_
  cases v with
  | true =>
    have hready : S.Ready { σ₃ with insertBlock := some a } (frame₁.jump S.target a) t₁ w₁ :=
      h.next hm₃ hl hscope₃ hpre₃
    have harm := visitArm_emulates hS hready (hs S _ _ _ _ hS hready) ⟨hda, hmem true⟩ h₅ hM₅
    refine (harm.mono (fun u t₂ s₂ hj => ?_) fun _ _ hf => hf.earlier hst₁)
    obtain ⟨frame₄, w₄, rfl, hm₄, hl₄, hst₄⟩ := hj.earlier hl hw hst₁
    exact ⟨frame₄, w₄, rfl, Matches.wait σ₇ hm₄ (hk.empty d hda) hk'.within hk'.curFun hk'.scope
      hk'.requireLvalue (hk'.empty d hdf).nil, hl₄, hst₄⟩
  | false =>
    have hm₅ := Matches.wait σ₅ hm₃ hef hk.within hk.curFun hk.scope hk.requireLvalue
      (hk.empty f hfa).nil
    have hready : S.Ready { σ₅ with insertBlock := some f } (frame₁.jump S.target f) t₁ w₁ :=
      h.next hm₅ hl (hk.scope.trans hscope₃) hk.preEnterScope
    have hd₅ : Awaits (frame₁.jump S.target f) d { σ₅ with insertBlock := some f } :=
      ⟨hdf, (hk.within.basicBlocks _ hm₃.func).subset (hmem false)⟩
    have harm := visitArm_emulates hS hready (hs' S _ _ _ _ hS hready) hd₅ h₇ hM
    refine harm.mono (fun u t₂ s₂ hj => ?_) fun _ _ hf => hf.earlier hst₁
    exact hj.earlier hl (hw.trans hk.within) hst₁

/-- The rounds of a loop: the machine is at the start of the block with the condition. -/
theorem iterate_emulates {e : ASTExpression} {s : ASTStatement} {p : Value}
    {r₂ : Value × BuilderState} {r₃ : Unit × BuilderState}
    (hs : Runs c (visitStatement s) fun S => execStatement c S.fuel S.ret s S.env)
    (hS : Serves S c) (hb : σ.insertBlock = some b) (hempty : (σ.module.blocks b).instrList = [])
    (hmem : ∀ f, σ.curFun = some f → b ∈ (σ.module.functions f).basicBlocks)
    (h₁ : visitCondition e σ = some ((p, a, d), σ₁)) (h₂ : createCondBr p a d σ₁ = some r₂)
    (h₃ : visitArm s b { r₂.2 with insertBlock := some a } = some r₃)
    (hM : Within r₃.2.module S.target) {k : Nat} (hk : k ≤ S.fuel) (h : S.Ready σ frame t w) :
    Emulates (step S.ops S.target) (Joins S σ frame t r₃.2 d)
      (Source.Fails S.ops S.target k (S.Returns t)) (.running frame S.callers w)
      (iterate (condition c S.env e) (execStatement c S.fuel S.ret s S.env) k t) := by
  induction k generalizing frame t w with
  | zero => exact ⟨0, _, le_rfl, rfl, h.here.mirrors.events⟩
  | succ k ih =>
    rw [iterate]
    have hw₁ := (continues_visitCondition e σ _ h₁).1
    obtain ⟨hscope, hpre⟩ := keepsScope_visitCondition e σ _ h₁
    have hw₂ := (continues_createCondBr p a d σ₁ _ h₂).1
    have hM₂ : Within r₂.2.module S.target :=
      (((continues_visitStatement s).bind fun _ => continues_parts.createBrIfOpen b) _ _ h₃).1.trans hM
    have hback := S.backward_fails (k + 1) t
    refine ((visitCondition_implements hS e h.here _ h₁ (hw₂.trans hM₂)).mono (fun _ _ _ hq => hq)
      fun _ _ hf => hf.mono hk fun _ hr => hr).bind hback fun v t₁ s₁ hs₁ => ?_
    obtain ⟨frame₁, w₁, rfl, hm₁, hl₁, hst₁, hv, ha, hd, hne⟩ := hs₁
    dsimp only at hm₁ hv ha hd hne hw₁ hscope hpre
    obtain ⟨hstep, hm₂, honly, -, hea, hed, hl₂⟩ := condBr_step hS hm₁ hv ha hd h₂ hM₂
    have hpre₂ : r₂.2.preEnterScope = false := by
      rw [honly]
      exact hpre.trans h.preEnterScope
    have hscope₂ : r₂.2.scope = σ.scope := by
      rw [honly]
      exact hscope
    have hl : Later σ.module.numInstrs frame (frame₁.jump S.target (if v then a else d)) :=
      hl₁.trans (hl₂ σ₁.module.numInstrs) hw₁.widens.numInstrs
    have hda : Empty d { r₂.2 with insertBlock := some a } :=
      ⟨hed.lt, hed.nil, by simpa using hne⟩
    refine .of_step hback hstep ?_
    cases v with
    | false =>
      have hkeep := visitArm_keeps h₃ hpre₂ hm₂.requireLvalue
      have hm := Matches.wait r₃.2 hm₂ hed hkeep.within hkeep.curFun hkeep.scope hkeep.requireLvalue
        (hkeep.empty d hda).nil
      exact .of_now ⟨_, w₁, rfl, hm, hl, hst₁⟩
    | true =>
      obtain ⟨_, σ₂, h₄, h₅⟩ := bind_some h₃
      have hready : S.Ready { r₂.2 with insertBlock := some a } (frame₁.jump S.target a) t₁ w₁ :=
        h.next hm₂ hl hscope₂ hpre₂
      have hkeep := visitStatement_keeps h₄ hpre₂ hm₂.requireLvalue
      have hM₄ : Within σ₂.module S.target := (continues_parts.createBrIfOpen b σ₂ _ h₅).1.trans hM
      have hw₄ : Within σ.module σ₂.module := (hw₁.trans hw₂).trans hkeep.within
      have hbody := (hs S _ _ _ _ hS hready _ h₄ hM₄).mono (fun _ _ _ hq => hq)
        fun _ _ hf => (hf.mono hk fun _ hr => hr.earlier hst₁ :
          Source.Fails S.ops S.target (k + 1) (S.Returns t) _ _ _)
      refine hbody.bind hback fun _ t₂ s₂ hs₂ => ?_
      obtain ⟨frame₂, w₂, rfl, hm₄, hl₄, hst₄, -⟩ := hs₂
      have hl₅ : Later σ.module.numInstrs frame frame₂ :=
        hl.trans hl₄ (hw₁.trans hw₂).widens.numInstrs
      have hcur : σ.curFun = some frame₂.func := by
        rw [hl₅.func]
        exact h.here.curFun
      have hbb : b < S.target.numBlocks := by
        obtain rfl : frame.block = b := Option.some.inj (h.here.insertBlock.symm.trans hb)
        exact h.here.block.trans_le (hw₄.trans hM₄).widens.numBlocks
      have hphis := hS.phis b hbb
      have hstep' := createBrIfOpen_step hm₄ h₅ hM ((hw₄.basicBlocks _
        (by rw [hl₅.func]; exact h.here.func)).subset (hmem _ hcur))
      have hl₆ : Later σ.module.numInstrs frame (frame₂.jump S.target b) :=
        hl₅.trans (jump_later σ.module.numInstrs hphis) le_rfl
      have hst₂ : Stable S.layout t t₂ := hst₁.trans hst₄
      have hm₆ : S.Matches σ (frame₂.jump S.target b) t₂ w₂ := by
        refine enter_matches hphis hcur (by rw [hl₅.func]; exact h.here.func) h.here.requireLvalue hb
          ?_ hempty ?_ hm₄.made hm₄.mirrors
        · obtain rfl : frame.block = b := Option.some.inj (h.here.insertBlock.symm.trans hb)
          exact h.here.block
        · exact h.here.binds.later (.refl _) hl₅ (.refl _)
      have hround := (ih (by omega) (h.next hm₆ hl₆ rfl h.preEnterScope)).mono
        (fun _ _ _ hj => hj.earlier hl₆ (.refl _) hst₂) fun _ _ hf =>
        (hf.mono le_rfl fun _ hr => hr.earlier hst₂ :
          Source.Fails S.ops S.target k (S.Returns t) _ _ _)
      exact .after_step hstep' (fun _ _ hf => hf.step hstep' fun _ hr => hr.back hstep') hround

theorem iteration_runs {e : ASTExpression} {s : ASTStatement}
    (hs : Runs c (visitStatement s) fun S => execStatement c S.fuel S.ret s S.env) :
    Runs c (visitStatement (.iteration e s))
      fun S => execStatement c S.fuel S.ret (.iteration e s) S.env := by
  intro S σ frame t w hS h
  refine implements_of_joins fun r hr hM => ?_
  dsimp only
  rw [iteration_eq] at hr
  rw [execStatement]
  obtain ⟨b, σ₁, h₁, hr⟩ := bind_some hr
  obtain ⟨_, σ₂, h₂, hr⟩ := bind_some hr
  obtain ⟨_, σ₃, h₃, hr⟩ := bind_some hr
  cases h₃
  obtain ⟨⟨p, a, d⟩, σ₄, h₄, hr⟩ := bind_some hr
  obtain ⟨_, σ₅, h₅, hr⟩ := bind_some hr
  obtain ⟨_, h₅⟩ := discard_some h₅
  obtain ⟨_, σ₆, h₆, hr⟩ := bind_some hr
  cases h₆
  obtain ⟨_, σ₇, h₇, hr⟩ := bind_some hr
  cases hr
  dsimp only at h₂ h₄ h₅ h₇ hM
  obtain ⟨hw₁, hm₁, hb, honly, -⟩ := createBasicBlock_matches h.here h₁
  dsimp only at hw₁ hm₁ hb honly
  have hpre₁ : σ₁.preEnterScope = false := by
    rw [honly]
    exact h.preEnterScope
  have hscope₁ : σ₁.scope = σ.scope := by rw [honly]
  have hk := createBrIfOpen_keeps h₂ hpre₁ hm₁.requireLvalue
  have hb₂ : Empty b σ₂ := hk.empty b hb.toEmpty
  have hM₂ : Within σ₂.module S.target :=
    ((continues_visitCondition e _ _ h₄).1.trans (continues_createCondBr p a d σ₄ _ h₅).1).trans
      ((((continues_visitStatement s).bind fun _ => continues_parts.createBrIfOpen b) _ _ h₇).1.trans hM)
  have hphis := hS.phis b (hb₂.lt.trans_le hM₂.widens.numBlocks)
  have hstep := createBrIfOpen_step hm₁ h₂ hM₂ hb.mem
  have hl : Later σ.module.numInstrs frame (frame.jump S.target b) := jump_later _ hphis
  have hm₂ : S.Matches { σ₂ with insertBlock := some b } (frame.jump S.target b) t w := by
    refine enter_matches hphis (hk.curFun.trans hm₁.curFun)
      (hm₁.func.trans_le hk.within.widens.numFunctions) hk.requireLvalue rfl hb₂.lt hb₂.nil ?_ hm₁.made
      hm₁.mirrors
    show Binds S.layout σ₂.module frame S.env σ₂.scope.inner
    rw [hk.scope]
    exact hm₁.binds.later hk.within (.refl _ _) (.refl _)
  refine ⟨σ₇, d, rfl, .of_step (S.backward t) hstep ?_⟩
  have hready := h.next hm₂ hl (hk.scope.trans hscope₁) hk.preEnterScope
  have hmem : ∀ f, σ₂.curFun = some f → b ∈ (σ₂.module.functions f).basicBlocks := by
    intro f hf
    obtain rfl : frame.func = f := Option.some.inj (h.here.curFun.symm.trans
      ((h.here.curFun.trans (hm₁.curFun.symm.trans hk.curFun.symm)).trans hf))
    exact (hk.within.basicBlocks _ hm₁.func).subset hb.mem
  refine (iterate_emulates (σ := { σ₂ with insertBlock := some b }) hs hS rfl hb₂.nil hmem h₄ h₅ h₇ hM
    le_rfl hready).mono
    (fun _ _ _ hj => hj.earlier hl (hw₁.trans hk.within) (.refl _ _)) fun _ _ hf => hf

/-! ### Returns -/

theorem createRet_returns {x : Option Word} {o : Option Val} {operands : List Value}
    {r : Value × BuilderState} (h : S.Matches σ frame t w)
    (hr : create .ret .void operands σ = some r) (hM : Within r.2.module S.target)
    (hops : operands.mapM frame.value = some x.toList) (ha : Answers S.ret o x) :
    S.Returns t o t (.running frame S.callers w) := by
  obtain ⟨bb, hbb, -, -, hap⟩ := create_appended hr
  obtain rfl : frame.block = bb := Option.some.inj (h.insertBlock.symm.trans hbb)
  obtain ⟨rest, hrest, hins, -, -⟩ := h.emit hap hM
  have hact : Machine.action S.ops S.target S.callers.length frame w σ.module.numInstrs =
      some (.returns x) := by
    rw [action_of_computes (by simp [hins, IsSpecial])]
    cases x with
    | none => simp [hins, hops, compute]
    | some x => simp [hins, hops, compute]
  refine ⟨x, w, ha, h.mirrors, .refl _ _, fun s' hs' => .single ?_⟩
  rw [step, hrest]
  dsimp only
  rw [hact, Option.bind_some, perform, hs']

theorem return_runs : Runs c (visitStatement (.return none))
    fun S => execStatement c S.fuel S.ret (.return none) S.env := by
  intro S σ frame t w hS h r hr hM
  rw [visitStatement] at hr
  obtain ⟨_, hr⟩ := discard_some hr
  exact createRet_returns (x := none) h.here hr hM rfl (.none _)

theorem answers_convert {v : Val} {u : Val} {ret : CminusType} {x : Word}
    (hv : u.convert S.ops ret = some v) (hd : Denotes μ v ret.ty x) :
    Answers ret (some v) (some x) := by
  cases ret with
  | void => cases u <;> cases hv
  | int =>
    cases hd
    exact .int _
  | float =>
    cases hd
    exact .float _

theorem returnValue_runs (e : ASTExpression) : Runs c (visitStatement (.return (some e)))
    fun S => execStatement c S.fuel S.ret (.return (some e)) S.env := by
  intro S σ frame t w hS h
  dsimp only
  rw [visitStatement, execStatement, hS.ops]
  have hcr : ∀ v, Continues (do
      setTmpVal v
      discard <| createRet v) := fun v => (continues_basics.setTmpVal v).bind fun _ =>
    continues_basics.discard (continues_basics.create (by simp))
  have hcv : ∀ v, Continues (do
      let val ← convertReturned (σ.module.functions frame.func).returnType v
      setTmpVal val
      discard <| createRet val) := fun v => (continues_parts.convertReturned _ v).bind hcr
  refine .reading ?_ fun f hf => ?_
  · intro r hr
    obtain ⟨_, -, he⟩ := Option.map_eq_some_iff.mp hr
    rw [← he]
  rw [getCurFun_run h.here.curFun] at hf
  cases hf
  refine .reading (fun r hr => by cases hr; rfl) fun m hm => ?_
  cases hm
  refine .within ((continues_visitExpression e).bind fun _ => continues_basics.getTmpVal.bind hcv)
    fun hM => ?_
  have hret : (σ.module.functions frame.func).returnType = S.ret.ty := by
    rw [← hM.widens.returnType _ h.here.func]
    exact h.ret
  rw [hret] at hcv ⊢
  refine .operand (visitExpression_implements hS e σ frame t w h.here) (continues_visitExpression e)
    hcv fun val u σ₁ frame₁ t₁ w₁ _ _ hm₁ _ hc₁ => ?_
  refine .defined fun v hv => ?_
  refine (convertReturned_implements hm₁ hc₁ hv).before (continues_parts.convertReturned _ val) hcr
    fun q σ₂ frame₂ t₂ w₂ _ _ hm₂ _ hq => ?_
  intro r hr hM
  obtain ⟨_, σ₃, h₃, hr⟩ := bind_some hr
  cases h₃
  obtain ⟨_, hr⟩ := discard_some hr
  obtain ⟨x, -, hx, hd⟩ := hq.1
  rw [type_of_convert hv hq.1] at hd
  have hm₃ : S.Matches { σ₂ with tmpVal := some q } frame₂ t₂ w₂ :=
    hm₂.congr rfl rfl rfl rfl hm₂.requireLvalue
  refine createRet_returns (x := some x) hm₃ hr hM ?_ (answers_convert hv hd)
  simp [hx]

theorem expressionStmt_runs (e : ASTExpression) : Runs c (visitStatement (.expressionStmt (some e)))
    fun S => execStatement c S.fuel S.ret (.expressionStmt (some e)) S.env := by
  intro S σ frame t w hS h r hr hM
  dsimp only
  rw [visitStatement] at hr
  rw [execStatement]
  have hx := visitExpression_implements hS e σ frame t w h.here r hr hM
  have hy : discard (evalExpression c S.env e) = evalExpression c S.env e >>= fun _ => pure () :=
    rfl
  rw [hy]
  refine hx.bind (S.backward t) fun o t₁ s₁ hs₁ => ?_
  obtain ⟨frame₁, w₁, hs₁, hm₁, hl₁, hst₁, -⟩ := hs₁
  exact .of_now ⟨frame₁, w₁, hs₁, hm₁, hl₁, hst₁, trivial⟩

/-! ### Blocks -/

/-- A block has been executed, with what it has declared still there. -/
def Passed (S : Setting) (σ : BuilderState) (frame : Frame) (t : Store) (σ' : BuilderState)
    (_ : Unit) (t' : Store) (s' : State) : Prop :=
  ∃ Γ μ frame' w', s' = .running frame' S.callers w' ∧ S.layout.Le μ ∧
    (S.inside Γ μ).Matches σ' frame' t' w' ∧ Later σ.module.numInstrs frame frame' ∧
    Stable S.layout t t'

theorem Serves.inside (hS : Serves S c) (hle : S.layout.Le μ)
    (hf : ∀ id f, Γ.find id = some (.function f) → S.env.find id = some (.function f)) :
    Serves (S.inside Γ μ) c where
  ops := hS.ops
  globals := hS.globals.trans hle
  phis := hS.phis
  negIdxExcept f h := hS.negIdxExcept f (hf _ _ h)
  library := hS.library
  params := hS.params
  call := hS.call

/-- What is proved of the visitor of a statement list. -/
abbrev ListRuns (c : Context) (stmts : List ASTStatement) : Prop :=
  Runs c (visitStatementList stmts) fun S => execStatements c S.fuel S.ret stmts S.env

theorem block_emulates {decls : List ASTVarDeclaration} {stmts : List ASTStatement}
    {r : Unit × BuilderState} (hstmts : ListRuns c stmts) (hS : Serves S c)
    (h : S.Ready σ frame t w) (hlen : σ.scope.inner.length ≠ 1)
    (hr : (visitLocalDeclarations decls >>= fun _ => visitStatementList stmts) σ = some r)
    (hM : Within r.2.module S.target) :
    Emulates (step S.ops S.target) (Passed S σ frame t r.2) (S.Fails t)
      (.running frame S.callers w)
      ((Source.declareVars decls S.env >>= execStatements c S.fuel S.ret stmts) t) := by
  obtain ⟨_, σ₁, h₁, h₂⟩ := bind_some hr
  have hM₁ : Within σ₁.module S.target := (continues_visitStatementList stmts σ₁ r h₂).1.trans hM
  obtain ⟨hk, hpre⟩ := visitLocalDeclarations_kept h₁
  refine (visitLocalDeclarations_emulates decls h.here hlen h₁ hM₁).bind (S.backward t)
    fun Γ t₁ s₁ hs₁ => ?_
  obtain ⟨μ, frame₁, w₁, rfl, hle, hm₁, hl₁, hst₁, hf⟩ := hs₁
  have hready : (S.inside Γ μ).Ready σ₁ frame₁ t₁ w₁ := by
    refine ⟨hm₁, hpre.trans h.preEnterScope, ?_, ?_⟩
    · rw [← List.length_pos_iff, hk.length, List.length_pos_iff]
      exact h.scope
    · rw [hl₁.func]
      exact h.ret
  refine (hstmts (S.inside Γ μ) σ₁ frame₁ t₁ w₁ (hS.inside hle hf) hready r h₂ hM).mono
    (fun _ t₂ s₂ hs₂ => ?_) fun _ _ he => he.leave h.here.mirrors hle hst₁
  obtain ⟨frame₂, w₂, rfl, hm₂, hl₂, hst₂, -⟩ := hs₂
  have hw₁ := (continues_visitLocalDeclarations decls σ _ h₁).1
  exact ⟨Γ, μ, frame₂, w₂, rfl, hle, hm₂, hl₁.trans hl₂ hw₁.widens.numInstrs,
    hst₁.trans (hst₂.mono hle)⟩

theorem compound_runs {decls : List ASTVarDeclaration} {stmts : List ASTStatement}
    (hstmts : ListRuns c stmts) : Runs c (visitStatement (.compound decls stmts))
      fun S => execStatement c S.fuel S.ret (.compound decls stmts) S.env := by
  intro S σ frame t w hS h r hr hM
  dsimp only
  rw [visitStatement] at hr
  rw [execStatement]
  obtain ⟨_, σ₁, h₁, hr⟩ := bind_some hr
  rw [enterCompound_inner h.preEnterScope] at h₁
  cases h₁
  obtain ⟨_, σ₂, h₂, hr⟩ := bind_some hr
  obtain ⟨_, σ₃, h₃, hr⟩ := bind_some hr
  cases hr
  obtain ⟨hk, hpre⟩ := visitLocalDeclarations_kept h₂
  obtain ⟨hscope, -⟩ := visitStatementList_leaves stmts σ₂ _ h₃ (hpre.trans h.preEnterScope)
  have hexit : σ₃.scope.exit = σ.scope := by
    show (⟨σ₃.scope.inner.tail⟩ : Scope) = σ.scope
    dsimp only at hscope
    rw [hscope, hk.outer]
    rfl
  have hw : Within σ.module σ₃.module := (continues_visitLocalDeclarations decls _ _ h₂).1.trans
    (continues_visitStatementList stmts σ₂ _ h₃).1
  have hin : (S.inside ([] :: S.env) S.layout).Ready { σ with scope := σ.scope.enter } frame t w := by
    refine ⟨⟨h.here.curFun, h.here.func, h.here.requireLvalue, h.here.insertBlock, h.here.block,
      h.here.isOpen, h.here.rest, .cons .nil h.here.binds, h.here.made, h.here.mirrors⟩,
      h.preEnterScope, by simp [Scope.enter], h.ret⟩
  have hlen : σ.scope.enter.inner.length ≠ 1 := by
    have hpos := List.length_pos_iff.mpr h.scope
    simp only [Scope.enter, List.length_cons]
    omega
  have hS' : Serves (S.inside ([] :: S.env) S.layout) c :=
    hS.inside (.refl _) fun id f hf => by
      rw [Env.find, List.findSome?_cons] at hf
      exact hf
  have hblock : (visitLocalDeclarations decls >>= fun _ => visitStatementList stmts)
      { σ with scope := σ.scope.enter } = some ((), σ₃) := (bind_run h₂).trans h₃
  refine (block_emulates hstmts hS' hin hlen hblock hM).mono (fun _ t' s' hs => ?_)
    fun _ _ he => he
  obtain ⟨Γ, μ, frame', w', rfl, hle, hm, hl, hst⟩ := hs
  refine ⟨frame', w', rfl, ⟨?_, hm.func, hm.requireLvalue, hm.insertBlock, hm.block, hm.isOpen,
    hm.rest, ?_, ?_, h.here.mirrors.restrict hm.mirrors hle hst⟩, hl, hst, trivial⟩
  · exact hm.curFun
  · show Binds S.layout σ₃.module frame' S.env σ₃.scope.exit.inner
    rw [hexit]
    exact h.here.binds.later hw hl (.refl _)
  · intro l o ty ho
    exact (h.here.made l o ty ho).mono hl.count

mutual

/-- Every statement is executed by its code. -/
theorem visitStatement_runs (c : Context) : ∀ s : ASTStatement,
    Runs c (visitStatement s) fun S => execStatement c S.fuel S.ret s S.env
  | .compound _ stmts => compound_runs (visitStatementList_runs c stmts)
  | .expressionStmt none => by
    intro S σ frame t w hS h
    dsimp only
    rw [visitStatement, execStatement]
    exact .pure h.here trivial
  | .expressionStmt (some e) => expressionStmt_runs e
  | .selection _ s => selection_runs (visitStatement_runs c s)
  | .selectionElse _ s s' => selectionElse_runs (visitStatement_runs c s) (visitStatement_runs c s')
  | .iteration _ s => iteration_runs (visitStatement_runs c s)
  | .return none => return_runs
  | .return (some e) => returnValue_runs e

theorem visitStatementList_runs (c : Context) : ∀ stmts : List ASTStatement, ListRuns c stmts
  | [] => by
    intro S σ frame t w hS h
    dsimp only
    rw [visitStatementList, execStatements]
    exact .pure h.here trivial
  | stmt :: stmts => by
    intro S σ frame t w hS h r hr hM
    dsimp only
    rw [visitStatementList] at hr
    rw [execStatements]
    obtain ⟨_, σ₁, h₁, hr⟩ := bind_some hr
    have hk := visitStatement_keeps h₁ h.preEnterScope h.here.requireLvalue
    obtain ⟨b, σ₂, h₂, hr⟩ := bind_some hr
    obtain rfl : σ₂ = σ₁ := terminated_read _ h₂
    have hw₂ : Within σ₂.module r.2.module := by
      cases b with
      | true =>
        cases hr
        exact .refl _
      | false => exact (continues_visitStatementList stmts σ₂ r hr).1
    refine (visitStatement_runs c stmt S σ frame t w hS h _ h₁ (hw₂.trans hM)).bind (S.backward t)
      fun _ t₁ s₁ hs₁ => ?_
    obtain ⟨frame₁, w₁, rfl, hm₁, hl₁, hst₁, -⟩ := hs₁
    -- where the machine still runs, the visitors have not closed the block
    rw [terminated_run hm₁.insertBlock, hm₁.isOpen] at h₂
    cases h₂
    have hready := h.next hm₁ hl₁ hk.scope hk.preEnterScope
    refine (visitStatementList_runs c stmts S σ₂ frame₁ t₁ w₁ hS hready r hr hM).mono
      (fun _ t₂ s₂ hs₂ => ?_) fun _ _ he => he.earlier hst₁
    obtain ⟨frame₂, w₂, hs₂, hm₂, hl₂, hst₂, -⟩ := hs₂
    exact ⟨frame₂, w₂, hs₂, hm₂, hl₁.trans hl₂ hk.within.widens.numInstrs, hst₁.trans hst₂, trivial⟩

end

end Source

end Cminusf
