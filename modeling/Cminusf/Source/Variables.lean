import Cminusf.Source.Branches

/-! Variables and subscripts. -/

namespace Cminusf

namespace CminusfBuilder

open Builder

/-- The check of a subscript, after which the insert point is in the block that goes on. -/
def checkIndex (val : Value) : Builder Value := do
  let exceptBB ← createBasicBlock ""
  let contBB ← createBasicBlock ""
  let val ← toIndex val
  let isNeg ← createIcmp .lt val (.constInt 0)
  discard <| createCondBr isNeg exceptBB contBB
  setInsertPoint exceptBB
  createNegIdxExcept
  setInsertPoint contBB
  return val

theorem visitSubscript_eq (var : Value) (elementTy : Ty) (lval : Bool) :
    visitSubscript var elementTy lval = (do
      let val ← getTmpVal
      let val ← checkIndex val
      let tmpPtr ← createElementPtr var elementTy val
      if lval then
        setTmpVal tmpPtr
        setRequireLvalue false
      else
        setTmpVal (← createLoad tmpPtr)) := by
  simp only [visitSubscript, checkIndex, bind_assoc, pure_bind]

theorem continues_checkIndex (v : Value) : Continues (checkIndex v) :=
  (continues_createBasicBlock _).bind fun e => (continues_createBasicBlock _).bind fun d =>
    (continues_basics.toIndex v).bind fun v => (continues_basics.create (by simp)).bind fun _ =>
    (continues_basics.discard (continues_createCondBr _ _ _)).bind fun _ =>
    (continues_setInsertPoint e).bind fun _ => (continues_basics.createNegIdxExcept).bind
    fun _ => (continues_setInsertPoint d).bind fun _ => continues_basics.pure _

end CminusfBuilder

namespace Source

open Machine Builder CminusfBuilder

variable {S : Setting} {c : Context} {σ σ' : BuilderState} {frame frame' : Frame}
  {t t' : Store} {w w' : World} {m m' M : Module} {val var : Value} {elementTy : Ty} {u v : Val}
  {b : Binding} {d e : Nat}

/-- A function that a name is bound to. -/
theorem Bound.of_function {μ : Layout} {f : Nat} (h : Bound μ m frame b (.function f)) :
    ∃ g : Callee, b = .function g ∧ f = g.index := by
  cases h with
  | scalar _ _ _ hv => cases hv
  | array _ _ _ hv => cases hv
  | arrayParam _ _ _ hv => cases hv
  | function => exact ⟨_, rfl, rfl⟩

theorem action_negIdxExcept {ops : FloatOps} {depth i : Nat} (hop : (M.instrs i).opId = .call)
    (hops : (M.instrs i).operands = [.function 3]) (hname : (M.functions 3).name = "neg_idx_except")
    (hdecl : (M.functions 3).isDeclaration) :
    Machine.action ops M depth frame w i = some (.exits (w.emit .negIdxExcept)) := by
  simp [Machine.action, hop, hops, hname, hdecl, external]

/-- The branch that a negative index takes, and the one that the others take. -/
theorem negIdxExcept_implements {isNeg : Value} {neg : Bool} {n : BitVec 32} (hS : Serves S c)
    (h : S.Matches σ frame t w) (hneg : frame.value isNeg = some (.number (.bool neg)))
    (he : Awaits frame e σ) (hd : Awaits frame d σ) (hne : e ≠ d)
    (hc : Carries S.layout σ.module frame val (.int n)) :
    Implements S (do
        discard <| createCondBr isNeg e d
        setInsertPoint e
        createNegIdxExcept
        setInsertPoint d
        return val)
      (if neg then negIdxExcept else pure n) σ frame t w fun p k σ' frame' =>
        k = n ∧ neg = false ∧ Carries S.layout σ'.module frame' p (.int n) := by
  intro r hr hM
  obtain ⟨_, σ₁, h₁, hr⟩ := bind_some hr
  obtain ⟨_, h₁⟩ := discard_some h₁
  obtain ⟨_, σ₂, h₂, hr⟩ := bind_some hr
  cases h₂
  obtain ⟨_, σ₃, h₃, hr⟩ := bind_some hr
  have hempty : Empty d _ → Empty d σ₃ := empty_basics.createNegIdxExcept _ _ h₃
  obtain ⟨f, eb, ty, m, hfind, heb, hcall, hwithin, honly₃⟩ := createNegIdxExcept_appended h₃
  cases heb
  obtain ⟨m₃, rfl⟩ : ∃ m₃, σ₃ = { σ₁ with module := m₃, insertBlock := some e } := ⟨_, honly₃⟩
  obtain ⟨_, σ₄, h₄, hr⟩ := bind_some hr
  cases h₄
  cases hr
  dsimp only at hcall hwithin hM hfind hempty
  have hw₃ : Within σ₁.module m₃ := hcall.within.trans hwithin
  obtain ⟨hstep, hm, honly, hw₁, hee, hed, hl⟩ :=
    condBr_step hS h hneg he hd h₁ (hw₃.trans hM)
  cases neg with
  | true =>
    simp only [if_true] at hstep hm
    obtain ⟨rest, hrest, hins, -, -⟩ := hm.emit hcall (hwithin.trans hM)
    obtain ⟨b, hb, hbound⟩ := hm.binds.find hfind
    obtain ⟨g, rfl, rfl⟩ := hbound.of_function
    obtain rfl := hS.negIdxExcept g hb
    have hexit : step S.ops S.target (.running (frame.jump S.target e) S.callers w) =
        some (.exited (w.emit .negIdxExcept)) := by
      rw [step, show (frame.jump S.target e).rest = _ from hrest]
      dsimp only
      rw [action_negIdxExcept (by rw [hins]) (by rw [hins]; rfl) hS.library.1 hS.library.2]
      rfl
    show S.Fails t .exited (t.emit .negIdxExcept) (.running frame S.callers w)
    exact ⟨_, .head hstep (.single hexit), congrArg (· ++ [Event.negIdxExcept]) h.mirrors.events⟩
  | false =>
    have hd₃ := hempty ⟨hed.lt, hed.nil, by simpa using hne⟩
    simp only [Bool.false_eq_true, if_false] at hstep hm hl
    have hcur := Matches.wait { σ₁ with module := m₃, insertBlock := some e } hm hed hw₃ rfl rfl
      hm.requireLvalue hd₃.nil
    refine .of_step (S.backward t) hstep (.of_now ⟨_, w, rfl, hcur, hl _, .refl _ _, rfl, rfl, ?_⟩)
    exact hc.later (hw₁.trans hw₃) (hl _) (.refl _)

/-- The check of a subscript. -/
theorem checkIndex_implements (hS : Serves S c) (h : S.Matches σ frame t w)
    (hc : Carries S.layout σ.module frame val u) :
    Implements S (checkIndex val) (do
        let n ← defined (u.index S.ops)
        if n.slt 0 then negIdxExcept else pure n) σ frame t w fun p n σ' frame' =>
      n.slt 0 = false ∧ Carries S.layout σ'.module frame' p (.int n) := by
  have hB := continues_basics
  have hlast : ∀ (e d : Nat) (p isNeg : Value), Continues (do
      discard <| createCondBr isNeg e d
      setInsertPoint e
      createNegIdxExcept
      setInsertPoint d
      return p) := fun e d p isNeg =>
    (hB.discard (continues_createCondBr _ _ _)).bind fun _ => (continues_setInsertPoint e).bind
      fun _ => (hB.createNegIdxExcept).bind fun _ => (continues_setInsertPoint d).bind
      fun _ => hB.pure _
  refine .defined fun n hn => .block h fun e σ₁ hw₁ hm₁ he₁ _ _ => ?_
  refine .block hm₁ fun d σ₂ hw₂ hm₂ hd₂ _ hold => ?_
  obtain ⟨he₂, hne⟩ := hold e he₁
  have hc₂ : Carries S.layout σ₂.module frame val u :=
    hc.later (hw₁.trans hw₂) (.refl _ _) (.refl _)
  refine (toIndex_implements hm₂ hc₂ hn).before (hB.toIndex _)
    (fun p => (hB.create (by simp)).bind fun _ => hlast e d p _)
    fun p σ₃ frame₃ t₃ w₃ hrun₃ hw₃ hm₃ hl₃ hq₃ => ?_
  have he₃ := (he₂.keep hrun₃ (hB.toIndex _) (empty_basics.toIndex _) hm₂.func).of_later hl₃
  have hd₃ := (hd₂.keep hrun₃ (hB.toIndex _) (empty_basics.toIndex _) hm₂.func).of_later hl₃
  have hzero : Carries S.layout σ₃.module frame₃ (.constInt 0) (.int 0) :=
    carries_of_type (hasType_constInt 0) rfl (.int 0)
  have hcmp : Implements S (createIcmp .lt p (.constInt 0)) (pure ()) σ₃ frame₃ t₃ w₃
      (Computes .int1 (.bool (n.slt 0))) := create_ints hm₃ rfl hq₃.1 hzero rfl
  refine hcmp.before (hB.create (by simp)) (fun _ => hlast e d p _)
    fun isNeg σ₄ frame₄ t₄ w₄ hrun₄ hw₄ hm₄ hl₄ hq₄ => ?_
  have he₄ := (he₃.keep hrun₄ (hB.create (by simp)) (empty_basics.create (by simp))
    hm₃.func).of_later hl₄
  have hd₄ := (hd₃.keep hrun₄ (hB.create (by simp)) (empty_basics.create (by simp))
    hm₃.func).of_later hl₄
  refine (negIdxExcept_implements hS hm₄ hq₄.2 he₄ hd₄ hne
    (hq₃.1.later hw₄ hl₄ (.refl _))).mono fun q k σ' frame' _ hq => ?_
  obtain ⟨rfl, hneg, hcar⟩ := hq
  exact ⟨hneg, hcar⟩

/-! ### Variables -/

variable {γ δ : Type} {ptr : Value} {ty : Ty} {l k : Nat} {id : String}

/-- The address of a variable or an element is in `tmp_val`. -/
def GivesAddress (S : Setting) (_ : Unit) (place : CminusType × Nat × Nat) (σ' : BuilderState)
    (frame' : Frame) : Prop :=
  place.1 ≠ .void ∧ ∃ ptr, σ'.tmpVal = some ptr ∧
    Locates S.layout σ'.module frame' ptr place.1.ty place.2.1 place.2.2

theorem Bound.present {μ : Layout} (h : Bound μ m frame b var) : Present m var := by
  cases h with
  | scalar _ _ ht _ => exact ht.present
  | array _ _ ht _ => exact ht.present
  | arrayParam _ _ ht _ => exact ht.present
  | function hf => exact hf

theorem enterVar_implements {lv : Bool} {f : Value × Ty × Bool → Builder γ} {y : Eval δ}
    {R : γ → δ → BuilderState → Frame → Prop} (h : S.Matches σ frame t w)
    (hf : ∀ var elementTy b, S.env.find id = some b → Bound S.layout σ.module frame b var →
      HasType σ.module var (.pointer elementTy) →
      Implements S (f (var, elementTy, lv)) y σ frame t w R) :
    Implements S (enterVar id >>= f) y { σ with requireLvalue := lv } frame t w R := by
  intro r hr hM
  obtain ⟨a, σ₁, h₁, hr⟩ := bind_some hr
  obtain ⟨_, _, h₂, h₁⟩ := bind_some h₁
  cases h₂
  cases hvar : σ.scope.find id with
  | none =>
    dsimp only at h₁
    rw [hvar] at h₁
    cases h₁
  | some var =>
    dsimp only at h₁
    rw [hvar] at h₁
    obtain ⟨_, _, h₃, h₁⟩ := bind_some h₁
    cases h₃
    cases hty : (σ.module.getType var).pointerElementType with
    | none =>
      dsimp only at h₁
      rw [hty] at h₁
      cases h₁
    | some elementTy =>
      dsimp only at h₁
      rw [hty] at h₁
      cases h₁
      obtain ⟨b, hb, hbound⟩ := h.binds.find hvar
      have hptr : HasType σ.module var (.pointer elementTy) := by
        refine ⟨hbound.present, ?_⟩
        cases ht : σ.module.getType var <;> rw [ht] at hty <;> cases hty
        rfl
      have hσ : ({ σ with requireLvalue := false } : BuilderState) = σ := by
        rw [← h.requireLvalue]
      refine hf var elementTy b hb hbound hptr r ?_ hM
      rwa [← hσ]

/-- The value of the variable is asked for. -/
theorem enterVar_value {f : Value × Ty × Bool → Builder γ} {y : Eval δ}
    {R : γ → δ → BuilderState → Frame → Prop} (h : S.Matches σ frame t w)
    (hf : ∀ var elementTy b, S.env.find id = some b → Bound S.layout σ.module frame b var →
      HasType σ.module var (.pointer elementTy) →
      Implements S (f (var, elementTy, false)) y σ frame t w R) :
    Implements S (enterVar id >>= f) y σ frame t w R := by
  have hσ : ({ σ with requireLvalue := false } : BuilderState) = σ := by
    rw [← h.requireLvalue]
  have hv : Implements S (enterVar id >>= f) y { σ with requireLvalue := false } frame t w R :=
    enterVar_implements h hf
  rwa [hσ] at hv

theorem load_gives (h : S.Matches σ frame t w) (hp : Locates S.layout σ.module frame ptr ty l k) :
    Implements S (createLoad ptr >>= setTmpVal) (do return some (← read l k)) σ frame t w
      (Gives S) := by
  refine (createLoad_implements h hp).bind (continues_basics.createLoad _)
    (fun _ => continues_basics.setTmpVal _) fun val v σ' frame' t' w' _ _ hm _ hq => ?_
  refine .setTmpVal hm fun u hu => ?_
  cases hu
  exact ⟨val, rfl, hq.1⟩

/-- The value of a variable, or the address of the first element of an array. -/
theorem visitScalar_value (h : S.Matches σ frame t w) (hfind : S.env.find id = some b)
    (hb : Bound S.layout σ.module frame b var)
    (hty : HasType σ.module var (.pointer elementTy)) :
    Implements S (visitScalar var elementTy false) (evalVar c S.env (.scalar id)) σ frame t w
      (Gives S) := by
  have hinj : ∀ ty, HasType σ.module var (.pointer ty) → elementTy = ty := by
    intro ty hv
    have he := hty.type.symm.trans hv.type
    cases he
    rfl
  rw [evalVar, hfind]
  cases hb with
  | function => exact .undefined
  | @scalar ety l o _ hety ho hvar hv =>
    obtain rfl := hinj _ hvar
    have hload : visitScalar var ety.ty false = createLoad var >>= setTmpVal := by
      cases ety with
      | int => rfl
      | float => rfl
      | void => exact absurd rfl hety
    rw [hload]
    exact load_gives h ⟨hvar, o, ho, hv⟩
  | @arrayParam ety l o _ hety ho hvar hv =>
    obtain rfl := hinj _ hvar
    have hload : visitScalar var (.pointer ety.ty) false = createLoad var >>= setTmpVal := rfl
    rw [hload]
    exact load_gives h ⟨hvar, o, ho, hv⟩
  | @array ety l len o _ hety ho hvar hv =>
    obtain rfl := hinj _ hvar
    have hgep : visitScalar var (.array ety.ty len) false =
        createGep var [.constInt 0, .constInt 0] >>= setTmpVal := rfl
    rw [hgep]
    have hzero : Carries S.layout σ.module frame (.constInt 0) (.int 0) :=
      carries_of_type (hasType_constInt 0) rfl (.int 0)
    refine (createGep_array h hvar hv ho hzero rfl).before (continues_basics.createGep _ _)
      (fun _ => continues_basics.setTmpVal _) fun p σ' frame' t' w' _ _ hm _ hq => ?_
    refine .setTmpVal hm fun u hu => ?_
    cases hu
    obtain ⟨o', ho', hp⟩ := hq.1.value
    exact ⟨p, rfl, carries_of_type hq.1.type hp (.array hety ho')⟩

/-- The address of a variable. -/
theorem visitScalar_address (h : S.Matches σ frame t w) (hfind : S.env.find id = some b)
    (hb : Bound S.layout σ.module frame b var) :
    Implements S (visitScalar var elementTy true) (locate c S.env (.scalar id)) σ frame t w
      (GivesAddress S) := by
  rw [locate, hfind]
  cases hb with
  | function => exact .undefined
  | arrayParam => exact .undefined
  | array => exact .undefined
  | @scalar ety l o _ hety ho hvar hv =>
    intro r hr _
    cases hr
    exact .of_now ⟨frame, w, rfl, h.congr rfl rfl rfl rfl rfl, .refl _ _, .refl _ _, hety, var,
      rfl, hvar, o, ho, hv⟩

theorem negIdxExcept_bind {α β : Type} (f : α → Eval β) : negIdxExcept >>= f = negIdxExcept :=
  funext fun t => bind_of_error (v := t) rfl

/-- The program checks a subscript before it goes to the element. -/
theorem subscript_bind (b : Option Binding) (y : Eval (Option Val))
    (g : CminusType × Nat × Nat → Eval δ) :
    subscript c b y >>= g = value y >>= fun v => (do
      let n ← defined (v.index c.ops)
      if n.slt 0 then negIdxExcept else pure n) >>= fun n => element b n.toNat >>= g := by
  have hif : ∀ n : BitVec 32, (if n.slt 0 then negIdxExcept else element b n.toNat) >>= g =
      (if n.slt 0 then negIdxExcept else pure n) >>= fun n => element b n.toNat >>= g := by
    intro n
    cases n.slt 0 with
    | true => exact (negIdxExcept_bind _).trans (negIdxExcept_bind _).symm
    | false => exact (pure_bind n fun n => element b n.toNat >>= g).symm
  simp only [subscript, bind_assoc, hif]

/-- The element with the subscript that `x` evaluates. -/
theorem subscript_implements {x : Builder Unit} {y : Eval (Option Val)} {f : Value → Builder γ}
    {g : CminusType × Nat × Nat → Eval δ} {R : γ → δ → BuilderState → Frame → Prop}
    (hS : Serves S c) (hx : Implements S x y σ frame t w (Gives S)) (hcx : Continues x)
    (hcf : ∀ p, Continues (f p)) (hb : Bound S.layout σ.module frame b var)
    (hty : HasType σ.module var (.pointer elementTy))
    (hf : ∀ p place σ' frame' t' w', S.Matches σ' frame' t' w' → place.1 ≠ .void →
      Locates S.layout σ'.module frame' p place.1.ty place.2.1 place.2.2 →
      Implements S (f p) (g place) σ' frame' t' w' R) :
    Implements S (x >>= fun _ => getTmpVal >>= fun val => checkIndex val >>= fun val =>
        createElementPtr var elementTy val >>= f)
      (subscript c (some b) y >>= g) σ frame t w R := by
  rw [subscript_bind, hS.ops]
  have hce : ∀ val, Continues (createElementPtr var elementTy val >>= f) := fun val =>
    (continues_basics.createElementPtr _ _ val).bind hcf
  refine .operand hx hcx (fun v => (continues_checkIndex v).bind hce)
    fun val u σ₁ frame₁ t₁ w₁ _ hw₁ hm₁ hl₁ hc₁ => ?_
  refine (checkIndex_implements hS hm₁ hc₁).bind (continues_checkIndex _) hce
    fun idx n σ₂ frame₂ t₂ w₂ _ hw₂ hm₂ hl₂ hq₂ => ?_
  have hl : Later σ.module.numInstrs frame frame₂ := hl₁.trans hl₂ hw₁.widens.numInstrs
  have hw : Within σ.module σ₂.module := hw₁.trans hw₂
  refine (createElementPtr_implements hm₂ (hb.later hw hl (.refl _)) (hty.widen hw.widens) hq₂.2
    hq₂.1).bind (continues_basics.createElementPtr _ _ _) hcf
    fun p place σ₃ frame₃ t₃ w₃ _ _ hm₃ _ hq₃ => ?_
  exact hf p place σ₃ frame₃ t₃ w₃ hm₃ hq₃.1 hq₃.2.1

theorem visitSubscript_value {x : Builder Unit} {y : Eval (Option Val)} (hS : Serves S c)
    (hx : Implements S x y σ frame t w (Gives S)) (hcx : Continues x)
    (hb : Bound S.layout σ.module frame b var)
    (hty : HasType σ.module var (.pointer elementTy)) :
    Implements S (x >>= fun _ => visitSubscript var elementTy false)
      (subscript c (some b) y >>= fun place => do return some (← read place.2.1 place.2.2))
      σ frame t w (Gives S) := by
  rw [visitSubscript_eq]
  have hcl : ∀ p, Continues (createLoad p >>= setTmpVal) := fun p =>
    (continues_basics.createLoad p).bind fun _ => continues_basics.setTmpVal _
  exact subscript_implements hS hx hcx hcl hb hty fun p place σ' frame' t' w' hm _ hp =>
    load_gives hm hp

theorem visitSubscript_address {x : Builder Unit} {y : Eval (Option Val)} (hS : Serves S c)
    (hx : Implements S x y σ frame t w (Gives S)) (hcx : Continues x)
    (hb : Bound S.layout σ.module frame b var)
    (hty : HasType σ.module var (.pointer elementTy)) :
    Implements S (x >>= fun _ => visitSubscript var elementTy true)
      (subscript c (some b) y) σ frame t w (GivesAddress S) := by
  rw [visitSubscript_eq, ← bind_pure (subscript c (some b) y)]
  have hcl : ∀ p, Continues (setTmpVal p >>= fun _ => setRequireLvalue false) := fun p =>
    (continues_basics.setTmpVal p).bind fun _ => continues_basics.setRequireLvalue _
  refine subscript_implements hS hx hcx hcl hb hty fun p place σ' frame' t' w' hm hpl hp => ?_
  intro r hr _
  cases hr
  exact .of_now ⟨frame', w', rfl, hm.congr rfl rfl rfl rfl rfl, .refl _ _, .refl _ _, hpl, p, rfl,
    hp⟩

end Source

end Cminusf
