import Cminusf.Builder.Scoping
import Cminusf.Builder.WellTyped

/-! The values that the visitors store have the type of their place, unless a conversion has made
them. The program need not be legal. -/

namespace Cminusf

namespace Builder

/-- The result of a conversion. -/
def Converted (m : Module) (v : Value) : Prop :=
  ∃ i ty, v = .instruction i ∧ ((m.instrs i).opId = .sitofp ty ∨ (m.instrs i).opId = .fptosi ty)

/-- The value may be stored there. -/
structure Storable (m : Module) (val ptr : Value) : Prop where
  value : Present m val
  address : Present m ptr
  type : m.getType ptr = .pointer (m.getType val) ∨ Converted m val

/-- Every store is of a value that may be stored there. -/
def StoresFit (m : Module) : Prop :=
  ∀ i < m.numInstrs, (m.instrs i).opId = .store →
    ∃ val ptr, (m.instrs i).operands = [val, ptr] ∧ Storable m val ptr

/-- The state of the visitors, as far as stores depend on it. -/
structure Fits (σ : BuilderState) : Prop where
  stores : StoresFit σ.module
  tmpVal : ∀ v, σ.tmpVal = some v → Present σ.module v
  scope : ∀ l ∈ σ.scope.inner, ∀ p ∈ l, Present σ.module p.2

/-- What a part of a visitor yields. -/
def Makes {α : Type} (x : Builder α) (σ : BuilderState) (Q : α → Module → Prop) : Prop :=
  ∀ r, x σ = some r → Fits r.2 ∧ Widens σ.module r.2.module ∧ Q r.1 r.2.module

/-- The value is one of the module. -/
abbrev IsPresent (v : Value) (m : Module) : Prop := Present m v

abbrev Anything {α : Type} (_ : α) (_ : Module) : Prop := True

section

variable {α β : Type} {σ σ' : BuilderState} {m m' : Module} {x : Builder α} {v val ptr : Value}
  {opId : OpID} {ty : Ty} {ops : List Value} {Q : α → Module → Prop}

theorem Present.widen (h : Present m v) (hw : Widens m m') : Present m' v :=
  (HasType.widen ⟨h, rfl⟩ hw).present

theorem getType_widen (h : Present m v) (hw : Widens m m') : m'.getType v = m.getType v :=
  (HasType.widen ⟨h, rfl⟩ hw).type

theorem Storable.widen (h : Storable m val ptr) (hw : Widens m m') : Storable m' val ptr where
  value := h.value.widen hw
  address := h.address.widen hw
  type := by
    rw [getType_widen h.value hw, getType_widen h.address hw]
    refine h.type.imp_right ?_
    rintro ⟨i, ty, rfl, hop⟩
    exact ⟨i, ty, rfl, by rwa [hw.instrs i h.value]⟩

/-- Nothing but instructions is added. -/
theorem StoresFit.widen (h : StoresFit m) (hw : Widens m m')
    (hnew : ∀ i, m.numInstrs ≤ i → i < m'.numInstrs → (m'.instrs i).opId = .store →
      ∃ val ptr, (m'.instrs i).operands = [val, ptr] ∧ Storable m' val ptr) : StoresFit m' := by
  intro i hi hop
  by_cases hlt : i < m.numInstrs
  · rw [hw.instrs i hlt] at hop ⊢
    obtain ⟨val, ptr, hops, hs⟩ := h i hlt hop
    exact ⟨val, ptr, hops, hs.widen hw⟩
  · exact hnew i (Nat.le_of_not_lt hlt) hi hop

theorem Fits.widen (h : Fits σ) (hw : Widens σ.module m') (hs : StoresFit m') :
    Fits { σ with module := m' } where
  stores := hs
  tmpVal v hv := (h.tmpVal v hv).widen hw
  scope l hl p hp := (h.scope l hl p hp).widen hw

theorem Makes.bind {f : α → Builder β} {R : β → Module → Prop} (hx : Makes x σ Q)
    (hf : ∀ a σ', Fits σ' → Widens σ.module σ'.module → Q a σ'.module → Makes (f a) σ' R) :
    Makes (x >>= f) σ R := by
  intro r h
  obtain ⟨a, σ', h1, h2⟩ := bind_some h
  obtain ⟨hfit, hw, hq⟩ := hx _ h1
  obtain ⟨hfit', hw', hr⟩ := hf a σ' hfit hw hq r h2
  exact ⟨hfit', hw.trans hw', hr⟩

theorem Makes.imp {R : α → Module → Prop} (hx : Makes x σ Q) (h : ∀ a m, Q a m → R a m) :
    Makes x σ R := fun r hr => (hx r hr).imp_right fun hq => hq.imp_right (h _ _)

theorem Makes.discard (hx : Makes x σ Q) : Makes (discard x) σ Anything := by
  intro r h
  obtain ⟨a, h1⟩ := discard_some h
  obtain ⟨hfit, hw, -⟩ := hx _ h1
  exact ⟨hfit, hw, trivial⟩

theorem Makes.pure (hσ : Fits σ) {a : α} (hq : Q a σ.module) : Makes (pure a) σ Q := by
  rintro r h
  cases h
  exact ⟨hσ, .refl _ _, hq⟩

theorem Makes.failure : Makes (failure : Builder α) σ Q := by
  rintro r h
  cases h

/-- A part that only reads the state. -/
theorem Makes.read {f : α → Builder β} {R : β → Module → Prop}
    (hx : ∀ r, x σ = some r → r.2 = σ) (hf : ∀ a, x σ = some (a, σ) → Makes (f a) σ R) :
    Makes (x >>= f) σ R := by
  intro r h
  obtain ⟨a, σ', h1, h2⟩ := bind_some h
  obtain rfl : σ' = σ := hx _ h1
  exact hf a h1 r h2

/-- A part that does not change the module. -/
theorem Makes.modify {g : BuilderState → BuilderState} (hfit : Fits (g σ))
    (hm : (g σ).module = σ.module) : Makes (modify g : Builder Unit) σ Anything := by
  rintro r h
  cases h
  exact ⟨hfit, hm ▸ .refl _ _, trivial⟩

theorem Makes.getTmpVal {f : Value → Builder β} {R : β → Module → Prop} (hσ : Fits σ)
    (hf : ∀ v, Present σ.module v → Makes (f v) σ R) : Makes (getTmpVal >>= f) σ R :=
  Makes.read getTmpVal_read fun v hv => hf v (hσ.tmpVal v (getTmpVal_eq hv))

theorem Makes.getType {f : Ty → Builder β} {R : β → Module → Prop}
    (hf : Makes (f (σ.module.getType v)) σ R) : Makes (getType v >>= f) σ R := by
  refine Makes.read ?_ fun a ha => ?_
  · rintro r h
    cases h
    rfl
  · cases ha
    exact hf

theorem Makes.getModule {f : Module → Builder β} {R : β → Module → Prop}
    (hf : Makes (f σ.module) σ R) : Makes (getModule >>= f) σ R := by
  refine Makes.read ?_ fun a ha => ?_
  · rintro r h
    cases h
    rfl
  · cases ha
    exact hf

theorem Makes.getState {f : BuilderState → Builder β} {R : β → Module → Prop}
    (hf : Makes (f σ) σ R) : Makes (get >>= f) σ R := by
  refine Makes.read ?_ fun a ha => ?_
  · rintro r h
    cases h
    rfl
  · cases ha
    exact hf

theorem Makes.getCurFun {f : Nat → Builder β} {R : β → Module → Prop}
    (hf : ∀ fn, Makes (f fn) σ R) : Makes (getCurFun >>= f) σ R := by
  refine Makes.read ?_ fun a _ => hf a
  intro r h
  obtain ⟨fn, -, rfl⟩ := Option.map_eq_some_iff.mp h
  rfl

theorem Makes.getInsertBlock {f : Nat → Builder β} {R : β → Module → Prop}
    (hf : ∀ bb, Makes (f bb) σ R) : Makes (getInsertBlock >>= f) σ R := by
  refine Makes.read ?_ fun a _ => hf a
  intro r h
  obtain ⟨bb, -, rfl⟩ := Option.map_eq_some_iff.mp h
  rfl

theorem setTmpVal_makes (hσ : Fits σ) (hv : Present σ.module v) :
    Makes (setTmpVal v) σ Anything := by
  refine Makes.modify ⟨hσ.stores, ?_, hσ.scope⟩ rfl
  rintro w hw
  cases hw
  exact hv

theorem setRequireLvalue_makes (hσ : Fits σ) (b : Bool) : Makes (setRequireLvalue b) σ Anything :=
  .modify ⟨hσ.1, hσ.2, hσ.3⟩ rfl

theorem setPreEnterScope_makes (hσ : Fits σ) (b : Bool) : Makes (setPreEnterScope b) σ Anything :=
  .modify ⟨hσ.1, hσ.2, hσ.3⟩ rfl

theorem setInsertPoint_makes (hσ : Fits σ) (b : Nat) : Makes (setInsertPoint b) σ Anything :=
  .modify ⟨hσ.1, hσ.2, hσ.3⟩ rfl

/-- A change of the module that adds no instruction. -/
theorem setModule_makes (hσ : Fits σ) (hw : Widens σ.module m')
    (hn : m'.numInstrs = σ.module.numInstrs) : Makes (setModule m') σ fun _ m => m = m' := by
  rintro r h
  cases h
  exact ⟨hσ.widen hw (hσ.stores.widen hw fun i hi hlt => by omega), hw, rfl⟩

/-- The instruction that has just been created. -/
structure IsNew (opId : OpID) (ty : Ty) (v : Value) (m : Module) : Prop where
  present : Present m v
  type : m.getType v = ty
  opId : ∀ i, v = .instruction i → (m.instrs i).opId = opId
  exists_eq : ∃ i, v = .instruction i

theorem IsNew.storable (h : IsNew opId ty v m) (hptr : Present m ptr)
    (hop : opId = .sitofp ty ∨ opId = .fptosi ty) : Storable m v ptr := by
  obtain ⟨i, hi⟩ := h.exists_eq
  refine ⟨h.present, hptr, .inr ⟨i, ty, hi, ?_⟩⟩
  rwa [h.opId i hi]

theorem create_makes (hσ : Fits σ) (hst : opId = .store →
    ∃ val ptr, ops = [val, ptr] ∧ Storable σ.module val ptr) :
    Makes (create opId ty ops) σ (IsNew opId ty) := by
  refine .getInsertBlock fun bb => ?_
  refine .getModule ?_
  rintro r h
  cases h
  have happ := createInstruction_appended σ.module bb opId ty ops
  have hw := happ.widens
  refine ⟨hσ.widen hw (hσ.stores.widen hw fun i hi hlt hop => ?_), hw, ⟨?_, ?_, ?_, _, rfl⟩⟩
  · rw [happ.numInstrs] at hlt
    obtain rfl : i = σ.module.numInstrs := by omega
    rw [happ.new] at hop ⊢
    obtain ⟨val, ptr, hops, hs⟩ := hst hop
    exact ⟨val, ptr, hops, hs.widen hw⟩
  · exact (Nat.lt_succ_self _).trans_eq happ.numInstrs.symm
  · simp only [Module.getType, happ.new]
  · intro i hi
    cases hi
    rw [happ.new]

theorem create_present (hσ : Fits σ) (hop : opId ≠ .store) :
    Makes (create opId ty ops) σ IsPresent :=
  (create_makes hσ fun h => absurd h hop).imp fun _ _ h => h.present

theorem addPreBasicBlock_widens (m : Module) (b pre : Nat) : Widens m (m.addPreBasicBlock b pre) := by
  refine ⟨le_rfl, le_rfl, le_rfl, le_rfl, fun _ _ => rfl, fun _ _ => rfl, fun _ _ => rfl,
    fun _ _ => rfl, fun x _ => ?_, fun _ _ => rfl⟩
  by_cases hx : x = b <;> simp [Module.addPreBasicBlock, Module.modifyBlock, hx]

theorem addSuccBasicBlock_widens (m : Module) (b s : Nat) : Widens m (m.addSuccBasicBlock b s) := by
  refine ⟨le_rfl, le_rfl, le_rfl, le_rfl, fun _ _ => rfl, fun _ _ => rfl, fun _ _ => rfl,
    fun _ _ => rfl, fun x _ => ?_, fun _ _ => rfl⟩
  by_cases hx : x = b <;> simp [Module.addSuccBasicBlock, Module.modifyBlock, hx]

theorem createBr_makes (hσ : Fits σ) (t : Nat) : Makes (createBr t) σ IsPresent := by
  refine .getInsertBlock fun bb => .getModule ?_
  refine (setModule_makes hσ ((addPreBasicBlock_widens _ _ _).trans
    (addSuccBasicBlock_widens _ _ _)) rfl).bind fun _ σ' hσ' _ _ => ?_
  exact create_present hσ' (by simp)

theorem createCondBr_makes (hσ : Fits σ) (c : Value) (t f : Nat) :
    Makes (createCondBr c t f) σ IsPresent := by
  refine .getInsertBlock fun bb => .getModule ?_
  refine (setModule_makes hσ ((((addPreBasicBlock_widens _ _ _).trans
    (addPreBasicBlock_widens _ _ _)).trans (addSuccBasicBlock_widens _ _ _)).trans
      (addSuccBasicBlock_widens _ _ _)) rfl).bind fun _ σ' hσ' _ _ => ?_
  exact create_present hσ' (by simp)

theorem createBasicBlock_makes (hσ : Fits σ) (name : String) :
    Makes (createBasicBlock name) σ Anything := by
  refine .getCurFun fun fn => .getModule ?_
  exact (setModule_makes hσ (createBasicBlock_widens _ _ _) rfl).bind
    fun _ σ' hσ' _ _ => .pure hσ' trivial

theorem createLoad_makes (hσ : Fits σ) (v : Value) : Makes (createLoad v) σ IsPresent := by
  refine .getType ?_
  split
  · exact create_present hσ (by simp)
  · exact .failure

theorem createGep_makes (hσ : Fits σ) (v : Value) (idxs : List Value) :
    Makes (createGep v idxs) σ IsPresent := by
  refine .getType ?_
  split
  · exact create_present hσ (by simp)
  · exact .failure

theorem createCall_makes (hσ : Fits σ) (v : Value) (args : List Value) :
    Makes (createCall v args) σ IsPresent := by
  refine .getModule ?_
  split
  · split
    · exact create_present hσ (by simp)
    · exact .failure
  · exact .failure

theorem terminated_read : ∀ r, terminated σ = some r → r.2 = σ := by
  intro r h
  obtain ⟨bb, σ', h1, h⟩ := bind_some h
  obtain ⟨_, -, he⟩ := Option.map_eq_some_iff.mp h1
  cases he
  obtain ⟨m, σ'', h2, h⟩ := bind_some h
  cases h2
  cases h
  rfl

end

end Builder

namespace CminusfBuilder

open Builder

section

variable {σ : BuilderState} {v l r : Value}

theorem promote_makes (hσ : Fits σ) (hl : Present σ.module l) (hr : Present σ.module r) :
    Makes (promote l r) σ fun a m => Present m a.2.1 ∧ Present m a.2.2 := by
  refine .getType (.getType ?_)
  split
  · exact .pure hσ ⟨hl, hr⟩
  · split
    · refine (create_present hσ (by simp)).bind fun a σ' hσ' hw ha => ?_
      exact .pure hσ' ⟨ha, hr.widen hw⟩
    · refine (create_present hσ (by simp)).bind fun a σ' hσ' hw ha => ?_
      exact .pure hσ' ⟨hl.widen hw, ha⟩

theorem createRelation_makes (hσ : Fits σ) (op : RelOp) (isInt : Bool) (l r : Value) :
    Makes (createRelation op isInt l r) σ IsPresent := by
  cases isInt <;> exact create_present hσ (by simp)

theorem createAdditive_makes (hσ : Fits σ) (op : AddOp) (isInt : Bool) (l r : Value) :
    Makes (createAdditive op isInt l r) σ IsPresent := by
  cases op <;> cases isInt <;> exact create_present hσ (by simp)

theorem createMultiplicative_makes (hσ : Fits σ) (op : MulOp) (isInt : Bool) (l r : Value) :
    Makes (createMultiplicative op isInt l r) σ IsPresent := by
  cases op <;> cases isInt <;> exact create_present hσ (by simp)

theorem createDefaultRet_makes (hσ : Fits σ) : Makes createDefaultRet σ IsPresent := by
  refine .getCurFun fun fn => .getModule ?_
  dsimp only
  split
  · exact create_present hσ (by simp)
  · split <;> exact create_present hσ (by simp)

theorem present_of_find (hσ : Fits σ) {name : String} (h : σ.scope.find name = some v) :
    Present σ.module v := by
  obtain ⟨l, hl, hv⟩ := mem_of_find h
  exact hσ.scope l hl _ hv

theorem enterVar_makes (hσ : Fits σ) (id : String) :
    Makes (enterVar id) σ fun a m => Present m a.1 ∧ m.getType a.1 = .pointer a.2.1 := by
  refine .getState ?_
  split
  · exact .failure
  · rename_i var hvar
    refine .getType ?_
    split
    · exact .failure
    · rename_i elementTy hty
      refine .getState ?_
      refine (setRequireLvalue_makes hσ false).bind fun _ σ' hσ' hw _ => ?_
      have hp := present_of_find hσ hvar
      refine .pure hσ' ⟨hp.widen hw, ?_⟩
      rw [getType_widen hp hw]
      cases ht : σ.module.getType var <;> rw [ht] at hty <;> cases hty
      rfl

theorem visitScalar_makes (hσ : Fits σ) (hv : Present σ.module v) (elementTy : Ty) (lval : Bool) :
    Makes (visitScalar v elementTy lval) σ Anything := by
  cases lval with
  | true =>
    exact (setTmpVal_makes hσ hv).bind fun _ σ' hσ' _ _ => setRequireLvalue_makes hσ' false
  | false =>
    simp only [visitScalar, Bool.false_eq_true, if_false]
    split
    · exact (createLoad_makes hσ v).bind fun a σ' hσ' _ ha => setTmpVal_makes hσ' ha
    · exact (createGep_makes hσ v _).bind fun a σ' hσ' _ ha => setTmpVal_makes hσ' ha

theorem toIndex_makes (hσ : Fits σ) (hv : Present σ.module v) :
    Makes (toIndex v) σ IsPresent := by
  refine .getType ?_
  split
  · exact create_present hσ (by simp)
  · exact .pure hσ hv

theorem createElementPtr_makes (hσ : Fits σ) (var val : Value) (elementTy : Ty) :
    Makes (createElementPtr var elementTy val) σ IsPresent := by
  unfold createElementPtr
  split
  · exact createGep_makes hσ _ _
  · split
    · exact (createLoad_makes hσ var).bind fun a σ' hσ' _ _ => createGep_makes hσ' _ _
    · exact createGep_makes hσ _ _

theorem createNegIdxExcept_makes (hσ : Fits σ) : Makes createNegIdxExcept σ Anything := by
  refine .getState ?_
  split
  · exact .failure
  · exact (createCall_makes hσ _ _).discard.bind fun _ σ' hσ' _ _ =>
      (createDefaultRet_makes hσ').discard

theorem visitSubscript_makes (hσ : Fits σ) (v : Value) (elementTy : Ty) (lval : Bool) :
    Makes (visitSubscript v elementTy lval) σ Anything := by
  refine .getTmpVal hσ fun val hval => ?_
  refine (createBasicBlock_makes hσ "").bind fun exceptBB σ₁ h₁ hw₁ _ => ?_
  refine (createBasicBlock_makes h₁ "").bind fun contBB σ₂ h₂ hw₂ _ => ?_
  have hval₂ := hval.widen (hw₁.trans hw₂)
  refine (toIndex_makes h₂ hval₂).bind fun val σ₃ h₃ hw₃ _ => ?_
  refine (create_present h₃ (by simp)).bind fun isNeg σ₄ h₄ hw₄ _ => ?_
  refine (createCondBr_makes h₄ _ _ _).discard.bind fun _ σ₅ h₅ hw₅ _ => ?_
  refine (setInsertPoint_makes h₅ _).bind fun _ σ₆ h₆ hw₆ _ => ?_
  refine (createNegIdxExcept_makes h₆).bind fun _ σ₇ h₇ hw₇ _ => ?_
  refine (setInsertPoint_makes h₇ _).bind fun _ σ₈ h₈ hw₈ _ => ?_
  refine (createElementPtr_makes h₈ _ _ _).bind fun ptr σ₉ h₉ _ hptr => ?_
  split
  · exact (setTmpVal_makes h₉ hptr).bind fun _ σ' hσ' _ _ => setRequireLvalue_makes hσ' false
  · exact (createLoad_makes h₉ _).bind fun a σ' hσ' _ ha => setTmpVal_makes hσ' ha

/-- A value is stored as it is only if it has the type of its place. -/
theorem convertStored_makes {ptr : Value} (hσ : Fits σ) (hv : Present σ.module v)
    (hptr : Present σ.module ptr) :
    Makes (convertStored (σ.module.getType ptr).pointerElementType v) σ fun a m =>
      Storable m a ptr := by
  refine .getType ?_
  split
  · have conv : ∀ opId ty, opId = .sitofp ty ∨ opId = .fptosi ty →
        Makes (create opId ty [v]) σ fun a m => Storable m a ptr := by
      intro opId ty hop r h
      have hne : opId ≠ .store := by rcases hop with rfl | rfl <;> simp
      obtain ⟨hfit, hw, ha⟩ := create_makes hσ (fun h => absurd h hne) r h
      exact ⟨hfit, hw, ha.storable (hptr.widen hw) hop⟩
    split
    · exact conv _ _ (.inl rfl)
    · exact conv _ _ (.inr rfl)
  · rename_i hty
    refine .pure hσ ⟨hv, hptr, .inl ?_⟩
    cases ht : σ.module.getType ptr <;> simp_all [Ty.pointerElementType]

theorem createStore_makes {ptr : Value} (hσ : Fits σ) (h : Storable σ.module v ptr) :
    Makes (createStore v ptr) σ IsPresent :=
  (create_makes hσ fun _ => ⟨v, ptr, rfl, h⟩).imp fun _ _ h => h.present

theorem visitStore_makes (hσ : Fits σ) (hv : Present σ.module v) :
    Makes (visitStore v) σ Anything := by
  refine .getTmpVal hσ fun ptr hptr => .getType ?_
  refine (convertStored_makes hσ hv hptr).bind fun a σ₁ h₁ _ ha => ?_
  refine (createStore_makes h₁ ha).discard.bind fun _ σ₂ h₂ hw _ => ?_
  exact setTmpVal_makes h₂ (ha.value.widen hw)

theorem convertArg_makes (hσ : Fits σ) (paramTy : Ty) : Makes (convertArg paramTy) σ IsPresent := by
  refine .getTmpVal hσ fun v hv => .getType ?_
  split
  · split <;> exact create_present hσ (by simp)
  · exact .pure hσ hv

end

mutual

theorem visitExpression_makes (e : ASTExpression) {σ : BuilderState} (hσ : Fits σ) :
    Makes (visitExpression e) σ Anything := by
  cases e with
  | assign var e =>
    rw [visitExpression]
    refine (visitExpression_makes e hσ).bind fun _ σ₁ h₁ _ _ => ?_
    refine .getTmpVal h₁ fun v hv => ?_
    refine (setRequireLvalue_makes h₁ true).bind fun _ σ₂ h₂ hw₂ _ => ?_
    refine (visitVar_makes var h₂).bind fun _ σ₃ h₃ hw₃ _ => ?_
    exact visitStore_makes h₃ (hv.widen (hw₂.trans hw₃))
  | simple l =>
    rw [visitExpression]
    exact visitAdditiveExpression_makes l hσ
  | relation l op r =>
    rw [visitExpression]
    refine (visitAdditiveExpression_makes l hσ).bind fun _ σ₁ h₁ _ _ => ?_
    refine .getTmpVal h₁ fun lVal hl => ?_
    refine (visitAdditiveExpression_makes r h₁).bind fun _ σ₂ h₂ hw₂ _ => ?_
    refine .getTmpVal h₂ fun rVal hr => ?_
    refine (promote_makes h₂ (hl.widen hw₂) hr).bind fun a σ₃ h₃ _ _ => ?_
    refine (createRelation_makes h₃ _ _ _ _).bind fun cmp σ₄ h₄ _ _ => ?_
    exact (create_present h₄ (by simp)).bind fun a σ₅ h₅ _ ha => setTmpVal_makes h₅ ha

theorem visitAdditiveExpression_makes (e : ASTAdditiveExpression) {σ : BuilderState}
    (hσ : Fits σ) : Makes (visitAdditiveExpression e) σ Anything := by
  cases e with
  | ofTerm t =>
    rw [visitAdditiveExpression]
    exact visitTerm_makes t hσ
  | additive l op r =>
    rw [visitAdditiveExpression]
    refine (visitAdditiveExpression_makes l hσ).bind fun _ σ₁ h₁ _ _ => ?_
    refine .getTmpVal h₁ fun lVal hl => ?_
    refine (visitTerm_makes r h₁).bind fun _ σ₂ h₂ hw₂ _ => ?_
    refine .getTmpVal h₂ fun rVal hr => ?_
    refine (promote_makes h₂ (hl.widen hw₂) hr).bind fun a σ₃ h₃ _ _ => ?_
    exact (createAdditive_makes h₃ _ _ _ _).bind fun a σ₄ h₄ _ ha => setTmpVal_makes h₄ ha

theorem visitTerm_makes (t : ASTTerm) {σ : BuilderState} (hσ : Fits σ) :
    Makes (visitTerm t) σ Anything := by
  cases t with
  | ofFactor f =>
    rw [visitTerm]
    exact visitFactor_makes f hσ
  | multiplicative l op r =>
    rw [visitTerm]
    refine (visitTerm_makes l hσ).bind fun _ σ₁ h₁ _ _ => ?_
    refine .getTmpVal h₁ fun lVal hl => ?_
    refine (visitFactor_makes r h₁).bind fun _ σ₂ h₂ hw₂ _ => ?_
    refine .getTmpVal h₂ fun rVal hr => ?_
    refine (promote_makes h₂ (hl.widen hw₂) hr).bind fun a σ₃ h₃ _ _ => ?_
    exact (createMultiplicative_makes h₃ _ _ _ _).bind fun a σ₄ h₄ _ ha => setTmpVal_makes h₄ ha

theorem visitFactor_makes (f : ASTFactor) {σ : BuilderState} (hσ : Fits σ) :
    Makes (visitFactor f) σ Anything := by
  cases f with
  | num n =>
    cases n with
    | int n =>
      rw [visitFactor]
      exact setTmpVal_makes hσ trivial
    | float x =>
      rw [visitFactor]
      exact setTmpVal_makes hσ trivial
  | var var =>
    rw [visitFactor]
    exact visitVar_makes var hσ
  | call id args =>
    rw [visitFactor]
    refine .getState ?_
    split
    · refine .getModule ?_
      refine (visitArgs_makes args _ hσ).bind fun vals σ₁ h₁ _ _ => ?_
      exact (createCall_makes h₁ _ _).bind fun a σ₂ h₂ _ ha => setTmpVal_makes h₂ ha
    · exact .failure
  | expression e =>
    rw [visitFactor]
    exact visitExpression_makes e hσ

theorem visitVar_makes (var : ASTVar) {σ : BuilderState} (hσ : Fits σ) :
    Makes (visitVar var) σ Anything := by
  cases var with
  | scalar id =>
    rw [visitVar]
    exact (enterVar_makes hσ id).bind fun a σ₁ h₁ _ ha => visitScalar_makes h₁ ha.1 _ _
  | subscript id e =>
    rw [visitVar]
    refine (enterVar_makes hσ id).bind fun a σ₁ h₁ _ ha => ?_
    exact (visitExpression_makes e h₁).bind fun _ σ₂ h₂ _ _ => visitSubscript_makes h₂ _ _ _

theorem visitArgs_makes (args : List ASTExpression) (paramTypes : List Ty) {σ : BuilderState}
    (hσ : Fits σ) : Makes (visitArgs args paramTypes) σ Anything := by
  cases args with
  | nil =>
    rw [visitArgs]
    exact .pure hσ trivial
  | cons arg args =>
    cases paramTypes with
    | nil =>
      rw [visitArgs]
      exact .failure
    | cons paramTy paramTypes =>
      rw [visitArgs]
      refine (visitExpression_makes arg hσ).bind fun _ σ₁ h₁ _ _ => ?_
      refine (convertArg_makes h₁ paramTy).bind fun val σ₂ h₂ _ hval => ?_
      refine (setTmpVal_makes h₂ hval).bind fun _ σ₃ h₃ _ _ => ?_
      exact (visitArgs_makes args paramTypes h₃).bind fun vals σ₄ h₄ _ _ => .pure h₄ trivial

end

section

variable {σ : BuilderState}

theorem modifyScope_makes (hσ : Fits σ) {f : Scope → Scope}
    (hf : ∀ l ∈ (f σ.scope).inner, ∀ p ∈ l, Present σ.module p.2) :
    Makes (modifyScope f) σ Anything :=
  .modify ⟨hσ.1, hσ.2, hf⟩ rfl

theorem push_makes (hσ : Fits σ) (name : String) {v : Value} (hv : Present σ.module v) :
    Makes (modifyScope (·.push name v)) σ Anything := by
  refine modifyScope_makes hσ fun l hl p hp => ?_
  rcases mem_push hl hp with rfl | ⟨l', hl', hp'⟩
  · exact hv
  · exact hσ.scope l' hl' p hp'

theorem enter_makes (hσ : Fits σ) : Makes (modifyScope Scope.enter) σ Anything := by
  refine modifyScope_makes hσ fun l hl p hp => ?_
  rcases List.mem_cons.mp hl with rfl | hl
  · cases hp
  · exact hσ.scope l hl p hp

theorem exit_makes (hσ : Fits σ) : Makes (modifyScope Scope.exit) σ Anything :=
  modifyScope_makes hσ fun l hl => hσ.scope l (List.mem_of_mem_tail hl)

theorem visitVarDeclaration_makes (hσ : Fits σ) (node : ASTVarDeclaration) :
    Makes (visitVarDeclaration node) σ Anything := by
  refine .getState ?_
  split
  · refine .getModule ?_
    refine (setModule_makes hσ (createGlobalVariable_ext _ _ _ _ _) rfl).bind
      fun _ σ₁ h₁ _ hm => push_makes h₁ _ ?_
    rw [hm]
    exact Nat.lt_succ_self _
  · refine (create_present hσ (by simp)).bind fun v σ₁ h₁ _ hv => ?_
    exact push_makes h₁ _ hv

theorem visitLocalDeclarations_makes (decls : List ASTVarDeclaration) (hσ : Fits σ) :
    Makes (visitLocalDeclarations decls) σ Anything := by
  induction decls generalizing σ with
  | nil => exact .pure hσ trivial
  | cons decl decls ih =>
    exact (visitVarDeclaration_makes hσ decl).bind fun _ σ₁ h₁ _ _ => ih h₁

theorem enterCompound_makes (hσ : Fits σ) : Makes enterCompound σ Anything := by
  refine .getState ?_
  dsimp only
  split
  · exact (setPreEnterScope_makes hσ false).bind fun _ σ₁ h₁ _ _ => .pure h₁ trivial
  · exact (enter_makes hσ).bind fun _ σ₁ h₁ _ _ => .pure h₁ trivial

theorem exitCompound_makes (hσ : Fits σ) (needExitScope : Bool) :
    Makes (exitCompound needExitScope) σ Anything := by
  cases needExitScope
  · exact .pure hσ trivial
  · exact exit_makes hσ

theorem createCondition_makes (hσ : Fits σ) (v : Value) : Makes (createCondition v) σ IsPresent := by
  refine .getType ?_
  split <;> exact create_present hσ (by simp)

theorem createBrIfOpen_makes (hσ : Fits σ) (bb : Nat) : Makes (createBrIfOpen bb) σ Anything := by
  refine .read terminated_read fun a _ => ?_
  split
  · exact .pure hσ trivial
  · exact (createBr_makes hσ bb).discard

theorem convertReturned_makes (hσ : Fits σ) (funRetTy : Ty) {v : Value}
    (hv : Present σ.module v) : Makes (convertReturned funRetTy v) σ IsPresent := by
  refine .getType ?_
  split
  · split <;> exact create_present hσ (by simp)
  · exact .pure hσ hv

theorem openThen_makes (hσ : Fits σ) : Makes openThen σ Anything := by
  refine .getTmpVal hσ fun retVal _ => ?_
  refine (createBasicBlock_makes hσ "").bind fun trueBB σ₁ h₁ _ _ => ?_
  refine (createBasicBlock_makes h₁ "").bind fun contBB σ₂ h₂ _ _ => ?_
  refine (createCondition_makes h₂ _).bind fun condVal σ₃ h₃ _ _ => ?_
  refine (createCondBr_makes h₃ _ _ _).discard.bind fun _ σ₄ h₄ _ _ => ?_
  exact (setInsertPoint_makes h₄ _).bind fun _ σ₅ h₅ _ _ => .pure h₅ trivial

theorem openElse_makes (hσ : Fits σ) : Makes openElse σ Anything := by
  refine .getTmpVal hσ fun retVal _ => ?_
  refine (createBasicBlock_makes hσ "").bind fun trueBB σ₁ h₁ _ _ => ?_
  refine (createBasicBlock_makes h₁ "").bind fun contBB σ₂ h₂ _ _ => ?_
  refine (createCondition_makes h₂ _).bind fun condVal σ₃ h₃ _ _ => ?_
  refine (createBasicBlock_makes h₃ "").bind fun falseBB σ₄ h₄ _ _ => ?_
  refine (createCondBr_makes h₄ _ _ _).discard.bind fun _ σ₅ h₅ _ _ => ?_
  exact (setInsertPoint_makes h₅ _).bind fun _ σ₆ h₆ _ _ => .pure h₆ trivial

theorem openLoop_makes (hσ : Fits σ) : Makes openLoop σ Anything := by
  refine (createBasicBlock_makes hσ "").bind fun exprBB σ₁ h₁ _ _ => ?_
  refine (createBrIfOpen_makes h₁ _).bind fun _ σ₂ h₂ _ _ => ?_
  exact (setInsertPoint_makes h₂ _).bind fun _ σ₃ h₃ _ _ => .pure h₃ trivial

end

mutual

theorem visitStatement_makes (s : ASTStatement) {σ : BuilderState} (hσ : Fits σ) :
    Makes (visitStatement s) σ Anything := by
  cases s with
  | compound ls ss =>
    rw [visitStatement]
    refine (enterCompound_makes hσ).bind fun need σ₁ h₁ _ _ => ?_
    refine (visitLocalDeclarations_makes ls h₁).bind fun _ σ₂ h₂ _ _ => ?_
    refine (visitStatementList_makes ss h₂).bind fun _ σ₃ h₃ _ _ => ?_
    exact exitCompound_makes h₃ need
  | expressionStmt e =>
    cases e with
    | none =>
      rw [visitStatement]
      exact .pure hσ trivial
    | some e =>
      rw [visitStatement]
      exact visitExpression_makes e hσ
  | selection e s =>
    rw [visitStatement_selection]
    refine (visitExpression_makes e hσ).bind fun _ σ₁ h₁ _ _ => ?_
    refine (openThen_makes h₁).bind fun contBB σ₂ h₂ _ _ => ?_
    refine (visitStatement_makes s h₂).bind fun _ σ₃ h₃ _ _ => ?_
    refine (createBrIfOpen_makes h₃ _).bind fun _ σ₄ h₄ _ _ => ?_
    exact setInsertPoint_makes h₄ _
  | selectionElse e s₁ s₂ =>
    rw [visitStatement_selectionElse]
    refine (visitExpression_makes e hσ).bind fun _ σ₁ h₁ _ _ => ?_
    refine (openElse_makes h₁).bind fun bbs σ₂ h₂ _ _ => ?_
    refine (visitStatement_makes s₁ h₂).bind fun _ σ₃ h₃ _ _ => ?_
    refine (createBrIfOpen_makes h₃ _).bind fun _ σ₄ h₄ _ _ => ?_
    refine (setInsertPoint_makes h₄ _).bind fun _ σ₅ h₅ _ _ => ?_
    refine (visitStatement_makes s₂ h₅).bind fun _ σ₆ h₆ _ _ => ?_
    refine (createBrIfOpen_makes h₆ _).bind fun _ σ₇ h₇ _ _ => ?_
    exact setInsertPoint_makes h₇ _
  | iteration e s =>
    rw [visitStatement_iteration]
    refine (openLoop_makes hσ).bind fun exprBB σ₁ h₁ _ _ => ?_
    refine (visitExpression_makes e h₁).bind fun _ σ₂ h₂ _ _ => ?_
    refine (openThen_makes h₂).bind fun contBB σ₃ h₃ _ _ => ?_
    refine (visitStatement_makes s h₃).bind fun _ σ₄ h₄ _ _ => ?_
    refine (createBrIfOpen_makes h₄ _).bind fun _ σ₅ h₅ _ _ => ?_
    exact setInsertPoint_makes h₅ _
  | «return» e =>
    cases e with
    | none =>
      rw [visitStatement]
      exact (create_present hσ (by simp)).discard
    | some e =>
      rw [visitStatement]
      refine .getCurFun fun f => .getModule ?_
      refine (visitExpression_makes e hσ).bind fun _ σ₁ h₁ _ _ => ?_
      refine .getTmpVal h₁ fun v hv => ?_
      refine (convertReturned_makes h₁ _ hv).bind fun val σ₂ h₂ _ hval => ?_
      refine (setTmpVal_makes h₂ hval).bind fun _ σ₃ h₃ _ _ => ?_
      exact (create_present h₃ (by simp)).discard

theorem visitStatementList_makes (ss : List ASTStatement) {σ : BuilderState} (hσ : Fits σ) :
    Makes (visitStatementList ss) σ Anything := by
  cases ss with
  | nil =>
    rw [visitStatementList]
    exact .pure hσ trivial
  | cons s ss =>
    rw [visitStatementList]
    refine (visitStatement_makes s hσ).bind fun _ σ₁ h₁ _ _ => ?_
    refine .read terminated_read fun a _ => ?_
    split
    · exact .pure h₁ trivial
    · exact visitStatementList_makes ss h₁

end

section

variable {σ : BuilderState} {f argNo : Nat}

/-- A parameter is stored in a place of its type. -/
theorem visitParams_makes (params : List ASTParam) (hσ : Fits σ) (hf : f < σ.module.numFunctions)
    (hparams : (σ.module.functions f).paramTypes.drop argNo = params.map paramType) :
    Makes (visitParams f params argNo) σ Anything := by
  induction params generalizing σ argNo with
  | nil => exact .pure hσ trivial
  | cons param params ih =>
    have hne : ∀ ty, (OpID.alloca ty) ≠ .store := by simp
    rw [visitParams]
    refine (create_makes hσ fun h => absurd h (hne _)).bind fun alloc σ₁ h₁ hw₁ ha => ?_
    have hf₁ := hf.trans_le hw₁.numFunctions
    have hty : σ₁.module.getType (.argument f argNo) = paramType param := by
      have hget := congrArg List.head? hparams
      rw [List.head?_drop] at hget
      rw [Module.getType, hw₁.paramTypes f hf, List.getD_eq_getElem?_getD, hget]
      rfl
    have hs : Storable σ₁.module (.argument f argNo) alloc :=
      ⟨hf₁, ha.present, .inl (by rw [ha.type, hty])⟩
    refine (createStore_makes h₁ hs).discard.bind fun _ σ₂ h₂ hw₂ _ => ?_
    refine (push_makes h₂ _ (ha.present.widen hw₂)).bind fun _ σ₃ h₃ hw₃ _ => ?_
    have hw := (hw₁.trans hw₂).trans hw₃
    refine ih h₃ (hf.trans_le hw.numFunctions) ?_
    rw [hw.paramTypes f hf, ← List.drop_drop, hparams]
    rfl

theorem enterFunction_makes (hσ : Fits σ) (node : ASTFunDeclaration) :
    Makes (enterFunction node) σ fun f m => f < m.numFunctions ∧
      (m.functions f).paramTypes = node.params.map paramType := by
  have hlt : σ.module.numFunctions < σ.module.numFunctions + 1 := Nat.lt_succ_self _
  refine .getModule ?_
  refine (setModule_makes hσ (createFunction_ext _ _ _ _ _) rfl).bind fun _ σ₁ h₁ _ hm => ?_
  have hf : σ.module.numFunctions < σ₁.module.numFunctions := by
    rw [hm]
    exact hlt
  have hparams : (σ₁.module.functions σ.module.numFunctions).paramTypes =
      node.params.map paramType := by
    rw [hm]
    simp [Module.createFunction]
  refine (push_makes h₁ node.id (v := .function σ.module.numFunctions) hf).bind
    fun _ σ₂ h₂ hw₂ _ => ?_
  refine Makes.bind (Q := Anything) (.modify ⟨h₂.1, h₂.2, h₂.3⟩ rfl) fun _ σ₃ h₃ hw₃ _ => ?_
  refine (createBasicBlock_makes h₃ "entry").bind fun funBB σ₄ h₄ hw₄ _ => ?_
  refine (setInsertPoint_makes h₄ _).bind fun _ σ₅ h₅ hw₅ _ => ?_
  refine (enter_makes h₅).bind fun _ σ₆ h₆ hw₆ _ => ?_
  refine (setPreEnterScope_makes h₆ _).bind fun _ σ₇ h₇ hw₇ _ => .pure h₇ ?_
  have hw := ((((hw₂.trans hw₃).trans hw₄).trans hw₅).trans hw₆).trans hw₇
  exact ⟨hf.trans_le hw.numFunctions, (hw.paramTypes _ hf).trans hparams⟩

theorem createRetIfOpen_makes (hσ : Fits σ) : Makes createRetIfOpen σ Anything := by
  refine .read terminated_read fun a _ => ?_
  split
  · exact .pure hσ trivial
  · exact (createDefaultRet_makes hσ).discard

theorem visitDeclaration_makes (hσ : Fits σ) (decl : ASTDeclaration) :
    Makes (visitDeclaration decl) σ Anything := by
  cases decl with
  | var decl => exact visitVarDeclaration_makes hσ decl
  | «fun» decl =>
    refine (enterFunction_makes hσ decl).bind fun f σ₁ h₁ _ hf => ?_
    have hparams : (σ₁.module.functions f).paramTypes.drop 0 = decl.params.map paramType := hf.2
    refine (visitParams_makes decl.params h₁ hf.1 hparams).bind fun _ σ₂ h₂ _ _ => ?_
    refine (visitStatement_makes _ h₂).bind fun _ σ₃ h₃ _ _ => ?_
    refine (createRetIfOpen_makes h₃).bind fun _ σ₄ h₄ _ _ => ?_
    exact exit_makes h₄

theorem visitDeclarations_makes (decls : List ASTDeclaration) (hσ : Fits σ) :
    Makes (visitDeclarations decls) σ Anything := by
  induction decls generalizing σ with
  | nil => exact .pure hσ trivial
  | cons decl decls ih =>
    exact (visitDeclaration_makes hσ decl).bind fun _ σ₁ h₁ _ _ => ih h₁

theorem initial_fits : Fits initial where
  stores i hi := absurd hi (Nat.not_lt_zero i)
  tmpVal v hv := nomatch hv
  scope l hl p hp := by
    obtain rfl := List.mem_singleton.mp hl
    have hnum : initial.module.numFunctions = 4 := rfl
    simp only [List.mem_cons, List.not_mem_nil, or_false] at hp
    rcases hp with rfl | rfl | rfl | rfl <;> simp [Present, hnum]

end

theorem buildModule_storesFit {program : ASTProgram} {m : Module}
    (h : buildModule program = some m) : StoresFit m := by
  obtain ⟨r, hr, rfl⟩ := Option.map_eq_some_iff.mp h
  exact (visitDeclarations_makes program.declarations initial_fits r hr).1.stores

end CminusfBuilder

end Cminusf
