import Cminusf.Builder.Statements

/-! The order of evaluation in an assignment. The instructions are numbered as they are emitted,
and inside an expression control only passes to later ones. -/

namespace Cminusf

mutual

/-- A number, in parentheses or not. -/
def ASTExpression.isNum : ASTExpression → Bool
  | .assign _ _ => false
  | .simple l => l.isNum
  | .relation _ _ _ => false

def ASTAdditiveExpression.isNum : ASTAdditiveExpression → Bool
  | .ofTerm term => term.isNum
  | .additive _ _ _ => false

def ASTTerm.isNum : ASTTerm → Bool
  | .ofFactor factor => factor.isNum
  | .multiplicative _ _ _ => false

def ASTFactor.isNum : ASTFactor → Bool
  | .num _ => true
  | .var _ => false
  | .call _ _ => false
  | .expression e => e.isNum

end

def ASTVar.isSubscript : ASTVar → Bool
  | .scalar _ => false
  | .subscript _ _ => true

namespace CminusfBuilder

open Builder

section

variable {α β : Type} {σ σ' : BuilderState} {opId : OpID} {ty : Ty} {ops : List Value} {bb : Nat}

/-- A new instruction at the end of the block at the insert point. -/
structure Created (σ : BuilderState) (opId : OpID) (ops : List Value) (bb : Nat)
    (σ' : BuilderState) : Prop where
  insertBlock : σ.insertBlock = some bb
  moved : σ'.insertBlock = some bb
  numInstrs : σ'.module.numInstrs = σ.module.numInstrs + 1
  numBlocks : σ'.module.numBlocks = σ.module.numBlocks
  old : ∀ i < σ.module.numInstrs, σ'.module.instrs i = σ.module.instrs i
  opId : (σ'.module.instrs σ.module.numInstrs).opId = opId
  operands : (σ'.module.instrs σ.module.numInstrs).operands = ops
  instrList : ∀ b, (σ'.module.blocks b).instrList =
    if b = bb then (σ.module.blocks b).instrList ++ [σ.module.numInstrs]
    else (σ.module.blocks b).instrList

theorem create_created {r : Value × BuilderState} (h : create opId ty ops σ = some r) :
    r.1 = .instruction σ.module.numInstrs ∧ r.2.tmpVal = σ.tmpVal ∧
      ∃ bb, Created σ opId ops bb r.2 := by
  obtain ⟨bb, σ₁, hbb, h⟩ := bind_some h
  obtain ⟨b, hb, he⟩ := Option.map_eq_some_iff.mp hbb
  cases he
  cases h
  refine ⟨rfl, rfl, bb, hb, hb, by simp, by simp, fun i h => ?_, by simp, by simp, fun b => ?_⟩
  · simp [h.ne]
  · by_cases h : b = bb
    · simp [h]
    · simp [h]

theorem instrList_link {m : Module} {t f : Nat} (b : Nat) :
    (((((m.addPreBasicBlock t bb).addPreBasicBlock f bb).addSuccBasicBlock bb f).addSuccBasicBlock
      bb t).blocks b).instrList = (m.blocks b).instrList := by
  have hpre : ∀ (m : Module) t, ((m.addPreBasicBlock t bb).blocks b).instrList =
      (m.blocks b).instrList := by
    intro m t
    by_cases h : b = t
    · simp [Module.addPreBasicBlock, Module.modifyBlock, h]
    · simp [Module.addPreBasicBlock, Module.modifyBlock, h]
  have hsucc : ∀ (m : Module) t, ((m.addSuccBasicBlock bb t).blocks b).instrList =
      (m.blocks b).instrList := by
    intro m t
    by_cases h : b = bb
    · simp [Module.addSuccBasicBlock, Module.modifyBlock, h]
    · simp [Module.addSuccBasicBlock, Module.modifyBlock, h]
  rw [hsucc, hsucc, hpre, hpre]

theorem createCondBr_created {c : Value} {t f : Nat} {r : Value × BuilderState}
    (h : createCondBr c t f σ = some r) :
    ∃ bb, Created σ .br [c, .basicBlock t, .basicBlock f] bb r.2 := by
  obtain ⟨bb, σ₁, hbb, h⟩ := bind_some h
  obtain ⟨b, hb, he⟩ := Option.map_eq_some_iff.mp hbb
  cases he
  have h' : create .br .void [c, .basicBlock t, .basicBlock f] { σ with
      module := (((σ.module.addPreBasicBlock t bb).addPreBasicBlock f bb).addSuccBasicBlock
        bb f).addSuccBasicBlock bb t } = some r := h
  obtain ⟨-, -, b, hc⟩ := create_created h'
  refine ⟨b, hc.insertBlock, hc.moved, hc.numInstrs, hc.numBlocks, hc.old, hc.opId, hc.operands, ?_⟩
  intro x
  rw [hc.instrList, instrList_link]
  rfl

theorem createBasicBlock_run {name : String} {r : Nat × BuilderState}
    (h : createBasicBlock name σ = some r) : r.1 = σ.module.numBlocks ∧
      r.2.insertBlock = σ.insertBlock ∧ r.2.tmpVal = σ.tmpVal ∧
      ∃ f, r.2.module = σ.module.createBasicBlock name f := by
  obtain ⟨f, σ₁, hf, h⟩ := bind_some h
  obtain ⟨g, -, he⟩ := Option.map_eq_some_iff.mp hf
  cases he
  cases h
  exact ⟨rfl, rfl, rfl, f, rfl⟩

/-- A part of a visit that changes `tmp_val` and `require_lvalue` only. -/
def Quiet {α : Type} (x : Builder α) : Prop :=
  ∀ σ r, x σ = some r → ∃ v b, r.2 = { σ with tmpVal := v, requireLvalue := b }

/-- A property of the parts of an expression's visit. -/
structure Basics (R : ∀ {α : Type}, Builder α → Prop) : Prop where
  bind : ∀ {α β : Type} {x : Builder α} {f : α → Builder β}, R x → (∀ a, R (f a)) → R (x >>= f)
  quiet : ∀ {α : Type} {x : Builder α}, Quiet x → R x
  create : ∀ {opId ty ops}, opId ≠ .br → R (create opId ty ops)

namespace Basics

variable {R : ∀ {α : Type}, Builder α → Prop} (hR : Basics R)

include hR

theorem pure (a : α) : R (pure a : Builder α) :=
  hR.quiet fun σ r h => by cases h; exact ⟨_, _, rfl⟩

theorem failure : R (failure : Builder α) :=
  hR.quiet fun σ r h => by cases h

theorem get : R (get : Builder BuilderState) :=
  hR.quiet fun σ r h => by cases h; exact ⟨_, _, rfl⟩

theorem getModule : R getModule :=
  hR.quiet fun σ r h => by cases h; exact ⟨_, _, rfl⟩

theorem getType (v : Value) : R (getType v) :=
  hR.quiet fun σ r h => by cases h; exact ⟨_, _, rfl⟩

theorem getTmpVal : R getTmpVal :=
  hR.quiet fun σ r h => by
    obtain rfl := getTmpVal_read r h
    exact ⟨_, _, rfl⟩

theorem setTmpVal (v : Value) : R (setTmpVal v) :=
  hR.quiet fun σ r h => by cases h; exact ⟨_, _, rfl⟩

theorem setRequireLvalue (b : Bool) : R (setRequireLvalue b) :=
  hR.quiet fun σ r h => by cases h; exact ⟨_, _, rfl⟩

theorem discard {x : Builder α} (hx : R x) : R (discard x) :=
  hR.bind hx fun _ => hR.pure _

theorem promote (l r : Value) : R (promote l r) := by
  refine hR.bind (hR.getType l) fun lTy => hR.bind (hR.getType r) fun rTy => ?_
  split
  · exact hR.pure _
  · split
    · exact hR.bind (hR.create (by simp)) fun _ => hR.pure _
    · exact hR.bind (hR.create (by simp)) fun _ => hR.pure _

theorem createRelation (op : RelOp) (isInt : Bool) (l r : Value) :
    R (createRelation op isInt l r) := by
  cases isInt <;> exact hR.create (by simp)

theorem createAdditive (op : AddOp) (isInt : Bool) (l r : Value) :
    R (createAdditive op isInt l r) := by
  cases op <;> cases isInt <;> exact hR.create (by simp)

theorem createMultiplicative (op : MulOp) (isInt : Bool) (l r : Value) :
    R (createMultiplicative op isInt l r) := by
  cases op <;> cases isInt <;> exact hR.create (by simp)

theorem createLoad (ptr : Value) : R (createLoad ptr) := by
  refine hR.bind (hR.getType ptr) fun ty => ?_
  split
  · exact hR.create (by simp)
  · exact hR.failure

theorem createGep (ptr : Value) (idxs : List Value) : R (createGep ptr idxs) := by
  refine hR.bind (hR.getType ptr) fun ty => ?_
  split
  · exact hR.create (by simp)
  · exact hR.failure

theorem toIndex (v : Value) : R (toIndex v) := by
  refine hR.bind (hR.getType v) fun ty => ?_
  split
  · exact hR.create (by simp)
  · exact hR.pure _

theorem createElementPtr (var : Value) (ty : Ty) (v : Value) : R (createElementPtr var ty v) := by
  unfold CminusfBuilder.createElementPtr
  split
  · exact hR.createGep _ _
  · split
    · exact hR.bind (hR.createLoad _) fun _ => hR.createGep _ _
    · exact hR.createGep _ _

theorem createCall (func : Value) (args : List Value) :
    R (createCall func args) := by
  refine hR.bind hR.getModule fun m => ?_
  split
  · split
    · exact hR.create (by simp)
    · exact hR.failure
  · exact hR.failure

theorem createDefaultRet : R createDefaultRet := by
  have hf : R getCurFun := hR.quiet fun σ r h => by
    obtain ⟨f, -, rfl⟩ := Option.map_eq_some_iff.mp h
    exact ⟨_, _, rfl⟩
  refine hR.bind hf fun f => hR.bind hR.getModule fun m => ?_
  dsimp only
  split
  · exact hR.create (by simp)
  · split
    · exact hR.create (by simp)
    · exact hR.create (by simp)

theorem createNegIdxExcept : R createNegIdxExcept := by
  refine hR.bind hR.get fun σ => ?_
  split
  · exact hR.failure
  · exact hR.bind (hR.discard (hR.createCall _ _)) fun _ => hR.discard (hR.createDefaultRet)

theorem enterVar (id : String) : R (enterVar id) := by
  refine hR.bind hR.get fun σ => ?_
  split
  · exact hR.failure
  · refine hR.bind (hR.getType _) fun ty => ?_
    split
    · exact hR.failure
    · exact hR.bind hR.get fun _ => hR.bind (hR.setRequireLvalue _) fun _ => hR.pure _

theorem visitScalar (var : Value) (ty : Ty) (lval : Bool) : R (visitScalar var ty lval) := by
  unfold CminusfBuilder.visitScalar
  split
  · exact hR.bind (hR.setTmpVal _) fun _ => hR.setRequireLvalue _
  · split
    · exact hR.bind (hR.createLoad _) fun _ => hR.setTmpVal _
    · exact hR.bind (hR.createGep _ _) fun _ => hR.setTmpVal _

theorem convertStored (ty : Option Ty) (v : Value) : R (convertStored ty v) := by
  refine hR.bind (hR.getType v) fun exprTy => ?_
  split
  · split
    · exact hR.create (by simp)
    · exact hR.create (by simp)
  · exact hR.pure _

theorem visitStore (v : Value) : R (visitStore v) := by
  refine hR.bind hR.getTmpVal fun addr => hR.bind (hR.getType addr) fun ty =>
    hR.bind (hR.convertStored _ _) fun val => hR.bind (hR.discard ?_) fun _ => hR.setTmpVal _
  exact hR.create (by simp)

theorem convertArg (ty : Ty) : R (convertArg ty) := by
  refine hR.bind hR.getTmpVal fun v => hR.bind (hR.getType v) fun vTy => ?_
  split
  · split
    · exact hR.create (by simp)
    · exact hR.create (by simp)
  · exact hR.pure _

end Basics

/-- The rule for the subscript of a variable beside them. -/
structure Rules (R : ∀ {α : Type}, Builder α → Prop) : Prop extends Basics R where
  subscript : ∀ var ty lval, R (visitSubscript var ty lval)

namespace Rules

variable {R : ∀ {α : Type}, Builder α → Prop} (hR : Rules R)

include hR

mutual

theorem visitExpression : ∀ e : ASTExpression, R (visitExpression e)
  | .assign var e => by
    rw [CminusfBuilder.visitExpression]
    refine hR.bind (visitExpression e) fun _ => hR.bind hR.getTmpVal fun v =>
      hR.bind (hR.setRequireLvalue _) fun _ => hR.bind (visitVar var) fun _ => ?_
    exact hR.visitStore v
  | .simple l => by
    rw [CminusfBuilder.visitExpression]
    exact visitAdditiveExpression l
  | .relation l op r => by
    rw [CminusfBuilder.visitExpression]
    refine hR.bind (visitAdditiveExpression l) fun _ => hR.bind hR.getTmpVal fun lVal =>
      hR.bind (visitAdditiveExpression r) fun _ => hR.bind hR.getTmpVal fun rVal =>
      hR.bind (hR.promote lVal rVal) fun a => ?_
    exact hR.bind (hR.createRelation _ _ _ _) fun cmp =>
      hR.bind (hR.create (by simp)) fun z => hR.setTmpVal z

theorem visitAdditiveExpression : ∀ e : ASTAdditiveExpression, R (visitAdditiveExpression e)
  | .ofTerm term => by
    rw [CminusfBuilder.visitAdditiveExpression]
    exact visitTerm term
  | .additive l op r => by
    rw [CminusfBuilder.visitAdditiveExpression]
    refine hR.bind (visitAdditiveExpression l) fun _ => hR.bind hR.getTmpVal fun lVal =>
      hR.bind (visitTerm r) fun _ => hR.bind hR.getTmpVal fun rVal =>
      hR.bind (hR.promote lVal rVal) fun a => ?_
    exact hR.bind (hR.createAdditive _ _ _ _) fun z => hR.setTmpVal z

theorem visitTerm : ∀ e : ASTTerm, R (visitTerm e)
  | .ofFactor factor => by
    rw [CminusfBuilder.visitTerm]
    exact visitFactor factor
  | .multiplicative l op r => by
    rw [CminusfBuilder.visitTerm]
    refine hR.bind (visitTerm l) fun _ => hR.bind hR.getTmpVal fun lVal =>
      hR.bind (visitFactor r) fun _ => hR.bind hR.getTmpVal fun rVal =>
      hR.bind (hR.promote lVal rVal) fun a => ?_
    exact hR.bind (hR.createMultiplicative _ _ _ _) fun z => hR.setTmpVal z

theorem visitFactor : ∀ e : ASTFactor, R (visitFactor e)
  | .num (.int iVal) => by
    rw [CminusfBuilder.visitFactor]
    exact hR.setTmpVal _
  | .num (.float fVal) => by
    rw [CminusfBuilder.visitFactor]
    exact hR.setTmpVal _
  | .var var => by
    rw [CminusfBuilder.visitFactor]
    exact visitVar var
  | .call id args => by
    rw [CminusfBuilder.visitFactor]
    refine hR.bind hR.get fun σ => ?_
    split
    · refine hR.bind hR.getModule fun m => hR.bind (visitArgs args _) fun vals => ?_
      exact hR.bind (hR.createCall _ _) fun z => hR.setTmpVal z
    · exact hR.failure
  | .expression e => by
    rw [CminusfBuilder.visitFactor]
    exact visitExpression e

theorem visitVar : ∀ e : ASTVar, R (visitVar e)
  | .scalar id => by
    rw [CminusfBuilder.visitVar]
    exact hR.bind (hR.enterVar id) fun _ => hR.visitScalar _ _ _
  | .subscript id e => by
    rw [CminusfBuilder.visitVar]
    exact hR.bind (hR.enterVar id) fun _ => hR.bind (visitExpression e) fun _ =>
      hR.subscript _ _ _

theorem visitArgs : ∀ (args : List ASTExpression) (tys : List Ty), R (visitArgs args tys)
  | [], _ => by
    rw [CminusfBuilder.visitArgs]
    exact hR.pure _
  | _ :: _, [] => by
    rw [CminusfBuilder.visitArgs]
    exact hR.failure
  | arg :: args, ty :: tys => by
    rw [CminusfBuilder.visitArgs]
    refine hR.bind (visitExpression arg) fun _ => hR.bind (hR.convertArg ty) fun v =>
      hR.bind (hR.setTmpVal v) fun _ => hR.bind (visitArgs args tys) fun vals => hR.pure _

end

end Rules

/-- A part of a visit appends instructions and changes none. -/
def Grows {α : Type} (x : Builder α) : Prop :=
  ∀ σ r, x σ = some r → σ.module.numInstrs ≤ r.2.module.numInstrs ∧
    ∀ i < σ.module.numInstrs, r.2.module.instrs i = σ.module.instrs i

theorem Grows.bind {x : Builder α} {f : α → Builder β} (hx : Grows x) (hf : ∀ a, Grows (f a)) :
    Grows (x >>= f) := by
  intro σ r h
  obtain ⟨a, σ₁, h₁, h₂⟩ := bind_some h
  obtain ⟨hn₁, hold₁⟩ := hx σ _ h₁
  obtain ⟨hn₂, hold₂⟩ := hf a σ₁ r h₂
  refine ⟨hn₁.trans hn₂, fun i hi => ?_⟩
  rw [hold₂ i (hi.trans_le hn₁), hold₁ i hi]

/-- A part that emits nothing. -/
theorem Grows.silent {x : Builder α} (h : ∀ σ r, x σ = some r →
    r.2.module.numInstrs = σ.module.numInstrs ∧ r.2.module.instrs = σ.module.instrs) :
    Grows x := by
  intro σ r hr
  obtain ⟨hn, hi⟩ := h σ r hr
  exact ⟨hn.ge, fun i _ => by rw [hi]⟩

theorem Created.grows (h : Created σ opId ops bb σ') :
    σ.module.numInstrs ≤ σ'.module.numInstrs ∧
      ∀ i < σ.module.numInstrs, σ'.module.instrs i = σ.module.instrs i :=
  ⟨h.numInstrs ▸ Nat.le_succ _, h.old⟩

theorem grows_basics : Basics Grows where
  bind := Grows.bind
  quiet h := Grows.silent fun σ r hr => by
    obtain ⟨v, b, he⟩ := h σ r hr
    rw [he]
    exact ⟨rfl, rfl⟩
  create _ := fun σ r h => by
    obtain ⟨-, -, bb, hc⟩ := create_created h
    exact hc.grows

theorem grows_createBasicBlock {name : String} : Grows (createBasicBlock name) :=
  Grows.silent fun σ r h => by
    obtain ⟨-, -, -, f, hm⟩ := createBasicBlock_run h
    rw [hm]
    exact ⟨rfl, rfl⟩

theorem grows_setInsertPoint (b : Nat) : Grows (setInsertPoint b) := Grows.silent fun σ r h => by
  cases h
  exact ⟨rfl, rfl⟩

theorem grows_createCondBr (c : Value) (t f : Nat) : Grows (createCondBr c t f) := by
  intro σ r h
  obtain ⟨bb, hc⟩ := createCondBr_created h
  exact hc.grows

/-- The end of `visit(ASTVar)` with a subscript. -/
theorem grows_element (var : Value) (ty : Ty) (lval : Bool) (v : Value) : Grows (do
    let tmpPtr ← createElementPtr var ty v
    if lval then
      setTmpVal tmpPtr
      setRequireLvalue false
    else
      setTmpVal (← createLoad tmpPtr)) := by
  have hB := grows_basics
  refine hB.bind (hB.createElementPtr _ _ _) fun ptr => ?_
  split
  · exact hB.bind (hB.setTmpVal _) fun _ => hB.setRequireLvalue _
  · exact hB.bind (hB.createLoad _) fun _ => hB.setTmpVal _

theorem grows_rules : Rules Grows where
  toBasics := grows_basics
  subscript var ty lval := by
    have hB := grows_basics
    exact hB.getTmpVal.bind fun v => grows_createBasicBlock.bind fun exceptBB =>
      grows_createBasicBlock.bind fun contBB => (hB.toIndex v).bind fun v =>
      (hB.create (by simp)).bind fun isNeg =>
      (hB.discard (grows_createCondBr _ _ _)).bind fun _ => (grows_setInsertPoint _).bind fun _ =>
      hB.createNegIdxExcept.bind fun _ => (grows_setInsertPoint _).bind fun _ =>
      grows_element var ty lval v

/-- The branches emitted since the instruction `n` only go to later instructions. -/
structure Forward (n : Nat) (σ : BuilderState) : Prop where
  start : n ≤ σ.module.numInstrs
  insertBlock : ∀ b, σ.insertBlock = some b → b < σ.module.numBlocks
  instr_lt : ∀ b, ∀ i ∈ (σ.module.blocks b).instrList, i < σ.module.numInstrs
  sorted : ∀ b, (σ.module.blocks b).instrList.Pairwise (· < ·)
  fresh : ∀ b, σ.module.numBlocks ≤ b → (σ.module.blocks b).instrList = []
  ahead : ∀ i, n ≤ i → i < σ.module.numInstrs → (σ.module.instrs i).opId = .br → ∀ t,
    .basicBlock t ∈ (σ.module.instrs i).operands → t < σ.module.numBlocks ∧
      ∀ j ∈ (σ.module.blocks t).instrList, i < j

theorem forward_of_placed {s : Site} (hp : Placed σ s) : Forward σ.module.numInstrs σ := by
  have hi := hp.inv
  rw [← hp.module_eq] at hi
  have hfresh : ∀ b, σ.module.numBlocks ≤ b → (σ.module.blocks b).instrList = [] := hi.fresh_block
  refine ⟨le_rfl, fun b hb => ?_, fun b i hmem => ?_, fun b => ?_, hfresh, fun i h1 h2 => ?_⟩
  · rw [hp.insertBlock] at hb
    cases hb
    rw [hp.module_eq]
    exact hp.bb_lt
  · by_cases hb : b < σ.module.numBlocks
    · exact (hi.instr_mem b hb i hmem).1
    · rw [hfresh b (by omega)] at hmem
      cases hmem
  · by_cases hb : b < σ.module.numBlocks
    · exact hi.instr_sorted b hb
    · rw [hfresh b (by omega)]
      exact .nil
  · omega

/-- The new instruction is no branch, or a branch to empty blocks. -/
theorem Created.forward {n : Nat} (h : Created σ opId ops bb σ') (hf : Forward n σ)
    (hop : opId = .br → ∀ t, .basicBlock t ∈ ops →
      t < σ.module.numBlocks ∧ t ≠ bb ∧ (σ.module.blocks t).instrList = []) : Forward n σ' := by
  have hn := h.numInstrs
  have hmem : ∀ b i, i ∈ (σ'.module.blocks b).instrList →
      i ∈ (σ.module.blocks b).instrList ∨ b = bb ∧ i = σ.module.numInstrs := by
    intro b i hi
    rw [h.instrList] at hi
    split at hi
    · rename_i hb
      rcases List.mem_append.mp hi with hi | hi
      · exact .inl hi
      · exact .inr ⟨hb, List.mem_singleton.mp hi⟩
    · exact .inl hi
  refine ⟨by have := hf.start; omega, fun b hb => ?_, fun b i hi => ?_, fun b => ?_,
    fun b hb => ?_, fun i hle hlt hbr t ht => ?_⟩
  · rw [h.moved, ← h.insertBlock] at hb
    rw [h.numBlocks]
    exact hf.insertBlock b hb
  · rcases hmem b i hi with hi | ⟨-, rfl⟩
    · have := hf.instr_lt b i hi
      omega
    · omega
  · rw [h.instrList]
    split
    · apply List.pairwise_append.mpr
      refine ⟨hf.sorted b, List.pairwise_singleton _ _, fun i hi j hj => ?_⟩
      rw [List.mem_singleton.mp hj]
      exact hf.instr_lt b i hi
    · exact hf.sorted b
  · rw [h.numBlocks] at hb
    have hne : b ≠ bb := by
      rintro rfl
      have := hf.insertBlock b h.insertBlock
      omega
    rw [h.instrList, if_neg hne]
    exact hf.fresh b hb
  · rw [h.numBlocks]
    by_cases hi : i < σ.module.numInstrs
    · rw [h.old i hi] at hbr ht
      obtain ⟨hlt', hahead⟩ := hf.ahead i hle hi hbr t ht
      refine ⟨hlt', fun j hj => ?_⟩
      rcases hmem t j hj with hj | ⟨-, rfl⟩
      · exact hahead j hj
      · exact hi
    · obtain rfl : i = σ.module.numInstrs := by omega
      rw [h.opId] at hbr
      rw [h.operands] at ht
      obtain ⟨hlt', hne, hnil⟩ := hop hbr t ht
      refine ⟨hlt', fun j hj => ?_⟩
      rw [h.instrList, if_neg hne, hnil] at hj
      cases hj

def KeepsForward (n : Nat) {α : Type} (x : Builder α) : Prop :=
  ∀ σ r, x σ = some r → Forward n σ → Forward n r.2

theorem Forward.congr {n : Nat} (h : Forward n σ) (hm : σ'.module = σ.module)
    (hb : σ'.insertBlock = σ.insertBlock) : Forward n σ' := by
  constructor <;> rw [hm]
  · exact h.start
  · rw [hb]
    exact h.insertBlock
  · exact h.instr_lt
  · exact h.sorted
  · exact h.fresh
  · exact h.ahead

theorem forward_basics {n : Nat} : Basics (KeepsForward n) where
  bind hx hf := fun σ r h hn => by
    obtain ⟨a, σ₁, h₁, h₂⟩ := bind_some h
    exact hf a σ₁ r h₂ (hx σ _ h₁ hn)
  quiet hq := fun σ r h hn => by
    obtain ⟨v, b, he⟩ := hq σ r h
    rw [he]
    exact hn.congr rfl rfl
  create hbr := fun σ r h hn => by
    obtain ⟨-, -, bb, hc⟩ := create_created h
    exact hc.forward hn fun he => absurd he hbr

/-- A block that nothing has been emitted to. -/
structure Empty (t : Nat) (σ : BuilderState) : Prop where
  lt : t < σ.module.numBlocks
  nil : (σ.module.blocks t).instrList = []
  away : σ.insertBlock ≠ some t

theorem Created.empty {t : Nat} (h : Created σ opId ops bb σ') (he : Empty t σ) : Empty t σ' := by
  have hne : t ≠ bb := by
    rintro rfl
    exact he.away h.insertBlock
  refine ⟨by rw [h.numBlocks]; exact he.lt, ?_, ?_⟩
  · rw [h.instrList, if_neg hne]
    exact he.nil
  · rw [h.moved]
    simpa using Ne.symm hne

def KeepsEmpty (t : Nat) {α : Type} (x : Builder α) : Prop :=
  ∀ σ r, x σ = some r → Empty t σ → Empty t r.2

theorem empty_basics {t : Nat} : Basics (KeepsEmpty t) where
  bind hx hf := fun σ r h hn => by
    obtain ⟨a, σ₁, h₁, h₂⟩ := bind_some h
    exact hf a σ₁ r h₂ (hx σ _ h₁ hn)
  quiet hq := fun σ r h he => by
    obtain ⟨v, b, hr⟩ := hq σ r h
    rw [hr]
    exact ⟨he.lt, he.nil, he.away⟩
  create _ := fun σ r h he => by
    obtain ⟨-, -, bb, hc⟩ := create_created h
    exact hc.empty he

theorem createBasicBlock_forward {n : Nat} {name : String} {r : Nat × BuilderState}
    (h : createBasicBlock name σ = some r) (hf : Forward n σ) :
    Forward n r.2 ∧ Empty r.1 r.2 ∧ ∀ t, Empty t σ → Empty t r.2 ∧ t ≠ r.1 := by
  obtain ⟨hr, hb, -, f, hm⟩ := createBasicBlock_run h
  have hblocks : ∀ b, (r.2.module.blocks b).instrList = (σ.module.blocks b).instrList := by
    intro b
    rw [hm, createBasicBlock_blocks]
    split
    · rename_i he
      rw [he, hf.fresh _ le_rfl]
    · rfl
  have hnb : r.2.module.numBlocks = σ.module.numBlocks + 1 := by
    rw [hm]
    rfl
  have hinstrs : r.2.module.instrs = σ.module.instrs := by
    rw [hm]
    rfl
  have hni : r.2.module.numInstrs = σ.module.numInstrs := by
    rw [hm]
    rfl
  refine ⟨⟨?_, fun b hb' => ?_, fun b => ?_, fun b => ?_, fun b hb' => ?_,
      fun i h1 h2 h3 t ht => ?_⟩,
    ⟨by omega, ?_, ?_⟩, fun t ht => ⟨⟨?_, ?_, ?_⟩, ?_⟩⟩
  · rw [hni]
    exact hf.start
  · rw [hb] at hb'
    have := hf.insertBlock b hb'
    omega
  · rw [hblocks, hni]
    exact hf.instr_lt b
  · rw [hblocks]
    exact hf.sorted b
  · rw [hblocks]
    exact hf.fresh b (by omega)
  · rw [hinstrs] at h3 ht
    rw [hni] at h2
    obtain ⟨hlt, hahead⟩ := hf.ahead i h1 h2 h3 t ht
    rw [hblocks]
    exact ⟨by omega, hahead⟩
  · rw [hblocks, hr]
    exact hf.fresh _ le_rfl
  · rw [hb, hr]
    intro he
    have := hf.insertBlock _ he
    omega
  · have := ht.lt
    omega
  · rw [hblocks]
    exact ht.nil
  · rw [hb]
    exact ht.away
  · have := ht.lt
    omega

theorem Forward.move {n t : Nat} (h : Forward n σ) (ht : t < σ.module.numBlocks) :
    Forward n { σ with insertBlock := some t } :=
  ⟨h.start, fun b hb => by cases hb; exact ht, h.instr_lt, h.sorted, h.fresh, h.ahead⟩

theorem visitSubscript_forward {n : Nat} (var : Value) (ty : Ty) (lval : Bool) :
    KeepsForward n (visitSubscript var ty lval) := by
  have hB : Basics (KeepsForward n) := forward_basics
  intro σ r h hf
  obtain ⟨v, σ₀, h₀, h⟩ := bind_some h
  rw [show σ₀ = σ from getTmpVal_read _ h₀] at h
  obtain ⟨t, σ₁, h₁, h⟩ := bind_some h
  obtain ⟨hf₁, het, -⟩ := createBasicBlock_forward h₁ hf
  obtain ⟨c, σ₂, h₂, h⟩ := bind_some h
  obtain ⟨hf₂, hec, hkeep⟩ := createBasicBlock_forward h₂ hf₁
  obtain ⟨het, hne⟩ := hkeep t het
  dsimp only at hf₁ het hf₂ hec hne
  obtain ⟨v, σ₃, h₃, h⟩ := bind_some h
  obtain ⟨isNeg, σ₄, h₄, h⟩ := bind_some h
  have hf₄ := hB.create (by simp) _ _ h₄ (hB.toIndex _ _ _ h₃ hf₂)
  have het₄ := empty_basics.create (by simp) _ _ h₄ (empty_basics.toIndex _ _ _ h₃ het)
  have hec₄ := empty_basics.create (by simp) _ _ h₄ (empty_basics.toIndex _ _ _ h₃ hec)
  have hneg : isNeg = .instruction σ₃.module.numInstrs := (create_created h₄).1
  obtain ⟨_, σ₅, h₅, h⟩ := bind_some h
  obtain ⟨_, h₅⟩ := discard_some h₅
  obtain ⟨bb, hc⟩ := createCondBr_created h₅
  dsimp only at hf₄ het₄ hec₄ hc
  have hf₅ : Forward n σ₅ := by
    apply hc.forward hf₄
    intro _ x hx
    have hx : x = t ∨ x = c := by simpa [hneg] using hx
    have hempty : Empty x σ₄ := by
      rcases hx with rfl | rfl
      · exact het₄
      · exact hec₄
    refine ⟨hempty.lt, ?_, hempty.nil⟩
    rintro rfl
    exact hempty.away hc.insertBlock
  obtain ⟨_, σ₆, h₆, h⟩ := bind_some h
  cases h₆
  have hec₆ : Empty c { σ₅ with insertBlock := some t } :=
    ⟨(hc.empty hec₄).lt, (hc.empty hec₄).nil, by simpa using hne⟩
  obtain ⟨_, σ₇, h₇, h⟩ := bind_some h
  have hf₇ := hB.createNegIdxExcept _ _ h₇ (hf₅.move (hc.empty het₄).lt)
  have hec₇ := empty_basics.createNegIdxExcept _ _ h₇ hec₆
  obtain ⟨_, σ₈, h₈, h⟩ := bind_some h
  cases h₈
  have hrest : KeepsForward n (do
      let tmpPtr ← createElementPtr var ty v
      if lval then
        setTmpVal tmpPtr
        setRequireLvalue false
      else
        setTmpVal (← createLoad tmpPtr)) := by
    refine hB.bind (hB.createElementPtr _ _ _) fun ptr => ?_
    split
    · exact hB.bind (hB.setTmpVal _) fun _ => hB.setRequireLvalue _
    · exact hB.bind (hB.createLoad _) fun _ => hB.setTmpVal _
  exact hrest _ _ h (hf₇.move hec₇.lt)

theorem forward_rules {n : Nat} : Rules (KeepsForward n) where
  toBasics := forward_basics
  subscript := visitSubscript_forward

/-- A part of a visit emits an instruction. -/
def Emits {α : Type} (x : Builder α) : Prop :=
  ∀ σ r, x σ = some r → σ.module.numInstrs < r.2.module.numInstrs

section

variable {x : Builder α} {f : α → Builder β}

theorem Emits.bind (hx : Emits x) (hf : ∀ a, Grows (f a)) : Emits (x >>= f) := by
  intro σ r h
  obtain ⟨a, σ₁, h₁, h₂⟩ := bind_some h
  exact (hx σ _ h₁).trans_le (hf a σ₁ r h₂).1

theorem Grows.emits (hx : Grows x) (hf : ∀ a, Emits (f a)) : Emits (x >>= f) := by
  intro σ r h
  obtain ⟨a, σ₁, h₁, h₂⟩ := bind_some h
  exact (hx σ _ h₁).1.trans_lt (hf a σ₁ r h₂)

theorem emits_failure : Emits (failure : Builder α) := by
  intro σ r h
  cases h

theorem emits_create : Emits (create opId ty ops) := by
  intro σ r h
  obtain ⟨-, -, bb, hc⟩ := create_created h
  exact hc.numInstrs ▸ Nat.lt_succ_self _

end

theorem createLoad_emits (ptr : Value) : Emits (createLoad ptr) := by
  refine (grows_rules.getType ptr).emits fun ty => ?_
  split
  · exact emits_create
  · exact emits_failure

theorem createGep_emits (ptr : Value) (idxs : List Value) : Emits (createGep ptr idxs) := by
  refine (grows_rules.getType ptr).emits fun ty => ?_
  split
  · exact emits_create
  · exact emits_failure

theorem createCall_emits (func : Value) (args : List Value) : Emits (createCall func args) := by
  refine grows_rules.getModule.emits fun m => ?_
  split
  · split
    · exact emits_create
    · exact emits_failure
  · exact emits_failure

theorem createAdditive_emits (op : AddOp) (isInt : Bool) (l r : Value) :
    Emits (createAdditive op isInt l r) := by
  cases op <;> cases isInt <;> exact emits_create

theorem createMultiplicative_emits (op : MulOp) (isInt : Bool) (l r : Value) :
    Emits (createMultiplicative op isInt l r) := by
  cases op <;> cases isInt <;> exact emits_create

theorem visitStore_emits (v : Value) : Emits (visitStore v) := by
  have hG := grows_rules
  refine hG.getTmpVal.emits fun addr => (hG.getType addr).emits fun ty =>
    (hG.convertStored _ _).emits fun val => Emits.bind ?_ fun _ => hG.setTmpVal _
  exact emits_create.bind fun _ => hG.pure _

theorem visitScalar_emits (var : Value) (ty : Ty) : Emits (visitScalar var ty false) := by
  have hG := grows_rules
  unfold visitScalar
  rw [if_neg Bool.false_ne_true]
  by_cases hty : ty.isInteger || ty.isFloat || ty.isPointer
  · rw [if_pos hty]
    exact (createLoad_emits _).bind fun _ => hG.setTmpVal _
  · rw [if_neg hty]
    exact (createGep_emits _ _).bind fun _ => hG.setTmpVal _

/-- The check of a subscript is emitted. -/
theorem visitSubscript_emits (var : Value) (ty : Ty) (lval : Bool) :
    Emits (visitSubscript var ty lval) := by
  have hG := grows_rules
  exact hG.getTmpVal.emits fun v => grows_createBasicBlock.emits fun _ =>
    grows_createBasicBlock.emits fun _ => (hG.toIndex v).emits fun v => emits_create.bind fun _ =>
    (hG.discard (grows_createCondBr _ _ _)).bind fun _ => (grows_setInsertPoint _).bind fun _ =>
    hG.createNegIdxExcept.bind fun _ => (grows_setInsertPoint _).bind fun _ =>
    grows_element var ty lval v

theorem visitSubscriptVar_emits (id : String) (e : ASTExpression) :
    Emits (visitVar (.subscript id e)) := by
  have hG := grows_rules
  rw [visitVar]
  exact (hG.enterVar id).emits fun _ => (hG.visitExpression e).emits fun _ =>
    visitSubscript_emits _ _ _

/-- A variable that is read is loaded. -/
theorem visitVar_emits (var : ASTVar) {r : Unit × BuilderState} (hflag : σ.requireLvalue = false)
    (h : visitVar var σ = some r) : σ.module.numInstrs < r.2.module.numInstrs := by
  cases var with
  | scalar id =>
    rw [visitVar] at h
    obtain ⟨⟨v, ty, lval⟩, σ₁, h₁, h⟩ := bind_some h
    obtain ⟨hlval, hσ₁⟩ := enterVar_flag h₁
    dsimp only at hlval hσ₁ h
    rw [hlval, hflag] at h
    have hlt := visitScalar_emits v ty σ₁ r h
    rw [hσ₁] at hlt
    exact hlt
  | subscript id e => exact visitSubscriptVar_emits id e σ r h

/-- A variable without a subscript that is assigned to gives its address. -/
theorem visitVar_silent {var : ASTVar} {r : Unit × BuilderState} (hvar : var.isSubscript = false)
    (hflag : σ.requireLvalue = true) (h : visitVar var σ = some r) :
    r.2.module.numInstrs = σ.module.numInstrs := by
  cases var with
  | scalar id =>
    rw [visitVar] at h
    obtain ⟨⟨v, ty, lval⟩, σ₁, h₁, h⟩ := bind_some h
    obtain ⟨hlval, hσ₁⟩ := enterVar_flag h₁
    dsimp only at hlval hσ₁ h
    rw [hlval, hflag, hσ₁] at h
    cases h
    rfl
  | subscript id e => cases hvar

mutual

/-- The right-hand side emits an instruction unless it is a number; the recursion follows the
grammar down to what stands in parentheses. -/
theorem visitExpression_emits : ∀ (e : ASTExpression) {σ r}, e.isNum = false →
    σ.requireLvalue = false → visitExpression e σ = some r →
    σ.module.numInstrs < r.2.module.numInstrs
  | .assign var e, σ, r, _, _, h => by
    have hG := grows_rules
    rw [visitExpression] at h
    exact (hG.visitExpression e).emits (fun _ => hG.getTmpVal.emits fun v =>
      (hG.setRequireLvalue _).emits fun _ => (hG.visitVar var).emits fun _ =>
      visitStore_emits v) σ r h
  | .simple l, σ, r, he, hflag, h => by
    rw [visitExpression] at h
    exact visitAdditiveExpression_emits l he hflag h
  | .relation l op r', σ, r, _, _, h => by
    have hG := grows_rules
    rw [visitExpression] at h
    exact (hG.visitAdditiveExpression l).emits (fun _ => hG.getTmpVal.emits fun lVal =>
      (hG.visitAdditiveExpression r').emits fun _ => hG.getTmpVal.emits fun rVal =>
      (hG.promote lVal rVal).emits fun a => (hG.createRelation _ _ _ _).emits fun cmp =>
      emits_create.bind fun z => hG.setTmpVal z) σ r h

theorem visitAdditiveExpression_emits : ∀ (e : ASTAdditiveExpression) {σ r}, e.isNum = false →
    σ.requireLvalue = false → visitAdditiveExpression e σ = some r →
    σ.module.numInstrs < r.2.module.numInstrs
  | .ofTerm term, σ, r, he, hflag, h => by
    rw [visitAdditiveExpression] at h
    exact visitTerm_emits term he hflag h
  | .additive l op r', σ, r, _, _, h => by
    have hG := grows_rules
    rw [visitAdditiveExpression] at h
    exact (hG.visitAdditiveExpression l).emits (fun _ => hG.getTmpVal.emits fun lVal =>
      (hG.visitTerm r').emits fun _ => hG.getTmpVal.emits fun rVal =>
      (hG.promote lVal rVal).emits fun a => (createAdditive_emits _ _ _ _).bind fun z =>
      hG.setTmpVal z) σ r h

theorem visitTerm_emits : ∀ (e : ASTTerm) {σ r}, e.isNum = false →
    σ.requireLvalue = false → visitTerm e σ = some r →
    σ.module.numInstrs < r.2.module.numInstrs
  | .ofFactor factor, σ, r, he, hflag, h => by
    rw [visitTerm] at h
    exact visitFactor_emits factor he hflag h
  | .multiplicative l op r', σ, r, _, _, h => by
    have hG := grows_rules
    rw [visitTerm] at h
    exact (hG.visitTerm l).emits (fun _ => hG.getTmpVal.emits fun lVal =>
      (hG.visitFactor r').emits fun _ => hG.getTmpVal.emits fun rVal =>
      (hG.promote lVal rVal).emits fun a => (createMultiplicative_emits _ _ _ _).bind fun z =>
      hG.setTmpVal z) σ r h

theorem visitFactor_emits : ∀ (e : ASTFactor) {σ r}, e.isNum = false →
    σ.requireLvalue = false → visitFactor e σ = some r →
    σ.module.numInstrs < r.2.module.numInstrs
  | .num _, σ, r, he, _, _ => by cases he
  | .var var, σ, r, _, hflag, h => by
    rw [visitFactor] at h
    exact visitVar_emits var hflag h
  | .call id args, σ, r, _, _, h => by
    have hG := grows_rules
    rw [visitFactor] at h
    refine hG.get.emits (fun σ₀ => ?_) σ r h
    split
    · exact hG.getModule.emits fun m => (hG.visitArgs args _).emits fun vals =>
        (createCall_emits _ _).bind fun z => hG.setTmpVal z
    · exact emits_failure
  | .expression e, σ, r, he, hflag, h => by
    rw [visitFactor] at h
    exact visitExpression_emits e he hflag h

end

mutual

/-- A number emits nothing. -/
theorem visitExpression_silent : ∀ (e : ASTExpression) {σ r}, e.isNum →
    visitExpression e σ = some r → r.2.module.numInstrs = σ.module.numInstrs
  | .assign _ _, _, _, he, _ => by cases he
  | .simple l, σ, r, he, h => by
    rw [visitExpression] at h
    exact visitAdditiveExpression_silent l he h
  | .relation _ _ _, _, _, he, _ => by cases he

theorem visitAdditiveExpression_silent : ∀ (e : ASTAdditiveExpression) {σ r}, e.isNum →
    visitAdditiveExpression e σ = some r → r.2.module.numInstrs = σ.module.numInstrs
  | .ofTerm term, σ, r, he, h => by
    rw [visitAdditiveExpression] at h
    exact visitTerm_silent term he h
  | .additive _ _ _, _, _, he, _ => by cases he

theorem visitTerm_silent : ∀ (e : ASTTerm) {σ r}, e.isNum →
    visitTerm e σ = some r → r.2.module.numInstrs = σ.module.numInstrs
  | .ofFactor factor, σ, r, he, h => by
    rw [visitTerm] at h
    exact visitFactor_silent factor he h
  | .multiplicative _ _ _, _, _, he, _ => by cases he

theorem visitFactor_silent : ∀ (e : ASTFactor) {σ r}, e.isNum →
    visitFactor e σ = some r → r.2.module.numInstrs = σ.module.numInstrs
  | .num (.int _), σ, r, _, h => by
    rw [visitFactor] at h
    cases h
    rfl
  | .num (.float _), σ, r, _, h => by
    rw [visitFactor] at h
    cases h
    rfl
  | .var _, _, _, he, _ => by cases he
  | .call _ _, _, _, he, _ => by cases he
  | .expression e, σ, r, he, h => by
    rw [visitFactor] at h
    exact visitExpression_silent e he h

end

/-- Control passes from one instruction to another, both emitted since `n`. -/
def Flows (m : Module) (n i j : Nat) : Prop :=
  n ≤ i ∧ n ≤ j ∧ ((∃ b, [i, j] <:+: (m.blocks b).instrList) ∨
    ∃ b t, i ∈ (m.blocks b).instrList ∧ (m.instrs i).opId = .br ∧
      .basicBlock t ∈ (m.instrs i).operands ∧ (m.blocks t).instrList.head? = some j)

/-- `i` is executed, and `j` after it. -/
abbrev Before (m : Module) (n : Nat) : Nat → Nat → Prop := Relation.TransGen (Flows m n)

theorem Forward.lt_of_before {n i j : Nat} (h : Forward n σ) (hb : Before σ.module n i j) :
    i < j := by
  have hflow : ∀ i j, Flows σ.module n i j → i < j := by
    intro i j ⟨hi, _, hij⟩
    rcases hij with ⟨b, pre, post, hl⟩ | ⟨b, t, hmem, hbr, ht, hj⟩
    · have hs := h.sorted b
      rw [← hl, List.append_assoc] at hs
      have hs := (List.pairwise_append.mp hs).2.1
      exact (List.pairwise_cons.mp hs).1 j (by simp)
    · exact (h.ahead i hi (h.instr_lt b i hmem) hbr t ht).2 j (List.mem_of_mem_head? hj)
  induction hb with
  | single hij => exact hflow _ _ hij
  | tail _ hjk ih => exact ih.trans (hflow _ _ hjk)

/-- The conversion in `m'` of a value of `m` to the type `ty`. -/
def Converted (m m' : Module) (ty : Option Ty) (v val : Value) : Prop :=
  ty = some (m.getType v) ∧ val = v ∨
    ty ≠ some (m.getType v) ∧ ∃ j < m'.numInstrs, val = .instruction j ∧
      (m'.instrs j).operands = [v] ∧
      (m'.instrs j).opId = if m.getType v = .int32 then .sitofp .float else .fptosi .int32

/-- What an assignment emits between `σ` and `σ'`, its right-hand side before `σ₁` and its
variable before `σ₂`: what the variable executes on the way to the store (a failed check does not
get there) comes before the whole right-hand side. -/
structure DocumentedOrder (σ σ₁ σ₂ σ' : BuilderState) : Prop where
  subscript : ∀ x y, σ₁.module.numInstrs ≤ x → x < σ₂.module.numInstrs →
    Before σ'.module σ.module.numInstrs x (σ'.module.numInstrs - 1) →
    σ.module.numInstrs ≤ y → y < σ₁.module.numInstrs → Before σ'.module σ.module.numInstrs x y
  last : ∀ y < σ'.module.numInstrs,
    ¬ Before σ'.module σ.module.numInstrs (σ'.module.numInstrs - 1) y
  stored : ∃ v addr val, σ₁.tmpVal = some v ∧ σ₂.tmpVal = some addr ∧ σ'.tmpVal = some val ∧
    Converted σ₂.module σ'.module (σ₂.module.getType addr).pointerElementType v val ∧
    (σ'.module.instrs (σ'.module.numInstrs - 1)).opId = .store ∧
    (σ'.module.instrs (σ'.module.numInstrs - 1)).operands = [val, addr]

/-- What is stored is the value itself or its conversion, a new instruction. -/
theorem convertStored_cases {ty : Option Ty} {v val : Value}
    (h : convertStored ty v σ = some (val, σ')) :
    ty = some (σ.module.getType v) ∧ val = v ∧ σ' = σ ∨
      ty ≠ some (σ.module.getType v) ∧ val = .instruction σ.module.numInstrs ∧ ∃ bb, Created σ
        (if σ.module.getType v = .int32 then .sitofp .float else .fptosi .int32) [v] bb σ' := by
  obtain ⟨exprTy, σ₁, h₁, h⟩ := bind_some h
  cases h₁
  split at h
  · rename_i hne
    split at h
    · rename_i hint
      obtain ⟨hval, -, bb, hc⟩ := create_created h
      rw [if_pos hint]
      exact .inr ⟨hne, hval, bb, hc⟩
    · rename_i hint
      obtain ⟨hval, -, bb, hc⟩ := create_created h
      rw [if_neg hint]
      exact .inr ⟨hne, hval, bb, hc⟩
  · rename_i heq
    cases h
    exact .inl ⟨not_not.mp heq, rfl, rfl⟩

/-- The parts of the store: what is converted, and the instruction. -/
theorem visitStore_parts {v : Value} (h : visitStore v σ = some ((), σ')) :
    ∃ addr val σ₁ bb, σ.tmpVal = some addr ∧ σ'.tmpVal = some val ∧
      convertStored (σ.module.getType addr).pointerElementType v σ = some (val, σ₁) ∧
      Created σ₁ .store [val, addr] bb σ' := by
  obtain ⟨addr, σ₀, h₀, h⟩ := bind_some h
  obtain rfl : σ = σ₀ := (getTmpVal_read _ h₀).symm
  obtain ⟨ty, σ₁, h₁, h⟩ := bind_some h
  cases h₁
  obtain ⟨val, σ₂, h₂, h⟩ := bind_some h
  obtain ⟨_, σ₃, h₃, h⟩ := bind_some h
  obtain ⟨_, h₃⟩ := discard_some h₃
  obtain ⟨-, -, bb, hc⟩ := create_created h₃
  cases h
  exact ⟨addr, val, σ₂, bb, getTmpVal_eq h₀, rfl, h₂, hc.insertBlock, hc.moved, hc.numInstrs,
    hc.numBlocks, hc.old, hc.opId, hc.operands, hc.instrList⟩

theorem visitStore_stored {v : Value} (h : visitStore v σ = some ((), σ')) :
    0 < σ'.module.numInstrs ∧ ∃ addr val, σ.tmpVal = some addr ∧ σ'.tmpVal = some val ∧
      Converted σ.module σ'.module (σ.module.getType addr).pointerElementType v val ∧
      (σ'.module.instrs (σ'.module.numInstrs - 1)).opId = .store ∧
      (σ'.module.instrs (σ'.module.numInstrs - 1)).operands = [val, addr] := by
  obtain ⟨addr, val, σ₁, bb, haddr, hval, hconv, hc⟩ := visitStore_parts h
  have hn := hc.numInstrs
  have hlast : σ'.module.numInstrs - 1 = σ₁.module.numInstrs := by omega
  rw [hlast]
  refine ⟨by omega, addr, val, haddr, hval, ?_, hc.opId, hc.operands⟩
  rcases convertStored_cases hconv with ⟨hty, hv, -⟩ | ⟨hty, rfl, b, hc'⟩
  · exact .inl ⟨hty, hv⟩
  · have hn' := hc'.numInstrs
    have hold := hc.old σ.module.numInstrs (by omega)
    refine .inr ⟨hty, σ.module.numInstrs, by omega, rfl, ?_, ?_⟩
    · rw [hold, hc'.operands]
    · rw [hold, hc'.opId]

/-- `i` is the last instruction of the block at the insert point. -/
def AtEnd (i : Nat) (σ : BuilderState) : Prop :=
  ∃ bb pre, σ.insertBlock = some bb ∧ (σ.module.blocks bb).instrList = pre ++ [i]

/-- A part that ends with a new instruction. -/
def EmitsLast {α : Type} (x : Builder α) : Prop :=
  ∀ σ r, x σ = some r → AtEnd (r.2.module.numInstrs - 1) r.2

theorem EmitsLast.after {x : Builder α} {f : α → Builder β} (hf : ∀ a, EmitsLast (f a)) :
    EmitsLast (x >>= f) := by
  intro σ r h
  obtain ⟨a, σ₁, -, h₂⟩ := bind_some h
  exact hf a σ₁ r h₂

theorem emitsLast_failure : EmitsLast (failure : Builder α) := by
  intro σ r h
  cases h

theorem emitsLast_create : EmitsLast (create opId ty ops) := by
  intro σ r h
  obtain ⟨-, -, bb, hc⟩ := create_created h
  have hl := hc.instrList bb
  rw [if_pos rfl] at hl
  refine ⟨bb, (σ.module.blocks bb).instrList, hc.moved, ?_⟩
  rw [hl, hc.numInstrs]
  rfl

theorem emitsLast_createGep (ptr : Value) (idxs : List Value) : EmitsLast (createGep ptr idxs) := by
  refine .after fun ty => ?_
  split
  · exact emitsLast_create
  · exact emitsLast_failure

theorem emitsLast_createElementPtr (var : Value) (ty : Ty) (v : Value) :
    EmitsLast (createElementPtr var ty v) := by
  unfold createElementPtr
  split
  · exact emitsLast_createGep _ _
  · split
    · exact .after fun _ => emitsLast_createGep _ _
    · exact emitsLast_createGep _ _

/-- The address of an element is the last instruction. -/
theorem visitSubscriptVar_atEnd {id : String} {e : ASTExpression} {r : Unit × BuilderState}
    (hflag : σ.requireLvalue = true) (h : visitVar (.subscript id e) σ = some r) :
    AtEnd (r.2.module.numInstrs - 1) r.2 := by
  rw [visitVar] at h
  obtain ⟨⟨v, ty, lval⟩, σ₁, h₁, h⟩ := bind_some h
  obtain ⟨hlval, -⟩ := enterVar_flag h₁
  dsimp only at hlval h
  rw [hlval, hflag] at h
  obtain ⟨_, σ₂, -, h⟩ := bind_some h
  have hends : ∀ v' : Value, EmitsLast (do
      let tmpPtr ← createElementPtr v ty v'
      setTmpVal tmpPtr
      setRequireLvalue false) := by
    intro v' σ r h
    obtain ⟨ptr, σ₃, h₃, h⟩ := bind_some h
    cases h
    exact emitsLast_createElementPtr v ty v' _ _ h₃
  have hsub : EmitsLast (visitSubscript v ty true) :=
    .after fun _ => .after fun _ => .after fun _ => .after fun v' => .after fun _ =>
      .after fun _ => .after fun _ => .after fun _ => .after fun _ => hends v'
  exact hsub _ _ h

/-- The store follows what was emitted last, perhaps with a conversion between them. -/
theorem visitStore_before {n i : Nat} {v : Value} (h : visitStore v σ = some ((), σ'))
    (hi : AtEnd i σ) (hn : n ≤ i) (hlt : i < σ.module.numInstrs) :
    Before σ'.module n i (σ'.module.numInstrs - 1) := by
  obtain ⟨bb, pre, hbb, hl⟩ := hi
  obtain ⟨addr, val, σ₁, b, -, -, hconv, hc⟩ := visitStore_parts h
  have hs := hc.numInstrs
  have hlast := hc.instrList b
  rw [if_pos rfl] at hlast
  rw [hs, Nat.add_sub_cancel]
  rcases convertStored_cases hconv with ⟨-, -, rfl⟩ | ⟨-, -, b', hc'⟩
  · obtain rfl : bb = b := Option.some.inj (hbb.symm.trans hc.insertBlock)
    rw [hl] at hlast
    exact .single ⟨hn, by omega, .inl ⟨bb, pre, [], by rw [hlast]; simp⟩⟩
  · obtain rfl : bb = b' := Option.some.inj (hbb.symm.trans hc'.insertBlock)
    obtain rfl : bb = b := Option.some.inj (hc'.moved.symm.trans hc.insertBlock)
    have hs' := hc'.numInstrs
    rw [hc'.instrList, if_pos rfl, hl] at hlast
    have hfirst : Flows σ'.module n i σ.module.numInstrs :=
      ⟨hn, by omega, .inl ⟨bb, pre, [σ₁.module.numInstrs], by rw [hlast]; simp⟩⟩
    have hsecond : Flows σ'.module n σ.module.numInstrs σ₁.module.numInstrs :=
      ⟨by omega, by omega, .inl ⟨bb, pre ++ [i], [], by rw [hlast]; simp⟩⟩
    exact .tail (.single hfirst) hsecond

/-- The parts of the visit of an assignment. -/
theorem visitAssign_parts {s : Site} {var : ASTVar} {e : ASTExpression} (hp : Placed σ s)
    (h : visitExpression (.assign var e) σ = some ((), σ')) :
    ∃ σ₁ σ₂ v, visitExpression e σ = some ((), σ₁) ∧ σ₁.tmpVal = some v ∧
      visitVar var { σ₁ with requireLvalue := true } = some ((), σ₂) ∧
      visitStore v σ₂ = some ((), σ') ∧ Forward σ.module.numInstrs σ' := by
  rw [visitExpression] at h
  obtain ⟨_, σ₁, h₁, h⟩ := bind_some h
  obtain ⟨v, σ₁', hv, h⟩ := bind_some h
  rw [show σ₁' = σ₁ from getTmpVal_read _ hv] at h hv
  obtain ⟨_, σ₁'', hl, h⟩ := bind_some h
  cases hl
  obtain ⟨_, σ₂, h₂, h⟩ := bind_some h
  have hF := forward_rules (n := σ.module.numInstrs)
  exact ⟨σ₁, σ₂, v, h₁, getTmpVal_eq hv, h₂, h, hF.visitStore v _ _ h
    (hF.visitVar var _ _ h₂
      ((hF.visitExpression e _ _ h₁ (forward_of_placed hp)).congr rfl rfl))⟩

section

variable {σ₁ σ₂ : BuilderState} {v : Value} {var : ASTVar} {e : ASTExpression}
  (h₁ : visitExpression e σ = some ((), σ₁))
  (h₂ : visitVar var { σ₁ with requireLvalue := true } = some ((), σ₂))
  (h₃ : visitStore v σ₂ = some ((), σ')) (hf : Forward σ.module.numInstrs σ')

include h₁ h₂ h₃

theorem instrs_parts : σ.module.numInstrs ≤ σ₁.module.numInstrs ∧
    σ₁.module.numInstrs ≤ σ₂.module.numInstrs ∧ σ₂.module.numInstrs ≤ σ'.module.numInstrs ∧
    (∀ i < σ₁.module.numInstrs, σ'.module.instrs i = σ₁.module.instrs i) ∧
    ∀ i < σ₂.module.numInstrs, σ'.module.instrs i = σ₂.module.instrs i := by
  have hG := grows_rules
  obtain ⟨hn₁, -⟩ := hG.visitExpression e _ _ h₁
  obtain ⟨hn₂, hold₂⟩ := hG.visitVar var _ _ h₂
  obtain ⟨hn₃, hold₃⟩ := hG.visitStore v _ _ h₃
  refine ⟨hn₁, hn₂, hn₃, fun i hi => ?_, hold₃⟩
  rw [hold₃ i (lt_of_lt_of_le hi hn₂)]
  exact hold₂ i hi

include hf

/-- The address of the variable is found after the first instruction of the right-hand side. -/
theorem scalar_or_isNum_of_documentedOrder (hflag : σ.requireLvalue = false)
    (hd : DocumentedOrder σ σ₁ σ₂ σ') : var.isSubscript = false ∨ e.isNum := by
  obtain ⟨hn₁, hn₂, hn₃, -, -⟩ := instrs_parts h₁ h₂ h₃
  by_contra hboth
  rw [not_or, Bool.not_eq_false, Bool.not_eq_true] at hboth
  obtain ⟨hvar, he⟩ := hboth
  cases var with
  | scalar id => cases hvar
  | subscript id e' =>
    have hlt := visitExpression_emits e he hflag h₁
    have hlt' := visitSubscriptVar_emits id e' _ _ h₂
    dsimp only at hlt hlt'
    have hlast := visitSubscriptVar_atEnd rfl h₂
    dsimp only at hlast
    have hstore := visitStore_before (n := σ.module.numInstrs) h₃ hlast (by omega) (by omega)
    have hbefore := hd.subscript _ σ.module.numInstrs (by omega) (by omega) hstore le_rfl hlt
    have := hf.lt_of_before hbefore
    omega

theorem documentedOrder_of_scalar_or_isNum (hv : σ₁.tmpVal = some v)
    (hcond : var.isSubscript = false ∨ e.isNum) : DocumentedOrder σ σ₁ σ₂ σ' := by
  obtain ⟨hpos, addr, val, haddr, hval, hstored⟩ := visitStore_stored h₃
  refine ⟨fun x y hx hx' _ hy hy' => ?_, fun y hy hb => ?_, v, addr, val, hv, haddr, hval,
    hstored⟩
  · exfalso
    rcases hcond with hvar | hnum
    · have hsilent := visitVar_silent hvar rfl h₂
      dsimp only at hsilent
      omega
    · have hsilent := visitExpression_silent e hnum h₁
      dsimp only at hsilent
      omega
  · have := hf.lt_of_before hb
    omega

end

/-- An assigned variable is evaluated before the right-hand side just when one of the two emits
nothing; the rest of the order is always kept. -/
theorem visitAssign_documentedOrder_iff {s : Site} {var : ASTVar} {e : ASTExpression}
    (hp : Placed σ s) (hflag : σ.requireLvalue = false)
    (h : visitExpression (.assign var e) σ = some ((), σ')) :
    ∃ σ₁ σ₂, visitExpression e σ = some ((), σ₁) ∧
      visitVar var { σ₁ with requireLvalue := true } = some ((), σ₂) ∧
      (DocumentedOrder σ σ₁ σ₂ σ' ↔ (var.isSubscript = false ∨ e.isNum)) := by
  obtain ⟨σ₁, σ₂, v, h₁, hv, h₂, h₃, hf⟩ := visitAssign_parts hp h
  exact ⟨σ₁, σ₂, h₁, h₂, scalar_or_isNum_of_documentedOrder h₁ h₂ h₃ hf hflag,
    documentedOrder_of_scalar_or_isNum h₁ h₂ h₃ hf hv⟩

/-- `input()`. -/
def inputCall : ASTExpression := .simple (.ofTerm (.ofFactor (.call "input" [])))

/-- `a[0]`. -/
def firstElement : ASTVar := .subscript "a" (.simple (.ofTerm (.ofFactor (.num (.int 0)))))

/-- An expression at the start of `main`, with a global `int x` and a global `int a[10]`. -/
def visitInMain (e : ASTExpression) : Builder Unit := do
  visitVarDeclaration ⟨.int, "x", none⟩
  visitVarDeclaration ⟨.int, "a", some 10⟩
  discard <| enterFunction ⟨.int, "main", [], [], []⟩
  visitExpression e

theorem exists_visitInMain (e : ASTExpression) (hok : (visitInMain e initial).isSome) :
    ∃ σ s σ', Placed σ s ∧ σ.requireLvalue = false ∧ visitExpression e σ = some ((), σ') := by
  obtain ⟨⟨_, σ'⟩, h⟩ := Option.isSome_iff_exists.mp hok
  obtain ⟨_, σ₁, h₁, h⟩ := bind_some h
  obtain ⟨s₁, hx⟩ := visitVarDeclaration_topLevel topLevel_initial h₁
  obtain ⟨_, σ₂, h₂, h⟩ := bind_some h
  obtain ⟨s₂, ha⟩ := visitVarDeclaration_topLevel hx h₂
  obtain ⟨_, σ₃, h₃, h⟩ := bind_some h
  obtain ⟨f, h₃⟩ := discard_some h₃
  obtain ⟨-, hp, -, -, hflag, -⟩ := enterFunction_spec ha h₃
  exact ⟨σ₃, _, σ', hp, hflag, h⟩

/-- The order is kept for `x = input()` and not for `a[0] = input()`. -/
theorem visitAssign_documentedOrder_iff_inputAssign :
    (∃ σ σ' σ₁ σ₂, visitExpression (.assign (.scalar "x") inputCall) σ = some ((), σ') ∧
      visitExpression inputCall σ = some ((), σ₁) ∧ DocumentedOrder σ σ₁ σ₂ σ') ∧
    ∃ σ σ' σ₁ σ₂, visitExpression (.assign firstElement inputCall) σ = some ((), σ') ∧
      visitExpression inputCall σ = some ((), σ₁) ∧
      visitVar firstElement { σ₁ with requireLvalue := true } = some ((), σ₂) ∧
      ¬ DocumentedOrder σ σ₁ σ₂ σ' := by
  constructor
  · obtain ⟨σ, s, σ', hp, hflag, h⟩ :=
      exists_visitInMain (.assign (.scalar "x") inputCall) (by decide +kernel)
    obtain ⟨σ₁, σ₂, h₁, -, hiff⟩ := visitAssign_documentedOrder_iff hp hflag h
    exact ⟨σ, σ', σ₁, σ₂, h, h₁, hiff.mpr (.inl rfl)⟩
  · obtain ⟨σ, s, σ', hp, hflag, h⟩ :=
      exists_visitInMain (.assign firstElement inputCall) (by decide +kernel)
    obtain ⟨σ₁, σ₂, h₁, h₂, hiff⟩ := visitAssign_documentedOrder_iff hp hflag h
    refine ⟨σ, σ', σ₁, σ₂, h, h₁, h₂, fun hd => ?_⟩
    rcases hiff.mp hd with hvar | he
    · cases hvar
    · cases he

/-- The call of `input` comes before the address of `a[0]`. -/
theorem not_documentedOrder_inputAssign : ¬ ∀ (σ : BuilderState) (s : Site) (var : ASTVar)
    (e : ASTExpression) (σ' : BuilderState), Placed σ s → σ.requireLvalue = false →
    visitExpression (.assign var e) σ = some ((), σ') → ∃ σ₁ σ₂,
      visitExpression e σ = some ((), σ₁) ∧
      visitVar var { σ₁ with requireLvalue := true } = some ((), σ₂) ∧
      DocumentedOrder σ σ₁ σ₂ σ' := by
  intro hall
  obtain ⟨σ, s, σ', hp, hflag, h⟩ :=
    exists_visitInMain (.assign firstElement inputCall) (by decide +kernel)
  obtain ⟨σ₁, σ₂, v, h₁, -, h₂, h₃, hf⟩ := visitAssign_parts hp h
  obtain ⟨τ₁, τ₂, h₁', h₂', hd⟩ := hall σ s _ _ σ' hp hflag h
  rw [h₁] at h₁'
  cases h₁'
  rw [h₂] at h₂'
  cases h₂'
  have hcond := scalar_or_isNum_of_documentedOrder h₁ h₂ h₃ hf hflag hd
  rcases hcond with hvar | he
  · cases hvar
  · cases he

end

end CminusfBuilder

end Cminusf
