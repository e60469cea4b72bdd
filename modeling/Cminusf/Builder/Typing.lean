import Cminusf.Succeeds
import Cminusf.Builder.Legal
import Cminusf.Builder.WellTyped

/-! The builder against the declarations in force: what its scopes bind, the block that instructions
go to, and what a part of a visitor leaves alone. -/

namespace Cminusf

/-- The type of a value, `void` for none. -/
def CminusType.ty : CminusType → Ty
  | .int => .int32
  | .float => .float
  | .void => .void

def ExprType.ty : ExprType → Ty
  | .value t => t.ty
  | .array t => .pointer t.ty

namespace Builder

theorem getModule_run (σ : BuilderState) : getModule σ = some (σ.module, σ) := rfl

theorem setTmpVal_run (v : Value) (σ : BuilderState) :
    setTmpVal v σ = some ((), { σ with tmpVal := some v }) := rfl

theorem setRequireLvalue_run (lv : Bool) (σ : BuilderState) :
    setRequireLvalue lv σ = some ((), { σ with requireLvalue := lv }) := rfl

theorem setInsertPoint_run (b : Nat) (σ : BuilderState) :
    setInsertPoint b σ = some ((), { σ with insertBlock := some b }) := rfl

theorem get_run (σ : BuilderState) : (get : Builder BuilderState) σ = some (σ, σ) := rfl

variable {m m' : Module} {b c d f : Nat} {opId : OpID} {ty elementTy : Ty} {ops : List Value}
  {Γ Γ' : TypeEnv} {ret : CminusType} {D : Declared} {id : String} {σ σ' σ₀ : BuilderState}
  {v ptr : Value}

theorem getTmpVal_run {v : Value} (h : σ.tmpVal = some v) : getTmpVal σ = some (v, σ) := by
  rw [getTmpVal, h]
  rfl

theorem getInsertBlock_run {b : Nat} (h : σ.insertBlock = some b) :
    getInsertBlock σ = some (b, σ) := by
  rw [getInsertBlock, h]
  rfl

theorem getCurFun_run {f : Nat} (h : σ.curFun = some f) : getCurFun σ = some (f, σ) := by
  rw [getCurFun, h]
  rfl

theorem getType_run (h : HasType σ.module v ty) : getType v σ = some (ty, σ) := by
  rw [← h.type]
  rfl

theorem terminated_run (h : σ.insertBlock = some b) :
    terminated σ = some ((σ.module.getTerminator b).isSome, σ) := by
  rw [terminated, bind_run (getInsertBlock_run h)]
  rfl

theorem create_run (h : σ.insertBlock = some b) : create opId ty ops σ =
    some (.instruction σ.module.numInstrs,
      { σ with module := σ.module.createInstruction opId ty ops b }) := by
  rw [create, bind_run (getInsertBlock_run h)]
  rfl

theorem createBasicBlock_run (h : σ.curFun = some f) (name : String) :
    createBasicBlock name σ = some (σ.module.numBlocks,
      { σ with module := σ.module.createBasicBlock name f }) := by
  rw [createBasicBlock, bind_run (getCurFun_run h)]
  rfl

/-- A run that leaves alone what it does not make, but for the block at the insert point. -/
structure Passed (σ σ' : BuilderState) : Prop where
  widens : Widens σ.module σ'.module
  instrList : ∀ x < σ.module.numBlocks, σ.insertBlock ≠ some x →
    (σ'.module.blocks x).instrList = (σ.module.blocks x).instrList
  insertBlock : σ'.insertBlock = σ.insertBlock ∨
    ∀ x, σ'.insertBlock = some x → σ.module.numBlocks ≤ x
  scope : σ'.scope = σ.scope
  preEnterScope : σ'.preEnterScope = σ.preEnterScope

theorem Passed.refl (σ : BuilderState) : Passed σ σ :=
  ⟨.refl _ _, fun _ _ _ => rfl, .inl rfl, rfl, rfl⟩

theorem Passed.trans (h : Passed σ₀ σ) (h' : Passed σ σ') : Passed σ₀ σ' where
  widens := h.widens.trans h'.widens
  instrList b hb hne := by
    have hne' : σ.insertBlock ≠ some b := by
      intro he
      rcases h.insertBlock with hi | hi
      · exact hne (hi.symm.trans he)
      · have := hi b he
        omega
    rw [h'.instrList b (hb.trans_le h.widens.numBlocks) hne', h.instrList b hb hne]
  insertBlock := by
    have hle := h.widens.numBlocks
    rcases h'.insertBlock with hi | hi
    · rw [hi]
      exact h.insertBlock
    · refine .inr fun b hb => ?_
      have := hi b hb
      omega
  scope := h'.scope.trans h.scope
  preEnterScope := h'.preEnterScope.trans h.preEnterScope

theorem Passed.setTmpVal (h : Passed σ₀ σ) (v : Value) :
    Passed σ₀ { σ with tmpVal := some v } := ⟨h.1, h.2, h.3, h.4, h.5⟩

theorem Passed.rescope (h : Passed σ σ') (s : Scope) :
    Passed { σ with scope := s } { σ' with scope := s } :=
  ⟨h.widens, h.instrList, h.insertBlock, rfl, h.preEnterScope⟩

theorem Passed.apart (h : Passed σ σ') (hc : c < σ.module.numBlocks)
    (hne : σ.insertBlock ≠ some c) : σ'.insertBlock ≠ some c := by
  intro he
  rcases h.insertBlock with hi | hi
  · exact hne (hi.symm.trans he)
  · have := hi c he
    omega

/-- What a name is bound to. -/
def Denotes (m : Module) : Declared → Value → Prop
  | .scalar t, v => t.isNumeric ∧ HasType m v (.pointer t.ty)
  | .array t, v => t.isNumeric ∧
      ((∃ n, HasType m v (.pointer (.array t.ty n))) ∨ HasType m v (.pointer (.pointer t.ty)))
  | .function t params, v => ∃ f, v = .function f ∧ f < m.numFunctions ∧
      (m.functions f).returnType = t.ty ∧
      (m.functions f).paramTypes = params.map fun param =>
        CminusfBuilder.paramType ⟨param.1, "", param.2⟩

/-- The builder's scopes bind the declarations in force. -/
abbrev Binds (m : Module) : TypeEnv → List (List (String × Value)) → Prop :=
  List.Forall₂ (List.Forall₂ fun d p => d.1 = p.1 ∧ Denotes m d.2 p.2)

theorem Denotes.widen {d : Declared} (h : Denotes m d v) (hw : Widens m m') : Denotes m' d v := by
  cases d with
  | scalar t => exact ⟨h.1, h.2.widen hw⟩
  | array t =>
    obtain ⟨hn, ⟨n, h⟩ | h⟩ := h
    · exact ⟨hn, .inl ⟨n, h.widen hw⟩⟩
    · exact ⟨hn, .inr (h.widen hw)⟩
  | function t params =>
    obtain ⟨f, rfl, hf, hr, hp⟩ := h
    exact ⟨f, rfl, hf.trans_le hw.numFunctions, (hw.returnType f hf).trans hr,
      (hw.paramTypes f hf).trans hp⟩

theorem Binds.widen {inner : List (List (String × Value))} (h : Binds m Γ inner)
    (hw : Widens m m') : Binds m' Γ inner :=
  h.imp fun _ _ hl => hl.imp fun _ _ hd => ⟨hd.1, hd.2.widen hw⟩

theorem lookup_of_forall₂ {γ : List (String × Declared)} {l : List (String × Value)} (id : String)
    (h : List.Forall₂ (fun d p => d.1 = p.1 ∧ Denotes m d.2 p.2) γ l) :
    (γ.lookup id = none ∧ l.lookup id = none) ∨
      ∃ d v, γ.lookup id = some d ∧ l.lookup id = some v ∧ Denotes m d v := by
  induction h with
  | nil => exact .inl ⟨rfl, rfl⟩
  | @cons d p γ l hd _ ih =>
    obtain ⟨n, d⟩ := d
    obtain ⟨n', v⟩ := p
    obtain ⟨hn, hd⟩ := hd
    dsimp only at hn hd
    subst hn
    by_cases hid : id = n
    · subst hid
      exact .inr ⟨d, v, List.lookup_cons_self, List.lookup_cons_self, hd⟩
    · have hb : (id == n) = false := beq_eq_false_iff_ne.mpr hid
      rw [List.lookup_cons, List.lookup_cons, hb]
      exact ih

theorem Binds.find {inner : List (List (String × Value))} (h : Binds m Γ inner) (id : String) :
    (Γ.find id = none ∧ Scope.find ⟨inner⟩ id = none) ∨
      ∃ d v, Γ.find id = some d ∧ Scope.find ⟨inner⟩ id = some v ∧ Denotes m d v := by
  induction h with
  | nil => exact .inl ⟨rfl, rfl⟩
  | @cons γ l Γ inner hl _ ih =>
    simp only [TypeEnv.find, Scope.find, List.findSome?_cons]
    rcases lookup_of_forall₂ id hl with ⟨h1, h2⟩ | ⟨d, v, h1, h2, hd⟩
    · rw [h1, h2]
      exact ih
    · rw [h1, h2]
      exact .inr ⟨d, v, rfl, rfl, hd⟩

theorem Binds.push {m : Module} {inner : List (List (String × Value))} (h : Binds m Γ inner)
    (hΓ : Γ.declare id D = some Γ') (hv : Denotes m D v) :
    Binds m Γ' (Scope.push ⟨inner⟩ id v).inner := by
  obtain ⟨top, outer, rfl, rfl, -, hnone⟩ := TypeEnv.declare_eq_some hΓ
  cases h with
  | @cons _ l _ inner hl hrest =>
    rcases lookup_of_forall₂ id hl with ⟨-, h⟩ | ⟨d, w, h, -⟩
    · rw [Scope.push]
      dsimp only
      rw [h]
      exact .cons (.cons ⟨rfl, hv⟩ hl) hrest
    · rw [h] at hnone
      cases hnone

/-- The builder in a block `b` of a function `f` that returns a `ret`. -/
structure Located (Γ : TypeEnv) (ret : CminusType) (f b : Nat) (σ : BuilderState) : Prop where
  wellTyped : WellTyped σ.module
  insertBlock : σ.insertBlock = some b
  curFun : σ.curFun = some f
  block : b < σ.module.numBlocks
  parent : (σ.module.blocks b).parent = f
  returnType : (σ.module.functions f).returnType = ret.ty
  scope : Binds σ.module Γ σ.scope.inner
  sees : Γ.SeesNegIdxExcept
  requireLvalue : σ.requireLvalue = false

/-- The block is still open. -/
structure Ready (Γ : TypeEnv) (ret : CminusType) (f b : Nat) (σ : BuilderState) : Prop extends
    Located Γ ret f b σ where
  isOpen : σ.module.getTerminator b = none

/-- A block made for later. -/
structure Vacant (f c : Nat) (σ : BuilderState) : Prop where
  block : c < σ.module.numBlocks
  parent : (σ.module.blocks c).parent = f
  instrList : (σ.module.blocks c).instrList = []

/-- A block made for later, which is not the one at the insert point. -/
structure Pending (f : Nat) (σ₀ : BuilderState) (c : Nat) (σ : BuilderState) : Prop where
  vacant : Vacant f c σ
  apart : σ.insertBlock ≠ some c
  new : σ₀.module.numBlocks ≤ c

/-- A run that ends in an open block with a value of the type. -/
def Gives (Γ : TypeEnv) (ret : CminusType) (f : Nat) (σ : BuilderState) (ty : Ty) (v : Value)
    (σ' : BuilderState) : Prop :=
  ∃ b, Ready Γ ret f b σ' ∧ Passed σ σ' ∧ HasType σ'.module v ty

/-- A run that ends in an open block with a value of the type in `tmp_val`. -/
def GivesTmp (Γ : TypeEnv) (ret : CminusType) (f : Nat) (σ : BuilderState) (ty : Ty)
    (σ' : BuilderState) : Prop :=
  ∃ v, σ'.tmpVal = some v ∧ Gives Γ ret f σ ty v σ'

/-- A run that ends in a closed block. -/
def Ends (Γ : TypeEnv) (ret : CminusType) (f : Nat) (σ σ' : BuilderState) : Prop :=
  ∃ b, Located Γ ret f b σ' ∧ Passed σ σ' ∧ (σ'.module.getTerminator b).isSome

/-- A run that may bind names in the innermost scope. -/
structure Introduces (Γ : TypeEnv) (ret : CminusType) (f : Nat) (σ σ' : BuilderState) : Prop where
  ready : ∃ b, Ready Γ ret f b σ'
  passed : Passed σ { σ' with scope := σ.scope }
  outer : σ'.scope.inner.tail = σ.scope.inner.tail

theorem Located.isOpen_or (h : Located Γ ret f b σ) :
    Ready Γ ret f b σ ∨ (σ.module.getTerminator b).isSome := by
  cases hb : σ.module.getTerminator b with
  | none => exact .inl ⟨h, hb⟩
  | some i => exact .inr rfl

theorem Located.rescope {s : Scope} (h : Located Γ ret f b σ) (hs : Binds σ.module Γ' s.inner)
    (hΓ : Γ'.SeesNegIdxExcept) : Located Γ' ret f b { σ with scope := s } :=
  ⟨h.wellTyped, h.insertBlock, h.curFun, h.block, h.parent, h.returnType, hs, hΓ, h.requireLvalue⟩

theorem Ready.rescope {s : Scope} (h : Ready Γ ret f b σ) (hs : Binds σ.module Γ' s.inner)
    (hΓ : Γ'.SeesNegIdxExcept) : Ready Γ' ret f b { σ with scope := s } :=
  ⟨h.toLocated.rescope hs hΓ, h.isOpen⟩

theorem Ready.setTmpVal (h : Ready Γ ret f b σ) (v : Value) :
    Ready Γ ret f b { σ with tmpVal := some v } :=
  ⟨⟨h.wellTyped, h.insertBlock, h.curFun, h.block, h.parent, h.returnType, h.scope, h.sees,
    h.requireLvalue⟩, h.isOpen⟩

theorem Vacant.isOpen (h : Vacant f c σ) : σ.module.getTerminator c = none := by
  simp [Module.getTerminator, h.instrList]

theorem Located.move (h : Located Γ ret f b σ) (hv : Vacant f c σ) :
    Ready Γ ret f c { σ with insertBlock := some c } :=
  ⟨⟨h.wellTyped, rfl, h.curFun, hv.block, hv.parent, h.returnType, h.scope, h.sees,
    h.requireLvalue⟩, hv.isOpen⟩

theorem Passed.move (h : Passed σ₀ σ) (hc : σ₀.module.numBlocks ≤ c) :
    Passed σ₀ { σ with insertBlock := some c } := by
  refine ⟨h.widens, h.instrList, .inr fun x hx => ?_, h.scope, h.preEnterScope⟩
  cases hx
  exact hc

theorem Passed.vacant (h : Passed σ σ') (hv : Vacant f c σ) (hne : σ.insertBlock ≠ some c) :
    Vacant f c σ' where
  block := hv.block.trans_le h.widens.numBlocks
  parent := (h.widens.parent c hv.block).trans hv.parent
  instrList := (h.instrList c hv.block hne).trans hv.instrList

theorem Pending.after (h : Pending f σ₀ c σ) (hp : Passed σ σ') : Pending f σ₀ c σ' :=
  ⟨hp.vacant h.vacant h.apart, hp.apart h.vacant.block h.apart, h.new⟩

theorem Pending.since {σ₁ : BuilderState} (h : Pending f σ₁ c σ) (hw : Widens σ₀.module σ₁.module) :
    Pending f σ₀ c σ :=
  ⟨h.vacant, h.apart, hw.numBlocks.trans h.new⟩

theorem Pending.move (h : Pending f σ₀ c σ) (hne : d ≠ c) :
    Pending f σ₀ c { σ with insertBlock := some d } :=
  ⟨⟨h.vacant.block, h.vacant.parent, h.vacant.instrList⟩,
    fun he => hne (Option.some.inj he), h.new⟩

theorem Gives.after (h : Gives Γ ret f σ ty v σ') (hp : Passed σ₀ σ) :
    Gives Γ ret f σ₀ ty v σ' := by
  obtain ⟨b, hr, hp', ht⟩ := h
  exact ⟨b, hr, hp.trans hp', ht⟩

theorem GivesTmp.after (h : GivesTmp Γ ret f σ ty σ') (hp : Passed σ₀ σ) :
    GivesTmp Γ ret f σ₀ ty σ' := by
  obtain ⟨v, hv, hg⟩ := h
  exact ⟨v, hv, hg.after hp⟩

theorem Gives.setTmpVal (h : Gives Γ ret f σ₀ ty v σ) :
    GivesTmp Γ ret f σ₀ ty { σ with tmpVal := some v } := by
  obtain ⟨b, hr, hp, ht⟩ := h
  exact ⟨v, rfl, b, hr.setTmpVal v, hp.setTmpVal v, ht⟩

theorem Ready.bind (h : Ready Γ ret f b σ) (hp : Passed σ₀ σ) (hΓ : Γ.declare id D = some Γ')
    (hv : Denotes σ.module D v) :
    Introduces Γ' ret f σ₀ { σ with scope := σ.scope.push id v } := by
  refine ⟨⟨b, h.rescope (h.scope.push hΓ hv) ((TypeEnv.declare_extends hΓ).sees h.sees)⟩, ?_, ?_⟩
  · exact ⟨hp.widens, hp.instrList, hp.insertBlock, rfl, hp.preEnterScope⟩
  · exact (CminusfBuilder.tail_push _ _ _).trans (by rw [hp.scope])

theorem Introduces.trans (h : Introduces Γ ret f σ₀ σ) (h' : Introduces Γ' ret f σ σ') :
    Introduces Γ' ret f σ₀ σ' where
  ready := h'.ready
  passed := h.passed.trans (h'.passed.rescope σ₀.scope)
  outer := h'.outer.trans h.outer

/-- The builder after an instruction. -/
theorem Located.append (h : Located Γ ret f b σ) (ht : TypedInstr σ.module ret.ty opId ty ops)
    (ha : Appended σ.module b opId ty ops m') :
    Located Γ ret f b { σ with module := m' } ∧ Passed σ { σ with module := m' } ∧
      HasType m' (.instruction σ.module.numInstrs) ty := by
  have hw := ha.widens
  have hf : f < σ.module.numFunctions := h.parent ▸ h.wellTyped.blocks b h.block
  have hret : (m'.functions f).returnType = ret.ty := (hw.returnType f hf).trans h.returnType
  have hpar : (m'.blocks b).parent = f := (hw.parent b h.block).trans h.parent
  have hb : b < m'.numBlocks := h.block.trans_le hw.numBlocks
  have hnew := ha.new
  refine ⟨⟨?_, h.insertBlock, h.curFun, hb, hpar, hret, h.scope.widen hw, h.sees,
    h.requireLvalue⟩, ⟨hw, fun x _ hne => ?_, .inl rfl, rfl, rfl⟩, ?_, ?_⟩
  · apply h.wellTyped.widen hw
    · intro i hi hlt
      obtain rfl : i = σ.module.numInstrs := by
        have := ha.numInstrs
        omega
      rw [hnew]
      refine ⟨hb, ?_⟩
      dsimp only
      rw [hpar, hret]
      exact ht.widen hw
    · intro x hx hlt
      have := ha.numBlocks
      omega
  · have hx : x ≠ b := fun he => hne (he ▸ h.insertBlock)
    exact (ha.instrList x).trans (by simp [hx])
  · show σ.module.numInstrs < m'.numInstrs
    rw [ha.numInstrs]
    omega
  · simp only [Module.getType, hnew]

/-- An instruction that closes no block. -/
theorem create_gives (h : Ready Γ ret f b σ) (ht : TypedInstr σ.module ret.ty opId ty ops)
    (hop : closes opId = false) :
    ∃ v σ', create opId ty ops σ = some (v, σ') ∧ Gives Γ ret f σ ty v σ' := by
  have ha := createInstruction_appended σ.module b opId ty ops
  obtain ⟨hl, hp, hv⟩ := h.append ht ha
  refine ⟨_, _, create_run h.insertBlock, b, ⟨hl, ?_⟩, hp, hv⟩
  rw [ha.getTerminator, hop]
  rfl

theorem createLoad_gives (h : Ready Γ ret f b σ) (hp : HasType σ.module ptr (.pointer ty)) :
    ∃ v σ', createLoad ptr σ = some (v, σ') ∧ Gives Γ ret f σ ty v σ' := by
  rw [createLoad, bind_run (getType_run hp)]
  exact create_gives h (.load hp) rfl

theorem createGep_gives {idxs : List Value} (h : Ready Γ ret f b σ) (hp : HasType σ.module ptr ty)
    (he : getElementType ty idxs = some elementTy)
    (hi : ∀ idx ∈ idxs, HasType σ.module idx .int32) :
    ∃ v σ', createGep ptr idxs σ = some (v, σ') ∧ Gives Γ ret f σ (.pointer elementTy) v σ' := by
  rw [createGep, bind_run (getType_run hp), he]
  exact create_gives h (.gep hp he hi) rfl

theorem createCall_gives {g : Nat} {args : List Value} (h : Ready Γ ret f b σ)
    (hg : g < σ.module.numFunctions)
    (ha : List.Forall₂ (HasType σ.module) args (σ.module.functions g).paramTypes) :
    ∃ v σ', createCall (.function g) args σ = some (v, σ') ∧
      Gives Γ ret f σ (σ.module.functions g).returnType v σ' := by
  have hrun : createCall (.function g) args σ =
      create .call (σ.module.functions g).returnType (.function g :: args) σ := by
    rw [createCall, bind_run (getModule_run σ)]
    simp only [ha.length_eq.symm, if_true]
  rw [hrun]
  exact create_gives h (.call hg ha) rfl

theorem createRet_ends (h : Ready Γ ret f b σ) (ht : TypedInstr σ.module ret.ty .ret .void ops) :
    ∃ v σ', create .ret .void ops σ = some (v, σ') ∧ Ends Γ ret f σ σ' := by
  have ha := createInstruction_appended σ.module b .ret .void ops
  obtain ⟨hl, hp, -⟩ := h.append ht ha
  refine ⟨_, _, create_run h.insertBlock, b, hl, hp, ?_⟩
  rw [ha.getTerminator]
  rfl

theorem createDefaultRet_ends (h : Ready Γ ret f b σ) :
    ∃ v σ', CminusfBuilder.createDefaultRet σ = some (v, σ') ∧ Ends Γ ret f σ σ' := by
  rw [CminusfBuilder.createDefaultRet, bind_run (getCurFun_run h.curFun),
    bind_run (getModule_run σ), h.returnType]
  cases ret with
  | int => exact createRet_ends h (.ret ⟨trivial, rfl⟩)
  | float => exact createRet_ends h (.ret ⟨trivial, rfl⟩)
  | void => exact createRet_ends h (.retVoid rfl)

theorem createBr_ends (h : Ready Γ ret f b σ) (hc : c < σ.module.numBlocks) :
    ∃ v σ', createBr c σ = some (v, σ') ∧ Ends Γ ret f σ σ' := by
  have ha := (emitted σ.module b .br .void [.basicBlock c]).appended
  obtain ⟨hl, hp, -⟩ := h.append (.br hc) ha
  have hrun : createBr c σ = some (.instruction σ.module.numInstrs,
      { σ with
        module := (link σ.module b (labels [.basicBlock c])).createInstruction .br .void
          [.basicBlock c] b }) := by
    rw [createBr, bind_run (getInsertBlock_run h.insertBlock)]
    exact create_run h.insertBlock
  refine ⟨_, _, hrun, b, hl, hp, ?_⟩
  rw [ha.getTerminator]
  rfl

theorem createCondBr_ends {c' : Nat} (h : Ready Γ ret f b σ) (hv : HasType σ.module v .int1)
    (hc : c < σ.module.numBlocks) (hc' : c' < σ.module.numBlocks) :
    ∃ w σ', createCondBr v c c' σ = some (w, σ') ∧ Ends Γ ret f σ σ' := by
  have ha := (emitted σ.module b .br .void [v, .basicBlock c, .basicBlock c']).appended
  obtain ⟨hl, hp, -⟩ := h.append (.condBr hv hc hc') ha
  have hlabels : labels [v, .basicBlock c, .basicBlock c'] = [c, c'] := by
    have hne : ∀ t, v ≠ .basicBlock t := by
      rintro t rfl
      cases hv.type
    cases v <;> first | rfl | exact absurd rfl (hne _)
  have hrun : createCondBr v c c' σ = some (.instruction σ.module.numInstrs,
      { σ with
        module := (link σ.module b (labels [v, .basicBlock c, .basicBlock c'])).createInstruction
          .br .void [v, .basicBlock c, .basicBlock c'] b }) := by
    rw [createCondBr, bind_run (getInsertBlock_run h.insertBlock), hlabels]
    exact create_run h.insertBlock
  refine ⟨_, _, hrun, b, hl, hp, ?_⟩
  rw [ha.getTerminator]
  rfl

theorem createBasicBlock_vacant (name : String) (f : Nat) :
    Vacant f σ.module.numBlocks { σ with module := σ.module.createBasicBlock name f } := by
  have hnew : (σ.module.createBasicBlock name f).blocks σ.module.numBlocks =
      ⟨(if name.isEmpty then "" else "label_") ++ name, f, [], [], []⟩ :=
    (createBasicBlock_blocks _).trans (if_pos rfl)
  exact ⟨Nat.lt_succ_self _, by rw [hnew], by rw [hnew]⟩

theorem createBasicBlock_ready (h : Ready Γ ret f b σ) (name : String) :
    ∃ σ', createBasicBlock name σ = some (σ.module.numBlocks, σ') ∧ Ready Γ ret f b σ' ∧
      Passed σ σ' ∧ Pending f σ σ.module.numBlocks σ' ∧
      σ'.module.numBlocks = σ.module.numBlocks + 1 := by
  have hw := createBasicBlock_widens σ.module name f
  have hf : f < σ.module.numFunctions := h.parent ▸ h.wellTyped.blocks b h.block
  have hold : ∀ x < σ.module.numBlocks,
      (σ.module.createBasicBlock name f).blocks x = σ.module.blocks x :=
    fun x hx => (createBasicBlock_blocks x).trans (if_neg hx.ne)
  refine ⟨_, createBasicBlock_run h.curFun name, ⟨⟨h.wellTyped.createBasicBlock hf name,
    h.insertBlock, h.curFun, ?_, ?_, ?_, h.scope.widen hw, h.sees, h.requireLvalue⟩, ?_⟩,
    ⟨hw, fun x hx _ => by rw [hold x hx], .inl rfl, rfl, rfl⟩,
    ⟨createBasicBlock_vacant name f, fun he => ?_, le_rfl⟩, rfl⟩
  · exact h.block.trans_le hw.numBlocks
  · exact (hw.parent b h.block).trans h.parent
  · exact (hw.returnType f hf).trans h.returnType
  · exact (getTerminator_of_instrs (congrArg BasicBlock.instrList (hold b h.block))
      fun _ _ => rfl).trans h.isOpen
  · exact h.block.ne (Option.some.inj (h.insertBlock.symm.trans he))

/-- The two blocks of a branch. -/
theorem createBasicBlocks_ready (h : Ready Γ ret f b σ) :
    ∃ σ₁ σ', createBasicBlock "" σ = some (σ.module.numBlocks, σ₁) ∧
      createBasicBlock "" σ₁ = some (σ.module.numBlocks + 1, σ') ∧ Ready Γ ret f b σ' ∧
      Passed σ σ' ∧ Pending f σ σ.module.numBlocks σ' ∧
      Pending f σ (σ.module.numBlocks + 1) σ' := by
  obtain ⟨σ₁, hrun₁, hr₁, hp₁, hc₁, hn₁⟩ := createBasicBlock_ready h ""
  obtain ⟨σ₂, hrun₂, hr₂, hp₂, hc₂, -⟩ := createBasicBlock_ready hr₁ ""
  rw [hn₁] at hrun₂ hc₂
  exact ⟨σ₁, σ₂, hrun₁, hrun₂, hr₂, hp₁.trans hp₂, hc₁.after hp₂, hc₂.since hp₁.widens⟩

end Builder

end Cminusf
