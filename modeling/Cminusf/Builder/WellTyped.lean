import Cminusf.Builder.Visit

/-! Type-correct instructions, and modules that are made of them. -/

namespace Cminusf

namespace Builder

/-- The object is one of the module. -/
def Present (m : Module) : Value → Prop
  | .instruction i => i < m.numInstrs
  | .globalVariable g => g < m.numGlobals
  | .function f => f < m.numFunctions
  | .argument f _ => f < m.numFunctions
  | .basicBlock b => b < m.numBlocks
  | _ => True

structure HasType (m : Module) (v : Value) (ty : Ty) : Prop where
  present : Present m v
  type : m.getType v = ty

/-- The type of the operands and of the result of a binary operation. -/
def operandType : BinaryOp → Ty
  | .add | .sub | .mul | .sdiv => .int32
  | .fadd | .fsub | .fmul | .fdiv => .float

/-- A type-correct instruction of a function that returns a `ret`. -/
inductive TypedInstr (m : Module) (ret : Ty) : OpID → Ty → List Value → Prop where
  | binary {op : BinaryOp} {x y : Value} : HasType m x (operandType op) →
      HasType m y (operandType op) → TypedInstr m ret (.binary op) (operandType op) [x, y]
  | cmp {op : CmpOp} {x y : Value} : HasType m x .int32 → HasType m y .int32 →
      TypedInstr m ret (.cmp op) .int1 [x, y]
  | fcmp {op : CmpOp} {x y : Value} : HasType m x .float → HasType m y .float →
      TypedInstr m ret (.fcmp op) .int1 [x, y]
  | zext {x : Value} : HasType m x .int1 → TypedInstr m ret (.zext .int32) .int32 [x]
  | fptosi {x : Value} : HasType m x .float → TypedInstr m ret (.fptosi .int32) .int32 [x]
  | sitofp {x : Value} : HasType m x .int32 → TypedInstr m ret (.sitofp .float) .float [x]
  | alloca {ty : Ty} : TypedInstr m ret (.alloca ty) (.pointer ty) []
  | load {ty : Ty} {ptr : Value} : HasType m ptr (.pointer ty) → TypedInstr m ret .load ty [ptr]
  | store {ty : Ty} {val ptr : Value} : HasType m val ty → HasType m ptr (.pointer ty) →
      TypedInstr m ret .store .void [val, ptr]
  | gep {ty elementTy : Ty} {ptr : Value} {idxs : List Value} : HasType m ptr ty →
      getElementType ty idxs = some elementTy → (∀ idx ∈ idxs, HasType m idx .int32) →
      TypedInstr m ret (.getelementptr elementTy) (.pointer elementTy) (ptr :: idxs)
  | call {f : Nat} {args : List Value} : f < m.numFunctions →
      List.Forall₂ (HasType m) args (m.functions f).paramTypes →
      TypedInstr m ret .call (m.functions f).returnType (.function f :: args)
  | retVoid : ret = .void → TypedInstr m ret .ret .void []
  | ret {val : Value} : HasType m val ret → TypedInstr m ret .ret .void [val]
  | br {t : Nat} : t < m.numBlocks → TypedInstr m ret .br .void [.basicBlock t]
  | condBr {cond : Value} {t f : Nat} : HasType m cond .int1 → t < m.numBlocks →
      f < m.numBlocks → TypedInstr m ret .br .void [cond, .basicBlock t, .basicBlock f]

/-- Whether an instruction closes its block. -/
def closes : OpID → Bool
  | .br | .ret => true
  | _ => false

/-- Every instruction is type-correct in the function of its block. -/
structure WellTyped (m : Module) : Prop where
  instrs : ∀ i < m.numInstrs, (m.instrs i).parent < m.numBlocks ∧
    TypedInstr m (m.functions (m.blocks (m.instrs i).parent).parent).returnType (m.instrs i).opId
      (m.instrs i).type (m.instrs i).operands
  blocks : ∀ b < m.numBlocks, (m.blocks b).parent < m.numFunctions

/-- What is added to a module; what it has stays. -/
abbrev Widens (m m' : Module) : Prop := Ext m (fun _ => none) m' fun _ => none

section

variable {m m' : Module} {v : Value} {ty ret : Ty} {opId : OpID} {ops : List Value} {b f : Nat}

theorem HasType.widen (h : HasType m v ty) (hw : Widens m m') : HasType m' v ty := by
  obtain ⟨hp, rfl⟩ := h
  cases v with
  | instruction i => exact ⟨hp.trans_le hw.numInstrs, by simp only [Module.getType, hw.instrs i hp]⟩
  | globalVariable g =>
    exact ⟨hp.trans_le hw.numGlobals, by simp only [Module.getType, hw.globals g hp]⟩
  | function f =>
    refine ⟨hp.trans_le hw.numFunctions, ?_⟩
    simp only [Module.getType, hw.returnType f hp, hw.paramTypes f hp]
  | argument f n =>
    exact ⟨hp.trans_le hw.numFunctions, by simp only [Module.getType, hw.paramTypes f hp]⟩
  | basicBlock b => exact ⟨hp.trans_le hw.numBlocks, rfl⟩
  | _ => exact ⟨trivial, rfl⟩

theorem hasType_constInt (n : BitVec 32) : HasType m (.constInt n) .int32 := ⟨trivial, rfl⟩

theorem hasType_constFP (x : BitVec 32) : HasType m (.constFP x) .float := ⟨trivial, rfl⟩

theorem TypedInstr.widen (h : TypedInstr m ret opId ty ops) (hw : Widens m m') :
    TypedInstr m' ret opId ty ops := by
  cases h with
  | binary hx hy => exact .binary (hx.widen hw) (hy.widen hw)
  | cmp hx hy => exact .cmp (hx.widen hw) (hy.widen hw)
  | fcmp hx hy => exact .fcmp (hx.widen hw) (hy.widen hw)
  | zext hx => exact .zext (hx.widen hw)
  | fptosi hx => exact .fptosi (hx.widen hw)
  | sitofp hx => exact .sitofp (hx.widen hw)
  | alloca => exact .alloca
  | load hp => exact .load (hp.widen hw)
  | store hv hp => exact .store (hv.widen hw) (hp.widen hw)
  | gep hp he hi => exact .gep (hp.widen hw) he fun idx hidx => (hi idx hidx).widen hw
  | call hf ha =>
    rw [← hw.returnType _ hf]
    apply TypedInstr.call (hf.trans_le hw.numFunctions)
    rw [hw.paramTypes _ hf]
    exact ha.imp fun _ _ h => h.widen hw
  | retVoid hr => exact .retVoid hr
  | ret hx => exact .ret (hx.widen hw)
  | br ht => exact .br (ht.trans_le hw.numBlocks)
  | condBr hc ht hf =>
    exact .condBr (hc.widen hw) (ht.trans_le hw.numBlocks) (hf.trans_le hw.numBlocks)

/-- What is added must be type-correct itself. -/
theorem WellTyped.widen (h : WellTyped m) (hw : Widens m m')
    (hi : ∀ i, m.numInstrs ≤ i → i < m'.numInstrs → (m'.instrs i).parent < m'.numBlocks ∧
      TypedInstr m' (m'.functions (m'.blocks (m'.instrs i).parent).parent).returnType
        (m'.instrs i).opId (m'.instrs i).type (m'.instrs i).operands)
    (hb : ∀ b, m.numBlocks ≤ b → b < m'.numBlocks → (m'.blocks b).parent < m'.numFunctions) :
    WellTyped m' := by
  constructor
  · intro i hlt
    by_cases hold : i < m.numInstrs
    · obtain ⟨hp, ht⟩ := h.instrs i hold
      rw [hw.instrs i hold, hw.parent _ hp, hw.returnType _ (h.blocks _ hp)]
      exact ⟨hp.trans_le hw.numBlocks, ht.widen hw⟩
    · exact hi i (by omega) hlt
  · intro b hlt
    by_cases hold : b < m.numBlocks
    · rw [hw.parent b hold]
      exact (h.blocks b hold).trans_le hw.numFunctions
    · exact hb b (by omega) hlt

/-- The module after an instruction has been put at the end of a block. -/
structure Appended (m : Module) (b : Nat) (opId : OpID) (ty : Ty) (ops : List Value)
    (m' : Module) : Prop where
  functions : m'.functions = m.functions
  numFunctions : m'.numFunctions = m.numFunctions
  globals : m'.globals = m.globals
  numGlobals : m'.numGlobals = m.numGlobals
  numBlocks : m'.numBlocks = m.numBlocks
  instrs : m'.instrs = Function.update m.instrs m.numInstrs ⟨opId, ty, ops, b⟩
  numInstrs : m'.numInstrs = m.numInstrs + 1
  parent : ∀ x, (m'.blocks x).parent = (m.blocks x).parent
  instrList : ∀ x, (m'.blocks x).instrList =
    (m.blocks x).instrList ++ if x = b then [m.numInstrs] else []

theorem createInstruction_appended (m : Module) (b : Nat) (opId : OpID) (ty : Ty)
    (ops : List Value) : Appended m b opId ty ops (m.createInstruction opId ty ops b) := by
  refine ⟨by simp, by simp, by simp, by simp, by simp, by simp, by simp, fun x => ?_, fun x => ?_⟩
  · rw [Module.createInstruction_blocks]
    by_cases hx : x = b <;> simp [hx]
  · rw [Module.createInstruction_blocks]
    by_cases hx : x = b <;> simp [hx]

theorem Emitted.appended (h : Emitted m b opId ty ops m') : Appended m b opId ty ops m' :=
  ⟨h.functions, h.numFunctions, h.globals, h.numGlobals, h.numBlocks, h.instrs, h.numInstrs,
    h.parent, h.instrList⟩

theorem Appended.widens (h : Appended m b opId ty ops m') : Widens m m' where
  numFunctions := h.numFunctions.ge
  numGlobals := h.numGlobals.ge
  numBlocks := h.numBlocks.ge
  numInstrs := by rw [h.numInstrs]; omega
  instrs i hi := by rw [h.instrs, Function.update_of_ne (by omega)]
  globals g _ := by rw [h.globals]
  returnType f _ := by rw [h.functions]
  paramTypes f _ := by rw [h.functions]
  parent x _ := h.parent x
  origin _ _ := rfl

theorem Appended.new (h : Appended m b opId ty ops m') :
    m'.instrs m.numInstrs = ⟨opId, ty, ops, b⟩ := by
  rw [h.instrs, Function.update_self]

/-- The block is closed by a branch or a return. -/
theorem Appended.getTerminator (h : Appended m b opId ty ops m') :
    m'.getTerminator b = if closes opId then some m.numInstrs else none := by
  have hlist := h.instrList b
  rw [if_pos rfl] at hlist
  simp only [Module.getTerminator, hlist, List.getLast?_concat, h.new, Instruction.isTerminator,
    Instruction.isBr, Instruction.isRet]
  cases opId <;> rfl

theorem createBasicBlock_widens (m : Module) (name : String) (f : Nat) :
    Widens m (m.createBasicBlock name f) := by
  have h := createBasicBlock_ext m (fun _ => none) name f none
  rwa [Function.update_eq_self_iff.mpr rfl] at h

theorem WellTyped.createBasicBlock (h : WellTyped m) (hf : f < m.numFunctions)
    (name : String) : WellTyped (m.createBasicBlock name f) := by
  apply h.widen (createBasicBlock_widens m name f)
  · intro i hi hlt
    exact absurd hlt (Nat.not_lt.mpr hi)
  · intro x hx hlt
    obtain rfl : x = m.numBlocks := Nat.le_antisymm (Nat.lt_succ_iff.mp hlt) hx
    rw [createBasicBlock_blocks, if_pos rfl]
    exact hf

end

end Builder

end Cminusf
