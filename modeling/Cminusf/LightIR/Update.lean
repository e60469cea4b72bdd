import Cminusf.LightIR.Module

/-! What the operations on a module leave unchanged. -/

namespace Cminusf

namespace Module

variable (m : Module) (v u : Value) (opId : OpID) (ty : Ty) (ops : List Value) (b n : Nat)

/-- Two modules that differ in their use lists only. -/
structure SameObjects (m m' : Module) : Prop where
  functions : m'.functions = m.functions
  numFunctions : m'.numFunctions = m.numFunctions
  globals : m'.globals = m.globals
  numGlobals : m'.numGlobals = m.numGlobals
  blocks : m'.blocks = m.blocks
  numBlocks : m'.numBlocks = m.numBlocks
  instrs : m'.instrs = m.instrs
  numInstrs : m'.numInstrs = m.numInstrs

theorem addUse_fold (uses : List (Value × Nat)) (u : Module → Value)
    (hu : ∀ m v w k, u (m.addUse v w k) = u m) :
    SameObjects m (uses.foldl (fun m op => m.addUse op.1 (u m) op.2) m) ∧
      ∀ v, (uses.foldl (fun m op => m.addUse op.1 (u m) op.2) m).useList v =
        m.useList v ++ (uses.filter (·.1 = v)).map fun op => ⟨u m, op.2⟩ := by
  induction uses generalizing m with
  | nil => exact ⟨⟨rfl, rfl, rfl, rfl, rfl, rfl, rfl, rfl⟩, by simp⟩
  | cons op uses ih =>
    obtain ⟨h, hl⟩ := ih (m.addUse op.1 (u m) op.2)
    refine ⟨⟨h.1, h.2, h.3, h.4, h.5, h.6, h.7, h.8⟩, fun v => ?_⟩
    rw [List.foldl_cons, hl, hu]
    by_cases hv : op.1 = v
    · subst hv
      simp [addUse]
    · simp [addUse, hv, Ne.symm hv]

theorem newInstruction_sameObjects :
    SameObjects { m with
      instrs := Function.update m.instrs m.numInstrs ⟨opId, ty, ops, b⟩
      numInstrs := m.numInstrs + 1 } (m.newInstruction opId ty ops b) :=
  (addUse_fold _ ops.zipIdx (fun m => .instruction (m.numInstrs - 1)) (fun _ _ _ _ => rfl)).1

section

@[simp] theorem createInstruction_functions :
    (m.createInstruction opId ty ops b).functions = m.functions :=
  (newInstruction_sameObjects m opId ty ops b).functions

@[simp] theorem createInstruction_numFunctions :
    (m.createInstruction opId ty ops b).numFunctions = m.numFunctions :=
  (newInstruction_sameObjects m opId ty ops b).numFunctions

@[simp] theorem createInstruction_globals :
    (m.createInstruction opId ty ops b).globals = m.globals :=
  (newInstruction_sameObjects m opId ty ops b).globals

@[simp] theorem createInstruction_numGlobals :
    (m.createInstruction opId ty ops b).numGlobals = m.numGlobals :=
  (newInstruction_sameObjects m opId ty ops b).numGlobals

@[simp] theorem createInstruction_numBlocks :
    (m.createInstruction opId ty ops b).numBlocks = m.numBlocks :=
  (newInstruction_sameObjects m opId ty ops b).numBlocks

@[simp] theorem createInstruction_instrs :
    (m.createInstruction opId ty ops b).instrs =
      Function.update m.instrs m.numInstrs ⟨opId, ty, ops, b⟩ :=
  (newInstruction_sameObjects m opId ty ops b).instrs

@[simp] theorem createInstruction_numInstrs :
    (m.createInstruction opId ty ops b).numInstrs = m.numInstrs + 1 :=
  (newInstruction_sameObjects m opId ty ops b).numInstrs

@[simp] theorem createInstruction_blocks :
    (m.createInstruction opId ty ops b).blocks = Function.update m.blocks b
      { m.blocks b with instrList := (m.blocks b).instrList ++ [m.numInstrs] } := by
  simp only [createInstruction, addInstruction, modifyBlock,
    (newInstruction_sameObjects m opId ty ops b).blocks]

theorem createInstruction_useList :
    (m.createInstruction opId ty ops b).useList v =
      m.useList v ++ (ops.zipIdx.filter (·.1 = v)).map fun op => ⟨.instruction m.numInstrs, op.2⟩ :=
  (addUse_fold _ ops.zipIdx (fun m => .instruction (m.numInstrs - 1)) (fun _ _ _ _ => rfl)).2 v

/-- The uses that a new instruction adds. -/
theorem mem_createInstruction_useList {use : Use} :
    use ∈ (m.createInstruction opId ty ops b).useList v ↔
      use ∈ m.useList v ∨ use.val = .instruction m.numInstrs ∧ ops[use.argNo]? = some v := by
  rw [createInstruction_useList, List.mem_append]
  refine or_congr_right ?_
  obtain ⟨w, k⟩ := use
  simp only [List.mem_map, List.mem_filter, List.mem_zipIdx_iff_getElem?, decide_eq_true_eq,
    Prod.exists, Use.mk.injEq]
  constructor
  · rintro ⟨v', k', ⟨h, rfl⟩, rfl, rfl⟩
    exact ⟨rfl, h⟩
  · rintro ⟨rfl, h⟩
    exact ⟨v, k, ⟨h, rfl⟩, rfl, rfl⟩

end

end Module

end Cminusf
