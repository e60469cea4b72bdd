import Cminusf.Optimization.Dominators

/-! The pass `Mem2Reg`. A vector of `var_val_stack` is kept with its back first; a key
that was never inserted reads as `none`. -/

namespace Cminusf

/-- `var_val_stack`. -/
abbrev VarValStack := Value → Option (List Value)

/-- `var_val_stack[l_val].push_back(val)`. -/
def VarValStack.push (stack : VarValStack) (lVal val : Value) : VarValStack :=
  Function.update stack lVal (some (val :: (stack lVal).getD []))

/-- `var_val_stack[l_val].pop_back()`. -/
def VarValStack.pop (stack : VarValStack) (lVal : Value) : Exec VarValStack :=
  match stack lVal with
  | some (_ :: vals) => return Function.update stack lVal (some vals)
  | _ => throw .undefinedBehaviour

/-- What the loops of `re_name` change. -/
structure Mem2Reg where
  module : Module
  varValStack : VarValStack

/-- `IS_GEP_INSTR`. -/
def Module.isGepInstr (m : Module) : Value → Bool
  | .instruction i => (m.instrs i).isGep
  | _ => false

namespace Mem2Reg

/-- `!IS_GLOBAL_VARIABLE(l_val) && !IS_GEP_INSTR(l_val)`. -/
def isLocal (m : Module) (lVal : Value) : Bool := !lVal.isGlobalVariable && !m.isGepInstr lVal

/-- The local address that instruction `i` loads from. -/
def loadedVar (m : Module) (i : Nat) : Option Value :=
  if (m.instrs i).isLoad then ((m.instrs i).getOperand 0).filter (isLocal m) else none

/-- The local address that instruction `i` stores to. -/
def storedVar (m : Module) (i : Nat) : Option Value :=
  if (m.instrs i).isStore then ((m.instrs i).getOperand 1).filter (isLocal m) else none

/-- `get_lval` of a phi. -/
def phiVar (m : Module) (i : Nat) : Option Value :=
  match (m.instrs i).opId with
  | .phi lVal => some lVal
  | _ => none

/-- `global_live_var_name`. -/
def globalLiveVarName (m : Module) (addr : Value → Nat) (blocks : List Nat) : List Value :=
  ptrSet addr (blocks.flatMap fun bb => (m.blocks bb).instrList.filterMap (storedVar m))

/-- `live_var_2blocks[var]`. -/
def liveVar2Blocks (m : Module) (addr : Value → Nat) (blocks : List Nat) (var : Value) : List Nat :=
  ptrSet (fun bb => addr (.basicBlock bb))
    (blocks.filter fun bb => var ∈ (m.blocks bb).instrList.filterMap (storedVar m))

/-- The state of step 2 of `generate_phi`. -/
structure PhiState where
  module : Module
  bbHasVarPhi : List (Nat × Value)

/-- `create_phi`, `set_lval` and `add_instr_begin`. -/
def PhiState.createPhi (s : PhiState) (var : Value) (ty : Ty) (bb : Nat) : PhiState where
  module := (s.module.newInstruction (.phi var) ty [] bb).addInstrBegin bb s.module.numInstrs
  bbHasVarPhi := (bb, var) :: s.bbHasVarPhi

/-- The loop over the dominance frontier of one block; returns the new work. -/
def placePhis (var : Value) (ty : Ty) (s : PhiState) : List Nat → PhiState × List Nat
  | [] => (s, [])
  | bb :: frontier =>
    if (bb, var) ∈ s.bbHasVarPhi then placePhis var ty s frontier
    else
      let (s, work) := placePhis var ty (s.createPhi var ty bb) frontier
      (s, bb :: work)

/-- The loop over `work_list`. -/
def placeVar (d : Dominators) (var : Value) (ty : Ty) : Nat → List Nat → PhiState → Exec PhiState
  | _, [], s => return s
  | 0, _ :: _, _ => throw .outOfFuel
  | fuel + 1, bb :: workList, s =>
    let (s, work) := placePhis var ty s (d.domFrontier (some bb))
    placeVar d var ty fuel (workList ++ work) s

/-- The type of a phi; the `nullptr` of an address that is no pointer is given as `void`. -/
def phiType (m : Module) (var : Value) : Ty := (m.getType var).pointerElementType.getD .void

def generatePhi (addr : Value → Nat) (d : Dominators) (fuel : Nat) (blocks : List Nat) (m : Module) :
    Exec Module := do
  let s ← (globalLiveVarName m addr blocks).foldlM
    (fun s var => placeVar d var (phiType m var) fuel (liveVar2Blocks m addr blocks var) s)
    ⟨m, []⟩
  return s.module

/-- Step 3 of `re_name`. -/
def pushPhi (s : Mem2Reg) (i : Nat) : Mem2Reg :=
  match phiVar s.module i with
  | some lVal => { s with varValStack := s.varValStack.push lVal (.instruction i) }
  | none => s

/-- Steps 4 and 5 of `re_name` for one instruction, with `wait_delete`. -/
def renameInstr (s : Mem2Reg × List Nat) (i : Nat) : Exec (Mem2Reg × List Nat) := do
  let (s, waitDelete) := s
  match loadedVar s.module i, storedVar s.module i with
  | some lVal, _ =>
    match s.varValStack lVal with
    | none => return (s, waitDelete)
    | some [] => throw .undefinedBehaviour
    | some (val :: _) =>
      -- a load replaced by itself would append to the use list that is being read
      if val = .instruction i then throw .outOfFuel
      else
        let m := s.module.replaceAllUseWith (.instruction i) val
        return ({ s with module := m }, waitDelete ++ [i])
  | none, some lVal =>
    match (s.module.instrs i).getOperand 0 with
    | none => throw .undefinedBehaviour
    | some rVal => return ({ s with varValStack := s.varValStack.push lVal rVal }, waitDelete ++ [i])
  | none, none => return (s, waitDelete)

/-- Step 6 of `re_name` for one instruction of a successor of `bb`. -/
def completePhi (bb : Nat) (s : Mem2Reg) (i : Nat) : Exec Mem2Reg :=
  match phiVar s.module i with
  | none => return s
  | some lVal =>
    match s.varValStack lVal with
    | none => return s
    | some [] => throw .assertion
    | some (val :: _) =>
      let m := s.module.addOperand (.instruction i) val
      return { s with module := m.addOperand (.instruction i) (.basicBlock bb) }

/-- Step 8 of `re_name` for one instruction. -/
def popInstr (m : Module) (stack : VarValStack) (i : Nat) : Exec VarValStack :=
  match storedVar m i, phiVar m i with
  | some lVal, _ => stack.pop lVal
  | none, some lVal => if (stack lVal).isSome then stack.pop lVal else return stack
  | none, none => return stack

/-- `erase_instr` for the instructions of `wait_delete`. -/
def eraseInstrs (m : Module) (bb : Nat) (waitDelete : List Nat) : Module :=
  waitDelete.foldl (fun m i => m.eraseInstr bb i) m

def reName (d : Dominators) : Nat → Nat → Mem2Reg → Exec Mem2Reg
  | 0, _, _ => throw .outOfFuel
  | fuel + 1, bb, s => do
    let s := (s.module.blocks bb).instrList.foldl pushPhi s
    let (s, waitDelete) ← (s.module.blocks bb).instrList.foldlM renameInstr (s, [])
    let s ← (s.module.blocks bb).succBbs.foldlM
      (fun s succ => (s.module.blocks succ).instrList.foldlM (completePhi bb) s) s
    let s ← (d.domTreeSuccBlocks (some bb)).foldlM (fun s succ => reName d fuel succ s) s
    let varValStack ← (s.module.blocks bb).instrList.foldlM (popInstr s.module) s.varValStack
    return ⟨eraseInstrs s.module bb waitDelete, varValStack⟩

/-- The instructions that `remove_alloca` erases. -/
def isScalarAlloca (m : Module) (i : Nat) : Bool :=
  match (m.instrs i).opId, (m.instrs i).type.pointerElementType with
  | .alloca _, some ty => ty.isInteger || ty.isFloat
  | _, _ => false

def removeAlloca (blocks : List Nat) (m : Module) : Module :=
  blocks.foldl (fun m bb => eraseInstrs m bb ((m.blocks bb).instrList.filter (isScalarAlloca m))) m

/-- The body of the loop of `run`. -/
def runOnFunction (addr : Value → Nat) (d : Dominators) (fuel : Nat) (s : Mem2Reg) (f : Nat) :
    Exec Mem2Reg :=
  match (s.module.functions f).basicBlocks with
  | [] => return s
  | entry :: blocks => do
    let m ← generatePhi addr d fuel (entry :: blocks) s.module
    let s ← reName d fuel entry { s with module := m }
    return { s with module := removeAlloca (entry :: blocks) s.module }

/-- `run` on a module for which `var_val_stack` is still empty. -/
def run (m : Module) (addr : Value → Nat) (fuel : Nat) : Exec Module := do
  let d ← Dominators.run m (fun bb => addr (.basicBlock bb)) fuel
  let s ← (List.range m.numFunctions).foldlM (runOnFunction addr d fuel) ⟨m, fun _ => none⟩
  return s.module

end Mem2Reg

end Cminusf
