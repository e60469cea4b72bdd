import Cminusf.LightIR.Type
import Mathlib.Data.List.Basic

/-! The object graph of LightIR. Objects are numbered in the order in which they
are allocated, a pointer is the number of its object, and the fields that the
passes mutate (instruction lists, operands, use lists, predecessors) are kept in
maps from numbers. -/

namespace Cminusf

/-- What a `Value *` points to. Constants are interned, so they are given by
their contents; a `float` is given by its bit pattern. One that is no number is equal to no key
of `cached_float`, so each request for it makes a constant of its own, which gets a number. -/
inductive Value where
  | constInt (value : BitVec 32)
  | constBool (value : Bool)
  | constFP (value : BitVec 32)
  | constNaN (value : BitVec 32) (made : Nat)
  | constZero (ty : Ty)
  | globalVariable (g : Nat)
  | function (f : Nat)
  | argument (f argNo : Nat)
  | basicBlock (b : Nat)
  | instruction (i : Nat)
deriving DecidableEq

/-- `dynamic_cast<Constant *>`. -/
def Value.isConstant : Value → Bool
  | .constInt _ | .constBool _ | .constFP _ | .constNaN _ _ | .constZero _ => true
  | _ => false

/-- `IS_GLOBAL_VARIABLE`. -/
def Value.isGlobalVariable : Value → Bool
  | .globalVariable _ => true
  | _ => false

inductive BinaryOp where
  | add | sub | mul | sdiv | fadd | fsub | fmul | fdiv
deriving DecidableEq

inductive CmpOp where
  | eq | ne | gt | ge | lt | le
deriving DecidableEq

/-- `Instruction::OpID` with the fields of the instruction's class. -/
inductive OpID where
  | ret
  | br
  | binary (op : BinaryOp)
  | alloca (allocaTy : Ty)
  | load
  | store
  | cmp (op : CmpOp)
  | fcmp (op : CmpOp)
  | phi (lVal : Value)
  | call
  | getelementptr (elementTy : Ty)
  | zext (destTy : Ty)
  | fptosi (destTy : Ty)
  | sitofp (destTy : Ty)
deriving DecidableEq

structure Instruction where
  opId : OpID
  type : Ty
  operands : List Value
  parent : Nat

namespace Instruction

def isRet (i : Instruction) : Bool := match i.opId with | .ret => true | _ => false
def isBr (i : Instruction) : Bool := match i.opId with | .br => true | _ => false
def isAlloca (i : Instruction) : Bool := match i.opId with | .alloca _ => true | _ => false
def isLoad (i : Instruction) : Bool := match i.opId with | .load => true | _ => false
def isStore (i : Instruction) : Bool := match i.opId with | .store => true | _ => false
def isPhi (i : Instruction) : Bool := match i.opId with | .phi _ => true | _ => false
def isCall (i : Instruction) : Bool := match i.opId with | .call => true | _ => false
def isGep (i : Instruction) : Bool := match i.opId with | .getelementptr _ => true | _ => false
def isTerminator (i : Instruction) : Bool := i.isBr || i.isRet

/-- `get_operand`; an index out of range is undefined behaviour. -/
def getOperand (i : Instruction) (n : Nat) : Option Value := i.operands[n]?

end Instruction

/-- A use: the user and the position of the used value among its operands. -/
structure Use where
  val : Value
  argNo : Nat
deriving DecidableEq

structure BasicBlock where
  name : String
  parent : Nat
  instrList : List Nat
  preBbs : List Nat
  succBbs : List Nat

structure Function where
  name : String
  returnType : Ty
  paramTypes : List Ty
  basicBlocks : List Nat

def Function.isDeclaration (f : Function) : Bool := f.basicBlocks.isEmpty

/-- `valueType` is the pointee type; the only operand is the initializer. -/
structure GlobalVariable where
  name : String
  valueType : Ty
  operands : List Value

structure Module where
  functions : Nat → Function
  numFunctions : Nat
  globals : Nat → GlobalVariable
  numGlobals : Nat
  blocks : Nat → BasicBlock
  numBlocks : Nat
  instrs : Nat → Instruction
  numInstrs : Nat
  useList : Value → List Use

namespace Module

/-- A module without functions, as its constructor leaves it. -/
def empty : Module where
  functions _ := ⟨"", .void, [], []⟩
  numFunctions := 0
  globals _ := ⟨"", .void, []⟩
  numGlobals := 0
  blocks _ := ⟨"", 0, [], [], []⟩
  numBlocks := 0
  instrs _ := ⟨.ret, .void, [], 0⟩
  numInstrs := 0
  useList _ := []

def getType (m : Module) : Value → Ty
  | .constInt _ => .int32
  | .constBool _ => .int1
  | .constFP _ | .constNaN _ _ => .float
  | .constZero ty => ty
  | .globalVariable g => .pointer (m.globals g).valueType
  | .function f => .function (m.functions f).returnType (m.functions f).paramTypes
  | .argument f n => (m.functions f).paramTypes.getD n .void
  | .basicBlock _ => .label
  | .instruction i => (m.instrs i).type

/-- `User::get_operands`; only instructions and global variables are users. -/
def operands (m : Module) : Value → List Value
  | .globalVariable g => (m.globals g).operands
  | .instruction i => (m.instrs i).operands
  | _ => []

def setOperands (m : Module) (u : Value) (ops : List Value) : Module :=
  match u with
  | .globalVariable g =>
    { m with globals := Function.update m.globals g { m.globals g with operands := ops } }
  | .instruction i =>
    { m with instrs := Function.update m.instrs i { m.instrs i with operands := ops } }
  | _ => m

/-- `Value::add_use`. -/
def addUse (m : Module) (v u : Value) (argNo : Nat) : Module :=
  { m with useList := Function.update m.useList v (m.useList v ++ [⟨u, argNo⟩]) }

/-- `Value::remove_use`. -/
def removeUse (m : Module) (v u : Value) : Module :=
  { m with useList := Function.update m.useList v ((m.useList v).filter (·.val ≠ u)) }

/-- `User::set_operand`; the old operand keeps its use. -/
def setOperand (m : Module) (u : Value) (i : Nat) (v : Value) : Module :=
  (m.setOperands u ((m.operands u).set i v)).addUse v u i

/-- `User::add_operand`. -/
def addOperand (m : Module) (u v : Value) : Module :=
  (m.setOperands u (m.operands u ++ [v])).addUse v u (m.operands u).length

/-- `User::remove_use_of_ops`. -/
def removeUseOfOps (m : Module) (u : Value) : Module :=
  (m.operands u).foldl (fun m op => m.removeUse op u) m

/-- `Value::replace_all_use_with`. -/
def replaceAllUseWith (m : Module) (v new : Value) : Module :=
  let m' := (m.useList v).foldl (fun m use => m.setOperand use.val use.argNo new) m
  { m' with useList := Function.update m'.useList v [] }

def modifyBlock (m : Module) (b : Nat) (f : BasicBlock → BasicBlock) : Module :=
  { m with blocks := Function.update m.blocks b (f (m.blocks b)) }

def addInstruction (m : Module) (b i : Nat) : Module :=
  m.modifyBlock b fun bb => { bb with instrList := bb.instrList ++ [i] }

def addInstrBegin (m : Module) (b i : Nat) : Module :=
  m.modifyBlock b fun bb => { bb with instrList := i :: bb.instrList }

/-- `BasicBlock::erase_instr`. -/
def eraseInstr (m : Module) (b i : Nat) : Module :=
  (m.removeUseOfOps (.instruction i)).modifyBlock b fun bb =>
    { bb with instrList := bb.instrList.filter (· ≠ i) }

def addPreBasicBlock (m : Module) (b pre : Nat) : Module :=
  m.modifyBlock b fun bb => { bb with preBbs := bb.preBbs ++ [pre] }

def addSuccBasicBlock (m : Module) (b succ : Nat) : Module :=
  m.modifyBlock b fun bb => { bb with succBbs := bb.succBbs ++ [succ] }

/-- `BasicBlock::get_terminator`. -/
def getTerminator (m : Module) (b : Nat) : Option Nat :=
  match (m.blocks b).instrList.getLast? with
  | some i => if (m.instrs i).isTerminator then some i else none
  | none => none

/-- Allocates an instruction; its constructor sets the operands one by one. -/
def newInstruction (m : Module) (opId : OpID) (ty : Ty) (ops : List Value) (parent : Nat) : Module :=
  let m' := { m with
    instrs := Function.update m.instrs m.numInstrs ⟨opId, ty, ops, parent⟩
    numInstrs := m.numInstrs + 1 }
  ops.zipIdx.foldl (fun m op => m.addUse op.1 (.instruction (m.numInstrs - 1)) op.2) m'

/-- Allocates an instruction at the end of a block. -/
def createInstruction (m : Module) (opId : OpID) (ty : Ty) (ops : List Value) (b : Nat) : Module :=
  (m.newInstruction opId ty ops b).addInstruction b m.numInstrs

/-- `BasicBlock::create`. -/
def createBasicBlock (m : Module) (name : String) (f : Nat) : Module :=
  { m with
    blocks := Function.update m.blocks m.numBlocks
      ⟨(if name.isEmpty then "" else "label_") ++ name, f, [], [], []⟩
    numBlocks := m.numBlocks + 1
    functions := Function.update m.functions f
      { m.functions f with basicBlocks := (m.functions f).basicBlocks ++ [m.numBlocks] } }

/-- `Function::create`. -/
def createFunction (m : Module) (name : String) (returnType : Ty) (paramTypes : List Ty) : Module :=
  { m with
    functions := Function.update m.functions m.numFunctions ⟨name, returnType, paramTypes, []⟩
    numFunctions := m.numFunctions + 1 }

/-- `GlobalVariable::create`. -/
def createGlobalVariable (m : Module) (name : String) (ty : Ty) (init : Value) : Module :=
  { m with
    globals := Function.update m.globals m.numGlobals ⟨name, ty, [init]⟩
    numGlobals := m.numGlobals + 1 }.addUse init (.globalVariable m.numGlobals) 0

end Module

end Cminusf
