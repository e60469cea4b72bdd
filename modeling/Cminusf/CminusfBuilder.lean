import Cminusf.Ast
import Cminusf.LightIR.Module

/-! `IRBuilder`, `Scope` and the visitors of `CminusfBuilder`. The globals of the
visitor are fields of the state; `none` is a failed assertion or the use of a null
pointer. -/

namespace Cminusf

/-- The scopes from the innermost one outwards. -/
structure Scope where
  inner : List (List (String × Value))

namespace Scope

def enter (s : Scope) : Scope := ⟨[] :: s.inner⟩

def exit (s : Scope) : Scope := ⟨s.inner.tail⟩

def inGlobal (s : Scope) : Bool := s.inner.length == 1

/-- `std::map::insert` keeps the value of a name that is already bound. -/
def push (s : Scope) (name : String) (val : Value) : Scope :=
  match s.inner with
  | [] => s
  | top :: rest => if (top.lookup name).isSome then s else ⟨((name, val) :: top) :: rest⟩

def find (s : Scope) (name : String) : Option Value := s.inner.findSome? (·.lookup name)

end Scope

structure BuilderState where
  module : Module
  insertBlock : Option Nat
  scope : Scope
  tmpVal : Option Value
  requireLvalue : Bool
  curFun : Option Nat
  preEnterScope : Bool

abbrev Builder := StateT BuilderState Option

namespace Builder

def getModule : Builder Module := return (← get).module
def setModule (m : Module) : Builder Unit := modify fun s => { s with module := m }

def getInsertBlock : Builder Nat := fun s => s.insertBlock.map (·, s)
def setInsertPoint (bb : Nat) : Builder Unit := modify fun s => { s with insertBlock := some bb }

def getTmpVal : Builder Value := fun s => s.tmpVal.map (·, s)
def setTmpVal (v : Value) : Builder Unit := modify fun s => { s with tmpVal := some v }

def getCurFun : Builder Nat := fun s => s.curFun.map (·, s)
def setRequireLvalue (b : Bool) : Builder Unit := modify fun s => { s with requireLvalue := b }
def setPreEnterScope (b : Bool) : Builder Unit := modify fun s => { s with preEnterScope := b }
def modifyScope (f : Scope → Scope) : Builder Unit := modify fun s => { s with scope := f s.scope }

def getType (v : Value) : Builder Ty := return (← getModule).getType v

/-- Creates an instruction at the insert point. -/
def create (opId : OpID) (ty : Ty) (ops : List Value) : Builder Value := do
  let bb ← getInsertBlock
  let m ← getModule
  setModule (m.createInstruction opId ty ops bb)
  return .instruction m.numInstrs

def createBasicBlock (name : String) : Builder Nat := do
  let f ← getCurFun
  let m ← getModule
  setModule (m.createBasicBlock name f)
  return m.numBlocks

def createIadd (lhs rhs : Value) : Builder Value := create (.binary .add) .int32 [lhs, rhs]
def createIsub (lhs rhs : Value) : Builder Value := create (.binary .sub) .int32 [lhs, rhs]
def createImul (lhs rhs : Value) : Builder Value := create (.binary .mul) .int32 [lhs, rhs]
def createIsdiv (lhs rhs : Value) : Builder Value := create (.binary .sdiv) .int32 [lhs, rhs]
def createFadd (lhs rhs : Value) : Builder Value := create (.binary .fadd) .float [lhs, rhs]
def createFsub (lhs rhs : Value) : Builder Value := create (.binary .fsub) .float [lhs, rhs]
def createFmul (lhs rhs : Value) : Builder Value := create (.binary .fmul) .float [lhs, rhs]
def createFdiv (lhs rhs : Value) : Builder Value := create (.binary .fdiv) .float [lhs, rhs]
def createIcmp (op : CmpOp) (lhs rhs : Value) : Builder Value := create (.cmp op) .int1 [lhs, rhs]
def createFcmp (op : CmpOp) (lhs rhs : Value) : Builder Value := create (.fcmp op) .int1 [lhs, rhs]
def createZext (val : Value) (ty : Ty) : Builder Value := create (.zext ty) ty [val]
def createFptosi (val : Value) (ty : Ty) : Builder Value := create (.fptosi ty) ty [val]
def createSitofp (val : Value) (ty : Ty) : Builder Value := create (.sitofp ty) ty [val]
def createAlloca (ty : Ty) : Builder Value := create (.alloca ty) (.pointer ty) []
def createStore (val ptr : Value) : Builder Value := create .store .void [val, ptr]
def createRet (val : Value) : Builder Value := create .ret .void [val]
def createVoidRet : Builder Value := create .ret .void []

def createLoad (ptr : Value) : Builder Value := do
  match ← getType ptr with
  | .pointer ty => create .load ty [ptr]
  | _ => failure

/-- `GetElementPtrInst::get_element_type`: one array level for each index after the first. -/
def elementTypeOfArray : Ty → Nat → Option Ty
  | ty, 0 => some ty
  | .array ty _, n + 1 => elementTypeOfArray ty n
  | _, _ + 1 => none

def getElementType (ptrTy : Ty) (idxs : List Value) : Option Ty :=
  match ptrTy with
  | .pointer ty =>
    if ty.isArray then elementTypeOfArray ty (idxs.length - 1)
    else if ty.isInteger || ty.isFloat then some ty else none
  | _ => none

def createGep (ptr : Value) (idxs : List Value) : Builder Value := do
  let ty ← getType ptr
  match getElementType ty idxs with
  | some elementTy => create (.getelementptr elementTy) (.pointer elementTy) (ptr :: idxs)
  | none => failure

/-- `create_call`: the callee must be a function and take as many arguments. -/
def createCall (func : Value) (args : List Value) : Builder Value := do
  let m ← getModule
  match func with
  | .function f =>
    if (m.functions f).paramTypes.length = args.length then
      create .call (m.functions f).returnType (func :: args)
    else failure
  | _ => failure

/-- `BranchInst::create_br`. -/
def createBr (ifTrue : Nat) : Builder Value := do
  let bb ← getInsertBlock
  let m ← getModule
  setModule ((m.addPreBasicBlock ifTrue bb).addSuccBasicBlock bb ifTrue)
  create .br .void [.basicBlock ifTrue]

/-- `BranchInst::create_cond_br`. -/
def createCondBr (cond : Value) (ifTrue ifFalse : Nat) : Builder Value := do
  let bb ← getInsertBlock
  let m ← getModule
  setModule ((((m.addPreBasicBlock ifTrue bb).addPreBasicBlock ifFalse bb).addSuccBasicBlock
    bb ifFalse).addSuccBasicBlock bb ifTrue)
  create .br .void [cond, .basicBlock ifTrue, .basicBlock ifFalse]

/-- Whether the block at the insert point has a terminator. -/
def terminated : Builder Bool := do
  let bb ← getInsertBlock
  return ((← getModule).getTerminator bb).isSome

end Builder

namespace CminusfBuilder

open Builder

def promote (lVal rVal : Value) : Builder (Bool × Value × Value) := do
  let lTy ← getType lVal
  let rTy ← getType rVal
  if lTy = rTy then return (lTy.isInteger, lVal, rVal)
  else if lTy.isInteger then return (false, ← createSitofp lVal .float, rVal)
  else return (false, lVal, ← createSitofp rVal .float)

def createRelation (op : RelOp) (isInt : Bool) (lVal rVal : Value) : Builder Value :=
  let cmpOp : CmpOp := match op with
    | .lt => .lt
    | .le => .le
    | .ge => .ge
    | .gt => .gt
    | .eq => .eq
    | .neq => .ne
  if isInt then createIcmp cmpOp lVal rVal else createFcmp cmpOp lVal rVal

def createAdditive (op : AddOp) (isInt : Bool) (lVal rVal : Value) : Builder Value :=
  match op with
  | .plus => if isInt then createIadd lVal rVal else createFadd lVal rVal
  | .minus => if isInt then createIsub lVal rVal else createFsub lVal rVal

def createMultiplicative (op : MulOp) (isInt : Bool) (lVal rVal : Value) : Builder Value :=
  match op with
  | .mul => if isInt then createImul lVal rVal else createFmul lVal rVal
  | .div => if isInt then createIsdiv lVal rVal else createFdiv lVal rVal

/-- `ret` of the default value of the current function's return type. -/
def createDefaultRet : Builder Value := do
  let f ← getCurFun
  let retTy := ((← getModule).functions f).returnType
  if retTy.isVoid then createVoidRet
  else if retTy.isFloat then createRet (.constFP 0)
  else createRet (.constInt 0)

/-- The start of `visit(ASTVar)`: the variable, its pointee type, and `require_lvalue`. -/
def enterVar (id : String) : Builder (Value × Ty × Bool) := do
  match (← get).scope.find id with
  | none => failure
  | some var =>
    match (← getType var).pointerElementType with
    | none => failure
    | some elementTy =>
      let shouldReturnLvalue := (← get).requireLvalue
      setRequireLvalue false
      return (var, elementTy, shouldReturnLvalue)

/-- `visit(ASTVar)` without a subscript. -/
def visitScalar (var : Value) (elementTy : Ty) (shouldReturnLvalue : Bool) : Builder Unit := do
  if shouldReturnLvalue then
    setTmpVal var
    setRequireLvalue false
  else if elementTy.isInteger || elementTy.isFloat || elementTy.isPointer then
    setTmpVal (← createLoad var)
  else
    setTmpVal (← createGep var [.constInt 0, .constInt 0])

/-- The subscript in `visit(ASTVar)`, as an integer. -/
def toIndex (val : Value) : Builder Value := do
  if (← getType val).isFloat then createFptosi val .int32 else return val

/-- The address of an element in `visit(ASTVar)`. -/
def createElementPtr (var : Value) (elementTy : Ty) (val : Value) : Builder Value :=
  if elementTy.isInteger || elementTy.isFloat then createGep var [val]
  else if elementTy.isPointer then do
    let arrayLoad ← createLoad var
    createGep arrayLoad [val]
  else createGep var [.constInt 0, val]

/-- The block in which `visit(ASTVar)` calls `neg_idx_except`. -/
def createNegIdxExcept : Builder Unit := do
  match (← get).scope.find "neg_idx_except" with
  | none => failure
  | some negIdxExceptFun =>
    discard <| createCall negIdxExceptFun []
    discard <| createDefaultRet

/-- `visit(ASTVar)` after its subscript has been visited. -/
def visitSubscript (var : Value) (elementTy : Ty) (shouldReturnLvalue : Bool) : Builder Unit := do
  let val ← getTmpVal
  let exceptBB ← createBasicBlock ""
  let contBB ← createBasicBlock ""
  let val ← toIndex val
  let isNeg ← createIcmp .lt val (.constInt 0)
  discard <| createCondBr isNeg exceptBB contBB
  setInsertPoint exceptBB
  createNegIdxExcept
  setInsertPoint contBB
  let tmpPtr ← createElementPtr var elementTy val
  if shouldReturnLvalue then
    setTmpVal tmpPtr
    setRequireLvalue false
  else
    setTmpVal (← createLoad tmpPtr)

/-- The conversion of an assigned value to the type of its target. -/
def convertStored (elementTy : Option Ty) (exprResult : Value) : Builder Value := do
  let exprTy ← getType exprResult
  if elementTy ≠ some exprTy then
    if exprTy = .int32 then createSitofp exprResult .float else createFptosi exprResult .int32
  else return exprResult

/-- `visit(ASTAssignExpression)` after the target has been visited. -/
def visitStore (exprResult : Value) : Builder Unit := do
  let varAddr ← getTmpVal
  let varTy ← getType varAddr
  let exprResult ← convertStored varTy.pointerElementType exprResult
  discard <| createStore exprResult varAddr
  setTmpVal exprResult

/-- The conversion of an argument to its parameter's type in `visit(ASTCall)`. -/
def convertArg (paramTy : Ty) : Builder Value := do
  let val ← getTmpVal
  let ty ← getType val
  if !ty.isPointer && paramTy ≠ ty then
    if ty.isInteger then createSitofp val .float else createFptosi val .int32
  else return val

mutual

def visitExpression : ASTExpression → Builder Unit
  | .assign var expression => do
    visitExpression expression
    let exprResult ← getTmpVal
    setRequireLvalue true
    visitVar var
    visitStore exprResult
  | .simple l => visitAdditiveExpression l
  | .relation l op r => do
    visitAdditiveExpression l
    let lVal ← getTmpVal
    visitAdditiveExpression r
    let rVal ← getTmpVal
    let (isInt, lVal, rVal) ← promote lVal rVal
    let cmp ← createRelation op isInt lVal rVal
    setTmpVal (← createZext cmp .int32)

def visitAdditiveExpression : ASTAdditiveExpression → Builder Unit
  | .ofTerm term => visitTerm term
  | .additive additiveExpression op term => do
    visitAdditiveExpression additiveExpression
    let lVal ← getTmpVal
    visitTerm term
    let rVal ← getTmpVal
    let (isInt, lVal, rVal) ← promote lVal rVal
    setTmpVal (← createAdditive op isInt lVal rVal)

def visitTerm : ASTTerm → Builder Unit
  | .ofFactor factor => visitFactor factor
  | .multiplicative term op factor => do
    visitTerm term
    let lVal ← getTmpVal
    visitFactor factor
    let rVal ← getTmpVal
    let (isInt, lVal, rVal) ← promote lVal rVal
    setTmpVal (← createMultiplicative op isInt lVal rVal)

def visitFactor : ASTFactor → Builder Unit
  | .num (.int iVal) => setTmpVal (.constInt iVal)
  | .num (.float fVal) => setTmpVal (.constFP fVal)
  | .var var => visitVar var
  | .call id args => do
    match (← get).scope.find id with
    | some (.function f) =>
      let paramTypes := ((← getModule).functions f).paramTypes
      let args ← visitArgs args paramTypes
      setTmpVal (← createCall (.function f) args)
    | _ => failure
  | .expression expression => visitExpression expression

def visitVar : ASTVar → Builder Unit
  | .scalar id => do
    let (var, elementTy, shouldReturnLvalue) ← enterVar id
    visitScalar var elementTy shouldReturnLvalue
  | .subscript id expression => do
    let (var, elementTy, shouldReturnLvalue) ← enterVar id
    visitExpression expression
    visitSubscript var elementTy shouldReturnLvalue

/-- The argument loop of `visit(ASTCall)`; reading past the last parameter type is undefined. -/
def visitArgs : List ASTExpression → List Ty → Builder (List Value)
  | [], _ => return []
  | _ :: _, [] => failure
  | arg :: args, paramTy :: paramTypes => do
    visitExpression arg
    let val ← convertArg paramTy
    setTmpVal val
    let vals ← visitArgs args paramTypes
    return val :: vals

end

def visitVarDeclaration (node : ASTVarDeclaration) : Builder Unit := do
  let elementTy : Ty := match node.type with
    | .int => .int32
    | _ => .float
  let varTy : Ty := match node.num with
    | none => elementTy
    | some num => .array elementTy num.toNat
  if (← get).scope.inGlobal then
    let m ← getModule
    setModule (m.createGlobalVariable node.id varTy (.constZero varTy))
    modifyScope (·.push node.id (.globalVariable m.numGlobals))
  else
    let var ← createAlloca varTy
    modifyScope (·.push node.id var)

def visitLocalDeclarations : List ASTVarDeclaration → Builder Unit
  | [] => return
  | decl :: decls => do
    visitVarDeclaration decl
    visitLocalDeclarations decls

/-- The entry of `visit(ASTCompoundStmt)`; returns `need_exit_scope`. -/
def enterCompound : Builder Bool := do
  let preEnterScope := (← get).preEnterScope
  if preEnterScope then setPreEnterScope false else modifyScope Scope.enter
  return !preEnterScope

def exitCompound (needExitScope : Bool) : Builder Unit :=
  if needExitScope then modifyScope Scope.exit else return

/-- The branch on a condition: any value of integer type, or a float, against zero. -/
def createCondition (retVal : Value) : Builder Value := do
  if (← getType retVal).isInteger then createIcmp .ne retVal (.constInt 0)
  else createFcmp .ne retVal (.constFP 0)

/-- A branch to `bb` unless the block at the insert point is already terminated. -/
def createBrIfOpen (bb : Nat) : Builder Unit := do
  if ← terminated then return else discard <| createBr bb

/-- The conversion of a returned value to the return type. -/
def convertReturned (funRetTy : Ty) (val : Value) : Builder Value := do
  if funRetTy ≠ (← getType val) then
    if funRetTy.isInteger then createFptosi val .int32 else createSitofp val .float
  else return val

mutual

def visitStatement : ASTStatement → Builder Unit
  | .compound localDeclarations statementList => do
    let needExitScope ← enterCompound
    visitLocalDeclarations localDeclarations
    visitStatementList statementList
    exitCompound needExitScope
  | .expressionStmt none => return
  | .expressionStmt (some expression) => visitExpression expression
  | .selection expression ifStatement => do
    visitExpression expression
    let retVal ← getTmpVal
    let trueBB ← createBasicBlock ""
    let contBB ← createBasicBlock ""
    let condVal ← createCondition retVal
    discard <| createCondBr condVal trueBB contBB
    setInsertPoint trueBB
    visitStatement ifStatement
    createBrIfOpen contBB
    setInsertPoint contBB
  | .selectionElse expression ifStatement elseStatement => do
    visitExpression expression
    let retVal ← getTmpVal
    let trueBB ← createBasicBlock ""
    let contBB ← createBasicBlock ""
    let condVal ← createCondition retVal
    let falseBB ← createBasicBlock ""
    discard <| createCondBr condVal trueBB falseBB
    setInsertPoint trueBB
    visitStatement ifStatement
    createBrIfOpen contBB
    setInsertPoint falseBB
    visitStatement elseStatement
    createBrIfOpen contBB
    setInsertPoint contBB
  | .iteration expression statement => do
    let exprBB ← createBasicBlock ""
    createBrIfOpen exprBB
    setInsertPoint exprBB
    visitExpression expression
    let retVal ← getTmpVal
    let trueBB ← createBasicBlock ""
    let contBB ← createBasicBlock ""
    let condVal ← createCondition retVal
    discard <| createCondBr condVal trueBB contBB
    setInsertPoint trueBB
    visitStatement statement
    createBrIfOpen exprBB
    setInsertPoint contBB
  | .return none => discard createVoidRet
  | .return (some expression) => do
    let f ← getCurFun
    let m ← getModule
    visitExpression expression
    let val ← getTmpVal
    let val ← convertReturned (m.functions f).returnType val
    setTmpVal val
    discard <| createRet val

/-- The statement loop of `visit(ASTCompoundStmt)`, left after a terminator. -/
def visitStatementList : List ASTStatement → Builder Unit
  | [] => return
  | stmt :: stmts => do
    visitStatement stmt
    if ← terminated then return else visitStatementList stmts

end

def paramType (param : ASTParam) : Ty :=
  match param.type, param.isarray with
  | .int, true => .pointer .int32
  | .int, false => .int32
  | _, true => .pointer .float
  | _, false => .float

/-- The parameter loop of `visit(ASTFunDeclaration)`. -/
def visitParams (f : Nat) : List ASTParam → Nat → Builder Unit
  | [], _ => return
  | param :: params, argNo => do
    let alloc ← createAlloca (paramType param)
    discard <| createStore (.argument f argNo) alloc
    modifyScope (·.push param.id alloc)
    visitParams f params (argNo + 1)

def returnType (node : ASTFunDeclaration) : Ty :=
  match node.type with
  | .int => .int32
  | .float => .float
  | .void => .void

/-- The start of `visit(ASTFunDeclaration)`, up to its parameter loop. -/
def enterFunction (node : ASTFunDeclaration) : Builder Nat := do
  let m ← getModule
  setModule (m.createFunction node.id (returnType node) (node.params.map paramType))
  modifyScope (·.push node.id (.function m.numFunctions))
  modify fun s => { s with curFun := some m.numFunctions }
  let funBB ← createBasicBlock "entry"
  setInsertPoint funBB
  modifyScope Scope.enter
  setPreEnterScope true
  return m.numFunctions

def createRetIfOpen : Builder Unit := do
  if ← terminated then return else discard createDefaultRet

def visitFunDeclaration (node : ASTFunDeclaration) : Builder Unit := do
  let f ← enterFunction node
  visitParams f node.params 0
  visitStatement (.compound node.localDeclarations node.statementList)
  createRetIfOpen
  modifyScope Scope.exit

def visitDeclaration : ASTDeclaration → Builder Unit
  | .var decl => visitVarDeclaration decl
  | .fun decl => visitFunDeclaration decl

def visitDeclarations : List ASTDeclaration → Builder Unit
  | [] => return
  | decl :: decls => do
    visitDeclaration decl
    visitDeclarations decls

/-- The state after the constructor: the library functions, and the global scope with them. -/
def initial : BuilderState where
  module := (((Module.empty.createFunction "input" .int32 []).createFunction
    "output" .void [.int32]).createFunction
    "outputFloat" .void [.float]).createFunction "neg_idx_except" .void []
  insertBlock := none
  scope := ((((Scope.enter ⟨[]⟩).push "input" (.function 0)).push "output" (.function 1)).push
    "outputFloat" (.function 2)).push "neg_idx_except" (.function 3)
  tmpVal := none
  requireLvalue := false
  curFun := none
  preEnterScope := false

end CminusfBuilder

/-- `run_visitor` on a fresh `CminusfBuilder`, then `getModule`. -/
def buildModule (program : ASTProgram) : Option Module :=
  (CminusfBuilder.visitDeclarations program.declarations CminusfBuilder.initial).map
    (·.2.module)

end Cminusf
