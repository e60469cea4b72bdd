import Cminusf.Ast
import Cminusf.Exec
import Cminusf.Parser.SyntaxTree

/-! `AST::transform_node_iter`. -/

namespace Cminusf

/-- What an `ASTNode *` points to. -/
inductive ASTNode where
  | program (node : ASTProgram)
  | declaration (node : ASTDeclaration)
  | param (node : ASTParam)
  | statement (node : ASTStatement)
  | expression (node : ASTExpression)
  | var (node : ASTVar)
  | additiveExpression (node : ASTAdditiveExpression)
  | term (node : ASTTerm)
  | num (node : ASTNum)
  | call (id : String) (args : List ASTExpression)

namespace ASTNode

/-! A `static_cast` to a class that the node is no object of is undefined. -/

def toProgram : ASTNode → Exec ASTProgram
  | program p => return p
  | _ => throw .undefinedBehaviour

def toDeclaration : ASTNode → Exec ASTDeclaration
  | declaration d => return d
  | _ => throw .undefinedBehaviour

def toVarDeclaration : ASTNode → Exec ASTVarDeclaration
  | declaration (.var d) => return d
  | _ => throw .undefinedBehaviour

def toParam : ASTNode → Exec ASTParam
  | param p => return p
  | _ => throw .undefinedBehaviour

def toCompoundStmt : ASTNode → Exec (List ASTVarDeclaration × List ASTStatement)
  | statement (.compound decls stmts) => return (decls, stmts)
  | _ => throw .undefinedBehaviour

def toStatement : ASTNode → Exec ASTStatement
  | statement s => return s
  | _ => throw .undefinedBehaviour

def toExpression : ASTNode → Exec ASTExpression
  | expression e => return e
  | _ => throw .undefinedBehaviour

def toVar : ASTNode → Exec ASTVar
  | var v => return v
  | _ => throw .undefinedBehaviour

def toAdditiveExpression : ASTNode → Exec ASTAdditiveExpression
  | additiveExpression e => return e
  | _ => throw .undefinedBehaviour

def toTerm : ASTNode → Exec ASTTerm
  | term t => return t
  | _ => throw .undefinedBehaviour

def toFactor : ASTNode → Exec ASTFactor
  | num n => return .num n
  | var v => return .var v
  | call id args => return .call id args
  | expression e => return .expression e
  | _ => throw .undefinedBehaviour

end ASTNode

/-- `n->children[i]`. -/
def SyntaxTreeNode.child (n : SyntaxTreeNode) (i : Nat) : Exec SyntaxTreeNode :=
  match n.children[i]? with
  | some c => return c
  | none => throw .undefinedBehaviour

/-- The loops that push the last child of a list on the stack and go on with the first. -/
def flatten (num : Nat) : Nat → SyntaxTreeNode → List SyntaxTreeNode →
    Exec (SyntaxTreeNode × List SyntaxTreeNode)
  | 0, _, _ => throw .outOfFuel
  | fuel + 1, listPtr, s => do
    if listPtr.childrenNum = num then
      let item ← listPtr.child (num - 1)
      flatten num fuel (← listPtr.child 0) (item :: s)
    else return (listPtr, s)

/-- A number that does not fit throws an exception that nothing catches. -/
def getNumber (num : Option (BitVec 32)) : Exec (BitVec 32) :=
  match num with
  | some n => return n
  | none => throw .assertion

/-- The name of a type specifier, a relation or another operator. -/
def SyntaxTreeNode.specifier (n : SyntaxTreeNode) (i : Nat) : Exec String :=
  return (← (← n.child i).child 0).name

section

variable (stof : String → Option (BitVec 32)) (transform : SyntaxTreeNode → Exec ASTNode)
  (fuel : Nat) (n : SyntaxTreeNode)

/-- The loops that pop the stack. -/
def transformStack {α : Type} (cast : ASTNode → Exec α) (s : List SyntaxTreeNode) :
    Exec (List α) :=
  s.mapM fun c => do cast (← transform c)

/-- A list with at least one item. -/
def transformItems {α : Type} (num : Nat) (cast : ASTNode → Exec α) (listPtr : SyntaxTreeNode) :
    Exec (List α) := do
  let (listPtr, s) ← flatten num fuel listPtr []
  transformStack transform cast ((← listPtr.child 0) :: s)

/-- A list that may be empty. -/
def transformList {α : Type} (cast : ASTNode → Exec α) (listPtr : SyntaxTreeNode) :
    Exec (List α) := do
  if listPtr.childrenNum = 2 then
    let (_, s) ← flatten 2 fuel listPtr []
    transformStack transform cast s
  else return []

def transformProgram : Exec ASTNode := do
  return .program ⟨← transformItems transform fuel 2 ASTNode.toDeclaration (← n.child 0)⟩

def transformVarDeclaration : Exec ASTNode := do
  let type := if (← n.specifier 0) = "int" then .int else .float
  let id ← n.child 1
  if n.childrenNum = 3 then return .declaration (.var ⟨type, id.name, none⟩)
  else if n.childrenNum = 6 then
    let num ← getNumber (stoi (← n.child 3).name)
    return .declaration (.var ⟨type, id.name, some num⟩)
  else throw .assertion

def transformFunDeclaration : Exec ASTNode := do
  let specifier ← n.specifier 0
  let type := if specifier = "int" then .int else if specifier = "float" then .float else .void
  let id ← n.child 1
  let listPtr ← (← n.child 3).child 0
  let params ← if listPtr.childrenNum ≠ 0 then
      transformItems transform fuel 3 ASTNode.toParam listPtr
    else pure []
  let (decls, stmts) ← (← transform (← n.child 5)).toCompoundStmt
  return .declaration (.fun ⟨type, id.name, params, decls, stmts⟩)

def transformParam : Exec ASTNode := do
  let type := if (← n.specifier 0) = "int" then .int else .float
  return .param ⟨type, (← n.child 1).name, n.childrenNum > 2⟩

def transformCompoundStmt : Exec ASTNode := do
  let decls ← transformList transform fuel ASTNode.toVarDeclaration (← n.child 1)
  let stmts ← transformList transform fuel ASTNode.toStatement (← n.child 2)
  return .statement (.compound decls stmts)

def transformExpressionStmt : Exec ASTNode := do
  if n.childrenNum = 2 then
    return .statement (.expressionStmt (some (← (← transform (← n.child 0)).toExpression)))
  else return .statement (.expressionStmt none)

def transformSelectionStmt : Exec ASTNode := do
  let expression ← (← transform (← n.child 2)).toExpression
  let ifStatement ← (← transform (← n.child 4)).toStatement
  if n.childrenNum = 7 then
    let elseStatement ← (← transform (← n.child 6)).toStatement
    return .statement (.selectionElse expression ifStatement elseStatement)
  else return .statement (.selection expression ifStatement)

def transformIterationStmt : Exec ASTNode := do
  let expression ← (← transform (← n.child 2)).toExpression
  return .statement (.iteration expression (← (← transform (← n.child 4)).toStatement))

def transformReturnStmt : Exec ASTNode := do
  if n.childrenNum = 3 then
    return .statement (.return (some (← (← transform (← n.child 1)).toExpression)))
  else return .statement (.return none)

def transformExpression : Exec ASTNode := do
  if n.childrenNum = 1 then transform (← n.child 0)
  else
    let var ← (← transform (← n.child 0)).toVar
    return .expression (.assign var (← (← transform (← n.child 2)).toExpression))

def transformVar : Exec ASTNode := do
  let id ← n.child 0
  if n.childrenNum = 4 then
    return .var (.subscript id.name (← (← transform (← n.child 2)).toExpression))
  else return .var (.scalar id.name)

/-- The relation that an operator sets; `op` is left as it is by any other text. -/
def relOp (name : String) : Option RelOp :=
  if name = "<=" then some .le else if name = "<" then some .lt
  else if name = ">" then some .gt else if name = ">=" then some .ge
  else if name = "==" then some .eq else if name = "!=" then some .neq else none

def addOp (name : String) : Option AddOp :=
  if name = "+" then some .plus else if name = "-" then some .minus else none

def mulOp (name : String) : Option MulOp :=
  if name = "*" then some .mul else if name = "/" then some .div else none

/-- An operator that has been set; the use of one that has not is undefined. -/
def getOp {α : Type} (op : Option α) : Exec α :=
  match op with
  | some op => return op
  | none => throw .undefinedBehaviour

def transformSimpleExpression : Exec ASTNode := do
  let l ← (← transform (← n.child 0)).toAdditiveExpression
  if n.childrenNum = 3 then
    let op ← getOp (relOp (← n.specifier 1))
    let r ← (← transform (← n.child 2)).toAdditiveExpression
    return .expression (.relation l op r)
  else return .expression (.simple l)

def transformAdditiveExpression : Exec ASTNode := do
  if n.childrenNum = 3 then
    let additiveExpression ← (← transform (← n.child 0)).toAdditiveExpression
    let op ← getOp (addOp (← n.specifier 1))
    let term ← (← transform (← n.child 2)).toTerm
    return .additiveExpression (.additive additiveExpression op term)
  else return .additiveExpression (.ofTerm (← (← transform (← n.child 0)).toTerm))

def transformTerm : Exec ASTNode := do
  if n.childrenNum = 3 then
    let term ← (← transform (← n.child 0)).toTerm
    let op ← getOp (mulOp (← n.specifier 1))
    let factor ← (← transform (← n.child 2)).toFactor
    return .term (.multiplicative term op factor)
  else return .term (.ofFactor (← (← transform (← n.child 0)).toFactor))

def transformFactor : Exec ASTNode := do
  let i := if n.childrenNum = 3 then 1 else 0
  let c ← n.child i
  if c.name = "expression" ∨ c.name = "var" ∨ c.name = "call" then transform c
  else if c.name = "integer" then return .num (.int (← getNumber (stoi (← c.child 0).name)))
  else if c.name = "float" then return .num (.float (← getNumber (stof (← c.child 0).name)))
  else throw .assertion

def transformCall : Exec ASTNode := do
  let id ← n.child 0
  let listPtr ← (← n.child 2).child 0
  if listPtr.name = "arg-list" then
    return .call id.name (← transformItems transform fuel 3 ASTNode.toExpression listPtr)
  else return .call id.name []

end

def transformNodeIter (stof : String → Option (BitVec 32)) : Nat → SyntaxTreeNode → Exec ASTNode
  | 0, _ => throw .outOfFuel
  | fuel + 1, n =>
    let transform := transformNodeIter stof fuel
    if n.name = "program" then transformProgram transform fuel n
    else if n.name = "declaration" then do transform (← n.child 0)
    else if n.name = "var-declaration" then transformVarDeclaration n
    else if n.name = "fun-declaration" then transformFunDeclaration transform fuel n
    else if n.name = "param" then transformParam n
    else if n.name = "compound-stmt" then transformCompoundStmt transform fuel n
    else if n.name = "statement" then do transform (← n.child 0)
    else if n.name = "expression-stmt" then transformExpressionStmt transform n
    else if n.name = "selection-stmt" then transformSelectionStmt transform n
    else if n.name = "iteration-stmt" then transformIterationStmt transform n
    else if n.name = "return-stmt" then transformReturnStmt transform n
    else if n.name = "expression" then transformExpression transform n
    else if n.name = "var" then transformVar transform n
    else if n.name = "simple-expression" then transformSimpleExpression transform n
    else if n.name = "additive-expression" then transformAdditiveExpression transform n
    else if n.name = "term" then transformTerm transform n
    else if n.name = "factor" then transformFactor stof transform n
    else if n.name = "call" then transformCall transform fuel n
    else throw .assertion

/-- The constructor of `AST` on the root of a syntax tree. -/
def toAST (stof : String → Option (BitVec 32)) (fuel : Nat) (root : SyntaxTreeNode) :
    Exec ASTProgram := do
  (← transformNodeIter stof fuel root).toProgram

end Cminusf
