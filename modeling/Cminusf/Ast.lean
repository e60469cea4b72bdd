import Cminusf.LightIR.Type

/-! The abstract syntax tree. A node whose optional child is a null pointer and a
node whose child is present are two constructors. -/

namespace Cminusf

inductive CminusType where
  | int | float | void
deriving DecidableEq

inductive RelOp where
  | le | lt | gt | ge | eq | neq
deriving DecidableEq

inductive AddOp where
  | plus | minus
deriving DecidableEq

inductive MulOp where
  | mul | div
deriving DecidableEq

/-- The two members of the union are told apart by `type`. -/
inductive ASTNum where
  | int (iVal : BitVec 32)
  | float (fVal : BitVec 32)
deriving DecidableEq

mutual

inductive ASTExpression where
  | assign (var : ASTVar) (expression : ASTExpression)
  | simple (additiveExpressionL : ASTAdditiveExpression)
  | relation (additiveExpressionL : ASTAdditiveExpression) (op : RelOp)
      (additiveExpressionR : ASTAdditiveExpression)

inductive ASTAdditiveExpression where
  | ofTerm (term : ASTTerm)
  | additive (additiveExpression : ASTAdditiveExpression) (op : AddOp) (term : ASTTerm)

inductive ASTTerm where
  | ofFactor (factor : ASTFactor)
  | multiplicative (term : ASTTerm) (op : MulOp) (factor : ASTFactor)

inductive ASTFactor where
  | num (num : ASTNum)
  | var (var : ASTVar)
  | call (id : String) (args : List ASTExpression)
  | expression (expression : ASTExpression)

inductive ASTVar where
  | scalar (id : String)
  | subscript (id : String) (expression : ASTExpression)

end

structure ASTVarDeclaration where
  type : CminusType
  id : String
  num : Option (BitVec 32)
deriving DecidableEq

inductive ASTStatement where
  | compound (localDeclarations : List ASTVarDeclaration) (statementList : List ASTStatement)
  | expressionStmt (expression : Option ASTExpression)
  | selection (expression : ASTExpression) (ifStatement : ASTStatement)
  | selectionElse (expression : ASTExpression) (ifStatement elseStatement : ASTStatement)
  | iteration (expression : ASTExpression) (statement : ASTStatement)
  | return (expression : Option ASTExpression)

structure ASTParam where
  type : CminusType
  id : String
  isarray : Bool
deriving DecidableEq

/-- The compound statement of the body is kept as its two lists. -/
structure ASTFunDeclaration where
  type : CminusType
  id : String
  params : List ASTParam
  localDeclarations : List ASTVarDeclaration
  statementList : List ASTStatement

inductive ASTDeclaration where
  | var (decl : ASTVarDeclaration)
  | fun (decl : ASTFunDeclaration)

structure ASTProgram where
  declarations : List ASTDeclaration

end Cminusf
