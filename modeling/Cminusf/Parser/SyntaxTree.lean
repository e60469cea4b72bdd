import Cminusf.Grammar.Derivation

/-! The parse trees that the actions of the grammar build. -/

namespace Cminusf

open Grammar

/-- `syntax_tree_node`. -/
inductive SyntaxTreeNode where
  | mk (name : String) (children : List SyntaxTreeNode)

namespace SyntaxTreeNode

def name : SyntaxTreeNode → String
  | mk name _ => name

def children : SyntaxTreeNode → List SyntaxTreeNode
  | mk _ children => children

def childrenNum (n : SyntaxTreeNode) : Nat := n.children.length

end SyntaxTreeNode

/-- `SYNTAX_TREE_NODE_NAME_MAX`. -/
def syntaxTreeNodeNameMax : Nat := 30

/-- `new_syntax_tree_node`. A name that fills the field is left without its terminator. -/
def newSyntaxTreeNode (name : String) : Option SyntaxTreeNode :=
  if name.length < syntaxTreeNodeNameMax then some ⟨name, []⟩ else none

/-- `node`, the helper of the grammar's actions. -/
def node (name : String) (children : List SyntaxTreeNode) : SyntaxTreeNode :=
  if children.isEmpty then ⟨name, [⟨"epsilon", []⟩]⟩ else ⟨name, children⟩

/-- The tokens of the lexical analyzer that the grammar uses. -/
inductive Terminal where
  | add | sub | mul | div | lt | lte | gt | gte | eq | neq | assin
  | semicolon | comma | lparenthese | rparenthese | lbracket | rbracket | lbrace | rbrace
  | else | if | int | return | void | while | float
  | identifier | integer | floatpoint
deriving DecidableEq

inductive NonTerminal where
  | program | declarationList | declaration | varDeclaration | typeSpecifier | funDeclaration
  | params | paramList | param | compoundStmt | localDeclarations | statementList | statement
  | expressionStmt | selectionStmt | iterationStmt | returnStmt | expression | var
  | simpleExpression | relop | additiveExpression | addop | term | mulop | factor | integer | float
  | call | args | argList
deriving DecidableEq

/-- The name that the actions of a nonterminal pass to `node`. -/
def NonTerminal.name : NonTerminal → String
  | .program => "program"
  | .declarationList => "declaration-list"
  | .declaration => "declaration"
  | .varDeclaration => "var-declaration"
  | .typeSpecifier => "type-specifier"
  | .funDeclaration => "fun-declaration"
  | .params => "params"
  | .paramList => "param-list"
  | .param => "param"
  | .compoundStmt => "compound-stmt"
  | .localDeclarations => "local-declarations"
  | .statementList => "statement-list"
  | .statement => "statement"
  | .expressionStmt => "expression-stmt"
  | .selectionStmt => "selection-stmt"
  | .iterationStmt => "iteration-stmt"
  | .returnStmt => "return-stmt"
  | .expression => "expression"
  | .var => "var"
  | .simpleExpression => "simple-expression"
  | .relop => "relop"
  | .additiveExpression => "additive-expression"
  | .addop => "addop"
  | .term => "term"
  | .mulop => "mulop"
  | .factor => "factor"
  | .integer => "integer"
  | .float => "float"
  | .call => "call"
  | .args => "args"
  | .argList => "arg-list"

/-- The rules of `syntax_analyzer.y`. -/
def productions : NonTerminal → List (List (Symbol Terminal NonTerminal)) :=
  let t := Symbol.terminal (T := Terminal) (N := NonTerminal)
  let n := Symbol.nonterminal (T := Terminal) (N := NonTerminal)
  fun
  | .program => [[n .declarationList]]
  | .declarationList => [[n .declarationList, n .declaration], [n .declaration]]
  | .declaration => [[n .varDeclaration], [n .funDeclaration]]
  | .varDeclaration => [[n .typeSpecifier, t .identifier, t .semicolon],
    [n .typeSpecifier, t .identifier, t .lbracket, t .integer, t .rbracket, t .semicolon]]
  | .typeSpecifier => [[t .int], [t .float], [t .void]]
  | .funDeclaration => [[n .typeSpecifier, t .identifier, t .lparenthese, n .params,
    t .rparenthese, n .compoundStmt]]
  | .params => [[n .paramList], [t .void]]
  | .paramList => [[n .paramList, t .comma, n .param], [n .param]]
  | .param => [[n .typeSpecifier, t .identifier],
    [n .typeSpecifier, t .identifier, t .lbracket, t .rbracket]]
  | .compoundStmt => [[t .lbrace, n .localDeclarations, n .statementList, t .rbrace]]
  | .localDeclarations => [[n .localDeclarations, n .varDeclaration], []]
  | .statementList => [[n .statementList, n .statement], []]
  | .statement => [[n .expressionStmt], [n .compoundStmt], [n .selectionStmt], [n .iterationStmt],
    [n .returnStmt]]
  | .expressionStmt => [[n .expression, t .semicolon], [t .semicolon]]
  | .selectionStmt => [[t .if, t .lparenthese, n .expression, t .rparenthese, n .statement],
    [t .if, t .lparenthese, n .expression, t .rparenthese, n .statement, t .else, n .statement]]
  | .iterationStmt => [[t .while, t .lparenthese, n .expression, t .rparenthese, n .statement]]
  | .returnStmt => [[t .return, t .semicolon], [t .return, n .expression, t .semicolon]]
  | .expression => [[n .var, t .assin, n .expression], [n .simpleExpression]]
  | .var => [[t .identifier], [t .identifier, t .lbracket, n .expression, t .rbracket]]
  | .simpleExpression => [[n .additiveExpression, n .relop, n .additiveExpression],
    [n .additiveExpression]]
  | .relop => [[t .lte], [t .lt], [t .gt], [t .gte], [t .eq], [t .neq]]
  | .additiveExpression => [[n .additiveExpression, n .addop, n .term], [n .term]]
  | .addop => [[t .add], [t .sub]]
  | .term => [[n .term, n .mulop, n .factor], [n .factor]]
  | .mulop => [[t .mul], [t .div]]
  | .factor => [[t .lparenthese, n .expression, t .rparenthese], [n .var], [n .call], [n .integer],
    [n .float]]
  | .integer => [[t .integer]]
  | .float => [[t .floatpoint]]
  | .call => [[t .identifier, t .lparenthese, n .args, t .rparenthese]]
  | .args => [[n .argList], []]
  | .argList => [[n .argList, t .comma, n .expression], [n .expression]]

/-- The text of a token that has one only. -/
def Terminal.text : Terminal → String
  | .add => "+"
  | .sub => "-"
  | .mul => "*"
  | .div => "/"
  | .lt => "<"
  | .lte => "<="
  | .gt => ">"
  | .gte => ">="
  | .eq => "=="
  | .neq => "!="
  | .assin => "="
  | .semicolon => ";"
  | .comma => ","
  | .lparenthese => "("
  | .rparenthese => ")"
  | .lbracket => "["
  | .rbracket => "]"
  | .lbrace => "\x7b"
  | .rbrace => "\x7d"
  | .else => "else"
  | .if => "if"
  | .int => "int"
  | .return => "return"
  | .void => "void"
  | .while => "while"
  | .float => "float"
  | .identifier | .integer | .floatpoint => ""

/-- The texts that the lexical analyzer returns as a token. -/
def Terminal.Matches (k : Terminal) (text : String) : Prop :=
  match k with
  | .identifier => text ≠ "" ∧ (∀ c ∈ text.toList, c.isAlpha) ∧
      text ∉ ["else", "if", "int", "return", "void", "while", "float"]
  | .integer => text ≠ "" ∧ ∀ c ∈ text.toList, c.isDigit
  | .floatpoint => ∃ whole part, text.toList = whole ++ '.' :: part ∧ (whole ≠ [] ∨ part ≠ []) ∧
      ∀ c ∈ whole ++ part, c.isDigit
  | k => text = k.text

/-- `std::stoi` on digits; a number out of range throws. -/
def stoi (text : String) : Option (BitVec 32) :=
  let num := text.toList.foldl (fun num c => 10 * num + (c.toNat - '0'.toNat)) 0
  if num < 2 ^ 31 then some (BitVec.ofNat 32 num) else none

/-- A token with what it denotes. -/
inductive Token where
  | fixed (k : Terminal)
  | identifier (id : String)
  | integer (iVal : BitVec 32)
  | floatpoint (fVal : BitVec 32)
deriving DecidableEq

/-- The token that a text denotes; numbers that the compiler cannot represent denote none. -/
def Terminal.token (stof : String → Option (BitVec 32)) (k : Terminal) (text : String) :
    Option Token :=
  match k with
  | .identifier => some (.identifier text)
  | .integer => (stoi text).map .integer
  | .floatpoint => (stof text).map .floatpoint
  | k => some (.fixed k)

/-- The grammar, with `pass_node` on the tokens and `node` as the action of every rule. -/
def syntaxAnalyzer (stof : String → Option (BitVec 32)) :
    Actions Terminal NonTerminal SyntaxTreeNode Token where
  productions := productions
  leaf k n w := ∃ text token, k.Matches text ∧ newSyntaxTreeNode text = some n ∧
    k.token stof text = some token ∧ w = [token]
  action A children := node A.name children

/-- No variable and no parameter of the tree is declared `void`. -/
inductive ScalarTypes : SyntaxTreeNode → Prop where
  | mk {name : String} {children : List SyntaxTreeNode} :
      (name = "var-declaration" ∨ name = "param" →
        children.head? ≠ some ⟨"type-specifier", [⟨"void", []⟩]⟩) →
      (∀ c ∈ children, ScalarTypes c) → ScalarTypes ⟨name, children⟩

end Cminusf
