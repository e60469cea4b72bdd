import Cminusf.Parser.Unparse

/-! Every production of the grammar keeps its yield when its tree is transformed. -/

namespace Cminusf

open Grammar Filter

variable {stof : String → Option (BitVec 32)} {rhs : List (Symbol Terminal NonTerminal)}
  {cs : List SyntaxTreeNode} {t : SyntaxTreeNode} {w : List Token} {a : ASTNode} {name : String}
  {c : SyntaxTreeNode} {i : Nat}

@[simp] theorem name_mk : SyntaxTreeNode.name ⟨name, cs⟩ = name := rfl

@[simp] theorem childrenNum_mk : SyntaxTreeNode.childrenNum ⟨name, cs⟩ = cs.length := rfl

@[simp] theorem child_mk_zero : SyntaxTreeNode.child ⟨name, c :: cs⟩ 0 = pure c := rfl

@[simp] theorem child_mk_succ :
    SyntaxTreeNode.child ⟨name, c :: cs⟩ (i + 1) = SyntaxTreeNode.child ⟨name, cs⟩ i := rfl

@[simp] theorem node_cons : node name (c :: cs) = ⟨name, c :: cs⟩ := rfl

@[simp] theorem toFactor_node (f : ASTFactor) : f.node.toFactor = pure f := by
  cases f <;> rfl

theorem returns_node (h : ∀ᶠ fuel in atTop, transformNodeIter stof (fuel + 1) t = pure a) :
    Returns stof t a :=
  eventually_succ h

/-! ### Expressions -/

theorem result_factor (hrhs : rhs ∈ productions .factor) (h : Each (Result stof) rhs cs w) :
    Result stof (.nonterminal .factor) (node "factor" cs) w := by
  simp only [productions, List.mem_cons, List.not_mem_nil, or_false] at hrhs
  rcases hrhs with rfl | rfl | rfl | rfl | rfl
  · rcases h with - | ⟨⟨rfl, rfl⟩, - | ⟨⟨hname, e, he, rfl⟩, - | ⟨⟨rfl, rfl⟩, - | -⟩⟩⟩
    refine ⟨.expression e, returns_node ?_, by simp [ASTFactor.unparse]⟩
    filter_upwards [he] with fuel he
    show transformFactor stof (transformNodeIter stof fuel) _ = _
    simp [transformFactor, hname, he, ASTFactor.node]
  · rcases h with - | ⟨⟨hname, v, hv, rfl⟩, - | -⟩
    refine ⟨.var v, returns_node ?_, by simp [ASTFactor.unparse]⟩
    filter_upwards [hv] with fuel hv
    show transformFactor stof (transformNodeIter stof fuel) _ = _
    simp [transformFactor, hname, hv, ASTFactor.node]
  · rcases h with - | ⟨⟨hname, ⟨id, args⟩, hc, rfl⟩, - | -⟩
    refine ⟨.call id args, returns_node ?_, by simp⟩
    filter_upwards [hc] with fuel hc
    show transformFactor stof (transformNodeIter stof fuel) _ = _
    simp [transformFactor, hname, hc, ASTFactor.node]
  · rcases h with - | ⟨⟨text, n, rfl, hn, rfl⟩, - | -⟩
    refine ⟨.num (.int n), returns_node (.of_forall fun fuel => ?_), rfl⟩
    show transformFactor stof (transformNodeIter stof fuel) _ = _
    simp [transformFactor, hn, getNumber, ASTFactor.node]
  · rcases h with - | ⟨⟨text, x, rfl, hx, rfl⟩, - | -⟩
    refine ⟨.num (.float x), returns_node (.of_forall fun fuel => ?_), rfl⟩
    show transformFactor stof (transformNodeIter stof fuel) _ = _
    simp [transformFactor, hx, getNumber, ASTFactor.node]

theorem result_term (hrhs : rhs ∈ productions .term) (h : Each (Result stof) rhs cs w) :
    Result stof (.nonterminal .term) (node "term" cs) w := by
  simp only [productions, List.mem_cons, List.not_mem_nil, or_false] at hrhs
  rcases hrhs with rfl | rfl
  · rcases h with - | ⟨⟨l, hl, rfl⟩, - | ⟨⟨op, text, rfl, hop, rfl⟩, - | ⟨⟨f, hf, rfl⟩, - | -⟩⟩⟩
    refine ⟨.multiplicative l op f, returns_node ?_, by simp [ASTTerm.unparse]⟩
    filter_upwards [hl, hf] with fuel hl hf
    simp [transformNodeIter, transformTerm, SyntaxTreeNode.specifier, hl, hf, hop, getOp, ASTNode.toTerm]
  · rcases h with - | ⟨⟨f, hf, rfl⟩, - | -⟩
    refine ⟨.ofFactor f, returns_node ?_, by simp [ASTTerm.unparse]⟩
    filter_upwards [hf] with fuel hf
    simp [transformNodeIter, transformTerm, hf]

theorem result_additiveExpression (hrhs : rhs ∈ productions .additiveExpression)
    (h : Each (Result stof) rhs cs w) :
    Result stof (.nonterminal .additiveExpression) (node "additive-expression" cs) w := by
  simp only [productions, List.mem_cons, List.not_mem_nil, or_false] at hrhs
  rcases hrhs with rfl | rfl
  · rcases h with - | ⟨⟨l, hl, rfl⟩, - | ⟨⟨op, text, rfl, hop, rfl⟩, - | ⟨⟨r, hr, rfl⟩, - | -⟩⟩⟩
    refine ⟨.additive l op r, returns_node ?_, by simp [ASTAdditiveExpression.unparse]⟩
    filter_upwards [hl, hr] with fuel hl hr
    simp [transformNodeIter, transformAdditiveExpression, SyntaxTreeNode.specifier, hl, hr, hop, getOp, ASTNode.toTerm,
      ASTNode.toAdditiveExpression]
  · rcases h with - | ⟨⟨r, hr, rfl⟩, - | -⟩
    refine ⟨.ofTerm r, returns_node ?_, by simp [ASTAdditiveExpression.unparse]⟩
    filter_upwards [hr] with fuel hr
    simp [transformNodeIter, transformAdditiveExpression, hr, ASTNode.toTerm]

theorem result_simpleExpression (hrhs : rhs ∈ productions .simpleExpression)
    (h : Each (Result stof) rhs cs w) :
    Result stof (.nonterminal .simpleExpression) (node "simple-expression" cs) w := by
  simp only [productions, List.mem_cons, List.not_mem_nil, or_false] at hrhs
  rcases hrhs with rfl | rfl
  · rcases h with - | ⟨⟨l, hl, rfl⟩, - | ⟨⟨op, text, rfl, hop, rfl⟩, - | ⟨⟨r, hr, rfl⟩, - | -⟩⟩⟩
    refine ⟨.relation l op r, returns_node ?_, by simp [ASTExpression.unparse]⟩
    filter_upwards [hl, hr] with fuel hl hr
    show transformSimpleExpression (transformNodeIter stof fuel) _ = _
    simp [transformSimpleExpression, SyntaxTreeNode.specifier, hl, hr, hop, getOp,
      ASTNode.toAdditiveExpression]
  · rcases h with - | ⟨⟨l, hl, rfl⟩, - | -⟩
    refine ⟨.simple l, returns_node ?_, by simp [ASTExpression.unparse]⟩
    filter_upwards [hl] with fuel hl
    show transformSimpleExpression (transformNodeIter stof fuel) _ = _
    simp [transformSimpleExpression, hl, ASTNode.toAdditiveExpression]

theorem result_expression (hrhs : rhs ∈ productions .expression) (h : Each (Result stof) rhs cs w) :
    Result stof (.nonterminal .expression) (node "expression" cs) w := by
  simp only [productions, List.mem_cons, List.not_mem_nil, or_false] at hrhs
  rcases hrhs with rfl | rfl
  · rcases h with - | ⟨⟨-, v, hv, rfl⟩, - | ⟨⟨rfl, rfl⟩, - | ⟨⟨-, e, he, rfl⟩, - | -⟩⟩⟩
    refine ⟨rfl, .assign v e, returns_node ?_, by simp [ASTExpression.unparse]⟩
    filter_upwards [hv, he] with fuel hv he
    simp [transformNodeIter, transformExpression, hv, he, ASTNode.toVar, ASTNode.toExpression]
  · rcases h with - | ⟨⟨e, he, rfl⟩, - | -⟩
    refine ⟨rfl, e, returns_node ?_, by simp⟩
    filter_upwards [he] with fuel he
    simp [transformNodeIter, transformExpression, he]

theorem result_var (hrhs : rhs ∈ productions .var) (h : Each (Result stof) rhs cs w) :
    Result stof (.nonterminal .var) (node "var" cs) w := by
  simp only [productions, List.mem_cons, List.not_mem_nil, or_false] at hrhs
  rcases hrhs with rfl | rfl
  · rcases h with - | ⟨⟨id, rfl, rfl⟩, - | -⟩
    refine ⟨rfl, .scalar id, returns_node (.of_forall fun fuel => ?_), by simp [ASTVar.unparse]⟩
    show transformVar (transformNodeIter stof fuel) _ = _
    simp [transformVar]
  · rcases h with - | ⟨⟨id, rfl, rfl⟩, - | ⟨⟨rfl, rfl⟩, - | ⟨⟨-, e, he, rfl⟩, - | ⟨⟨rfl, rfl⟩,
      - | -⟩⟩⟩⟩
    refine ⟨rfl, .subscript id e, returns_node ?_, by simp [ASTVar.unparse]⟩
    filter_upwards [he] with fuel he
    show transformVar (transformNodeIter stof fuel) _ = _
    simp [transformVar, he, ASTNode.toExpression]

theorem result_argList (hrhs : rhs ∈ productions .argList) (h : Each (Result stof) rhs cs w) :
    Result stof (.nonterminal .argList) (node "arg-list" cs) w := by
  simp only [productions, List.mem_cons, List.not_mem_nil, or_false] at hrhs
  rcases hrhs with rfl | rfl
  · rcases h with - | ⟨⟨-, es, hes, rfl⟩, - | ⟨⟨rfl, rfl⟩, - | ⟨⟨-, e, he, rfl⟩, - | -⟩⟩⟩
    refine ⟨rfl, es ++ [e], hes.step rfl rfl rfl he, ?_⟩
    have hne : es.map ASTExpression.unparse ≠ [] := by simpa using hes.ne_nil
    rw [List.map_append, List.map_singleton, commaSeparated_append _ hne]
    simp
  · rcases h with - | ⟨⟨-, e, he, rfl⟩, - | -⟩
    exact ⟨rfl, [e], lists_base (by simp) rfl he, by simp [commaSeparated]⟩

theorem result_args (hrhs : rhs ∈ productions .args) (h : Each (Result stof) rhs cs w) :
    Result stof (.nonterminal .args) (node "args" cs) w := by
  simp only [productions, List.mem_cons, List.not_mem_nil, or_false] at hrhs
  rcases hrhs with rfl | rfl
  · rcases h with - | ⟨⟨hname, es, hes, rfl⟩, - | -⟩
    exact ⟨_, es, rfl, by simp, .inr ⟨hname, hes⟩⟩
  · rcases h with - | -
    exact ⟨_, [], rfl, rfl, .inl ⟨by simp, rfl⟩⟩

theorem result_call (hrhs : rhs ∈ productions .call) (h : Each (Result stof) rhs cs w) :
    Result stof (.nonterminal .call) (node "call" cs) w := by
  simp only [productions, List.mem_cons, List.not_mem_nil, or_false] at hrhs
  subst hrhs
  rcases h with - | ⟨⟨id, rfl, rfl⟩, - | ⟨⟨rfl, rfl⟩, - | ⟨⟨list, es, hlist, rfl, hes⟩, - |
    ⟨⟨rfl, rfl⟩, - | -⟩⟩⟩⟩
  refine ⟨rfl, ⟨id, es⟩, returns_node ?_, by simp [ASTFactor.unparse, unparseArgs_eq_map]⟩
  rcases hes with ⟨hname, rfl⟩ | ⟨hname, hes⟩
  · refine .of_forall fun fuel => ?_
    show transformCall (transformNodeIter stof fuel) fuel _ = _
    simp [transformCall, hlist, hname]
  · filter_upwards [hes.items ASTNode.toExpression fun _ => rfl] with fuel hes
    show transformCall (transformNodeIter stof fuel) fuel _ = _
    simp [transformCall, hlist, hname, hes]

/-! ### Statements -/

theorem result_expressionStmt (hrhs : rhs ∈ productions .expressionStmt)
    (h : Each (Result stof) rhs cs w) :
    Result stof (.nonterminal .expressionStmt) (node "expression-stmt" cs) w := by
  simp only [productions, List.mem_cons, List.not_mem_nil, or_false] at hrhs
  rcases hrhs with rfl | rfl
  · rcases h with - | ⟨⟨-, e, he, rfl⟩, - | ⟨⟨rfl, rfl⟩, - | -⟩⟩
    refine ⟨.expressionStmt (some e), returns_node ?_, by simp [ASTStatement.unparse]⟩
    filter_upwards [he] with fuel he
    simp [transformNodeIter, transformExpressionStmt, he, ASTNode.toExpression]
  · rcases h with - | ⟨⟨rfl, rfl⟩, - | -⟩
    refine ⟨.expressionStmt none, returns_node (.of_forall fun fuel => ?_),
      by simp [ASTStatement.unparse]⟩
    simp [transformNodeIter, transformExpressionStmt]

theorem result_selectionStmt (hrhs : rhs ∈ productions .selectionStmt)
    (h : Each (Result stof) rhs cs w) :
    Result stof (.nonterminal .selectionStmt) (node "selection-stmt" cs) w := by
  simp only [productions, List.mem_cons, List.not_mem_nil, or_false] at hrhs
  rcases hrhs with rfl | rfl
  · rcases h with - | ⟨⟨rfl, rfl⟩, - | ⟨⟨rfl, rfl⟩, - | ⟨⟨-, e, he, rfl⟩, - | ⟨⟨rfl, rfl⟩, - |
      ⟨⟨s, hs, rfl⟩, - | -⟩⟩⟩⟩⟩
    refine ⟨.selection e s, returns_node ?_, by simp [ASTStatement.unparse]⟩
    filter_upwards [he, hs] with fuel he hs
    show transformSelectionStmt (transformNodeIter stof fuel) _ = _
    simp [transformSelectionStmt, he, hs, ASTNode.toExpression, ASTNode.toStatement]
  · rcases h with - | ⟨⟨rfl, rfl⟩, - | ⟨⟨rfl, rfl⟩, - | ⟨⟨-, e, he, rfl⟩, - | ⟨⟨rfl, rfl⟩, - |
      ⟨⟨s, hs, rfl⟩, - | ⟨⟨rfl, rfl⟩, - | ⟨⟨s', hs', rfl⟩, - | -⟩⟩⟩⟩⟩⟩⟩
    refine ⟨.selectionElse e s s', returns_node ?_, by simp [ASTStatement.unparse]⟩
    filter_upwards [he, hs, hs'] with fuel he hs hs'
    show transformSelectionStmt (transformNodeIter stof fuel) _ = _
    simp [transformSelectionStmt, he, hs, hs', ASTNode.toExpression, ASTNode.toStatement]

theorem result_iterationStmt (hrhs : rhs ∈ productions .iterationStmt)
    (h : Each (Result stof) rhs cs w) :
    Result stof (.nonterminal .iterationStmt) (node "iteration-stmt" cs) w := by
  simp only [productions, List.mem_cons, List.not_mem_nil, or_false] at hrhs
  subst hrhs
  rcases h with - | ⟨⟨rfl, rfl⟩, - | ⟨⟨rfl, rfl⟩, - | ⟨⟨-, e, he, rfl⟩, - | ⟨⟨rfl, rfl⟩, - |
    ⟨⟨s, hs, rfl⟩, - | -⟩⟩⟩⟩⟩
  refine ⟨.iteration e s, returns_node ?_, by simp [ASTStatement.unparse]⟩
  filter_upwards [he, hs] with fuel he hs
  show transformIterationStmt (transformNodeIter stof fuel) _ = _
  simp [transformIterationStmt, he, hs, ASTNode.toExpression, ASTNode.toStatement]

theorem result_returnStmt (hrhs : rhs ∈ productions .returnStmt) (h : Each (Result stof) rhs cs w) :
    Result stof (.nonterminal .returnStmt) (node "return-stmt" cs) w := by
  simp only [productions, List.mem_cons, List.not_mem_nil, or_false] at hrhs
  rcases hrhs with rfl | rfl
  · rcases h with - | ⟨⟨rfl, rfl⟩, - | ⟨⟨rfl, rfl⟩, - | -⟩⟩
    refine ⟨.return none, returns_node (.of_forall fun fuel => ?_), by simp [ASTStatement.unparse]⟩
    simp [transformNodeIter, transformReturnStmt]
  · rcases h with - | ⟨⟨rfl, rfl⟩, - | ⟨⟨-, e, he, rfl⟩, - | ⟨⟨rfl, rfl⟩, - | -⟩⟩⟩
    refine ⟨.return (some e), returns_node ?_, by simp [ASTStatement.unparse]⟩
    filter_upwards [he] with fuel he
    simp [transformNodeIter, transformReturnStmt, he, ASTNode.toExpression]

theorem result_statement (hrhs : rhs ∈ productions .statement) (h : Each (Result stof) rhs cs w) :
    Result stof (.nonterminal .statement) (node "statement" cs) w := by
  have hchild : ∀ {t s}, Returns stof t (.statement s) →
      Returns stof ⟨"statement", [t]⟩ (.statement s) := by
    intro t s hs
    apply returns_node
    filter_upwards [hs] with fuel hs
    exact hs
  simp only [productions, List.mem_cons, List.not_mem_nil, or_false] at hrhs
  rcases hrhs with rfl | rfl | rfl | rfl | rfl
  · rcases h with - | ⟨⟨s, hs, rfl⟩, - | -⟩
    exact ⟨s, hchild hs, by simp⟩
  · rcases h with - | ⟨⟨s, hs, rfl⟩, - | -⟩
    exact ⟨.compound s.1 s.2, hchild hs, by simp⟩
  · rcases h with - | ⟨⟨s, hs, rfl⟩, - | -⟩
    exact ⟨s, hchild hs, by simp⟩
  · rcases h with - | ⟨⟨s, hs, rfl⟩, - | -⟩
    exact ⟨s, hchild hs, by simp⟩
  · rcases h with - | ⟨⟨s, hs, rfl⟩, - | -⟩
    exact ⟨s, hchild hs, by simp⟩

theorem result_statementList (hrhs : rhs ∈ productions .statementList)
    (h : Each (Result stof) rhs cs w) :
    Result stof (.nonterminal .statementList) (node "statement-list" cs) w := by
  simp only [productions, List.mem_cons, List.not_mem_nil, or_false] at hrhs
  rcases hrhs with rfl | rfl
  · rcases h with - | ⟨⟨ss, ⟨base, xs, hwalk, hitems⟩, rfl⟩, - | ⟨⟨s, hs, rfl⟩, - | -⟩⟩
    exact ⟨ss ++ [s], ⟨base, _, hwalk.step rfl rfl rfl, hitems.snoc hs⟩, by simp⟩
  · rcases h with - | -
    exact ⟨[], ⟨_, [], walks_base (by simp [node]), .nil⟩, rfl⟩

theorem result_localDeclarations (hrhs : rhs ∈ productions .localDeclarations)
    (h : Each (Result stof) rhs cs w) :
    Result stof (.nonterminal .localDeclarations) (node "local-declarations" cs) w := by
  simp only [productions, List.mem_cons, List.not_mem_nil, or_false] at hrhs
  rcases hrhs with rfl | rfl
  · rcases h with - | ⟨⟨ds, ⟨base, xs, hwalk, hitems⟩, rfl⟩, - | ⟨⟨d, hd, rfl⟩, - | -⟩⟩
    exact ⟨ds ++ [d], ⟨base, _, hwalk.step rfl rfl rfl, hitems.snoc hd⟩, by simp⟩
  · rcases h with - | -
    exact ⟨[], ⟨_, [], walks_base (by simp [node]), .nil⟩, rfl⟩

theorem result_compoundStmt (hrhs : rhs ∈ productions .compoundStmt)
    (h : Each (Result stof) rhs cs w) :
    Result stof (.nonterminal .compoundStmt) (node "compound-stmt" cs) w := by
  simp only [productions, List.mem_cons, List.not_mem_nil, or_false] at hrhs
  subst hrhs
  rcases h with - | ⟨⟨rfl, rfl⟩, - | ⟨⟨ds, hds, rfl⟩, - | ⟨⟨ss, hss, rfl⟩, - | ⟨⟨rfl, rfl⟩,
    - | -⟩⟩⟩⟩
  refine ⟨⟨ds, ss⟩, returns_node ?_, by simp [ASTStatement.unparse, unparseStatements_eq_flatMap]⟩
  filter_upwards [hds.list ASTNode.toVarDeclaration fun _ => rfl,
    hss.list ASTNode.toStatement fun _ => rfl] with fuel hds hss
  show transformCompoundStmt (transformNodeIter stof fuel) fuel _ = _
  simp [transformCompoundStmt, hds, hss]

/-! ### Declarations -/

theorem result_typeSpecifier (hrhs : rhs ∈ productions .typeSpecifier)
    (h : Each (Result stof) rhs cs w) :
    Result stof (.nonterminal .typeSpecifier) (node "type-specifier" cs) w := by
  simp only [productions, List.mem_cons, List.not_mem_nil, or_false] at hrhs
  rcases hrhs with rfl | rfl | rfl
  · rcases h with - | ⟨⟨rfl, rfl⟩, - | -⟩
    exact ⟨.int, rfl, rfl⟩
  · rcases h with - | ⟨⟨rfl, rfl⟩, - | -⟩
    exact ⟨.float, rfl, rfl⟩
  · rcases h with - | ⟨⟨rfl, rfl⟩, - | -⟩
    exact ⟨.void, rfl, rfl⟩

/-- A type that is not `void` is read back. -/
theorem scalar_type {type : CminusType} {cs : List SyntaxTreeNode}
    (hs : (⟨"type-specifier", [⟨type.text, []⟩]⟩ :: cs).head? ≠
      some ⟨"type-specifier", [⟨"void", []⟩]⟩) :
    (if type.text = "int" then CminusType.int else .float) = type := by
  cases type with
  | int => rfl
  | float => rfl
  | void => exact absurd rfl hs

theorem result_varDeclaration (hrhs : rhs ∈ productions .varDeclaration)
    (h : Each (Result stof) rhs cs w)
    (hs : cs.head? ≠ some ⟨"type-specifier", [⟨"void", []⟩]⟩) :
    Result stof (.nonterminal .varDeclaration) (node "var-declaration" cs) w := by
  simp only [productions, List.mem_cons, List.not_mem_nil, or_false] at hrhs
  rcases hrhs with rfl | rfl
  · rcases h with - | ⟨⟨type, rfl, rfl⟩, - | ⟨⟨id, rfl, rfl⟩, - | ⟨⟨rfl, rfl⟩, - | -⟩⟩⟩
    refine ⟨⟨type, id, none⟩, returns_node (.of_forall fun fuel => ?_), rfl⟩
    show transformVarDeclaration _ = _
    simp [transformVarDeclaration, SyntaxTreeNode.specifier, scalar_type hs]
  · rcases h with - | ⟨⟨type, rfl, rfl⟩, - | ⟨⟨id, rfl, rfl⟩, - | ⟨⟨rfl, rfl⟩, - |
      ⟨⟨text, n, rfl, hn, rfl⟩, - | ⟨⟨rfl, rfl⟩, - | ⟨⟨rfl, rfl⟩, - | -⟩⟩⟩⟩⟩⟩
    refine ⟨⟨type, id, some n⟩, returns_node (.of_forall fun fuel => ?_), rfl⟩
    show transformVarDeclaration _ = _
    simp [transformVarDeclaration, SyntaxTreeNode.specifier, scalar_type hs, hn, getNumber]

theorem result_param (hrhs : rhs ∈ productions .param) (h : Each (Result stof) rhs cs w)
    (hs : cs.head? ≠ some ⟨"type-specifier", [⟨"void", []⟩]⟩) :
    Result stof (.nonterminal .param) (node "param" cs) w := by
  simp only [productions, List.mem_cons, List.not_mem_nil, or_false] at hrhs
  rcases hrhs with rfl | rfl
  · rcases h with - | ⟨⟨type, rfl, rfl⟩, - | ⟨⟨id, rfl, rfl⟩, - | -⟩⟩
    refine ⟨⟨type, id, false⟩, returns_node (.of_forall fun fuel => ?_), rfl⟩
    show transformParam _ = _
    simp [transformParam, SyntaxTreeNode.specifier, scalar_type hs]
  · rcases h with - | ⟨⟨type, rfl, rfl⟩, - | ⟨⟨id, rfl, rfl⟩, - | ⟨⟨rfl, rfl⟩, - |
      ⟨⟨rfl, rfl⟩, - | -⟩⟩⟩⟩
    refine ⟨⟨type, id, true⟩, returns_node (.of_forall fun fuel => ?_), rfl⟩
    show transformParam _ = _
    simp [transformParam, SyntaxTreeNode.specifier, scalar_type hs]

theorem result_paramList (hrhs : rhs ∈ productions .paramList) (h : Each (Result stof) rhs cs w) :
    Result stof (.nonterminal .paramList) (node "param-list" cs) w := by
  simp only [productions, List.mem_cons, List.not_mem_nil, or_false] at hrhs
  rcases hrhs with rfl | rfl
  · rcases h with - | ⟨⟨-, ps, hps, rfl⟩, - | ⟨⟨rfl, rfl⟩, - | ⟨⟨p, hp, rfl⟩, - | -⟩⟩⟩
    refine ⟨by simp, ps ++ [p], hps.step rfl rfl rfl hp, ?_⟩
    have hne : ps.map ASTParam.unparse ≠ [] := by simpa using hps.ne_nil
    rw [List.map_append, List.map_singleton, commaSeparated_append _ hne]
    simp
  · rcases h with - | ⟨⟨p, hp, rfl⟩, - | -⟩
    exact ⟨by simp, [p], lists_base (by simp) rfl hp, by simp [commaSeparated]⟩

theorem result_params (hrhs : rhs ∈ productions .params) (h : Each (Result stof) rhs cs w) :
    Result stof (.nonterminal .params) (node "params" cs) w := by
  simp only [productions, List.mem_cons, List.not_mem_nil, or_false] at hrhs
  rcases hrhs with rfl | rfl
  · rcases h with - | ⟨⟨hnum, ps, hps, rfl⟩, - | -⟩
    refine ⟨_, ps, rfl, ?_, .inr ⟨hnum, hps⟩⟩
    cases ps with
    | nil => exact absurd rfl hps.ne_nil
    | cons p ps => simp [unparseParams]
  · rcases h with - | ⟨⟨rfl, rfl⟩, - | -⟩
    exact ⟨_, [], rfl, rfl, .inl ⟨rfl, rfl⟩⟩

theorem result_funDeclaration (hrhs : rhs ∈ productions .funDeclaration)
    (h : Each (Result stof) rhs cs w) :
    Result stof (.nonterminal .funDeclaration) (node "fun-declaration" cs) w := by
  simp only [productions, List.mem_cons, List.not_mem_nil, or_false] at hrhs
  subst hrhs
  rcases h with - | ⟨⟨type, rfl, rfl⟩, - | ⟨⟨id, rfl, rfl⟩, - | ⟨⟨rfl, rfl⟩, - |
    ⟨⟨list, ps, hlist, rfl, hps⟩, - | ⟨⟨rfl, rfl⟩, - | ⟨⟨s, hs, rfl⟩, - | -⟩⟩⟩⟩⟩⟩
  have htype : (if type.text = "int" then CminusType.int
      else if type.text = "float" then .float else .void) = type := by
    cases type <;> rfl
  refine ⟨⟨type, id, ps, s.1, s.2⟩, returns_node ?_, by simp [ASTFunDeclaration.unparse]⟩
  rcases hps with ⟨hnum, rfl⟩ | ⟨hnum, hps⟩
  · filter_upwards [hs] with fuel hs
    show transformFunDeclaration (transformNodeIter stof fuel) fuel _ = _
    simp [transformFunDeclaration, SyntaxTreeNode.specifier, htype, hlist, hnum, hs,
      ASTNode.toCompoundStmt]
  · filter_upwards [hs, hps.items ASTNode.toParam fun _ => rfl] with fuel hs hps
    show transformFunDeclaration (transformNodeIter stof fuel) fuel _ = _
    simp [transformFunDeclaration, SyntaxTreeNode.specifier, htype, hlist, hnum, hs, hps,
      ASTNode.toCompoundStmt]

theorem result_declaration (hrhs : rhs ∈ productions .declaration)
    (h : Each (Result stof) rhs cs w) :
    Result stof (.nonterminal .declaration) (node "declaration" cs) w := by
  simp only [productions, List.mem_cons, List.not_mem_nil, or_false] at hrhs
  rcases hrhs with rfl | rfl
  · rcases h with - | ⟨⟨d, hd, rfl⟩, - | -⟩
    refine ⟨.var d, returns_node ?_, by simp [ASTDeclaration.unparse]⟩
    filter_upwards [hd] with fuel hd
    exact hd
  · rcases h with - | ⟨⟨d, hd, rfl⟩, - | -⟩
    refine ⟨.fun d, returns_node ?_, by simp [ASTDeclaration.unparse]⟩
    filter_upwards [hd] with fuel hd
    exact hd

theorem result_declarationList (hrhs : rhs ∈ productions .declarationList)
    (h : Each (Result stof) rhs cs w) :
    Result stof (.nonterminal .declarationList) (node "declaration-list" cs) w := by
  simp only [productions, List.mem_cons, List.not_mem_nil, or_false] at hrhs
  rcases hrhs with rfl | rfl
  · rcases h with - | ⟨⟨ds, hds, rfl⟩, - | ⟨⟨d, hd, rfl⟩, - | -⟩⟩
    exact ⟨ds ++ [d], hds.step rfl rfl rfl hd, by simp⟩
  · rcases h with - | ⟨⟨d, hd, rfl⟩, - | -⟩
    exact ⟨[d], lists_base (by simp) rfl hd, by simp⟩

theorem result_program (hrhs : rhs ∈ productions .program) (h : Each (Result stof) rhs cs w) :
    Result stof (.nonterminal .program) (node "program" cs) w := by
  simp only [productions, List.mem_cons, List.not_mem_nil, or_false] at hrhs
  subst hrhs
  rcases h with - | ⟨⟨ds, hds, rfl⟩, - | -⟩
  refine ⟨⟨ds⟩, returns_node ?_, by simp [ASTProgram.unparse]⟩
  filter_upwards [hds.items ASTNode.toDeclaration fun _ => rfl] with fuel hds
  show transformProgram (transformNodeIter stof fuel) fuel _ = _
  simp [transformProgram, hds]

/-! ### Operators and numbers -/

theorem result_relop (hrhs : rhs ∈ productions .relop) (h : Each (Result stof) rhs cs w) :
    Result stof (.nonterminal .relop) (node "relop" cs) w := by
  simp only [productions, List.mem_cons, List.not_mem_nil, or_false] at hrhs
  rcases hrhs with rfl | rfl | rfl | rfl | rfl | rfl
  · rcases h with - | ⟨⟨rfl, rfl⟩, - | -⟩
    exact ⟨.le, _, rfl, rfl, rfl⟩
  · rcases h with - | ⟨⟨rfl, rfl⟩, - | -⟩
    exact ⟨.lt, _, rfl, rfl, rfl⟩
  · rcases h with - | ⟨⟨rfl, rfl⟩, - | -⟩
    exact ⟨.gt, _, rfl, rfl, rfl⟩
  · rcases h with - | ⟨⟨rfl, rfl⟩, - | -⟩
    exact ⟨.ge, _, rfl, rfl, rfl⟩
  · rcases h with - | ⟨⟨rfl, rfl⟩, - | -⟩
    exact ⟨.eq, _, rfl, rfl, rfl⟩
  · rcases h with - | ⟨⟨rfl, rfl⟩, - | -⟩
    exact ⟨.neq, _, rfl, rfl, rfl⟩

theorem result_addop (hrhs : rhs ∈ productions .addop) (h : Each (Result stof) rhs cs w) :
    Result stof (.nonterminal .addop) (node "addop" cs) w := by
  simp only [productions, List.mem_cons, List.not_mem_nil, or_false] at hrhs
  rcases hrhs with rfl | rfl
  · rcases h with - | ⟨⟨rfl, rfl⟩, - | -⟩
    exact ⟨.plus, _, rfl, rfl, rfl⟩
  · rcases h with - | ⟨⟨rfl, rfl⟩, - | -⟩
    exact ⟨.minus, _, rfl, rfl, rfl⟩

theorem result_mulop (hrhs : rhs ∈ productions .mulop) (h : Each (Result stof) rhs cs w) :
    Result stof (.nonterminal .mulop) (node "mulop" cs) w := by
  simp only [productions, List.mem_cons, List.not_mem_nil, or_false] at hrhs
  rcases hrhs with rfl | rfl
  · rcases h with - | ⟨⟨rfl, rfl⟩, - | -⟩
    exact ⟨.mul, _, rfl, rfl, rfl⟩
  · rcases h with - | ⟨⟨rfl, rfl⟩, - | -⟩
    exact ⟨.div, _, rfl, rfl, rfl⟩

theorem result_integer (hrhs : rhs ∈ productions .integer) (h : Each (Result stof) rhs cs w) :
    Result stof (.nonterminal .integer) (node "integer" cs) w := by
  simp only [productions, List.mem_cons, List.not_mem_nil, or_false] at hrhs
  subst hrhs
  rcases h with - | ⟨⟨text, n, rfl, hn, rfl⟩, - | -⟩
  exact ⟨text, n, rfl, hn, rfl⟩

theorem result_float (hrhs : rhs ∈ productions .float) (h : Each (Result stof) rhs cs w) :
    Result stof (.nonterminal .float) (node "float" cs) w := by
  simp only [productions, List.mem_cons, List.not_mem_nil, or_false] at hrhs
  subst hrhs
  rcases h with - | ⟨⟨text, x, rfl, hx, rfl⟩, - | -⟩
  exact ⟨text, x, rfl, hx, rfl⟩

theorem result_terminal {k : Terminal} (h : (syntaxAnalyzer stof).leaf k t w) :
    Result stof (.terminal k) t w := by
  obtain ⟨text, token, hmatch, hnode, htoken, rfl⟩ := h
  unfold newSyntaxTreeNode at hnode
  split at hnode
  · obtain rfl := Option.some.inj hnode
    cases k
    case identifier =>
      cases htoken
      exact ⟨text, rfl, rfl⟩
    case integer =>
      obtain ⟨n, hn, rfl⟩ := Option.map_eq_some_iff.mp htoken
      exact ⟨text, n, rfl, hn, rfl⟩
    case floatpoint =>
      obtain ⟨x, hx, rfl⟩ := Option.map_eq_some_iff.mp htoken
      exact ⟨text, x, rfl, hx, rfl⟩
    all_goals
      cases htoken
      cases hmatch
      exact ⟨rfl, rfl⟩
  · cases hnode

/-! ### The grammar -/

theorem result_production {A : NonTerminal} (hrhs : rhs ∈ productions A)
    (h : Each (Result stof) rhs cs w) (hs : A.name = "var-declaration" ∨ A.name = "param" →
      cs.head? ≠ some ⟨"type-specifier", [⟨"void", []⟩]⟩) :
    Result stof (.nonterminal A) (node A.name cs) w := by
  cases A with
  | program => exact result_program hrhs h
  | declarationList => exact result_declarationList hrhs h
  | declaration => exact result_declaration hrhs h
  | varDeclaration => exact result_varDeclaration hrhs h (hs (.inl rfl))
  | typeSpecifier => exact result_typeSpecifier hrhs h
  | funDeclaration => exact result_funDeclaration hrhs h
  | params => exact result_params hrhs h
  | paramList => exact result_paramList hrhs h
  | param => exact result_param hrhs h (hs (.inr rfl))
  | compoundStmt => exact result_compoundStmt hrhs h
  | localDeclarations => exact result_localDeclarations hrhs h
  | statementList => exact result_statementList hrhs h
  | statement => exact result_statement hrhs h
  | expressionStmt => exact result_expressionStmt hrhs h
  | selectionStmt => exact result_selectionStmt hrhs h
  | iterationStmt => exact result_iterationStmt hrhs h
  | returnStmt => exact result_returnStmt hrhs h
  | expression => exact result_expression hrhs h
  | var => exact result_var hrhs h
  | simpleExpression => exact result_simpleExpression hrhs h
  | relop => exact result_relop hrhs h
  | additiveExpression => exact result_additiveExpression hrhs h
  | addop => exact result_addop hrhs h
  | term => exact result_term hrhs h
  | mulop => exact result_mulop hrhs h
  | factor => exact result_factor hrhs h
  | integer => exact result_integer hrhs h
  | float => exact result_float hrhs h
  | call => exact result_call hrhs h
  | args => exact result_args hrhs h
  | argList => exact result_argList hrhs h

theorem scalarTypes_mk : ScalarTypes ⟨name, cs⟩ ↔ (name = "var-declaration" ∨ name = "param" →
    cs.head? ≠ some ⟨"type-specifier", [⟨"void", []⟩]⟩) ∧ ∀ c ∈ cs, ScalarTypes c := by
  constructor
  · rintro ⟨hs, hc⟩
    exact ⟨hs, hc⟩
  · exact fun h => .mk h.1 h.2

theorem ScalarTypes.mono {children : List SyntaxTreeNode} (h : ScalarTypes (node name children)) :
    (name = "var-declaration" ∨ name = "param" →
      children.head? ≠ some ⟨"type-specifier", [⟨"void", []⟩]⟩) ∧ ∀ c ∈ children, ScalarTypes c := by
  cases children with
  | nil => exact ⟨fun _ => by simp, by simp⟩
  | cons c cs => exact scalarTypes_mk.mp h

/-- The transformation of a parse tree succeeds, and its result unparses to the yield of the
tree. -/
theorem transformNodeIter_unparse (stof : String → Option (BitVec 32)) {t : SyntaxTreeNode}
    {w : List Token} (h : Derives (syntaxAnalyzer stof) (.nonterminal .program) t w)
    (hs : ScalarTypes t) : ∃ p, p.unparse = w ∧
      ∃ bound, ∀ fuel ≥ bound, toAST stof fuel t = .ok p := by
  have hresult : ∀ {s t w}, Derives (syntaxAnalyzer stof) s t w → ScalarTypes t →
      Result stof s t w := by
    intro s t w h
    apply h.rec_productions (P := fun s t w => ScalarTypes t → Result stof s t w)
    · exact fun k t w hleaf _ => result_terminal hleaf
    · intro A rhs hrhs cs w hall hs
      obtain ⟨hhead, hcs⟩ := hs.mono
      exact result_production hrhs (hall.imp fun hc hx => hx (hcs _ hc)) hhead
  obtain ⟨p, hp, rfl⟩ := hresult h hs
  obtain ⟨bound, hbound⟩ := eventually_atTop.mp hp
  refine ⟨p, rfl, bound, fun fuel hf => ?_⟩
  rw [toAST, hbound fuel hf]
  rfl

/-- The tree of `void f(int x) { return x; }`, from its lexemes. -/
def returnTree : SyntaxTreeNode :=
  let leaf (text : String) : SyntaxTreeNode := ⟨text, []⟩
  let var : SyntaxTreeNode := ⟨"var", [leaf "x"]⟩
  let simple : SyntaxTreeNode := ⟨"simple-expression", [⟨"additive-expression",
    [⟨"term", [⟨"factor", [var]⟩]⟩]⟩]⟩
  let statement : SyntaxTreeNode := ⟨"statement", [⟨"return-stmt",
    [leaf "return", ⟨"expression", [simple]⟩, leaf ";"]⟩]⟩
  let body : SyntaxTreeNode := ⟨"compound-stmt", [leaf "\x7b", ⟨"local-declarations", [leaf "epsilon"]⟩,
    ⟨"statement-list", [⟨"statement-list", [leaf "epsilon"]⟩, statement]⟩, leaf "\x7d"]⟩
  let param : SyntaxTreeNode := ⟨"param", [⟨"type-specifier", [leaf "int"]⟩, leaf "x"]⟩
  ⟨"program", [⟨"declaration-list", [⟨"declaration", [⟨"fun-declaration",
    [⟨"type-specifier", [leaf "void"]⟩, leaf "f", leaf "(",
    ⟨"params", [⟨"param-list", [param]⟩]⟩, leaf ")", body]⟩]⟩]⟩]⟩

def returnTokens : List Token :=
  [.fixed .void, .identifier "f", .fixed .lparenthese, .fixed .int, .identifier "x",
    .fixed .rparenthese, .fixed .lbrace, .fixed .return, .identifier "x", .fixed .semicolon,
    .fixed .rbrace]

theorem derives_returnTree :
    Derives (syntaxAnalyzer fun _ => none) (.nonterminal .program) returnTree returnTokens := by
  have fixed : ∀ k : Terminal, k ≠ .identifier ∧ k ≠ .integer ∧ k ≠ .floatpoint →
      Derives (syntaxAnalyzer fun _ => none) (.terminal k) ⟨k.text, []⟩ [.fixed k] := by
    rintro k ⟨h1, h2, h3⟩
    refine .terminal ⟨k.text, .fixed k, ?_, ?_, ?_, rfl⟩ <;> cases k <;> first | rfl | contradiction
  have id : ∀ text ∈ ["x", "f"],
      Derives (syntaxAnalyzer fun _ => none) (.terminal .identifier) ⟨text, []⟩ [.identifier text] := by
    intro text htext
    refine .terminal ⟨text, .identifier text, ?_, ?_, rfl, rfl⟩
    · rcases List.mem_pair.mp htext with rfl | rfl <;> exact ⟨by decide, by simp, by decide⟩
    · rcases List.mem_pair.mp htext with rfl | rfl <;> rfl
  have rule : ∀ {rhs cs w} A i, (productions A)[i]? = some rhs →
      DerivesAll (syntaxAnalyzer fun _ => none) rhs cs w →
      Derives (syntaxAnalyzer fun _ => none) (.nonterminal A) (node A.name cs) w :=
    fun A i hrhs h => .production (List.mem_of_getElem? hrhs) h
  have var := rule .factor 1 rfl (.cons (rule .var 0 rfl (.cons (id "x" (by decide)) .nil)) .nil)
  have simple := rule .simpleExpression 1 rfl (.cons (rule .additiveExpression 1 rfl
    (.cons (rule .term 1 rfl (.cons var .nil)) .nil)) .nil)
  have expression := rule .expression 1 rfl (.cons simple .nil)
  have statement := rule .statement 4 rfl (.cons (rule .returnStmt 1 rfl
    (.cons (fixed .return (by decide)) (.cons expression (.cons (fixed .semicolon (by decide)) .nil))))
    .nil)
  have statements := rule .statementList 0 rfl
    (.cons (rule .statementList 1 rfl .nil) (.cons statement .nil))
  have body := rule .compoundStmt 0 rfl (.cons (fixed .lbrace (by decide))
    (.cons (rule .localDeclarations 1 rfl .nil) (.cons statements
      (.cons (fixed .rbrace (by decide)) .nil))))
  have param := rule .param 0 rfl (.cons (rule .typeSpecifier 0 rfl
    (.cons (fixed .int (by decide)) .nil)) (.cons (id "x" (by decide)) .nil))
  have params := rule .params 0 rfl (.cons (rule .paramList 1 rfl (.cons param .nil)) .nil)
  have function := rule .funDeclaration 0 rfl (.cons (rule .typeSpecifier 2 rfl
    (.cons (fixed .void (by decide)) .nil)) (.cons (id "f" (by decide))
      (.cons (fixed .lparenthese (by decide)) (.cons params
        (.cons (fixed .rparenthese (by decide)) (.cons body .nil))))))
  exact rule .program 0 rfl (.cons (rule .declarationList 1 rfl
    (.cons (rule .declaration 1 rfl (.cons function .nil)) .nil)) .nil)

theorem scalarTypes_returnTree : ScalarTypes returnTree := by
  simp [returnTree, scalarTypes_mk]

theorem transformNodeIter_unparse_returnTree : ∃ p, p.unparse = returnTokens ∧
    ∃ bound, ∀ fuel ≥ bound, toAST (fun _ => none) fuel returnTree = .ok p :=
  transformNodeIter_unparse _ derives_returnTree scalarTypes_returnTree

end Cminusf
