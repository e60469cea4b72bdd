import Cminusf.Parser.Transform
import Mathlib.Data.List.Forall2
import Mathlib.Order.Filter.AtTopBot.Basic

/-! The tokens of an abstract syntax tree, and that the transformation of a parse tree
keeps them. -/

namespace Cminusf

open Grammar Filter

def CminusType.token : CminusType → Token
  | .int => .fixed .int
  | .float => .fixed .float
  | .void => .fixed .void

def RelOp.token : RelOp → Token
  | .le => .fixed .lte
  | .lt => .fixed .lt
  | .gt => .fixed .gt
  | .ge => .fixed .gte
  | .eq => .fixed .eq
  | .neq => .fixed .neq

def AddOp.token : AddOp → Token
  | .plus => .fixed .add
  | .minus => .fixed .sub

def MulOp.token : MulOp → Token
  | .mul => .fixed .mul
  | .div => .fixed .div

def ASTNum.token : ASTNum → Token
  | .int iVal => .integer iVal
  | .float fVal => .floatpoint fVal

/-- Items with commas between them. -/
def commaSeparated : List (List Token) → List Token
  | [] => []
  | [item] => item
  | item :: items => item ++ .fixed .comma :: commaSeparated items

mutual

def ASTExpression.unparse : ASTExpression → List Token
  | .assign var expression => var.unparse ++ .fixed .assin :: expression.unparse
  | .simple l => l.unparse
  | .relation l op r => l.unparse ++ op.token :: r.unparse

def ASTAdditiveExpression.unparse : ASTAdditiveExpression → List Token
  | .ofTerm term => term.unparse
  | .additive l op term => l.unparse ++ op.token :: term.unparse

def ASTTerm.unparse : ASTTerm → List Token
  | .ofFactor factor => factor.unparse
  | .multiplicative term op factor => term.unparse ++ op.token :: factor.unparse

def ASTFactor.unparse : ASTFactor → List Token
  | .num num => [num.token]
  | .var var => var.unparse
  | .call id args => .identifier id :: .fixed .lparenthese :: (commaSeparated (unparseArgs args) ++
      [.fixed .rparenthese])
  | .expression expression => .fixed .lparenthese :: (expression.unparse ++ [.fixed .rparenthese])

def ASTVar.unparse : ASTVar → List Token
  | .scalar id => [.identifier id]
  | .subscript id expression => .identifier id :: .fixed .lbracket ::
      (expression.unparse ++ [.fixed .rbracket])

def unparseArgs : List ASTExpression → List (List Token)
  | [] => []
  | arg :: args => arg.unparse :: unparseArgs args

end

def ASTVarDeclaration.unparse (d : ASTVarDeclaration) : List Token :=
  d.type.token :: .identifier d.id :: match d.num with
    | none => [.fixed .semicolon]
    | some num => [.fixed .lbracket, .integer num, .fixed .rbracket, .fixed .semicolon]

mutual

def ASTStatement.unparse : ASTStatement → List Token
  | .compound decls stmts => .fixed .lbrace :: (decls.flatMap ASTVarDeclaration.unparse ++
      (unparseStatements stmts ++ [.fixed .rbrace]))
  | .expressionStmt none => [.fixed .semicolon]
  | .expressionStmt (some expression) => expression.unparse ++ [.fixed .semicolon]
  | .selection expression ifStatement => .fixed .if :: .fixed .lparenthese ::
      (expression.unparse ++ .fixed .rparenthese :: ifStatement.unparse)
  | .selectionElse expression ifStatement elseStatement => .fixed .if :: .fixed .lparenthese ::
      (expression.unparse ++ .fixed .rparenthese ::
        (ifStatement.unparse ++ .fixed .else :: elseStatement.unparse))
  | .iteration expression statement => .fixed .while :: .fixed .lparenthese ::
      (expression.unparse ++ .fixed .rparenthese :: statement.unparse)
  | .return none => [.fixed .return, .fixed .semicolon]
  | .return (some expression) => .fixed .return :: (expression.unparse ++ [.fixed .semicolon])

def unparseStatements : List ASTStatement → List Token
  | [] => []
  | stmt :: stmts => stmt.unparse ++ unparseStatements stmts

end

def ASTParam.unparse (p : ASTParam) : List Token :=
  p.type.token :: .identifier p.id ::
    if p.isarray then [.fixed .lbracket, .fixed .rbracket] else []

def unparseParams : List ASTParam → List Token
  | [] => [.fixed .void]
  | params => commaSeparated (params.map ASTParam.unparse)

def ASTFunDeclaration.unparse (d : ASTFunDeclaration) : List Token :=
  d.type.token :: .identifier d.id :: .fixed .lparenthese :: (unparseParams d.params ++
    .fixed .rparenthese :: (ASTStatement.compound d.localDeclarations d.statementList).unparse)

def ASTDeclaration.unparse : ASTDeclaration → List Token
  | .var d => d.unparse
  | .fun d => d.unparse

def ASTProgram.unparse (p : ASTProgram) : List Token :=
  p.declarations.flatMap ASTDeclaration.unparse

/-- The text of a type specifier. -/
def CminusType.text : CminusType → String
  | .int => "int"
  | .float => "float"
  | .void => "void"

/-- The node that is cast to a factor. -/
def ASTFactor.node : ASTFactor → ASTNode
  | .num n => .num n
  | .var v => .var v
  | .call id args => .call id args
  | .expression e => .expression e

theorem unparseArgs_eq_map (args : List ASTExpression) :
    unparseArgs args = args.map ASTExpression.unparse := by
  induction args with
  | nil => rfl
  | cons arg args ih => rw [unparseArgs, ih, List.map_cons]

theorem unparseStatements_eq_flatMap (stmts : List ASTStatement) :
    unparseStatements stmts = stmts.flatMap ASTStatement.unparse := by
  induction stmts with
  | nil => rfl
  | cons stmt stmts ih => rw [unparseStatements, ih, List.flatMap_cons]

theorem commaSeparated_append {items : List (List Token)} (item : List Token) (h : items ≠ []) :
    commaSeparated (items ++ [item]) = commaSeparated items ++ .fixed .comma :: item := by
  induction items with
  | nil => exact absurd rfl h
  | cons first items ih =>
    cases items with
    | nil => rfl
    | cons second items =>
      have hrest := ih (List.cons_ne_nil _ _)
      simp only [List.cons_append, commaSeparated] at hrest ⊢
      rw [hrest]
      simp

section

variable {stof : String → Option (BitVec 32)} {α : Type} {t u first : SyntaxTreeNode}
  {w : List Token} {a : ASTNode} {wrap : α → ASTNode}
  {unparse : α → List Token} {xs : List SyntaxTreeNode} {as : List α} {num : Nat}

/-- With enough fuel the transformation of `t` returns `a`. -/
def Returns (stof : String → Option (BitVec 32)) (t : SyntaxTreeNode) (a : ASTNode) : Prop :=
  ∀ᶠ fuel in atTop, transformNodeIter stof fuel t = pure a

theorem eventually_succ {p : Nat → Prop} (h : ∀ᶠ fuel in atTop, p (fuel + 1)) :
    ∀ᶠ fuel in atTop, p fuel := by
  obtain ⟨bound, h⟩ := eventually_atTop.mp h
  apply eventually_atTop.mpr
  refine ⟨bound + 1, fun fuel hf => ?_⟩
  obtain ⟨k, rfl⟩ := Nat.exists_eq_add_of_le' (show 1 ≤ fuel by omega)
  exact h k (by omega)

/-- The transformation of `t` returns a node of the class of `wrap` whose tokens are `w`. -/
def Makes (stof : String → Option (BitVec 32)) (wrap : α → ASTNode) (unparse : α → List Token)
    (t : SyntaxTreeNode) (w : List Token) : Prop :=
  ∃ a, Returns stof t (wrap a) ∧ unparse a = w

/-- The loop over a list pushes `xs`, the first one last, and ends at `base`. -/
def Walks (num : Nat) (t base : SyntaxTreeNode) (xs : List SyntaxTreeNode) : Prop :=
  base.childrenNum ≠ num ∧ ∀ᶠ fuel in atTop, ∀ s, flatten num fuel t s = pure (base, xs ++ s)

theorem walks_base (h : t.childrenNum ≠ num) : Walks num t t [] := by
  refine ⟨h, eventually_succ (.of_forall fun fuel s => ?_)⟩
  simp [flatten, h]

theorem Walks.step {base x : SyntaxTreeNode} (h : Walks num u base xs) (hnum : t.childrenNum = num)
    (hfirst : t.child 0 = pure u) (hlast : t.child (num - 1) = pure x) :
    Walks num t base (xs ++ [x]) := by
  refine ⟨h.1, eventually_succ ?_⟩
  filter_upwards [h.2] with fuel h s
  simp [flatten, hnum, hfirst, hlast, h]

def Items (stof : String → Option (BitVec 32)) (wrap : α → ASTNode) :
    List SyntaxTreeNode → List α → Prop :=
  List.Forall₂ fun x a => Returns stof x (wrap a)

theorem Items.snoc {b : α} (h : Items stof wrap xs as) (hb : Returns stof t (wrap b)) :
    Items stof wrap (xs ++ [t]) (as ++ [b]) :=
  List.rel_append h (.cons hb .nil)

theorem Items.stack (h : Items stof wrap xs as) (cast : ASTNode → Exec α)
    (hcast : ∀ a, cast (wrap a) = pure a) :
    ∀ᶠ fuel in atTop, transformStack (transformNodeIter stof fuel) cast xs = pure as := by
  induction h with
  | nil => exact .of_forall fun fuel => rfl
  | @cons x a xs as hx _ ih =>
    filter_upwards [hx, ih] with fuel hx ih
    unfold transformStack at ih ⊢
    rw [List.mapM_cons, ih, hx]
    simp [hcast]

/-- A list with at least one item. -/
def Lists (stof : String → Option (BitVec 32)) (num : Nat) (wrap : α → ASTNode)
    (t : SyntaxTreeNode) (as : List α) : Prop :=
  ∃ base first xs, Walks num t base xs ∧ base.child 0 = pure first ∧
    Items stof wrap (first :: xs) as

theorem Lists.items (h : Lists stof num wrap t as) (cast : ASTNode → Exec α)
    (hcast : ∀ a, cast (wrap a) = pure a) :
    ∀ᶠ fuel in atTop, transformItems (transformNodeIter stof fuel) fuel num cast t = pure as := by
  obtain ⟨base, first, xs, hwalk, hfirst, hitems⟩ := h
  filter_upwards [hwalk.2, hitems.stack cast hcast] with fuel hw hs
  simp [transformItems, hw, hfirst, hs]

theorem Lists.ne_nil (h : Lists stof num wrap t as) : as ≠ [] := by
  obtain ⟨base, first, xs, -, -, hitems⟩ := h
  rintro rfl
  cases hitems

theorem lists_base {b : α} (hnum : t.childrenNum ≠ num) (hfirst : t.child 0 = pure first)
    (hb : Returns stof first (wrap b)) : Lists stof num wrap t [b] :=
  ⟨t, first, [], walks_base hnum, hfirst, .cons hb .nil⟩

theorem Lists.step {x : SyntaxTreeNode} {b : α} (h : Lists stof num wrap u as)
    (hnum : t.childrenNum = num) (hfirst : t.child 0 = pure u)
    (hlast : t.child (num - 1) = pure x) (hb : Returns stof x (wrap b)) :
    Lists stof num wrap t (as ++ [b]) := by
  obtain ⟨base, first, xs, hwalk, hbase, hitems⟩ := h
  exact ⟨base, first, xs ++ [x], hwalk.step hnum hfirst hlast, hbase, hitems.snoc hb⟩

/-- A list that may be empty. -/
def MayList (stof : String → Option (BitVec 32)) (wrap : α → ASTNode) (t : SyntaxTreeNode)
    (as : List α) : Prop :=
  ∃ base xs, Walks 2 t base xs ∧ Items stof wrap xs as

theorem MayList.list (h : MayList stof wrap t as) (cast : ASTNode → Exec α)
    (hcast : ∀ a, cast (wrap a) = pure a) :
    ∀ᶠ fuel in atTop, transformList (transformNodeIter stof fuel) fuel cast t = pure as := by
  obtain ⟨base, xs, ⟨hbase, hwalk⟩, hitems⟩ := h
  filter_upwards [hwalk, hitems.stack cast hcast, eventually_gt_atTop 0] with fuel hw hs hpos
  unfold transformList
  by_cases hnum : t.childrenNum = 2
  · simp [hnum, hw, hs]
  · -- The loop does not start, so the list has no items.
    obtain ⟨k, rfl⟩ := Nat.exists_eq_succ_of_ne_zero hpos.ne'
    have hnil := hw []
    simp only [flatten, hnum, if_false] at hnil
    obtain ⟨-, hxs⟩ := Prod.mk.inj (Except.ok.inj hnil)
    rw [List.append_nil] at hxs
    subst hxs
    cases hitems
    simp [hnum]

/-- What the proof tells of the tree of each symbol and its yield. -/
def Result (stof : String → Option (BitVec 32)) :
    Symbol Terminal NonTerminal → SyntaxTreeNode → List Token → Prop
  | .terminal .identifier, t, w => ∃ id, t = ⟨id, []⟩ ∧ w = [.identifier id]
  | .terminal .integer, t, w => ∃ text n, t = ⟨text, []⟩ ∧ stoi text = some n ∧ w = [.integer n]
  | .terminal .floatpoint, t, w => ∃ text x, t = ⟨text, []⟩ ∧ stof text = some x ∧ w = [.floatpoint x]
  | .terminal k, t, w => t = ⟨k.text, []⟩ ∧ w = [.fixed k]
  | .nonterminal .program, t, w => Makes stof .program ASTProgram.unparse t w
  | .nonterminal .declarationList, t, w =>
    ∃ ds, Lists stof 2 .declaration t ds ∧ ds.flatMap ASTDeclaration.unparse = w
  | .nonterminal .declaration, t, w => Makes stof .declaration ASTDeclaration.unparse t w
  | .nonterminal .varDeclaration, t, w =>
    Makes stof (fun d => .declaration (.var d)) ASTVarDeclaration.unparse t w
  | .nonterminal .typeSpecifier, t, w =>
    ∃ type, t = ⟨"type-specifier", [⟨CminusType.text type, []⟩]⟩ ∧ w = [type.token]
  | .nonterminal .funDeclaration, t, w =>
    Makes stof (fun d => .declaration (.fun d)) ASTFunDeclaration.unparse t w
  | .nonterminal .params, t, w => ∃ listPtr ps, t.child 0 = pure listPtr ∧ unparseParams ps = w ∧
      (listPtr.childrenNum = 0 ∧ ps = [] ∨
        listPtr.childrenNum ≠ 0 ∧ Lists stof 3 .param listPtr ps)
  | .nonterminal .paramList, t, w => t.childrenNum ≠ 0 ∧
      ∃ ps, Lists stof 3 .param t ps ∧ commaSeparated (ps.map ASTParam.unparse) = w
  | .nonterminal .param, t, w => Makes stof .param ASTParam.unparse t w
  | .nonterminal .compoundStmt, t, w => Makes stof
      (fun s : List ASTVarDeclaration × List ASTStatement => .statement (.compound s.1 s.2))
      (fun s => (ASTStatement.compound s.1 s.2).unparse) t w
  | .nonterminal .localDeclarations, t, w => ∃ ds, MayList stof (fun d => .declaration (.var d)) t ds ∧
      ds.flatMap ASTVarDeclaration.unparse = w
  | .nonterminal .statementList, t, w =>
    ∃ ss, MayList stof .statement t ss ∧ ss.flatMap ASTStatement.unparse = w
  | .nonterminal .statement, t, w | .nonterminal .expressionStmt, t, w
  | .nonterminal .selectionStmt, t, w | .nonterminal .iterationStmt, t, w
  | .nonterminal .returnStmt, t, w => Makes stof .statement ASTStatement.unparse t w
  | .nonterminal .expression, t, w => t.name = "expression" ∧
      Makes stof .expression ASTExpression.unparse t w
  | .nonterminal .simpleExpression, t, w => Makes stof .expression ASTExpression.unparse t w
  | .nonterminal .var, t, w => t.name = "var" ∧ Makes stof .var ASTVar.unparse t w
  | .nonterminal .relop, t, w =>
    ∃ op text, t = ⟨"relop", [⟨text, []⟩]⟩ ∧ relOp text = some op ∧ w = [op.token]
  | .nonterminal .additiveExpression, t, w =>
    Makes stof .additiveExpression ASTAdditiveExpression.unparse t w
  | .nonterminal .addop, t, w =>
    ∃ op text, t = ⟨"addop", [⟨text, []⟩]⟩ ∧ addOp text = some op ∧ w = [op.token]
  | .nonterminal .term, t, w => Makes stof .term ASTTerm.unparse t w
  | .nonterminal .mulop, t, w =>
    ∃ op text, t = ⟨"mulop", [⟨text, []⟩]⟩ ∧ mulOp text = some op ∧ w = [op.token]
  | .nonterminal .factor, t, w => Makes stof ASTFactor.node ASTFactor.unparse t w
  | .nonterminal .integer, t, w =>
    ∃ text n, t = ⟨"integer", [⟨text, []⟩]⟩ ∧ stoi text = some n ∧ w = [.integer n]
  | .nonterminal .float, t, w =>
    ∃ text x, t = ⟨"float", [⟨text, []⟩]⟩ ∧ stof text = some x ∧ w = [.floatpoint x]
  | .nonterminal .call, t, w => t.name = "call" ∧
      Makes stof (fun c : String × List ASTExpression => .call c.1 c.2)
        (fun c => (ASTFactor.call c.1 c.2).unparse) t w
  | .nonterminal .args, t, w => ∃ listPtr es, t.child 0 = pure listPtr ∧
      commaSeparated (es.map ASTExpression.unparse) = w ∧
      (listPtr.name ≠ "arg-list" ∧ es = [] ∨
        listPtr.name = "arg-list" ∧ Lists stof 3 .expression listPtr es)
  | .nonterminal .argList, t, w => t.name = "arg-list" ∧
      ∃ es, Lists stof 3 .expression t es ∧ commaSeparated (es.map ASTExpression.unparse) = w

end

end Cminusf
