import Cminusf.Parser.NodeName
import Cminusf.Parser.Yield
import Cminusf.Settles

/-! A parse tree is transformed just when the numbers in it can be represented. -/

namespace Cminusf

open Grammar Filter Exec

variable {stof : String → Option (BitVec 32)} {α β γ : Type} {wrap : α → ASTNode}
  {rhs : List (Symbol Terminal NonTerminal)} {cs xs : List SyntaxTreeNode}
  {t u x first : SyntaxTreeNode} {w v : List (Terminal × String)} {p q : Prop} {num : Nat}

/-- The numbers among the tokens can be represented. -/
def Fits (stof : String → Option (BitVec 32)) (w : List (Terminal × String)) : Prop :=
  ∀ x ∈ w, (x.1.token stof x.2).isSome

@[simp] theorem fits_nil : Fits stof [] := List.forall_mem_nil _

@[simp] theorem fits_append : Fits stof (v ++ w) ↔ Fits stof v ∧ Fits stof w :=
  List.forall_mem_append

@[simp] theorem fits_cons {k : Terminal} {text : String} :
    Fits stof ((k, text) :: w) ↔ (k.token stof text).isSome ∧ Fits stof w :=
  List.forall_mem_cons

/-- An object of the class of `wrap`. -/
def IsA (wrap : α → ASTNode) (a : ASTNode) : Prop := ∃ b, a = wrap b

/-- The transformation of `t` returns an object of the class of `wrap` just when `p` holds. -/
abbrev Transforms (stof : String → Option (BitVec 32)) (wrap : α → ASTNode) (t : SyntaxTreeNode)
    (p : Prop) : Prop :=
  Settles (fun fuel => transformNodeIter stof fuel t) p (IsA wrap)

theorem transforms_node (h : Settles (fun fuel => transformNodeIter stof (fuel + 1) t) p (IsA wrap)) :
    Transforms stof wrap t p :=
  h.of_succ rfl

/-- A child is transformed and its object used. -/
theorem Transforms.bind {Q : γ → Prop} {cast : ASTNode → Exec β} {c : α → β}
    {f : β → Nat → Exec γ} (h : Transforms stof wrap t p) (hcast : ∀ b, cast (wrap b) = pure (c b))
    (hf : ∀ b, Settles (f b) q Q) :
    Settles (fun fuel => transformNodeIter stof fuel t >>= fun a => cast a >>= fun b => f b fuel)
      (p ∧ q) Q := by
  apply Settles.bind h
  rintro a ⟨b, rfl⟩
  simp only [hcast]
  exact hf (c b)

/-- A child is transformed, and its object makes that of the node. -/
theorem Transforms.last {Q : γ → Prop} {cast : ASTNode → Exec β} {c : α → β} {f : β → Exec γ}
    (h : Transforms stof wrap t p) (hcast : ∀ b, cast (wrap b) = pure (c b))
    (hf : ∀ b, ∃ d, f b = pure d ∧ Q d) :
    Settles (fun fuel => transformNodeIter stof fuel t >>= fun a => cast a >>= f) p Q := by
  apply Settles.map h
  rintro a ⟨b, rfl⟩
  simp only [hcast]
  exact hf (c b)

theorem Transforms.as {wrap' : β → ASTNode} {c : α → β} (h : Transforms stof wrap t p)
    (hc : ∀ b, wrap b = wrap' (c b)) : Transforms stof wrap' t p := by
  apply h.mono .rfl
  rintro a ⟨b, rfl⟩
  exact ⟨c b, hc b⟩

theorem settles_getNumber {n : Option (BitVec 32)} :
    Settles (fun _ => getNumber n) n.isSome fun _ => True := by
  cases n with
  | none =>
    refine ⟨fun h => absurd h (by simp), fun fuel a h => ?_⟩
    cases h
  | some n => exact (Settles.pure trivial).iff (by simp)

/-! ### Lists -/

theorem flatten_le (num : Nat) {fuel fuel' : Nat} (hle : fuel ≤ fuel') (t : SyntaxTreeNode)
    (s : List SyntaxTreeNode) : Le (flatten num fuel t s) (flatten num fuel' t s) := by
  induction fuel generalizing fuel' t s with
  | zero => exact .of_outOfFuel _
  | succ fuel ih =>
    obtain ⟨k, rfl⟩ := Nat.exists_eq_add_of_le' (show 1 ≤ fuel' by omega)
    simp only [flatten]
    split
    · exact (Le.refl _).bind fun item => (Le.refl _).bind fun first => ih (by omega) first _
    · exact .refl _

/-- The items are transformed just when `p` holds. -/
def Stacks (stof : String → Option (BitVec 32)) (wrap : α → ASTNode) (xs : List SyntaxTreeNode)
    (p : Prop) : Prop :=
  ∃ ps, List.Forall₂ (Transforms stof wrap) xs ps ∧ (p ↔ ∀ q ∈ ps, q)

theorem stacks_nil : Stacks stof wrap [] True := ⟨[], .nil, by simp⟩

theorem stacks_singleton (h : Transforms stof wrap t p) : Stacks stof wrap [t] p :=
  ⟨[p], .cons h .nil, (List.forall_mem_singleton (p := id)).symm⟩

theorem Stacks.snoc (h : Stacks stof wrap xs p) (hx : Transforms stof wrap x q) :
    Stacks stof wrap (xs ++ [x]) (p ∧ q) := by
  obtain ⟨ps, hps, hp⟩ := h
  refine ⟨ps ++ [q], List.rel_append hps (.cons hx .nil), ?_⟩
  rw [List.forall_mem_append, List.forall_mem_singleton, hp]

theorem Stacks.settles (h : Stacks stof wrap xs p) {cast : ASTNode → Exec α}
    (hcast : ∀ b, cast (wrap b) = pure b) :
    Settles (fun fuel => transformStack (transformNodeIter stof fuel) cast xs) p fun _ => True := by
  obtain ⟨ps, hps, hp⟩ := h
  refine (Settles.mapM (hps.imp fun x q hx => ?_)).iff hp
  apply Settles.map hx
  rintro a ⟨b, rfl⟩
  exact ⟨b, hcast b, trivial⟩

theorem Walks.settles {base : SyntaxTreeNode} (h : Walks num t base xs) :
    Settles (fun fuel => flatten num fuel t []) True (· = (base, xs)) := by
  refine Settles.of_eventually ?_ fun fuel fuel' hle => flatten_le num hle t []
  filter_upwards [h.2] with fuel h
  rw [h, List.append_nil]

/-- The items of a list with at least one item are transformed just when `p` holds. -/
def Listed (stof : String → Option (BitVec 32)) (num : Nat) (wrap : α → ASTNode)
    (t : SyntaxTreeNode) (p : Prop) : Prop :=
  ∃ base first xs, Walks num t base xs ∧ base.child 0 = pure first ∧
    Stacks stof wrap (first :: xs) p

theorem listed_base (hnum : t.childrenNum ≠ num) (hfirst : t.child 0 = pure first)
    (h : Transforms stof wrap first p) : Listed stof num wrap t p :=
  ⟨t, first, [], walks_base hnum, hfirst, stacks_singleton h⟩

theorem Listed.step (h : Listed stof num wrap u p) (hnum : t.childrenNum = num)
    (hfirst : t.child 0 = pure u) (hlast : t.child (num - 1) = pure x)
    (hx : Transforms stof wrap x q) : Listed stof num wrap t (p ∧ q) := by
  obtain ⟨base, first, xs, hwalk, hbase, hstack⟩ := h
  exact ⟨base, first, xs ++ [x], hwalk.step hnum hfirst hlast, hbase, hstack.snoc hx⟩

theorem Listed.iff (h : Listed stof num wrap t p) (hp : q ↔ p) : Listed stof num wrap t q := by
  rwa [propext hp]

theorem Listed.settles (h : Listed stof num wrap t p) {cast : ASTNode → Exec α}
    (hcast : ∀ b, cast (wrap b) = pure b) : Settles
      (fun fuel => transformItems (transformNodeIter stof fuel) fuel num cast t) p fun _ => True := by
  obtain ⟨base, first, xs, hwalk, hfirst, hstack⟩ := h
  refine (hwalk.settles.bind fun a ha => ?_).iff (iff_of_eq (true_and p).symm)
  subst ha
  simp only [hfirst]
  exact hstack.settles hcast

/-- The items of a list that may be empty are transformed just when `p` holds. -/
def MayListed (stof : String → Option (BitVec 32)) (wrap : α → ASTNode) (t : SyntaxTreeNode)
    (p : Prop) : Prop :=
  ∃ base xs, Walks 2 t base xs ∧ Stacks stof wrap xs p

theorem MayListed.settles (h : MayListed stof wrap t p) {cast : ASTNode → Exec α}
    (hcast : ∀ b, cast (wrap b) = pure b) : Settles
      (fun fuel => transformList (transformNodeIter stof fuel) fuel cast t) p fun _ => True := by
  obtain ⟨base, xs, hwalk, hstack⟩ := h
  unfold transformList
  by_cases hnum : t.childrenNum = 2
  · simp only [hnum, if_true]
    refine (hwalk.settles.bind fun a ha => ?_).iff (iff_of_eq (true_and p).symm)
    subst ha
    exact hstack.settles hcast
  · -- The loop does not start, so the list has no items.
    have hwalk' : Walks 2 t t [] := walks_base hnum
    obtain ⟨a, ha, hev⟩ := hwalk.settles.returns trivial
    obtain ⟨fuel, hfuel, hfuel'⟩ := (hev.and hwalk'.2).exists
    rw [ha, hfuel' []] at hfuel
    obtain ⟨-, hxs⟩ := Prod.mk.inj (Except.ok.inj hfuel)
    rw [List.append_nil] at hxs
    subst hxs
    obtain ⟨ps, hps, hp⟩ := hstack
    cases hps
    simp only [hnum, if_false]
    exact (Settles.pure trivial).iff (by simpa using hp)

/-- What the proof tells of the tree of each symbol and its tokens. -/
def Outcome (stof : String → Option (BitVec 32)) :
    Symbol Terminal NonTerminal → SyntaxTreeNode → List (Terminal × String) → Prop
  | .terminal k, t, w => ∃ text, k.Matches text ∧ t = ⟨text, []⟩ ∧ w = [(k, text)]
  | .nonterminal .program, t, w => Transforms stof .program t (Fits stof w)
  | .nonterminal .declarationList, t, w => Listed stof 2 .declaration t (Fits stof w)
  | .nonterminal .declaration, t, w => Transforms stof .declaration t (Fits stof w)
  | .nonterminal .varDeclaration, t, w =>
    Transforms stof (fun d => .declaration (.var d)) t (Fits stof w)
  | .nonterminal .typeSpecifier, t, w =>
    ∃ text, t = ⟨"type-specifier", [⟨text, []⟩]⟩ ∧ Fits stof w
  | .nonterminal .funDeclaration, t, w =>
    Transforms stof (fun d => .declaration (.fun d)) t (Fits stof w)
  | .nonterminal .params, t, w => ∃ listPtr, t.child 0 = pure listPtr ∧
      (listPtr.childrenNum = 0 ∧ Fits stof w ∨
        listPtr.childrenNum ≠ 0 ∧ Listed stof 3 .param listPtr (Fits stof w))
  | .nonterminal .paramList, t, w => t.childrenNum ≠ 0 ∧ Listed stof 3 .param t (Fits stof w)
  | .nonterminal .param, t, w => Transforms stof .param t (Fits stof w)
  | .nonterminal .compoundStmt, t, w => Transforms stof
      (fun s : List ASTVarDeclaration × List ASTStatement => .statement (.compound s.1 s.2)) t
      (Fits stof w)
  | .nonterminal .localDeclarations, t, w =>
    MayListed stof (fun d => .declaration (.var d)) t (Fits stof w)
  | .nonterminal .statementList, t, w => MayListed stof .statement t (Fits stof w)
  | .nonterminal .statement, t, w | .nonterminal .expressionStmt, t, w
  | .nonterminal .selectionStmt, t, w | .nonterminal .iterationStmt, t, w
  | .nonterminal .returnStmt, t, w => Transforms stof .statement t (Fits stof w)
  | .nonterminal .expression, t, w =>
    t.name = "expression" ∧ Transforms stof .expression t (Fits stof w)
  | .nonterminal .simpleExpression, t, w => Transforms stof .expression t (Fits stof w)
  | .nonterminal .var, t, w => t.name = "var" ∧ Transforms stof .var t (Fits stof w)
  | .nonterminal .relop, t, w =>
    ∃ text op, t = ⟨"relop", [⟨text, []⟩]⟩ ∧ relOp text = some op ∧ Fits stof w
  | .nonterminal .additiveExpression, t, w => Transforms stof .additiveExpression t (Fits stof w)
  | .nonterminal .addop, t, w =>
    ∃ text op, t = ⟨"addop", [⟨text, []⟩]⟩ ∧ addOp text = some op ∧ Fits stof w
  | .nonterminal .term, t, w => Transforms stof .term t (Fits stof w)
  | .nonterminal .mulop, t, w =>
    ∃ text op, t = ⟨"mulop", [⟨text, []⟩]⟩ ∧ mulOp text = some op ∧ Fits stof w
  | .nonterminal .factor, t, w => Transforms stof ASTFactor.node t (Fits stof w)
  | .nonterminal .integer, t, w =>
    ∃ text, t = ⟨"integer", [⟨text, []⟩]⟩ ∧ w = [(.integer, text)]
  | .nonterminal .float, t, w =>
    ∃ text, t = ⟨"float", [⟨text, []⟩]⟩ ∧ w = [(.floatpoint, text)]
  | .nonterminal .call, t, w => t.name = "call" ∧
      Transforms stof (fun c : String × List ASTExpression => .call c.1 c.2) t (Fits stof w)
  | .nonterminal .args, t, w => ∃ listPtr, t.child 0 = pure listPtr ∧
      (listPtr.name ≠ "arg-list" ∧ Fits stof w ∨
        listPtr.name = "arg-list" ∧ Listed stof 3 .expression listPtr (Fits stof w))
  | .nonterminal .argList, t, w =>
    t.name = "arg-list" ∧ Listed stof 3 .expression t (Fits stof w)

/-! ### Expressions -/

theorem outcome_factor (hrhs : rhs ∈ productions .factor) (h : Each (Outcome stof) rhs cs w) :
    Outcome stof (.nonterminal .factor) (node "factor" cs) w := by
  simp only [productions, List.mem_cons, List.not_mem_nil, or_false] at hrhs
  rcases hrhs with rfl | rfl | rfl | rfl | rfl
  · rcases h with - | ⟨⟨_, -, rfl, rfl⟩, - | ⟨⟨hname, he⟩, - | ⟨⟨_, -, rfl, rfl⟩, - | -⟩⟩⟩
    apply transforms_node
    simp [transformNodeIter, transformFactor, hname, Terminal.token]
    exact he.as (c := ASTFactor.expression) fun _ => rfl
  · rcases h with - | ⟨⟨hname, hv⟩, - | -⟩
    apply transforms_node
    simp [transformNodeIter, transformFactor, hname]
    exact hv.as (c := ASTFactor.var) fun _ => rfl
  · rcases h with - | ⟨⟨hname, hc⟩, - | -⟩
    apply transforms_node
    simp [transformNodeIter, transformFactor, hname]
    exact hc.as (c := fun c => .call c.1 c.2) fun _ => rfl
  · rcases h with - | ⟨⟨text, rfl, rfl⟩, - | -⟩
    apply transforms_node
    simp [transformNodeIter, transformFactor, Terminal.token]
    exact settles_getNumber.map fun n _ => ⟨_, rfl, .num (.int n), rfl⟩
  · rcases h with - | ⟨⟨text, rfl, rfl⟩, - | -⟩
    apply transforms_node
    simp [transformNodeIter, transformFactor, Terminal.token]
    exact settles_getNumber.map fun x _ => ⟨_, rfl, .num (.float x), rfl⟩

theorem outcome_term (hrhs : rhs ∈ productions .term) (h : Each (Outcome stof) rhs cs w) :
    Outcome stof (.nonterminal .term) (node "term" cs) w := by
  simp only [productions, List.mem_cons, List.not_mem_nil, or_false] at hrhs
  rcases hrhs with rfl | rfl
  · rcases h with - | ⟨hl, - | ⟨⟨text, op, rfl, hop, hw⟩, - | ⟨hf, - | -⟩⟩⟩
    apply transforms_node
    simp [transformNodeIter, transformTerm, SyntaxTreeNode.specifier, hop, getOp, hw]
    exact hl.bind (fun _ => rfl) fun l => hf.last toFactor_node fun f => ⟨_, rfl, _, rfl⟩
  · rcases h with - | ⟨hf, - | -⟩
    apply transforms_node
    simp [transformNodeIter, transformTerm]
    exact hf.last toFactor_node fun f => ⟨_, rfl, _, rfl⟩

theorem outcome_additiveExpression (hrhs : rhs ∈ productions .additiveExpression)
    (h : Each (Outcome stof) rhs cs w) :
    Outcome stof (.nonterminal .additiveExpression) (node "additive-expression" cs) w := by
  simp only [productions, List.mem_cons, List.not_mem_nil, or_false] at hrhs
  rcases hrhs with rfl | rfl
  · rcases h with - | ⟨hl, - | ⟨⟨text, op, rfl, hop, hw⟩, - | ⟨hr, - | -⟩⟩⟩
    apply transforms_node
    simp [transformNodeIter, transformAdditiveExpression, SyntaxTreeNode.specifier, hop, getOp, hw]
    exact hl.bind (fun _ => rfl) fun l => hr.last (fun _ => rfl) fun r => ⟨_, rfl, _, rfl⟩
  · rcases h with - | ⟨hr, - | -⟩
    apply transforms_node
    simp [transformNodeIter, transformAdditiveExpression]
    exact hr.last (fun _ => rfl) fun r => ⟨_, rfl, _, rfl⟩

theorem outcome_simpleExpression (hrhs : rhs ∈ productions .simpleExpression)
    (h : Each (Outcome stof) rhs cs w) :
    Outcome stof (.nonterminal .simpleExpression) (node "simple-expression" cs) w := by
  simp only [productions, List.mem_cons, List.not_mem_nil, or_false] at hrhs
  rcases hrhs with rfl | rfl
  · rcases h with - | ⟨hl, - | ⟨⟨text, op, rfl, hop, hw⟩, - | ⟨hr, - | -⟩⟩⟩
    apply transforms_node
    simp [transformNodeIter, transformSimpleExpression, SyntaxTreeNode.specifier, hop, getOp, hw]
    exact hl.bind (fun _ => rfl) fun l => hr.last (fun _ => rfl) fun r => ⟨_, rfl, _, rfl⟩
  · rcases h with - | ⟨hl, - | -⟩
    apply transforms_node
    simp [transformNodeIter, transformSimpleExpression]
    exact hl.last (fun _ => rfl) fun l => ⟨_, rfl, _, rfl⟩

theorem outcome_expression (hrhs : rhs ∈ productions .expression)
    (h : Each (Outcome stof) rhs cs w) :
    Outcome stof (.nonterminal .expression) (node "expression" cs) w := by
  simp only [productions, List.mem_cons, List.not_mem_nil, or_false] at hrhs
  rcases hrhs with rfl | rfl
  · rcases h with - | ⟨⟨-, hv⟩, - | ⟨⟨_, -, rfl, rfl⟩, - | ⟨⟨-, he⟩, - | -⟩⟩⟩
    refine ⟨rfl, transforms_node ?_⟩
    simp [transformNodeIter, transformExpression, Terminal.token]
    exact hv.bind (fun _ => rfl) fun v => he.last (fun _ => rfl) fun e => ⟨_, rfl, _, rfl⟩
  · rcases h with - | ⟨he, - | -⟩
    refine ⟨rfl, transforms_node ?_⟩
    simp [transformNodeIter, transformExpression]
    exact he

theorem outcome_var (hrhs : rhs ∈ productions .var) (h : Each (Outcome stof) rhs cs w) :
    Outcome stof (.nonterminal .var) (node "var" cs) w := by
  simp only [productions, List.mem_cons, List.not_mem_nil, or_false] at hrhs
  rcases hrhs with rfl | rfl
  · rcases h with - | ⟨⟨id, -, rfl, rfl⟩, - | -⟩
    refine ⟨rfl, transforms_node ?_⟩
    simp [transformNodeIter, transformVar, Terminal.token]
    exact .pure ⟨_, rfl⟩
  · rcases h with - | ⟨⟨id, -, rfl, rfl⟩, - | ⟨⟨_, -, rfl, rfl⟩, - | ⟨⟨-, he⟩, - |
      ⟨⟨_, -, rfl, rfl⟩, - | -⟩⟩⟩⟩
    refine ⟨rfl, transforms_node ?_⟩
    simp [transformNodeIter, transformVar, Terminal.token]
    exact he.last (fun _ => rfl) fun e => ⟨_, rfl, _, rfl⟩

theorem outcome_argList (hrhs : rhs ∈ productions .argList) (h : Each (Outcome stof) rhs cs w) :
    Outcome stof (.nonterminal .argList) (node "arg-list" cs) w := by
  simp only [productions, List.mem_cons, List.not_mem_nil, or_false] at hrhs
  rcases hrhs with rfl | rfl
  · rcases h with - | ⟨⟨-, hes⟩, - | ⟨⟨_, -, rfl, rfl⟩, - | ⟨⟨-, he⟩, - | -⟩⟩⟩
    refine ⟨rfl, (hes.step rfl rfl rfl he).iff ?_⟩
    simp [Terminal.token]
  · rcases h with - | ⟨⟨-, he⟩, - | -⟩
    exact ⟨rfl, (listed_base (by simp) rfl he).iff (by simp)⟩

theorem outcome_args (hrhs : rhs ∈ productions .args) (h : Each (Outcome stof) rhs cs w) :
    Outcome stof (.nonterminal .args) (node "args" cs) w := by
  simp only [productions, List.mem_cons, List.not_mem_nil, or_false] at hrhs
  rcases hrhs with rfl | rfl
  · rcases h with - | ⟨⟨hname, hes⟩, - | -⟩
    exact ⟨_, rfl, .inr ⟨hname, hes.iff (by simp)⟩⟩
  · rcases h with - | -
    exact ⟨_, rfl, .inl ⟨by simp, fits_nil⟩⟩

theorem outcome_call (hrhs : rhs ∈ productions .call) (h : Each (Outcome stof) rhs cs w) :
    Outcome stof (.nonterminal .call) (node "call" cs) w := by
  simp only [productions, List.mem_cons, List.not_mem_nil, or_false] at hrhs
  subst hrhs
  rcases h with - | ⟨⟨id, -, rfl, rfl⟩, - | ⟨⟨_, -, rfl, rfl⟩, - | ⟨⟨list, hlist, hes⟩, - |
    ⟨⟨_, -, rfl, rfl⟩, - | -⟩⟩⟩⟩
  refine ⟨rfl, transforms_node ?_⟩
  rcases hes with ⟨hname, hw⟩ | ⟨hname, hes⟩
  · simp [transformNodeIter, transformCall, hlist, hname, hw, Terminal.token]
    exact .pure ⟨(id, []), rfl⟩
  · simp [transformNodeIter, transformCall, hlist, hname, Terminal.token]
    exact (hes.settles fun _ => rfl).map fun es _ => ⟨_, rfl, (id, es), rfl⟩

/-! ### Statements -/

theorem outcome_expressionStmt (hrhs : rhs ∈ productions .expressionStmt)
    (h : Each (Outcome stof) rhs cs w) :
    Outcome stof (.nonterminal .expressionStmt) (node "expression-stmt" cs) w := by
  simp only [productions, List.mem_cons, List.not_mem_nil, or_false] at hrhs
  rcases hrhs with rfl | rfl
  · rcases h with - | ⟨⟨-, he⟩, - | ⟨⟨_, -, rfl, rfl⟩, - | -⟩⟩
    apply transforms_node
    simp [transformNodeIter, transformExpressionStmt, Terminal.token]
    exact he.last (fun _ => rfl) fun e => ⟨_, rfl, _, rfl⟩
  · rcases h with - | ⟨⟨_, -, rfl, rfl⟩, - | -⟩
    apply transforms_node
    simp [transformNodeIter, transformExpressionStmt, Terminal.token]
    exact .pure ⟨_, rfl⟩

theorem outcome_selectionStmt (hrhs : rhs ∈ productions .selectionStmt)
    (h : Each (Outcome stof) rhs cs w) :
    Outcome stof (.nonterminal .selectionStmt) (node "selection-stmt" cs) w := by
  simp only [productions, List.mem_cons, List.not_mem_nil, or_false] at hrhs
  rcases hrhs with rfl | rfl
  · rcases h with - | ⟨⟨_, -, rfl, rfl⟩, - | ⟨⟨_, -, rfl, rfl⟩, - | ⟨⟨-, he⟩, - |
      ⟨⟨_, -, rfl, rfl⟩, - | ⟨hs, - | -⟩⟩⟩⟩⟩
    apply transforms_node
    simp [transformNodeIter, transformSelectionStmt, Terminal.token]
    exact he.bind (fun _ => rfl) fun e => hs.last (fun _ => rfl) fun s => ⟨_, rfl, _, rfl⟩
  · rcases h with - | ⟨⟨_, -, rfl, rfl⟩, - | ⟨⟨_, -, rfl, rfl⟩, - | ⟨⟨-, he⟩, - |
      ⟨⟨_, -, rfl, rfl⟩, - | ⟨hs, - | ⟨⟨_, -, rfl, rfl⟩, - | ⟨hs', - | -⟩⟩⟩⟩⟩⟩⟩
    apply transforms_node
    simp [transformNodeIter, transformSelectionStmt, Terminal.token]
    exact he.bind (fun _ => rfl) fun e => hs.bind (fun _ => rfl) fun s =>
      hs'.last (fun _ => rfl) fun s' => ⟨_, rfl, _, rfl⟩

theorem outcome_iterationStmt (hrhs : rhs ∈ productions .iterationStmt)
    (h : Each (Outcome stof) rhs cs w) :
    Outcome stof (.nonterminal .iterationStmt) (node "iteration-stmt" cs) w := by
  simp only [productions, List.mem_cons, List.not_mem_nil, or_false] at hrhs
  subst hrhs
  rcases h with - | ⟨⟨_, -, rfl, rfl⟩, - | ⟨⟨_, -, rfl, rfl⟩, - | ⟨⟨-, he⟩, - |
    ⟨⟨_, -, rfl, rfl⟩, - | ⟨hs, - | -⟩⟩⟩⟩⟩
  apply transforms_node
  simp [transformNodeIter, transformIterationStmt, Terminal.token]
  exact he.bind (fun _ => rfl) fun e => hs.last (fun _ => rfl) fun s => ⟨_, rfl, _, rfl⟩

theorem outcome_returnStmt (hrhs : rhs ∈ productions .returnStmt)
    (h : Each (Outcome stof) rhs cs w) :
    Outcome stof (.nonterminal .returnStmt) (node "return-stmt" cs) w := by
  simp only [productions, List.mem_cons, List.not_mem_nil, or_false] at hrhs
  rcases hrhs with rfl | rfl
  · rcases h with - | ⟨⟨_, -, rfl, rfl⟩, - | ⟨⟨_, -, rfl, rfl⟩, - | -⟩⟩
    apply transforms_node
    simp [transformNodeIter, transformReturnStmt, Terminal.token]
    exact .pure ⟨_, rfl⟩
  · rcases h with - | ⟨⟨_, -, rfl, rfl⟩, - | ⟨⟨-, he⟩, - | ⟨⟨_, -, rfl, rfl⟩, - | -⟩⟩⟩
    apply transforms_node
    simp [transformNodeIter, transformReturnStmt, Terminal.token]
    exact he.last (fun _ => rfl) fun e => ⟨_, rfl, _, rfl⟩

theorem outcome_statement (hrhs : rhs ∈ productions .statement)
    (h : Each (Outcome stof) rhs cs w) :
    Outcome stof (.nonterminal .statement) (node "statement" cs) w := by
  have hchild : ∀ {t p}, Transforms stof .statement t p →
      Transforms stof .statement ⟨"statement", [t]⟩ p := by
    intro t p hs
    apply transforms_node
    exact hs
  simp only [productions, List.mem_cons, List.not_mem_nil, or_false] at hrhs
  rcases hrhs with rfl | rfl | rfl | rfl | rfl
  · rcases h with - | ⟨hs, - | -⟩
    exact (hchild hs).iff (by simp)
  · rcases h with - | ⟨hs, - | -⟩
    exact (hchild (hs.as (c := fun s => .compound s.1 s.2) fun _ => rfl)).iff (by simp)
  · rcases h with - | ⟨hs, - | -⟩
    exact (hchild hs).iff (by simp)
  · rcases h with - | ⟨hs, - | -⟩
    exact (hchild hs).iff (by simp)
  · rcases h with - | ⟨hs, - | -⟩
    exact (hchild hs).iff (by simp)

theorem MayListed.step (h : MayListed stof wrap u p) (hnum : t.childrenNum = 2)
    (hfirst : t.child 0 = pure u) (hlast : t.child 1 = pure x) (hx : Transforms stof wrap x q)
    {p' : Prop} (hp : p' ↔ p ∧ q) : MayListed stof wrap t p' := by
  obtain ⟨base, xs, hwalk, hstack⟩ := h
  rw [propext hp]
  exact ⟨base, xs ++ [x], hwalk.step hnum hfirst hlast, hstack.snoc hx⟩

theorem mayListed_nil (hnum : t.childrenNum ≠ 2) (hp : p) : MayListed stof wrap t p := by
  rw [propext (iff_true_intro hp)]
  exact ⟨t, [], walks_base hnum, stacks_nil⟩

theorem outcome_statementList (hrhs : rhs ∈ productions .statementList)
    (h : Each (Outcome stof) rhs cs w) :
    Outcome stof (.nonterminal .statementList) (node "statement-list" cs) w := by
  simp only [productions, List.mem_cons, List.not_mem_nil, or_false] at hrhs
  rcases hrhs with rfl | rfl
  · rcases h with - | ⟨hss, - | ⟨hs, - | -⟩⟩
    exact hss.step rfl rfl rfl hs (by simp)
  · rcases h with - | -
    exact mayListed_nil (by simp [node]) fits_nil

theorem outcome_localDeclarations (hrhs : rhs ∈ productions .localDeclarations)
    (h : Each (Outcome stof) rhs cs w) :
    Outcome stof (.nonterminal .localDeclarations) (node "local-declarations" cs) w := by
  simp only [productions, List.mem_cons, List.not_mem_nil, or_false] at hrhs
  rcases hrhs with rfl | rfl
  · rcases h with - | ⟨hds, - | ⟨hd, - | -⟩⟩
    exact hds.step rfl rfl rfl hd (by simp)
  · rcases h with - | -
    exact mayListed_nil (by simp [node]) fits_nil

theorem outcome_compoundStmt (hrhs : rhs ∈ productions .compoundStmt)
    (h : Each (Outcome stof) rhs cs w) :
    Outcome stof (.nonterminal .compoundStmt) (node "compound-stmt" cs) w := by
  simp only [productions, List.mem_cons, List.not_mem_nil, or_false] at hrhs
  subst hrhs
  rcases h with - | ⟨⟨_, -, rfl, rfl⟩, - | ⟨hds, - | ⟨hss, - | ⟨⟨_, -, rfl, rfl⟩, - | -⟩⟩⟩⟩
  apply transforms_node
  simp [transformNodeIter, transformCompoundStmt, Terminal.token]
  exact (hds.settles fun _ => rfl).bind fun ds _ =>
    (hss.settles fun _ => rfl).map fun ss _ => ⟨_, rfl, (ds, ss), rfl⟩

/-! ### Declarations -/

theorem outcome_typeSpecifier (hrhs : rhs ∈ productions .typeSpecifier)
    (h : Each (Outcome stof) rhs cs w) :
    Outcome stof (.nonterminal .typeSpecifier) (node "type-specifier" cs) w := by
  simp only [productions, List.mem_cons, List.not_mem_nil, or_false] at hrhs
  rcases hrhs with rfl | rfl | rfl
  · rcases h with - | ⟨⟨text, -, rfl, rfl⟩, - | -⟩
    exact ⟨text, rfl, by simp [Terminal.token]⟩
  · rcases h with - | ⟨⟨text, -, rfl, rfl⟩, - | -⟩
    exact ⟨text, rfl, by simp [Terminal.token]⟩
  · rcases h with - | ⟨⟨text, -, rfl, rfl⟩, - | -⟩
    exact ⟨text, rfl, by simp [Terminal.token]⟩

theorem outcome_varDeclaration (hrhs : rhs ∈ productions .varDeclaration)
    (h : Each (Outcome stof) rhs cs w) :
    Outcome stof (.nonterminal .varDeclaration) (node "var-declaration" cs) w := by
  simp only [productions, List.mem_cons, List.not_mem_nil, or_false] at hrhs
  rcases hrhs with rfl | rfl
  · rcases h with - | ⟨⟨type, rfl, hw⟩, - | ⟨⟨id, -, rfl, rfl⟩, - | ⟨⟨_, -, rfl, rfl⟩, - | -⟩⟩⟩
    apply transforms_node
    simp [transformNodeIter, transformVarDeclaration, SyntaxTreeNode.specifier, hw, Terminal.token]
    exact .pure ⟨_, rfl⟩
  · rcases h with - | ⟨⟨type, rfl, hw⟩, - | ⟨⟨id, -, rfl, rfl⟩, - | ⟨⟨_, -, rfl, rfl⟩, - |
      ⟨⟨text, -, rfl, rfl⟩, - | ⟨⟨_, -, rfl, rfl⟩, - | ⟨⟨_, -, rfl, rfl⟩, - | -⟩⟩⟩⟩⟩⟩
    apply transforms_node
    simp [transformNodeIter, transformVarDeclaration, SyntaxTreeNode.specifier, hw, Terminal.token]
    exact settles_getNumber.map fun n _ => ⟨_, rfl, _, rfl⟩

theorem outcome_param (hrhs : rhs ∈ productions .param) (h : Each (Outcome stof) rhs cs w) :
    Outcome stof (.nonterminal .param) (node "param" cs) w := by
  simp only [productions, List.mem_cons, List.not_mem_nil, or_false] at hrhs
  rcases hrhs with rfl | rfl
  · rcases h with - | ⟨⟨type, rfl, hw⟩, - | ⟨⟨id, -, rfl, rfl⟩, - | -⟩⟩
    apply transforms_node
    simp [transformNodeIter, transformParam, SyntaxTreeNode.specifier, hw, Terminal.token]
    exact .pure ⟨_, rfl⟩
  · rcases h with - | ⟨⟨type, rfl, hw⟩, - | ⟨⟨id, -, rfl, rfl⟩, - | ⟨⟨_, -, rfl, rfl⟩, - |
      ⟨⟨_, -, rfl, rfl⟩, - | -⟩⟩⟩⟩
    apply transforms_node
    simp [transformNodeIter, transformParam, SyntaxTreeNode.specifier, hw, Terminal.token]
    exact .pure ⟨_, rfl⟩

theorem outcome_paramList (hrhs : rhs ∈ productions .paramList)
    (h : Each (Outcome stof) rhs cs w) :
    Outcome stof (.nonterminal .paramList) (node "param-list" cs) w := by
  simp only [productions, List.mem_cons, List.not_mem_nil, or_false] at hrhs
  rcases hrhs with rfl | rfl
  · rcases h with - | ⟨⟨-, hps⟩, - | ⟨⟨_, -, rfl, rfl⟩, - | ⟨hp, - | -⟩⟩⟩
    refine ⟨by simp, (hps.step rfl rfl rfl hp).iff ?_⟩
    simp [Terminal.token]
  · rcases h with - | ⟨hp, - | -⟩
    exact ⟨by simp, (listed_base (by simp) rfl hp).iff (by simp)⟩

theorem outcome_params (hrhs : rhs ∈ productions .params) (h : Each (Outcome stof) rhs cs w) :
    Outcome stof (.nonterminal .params) (node "params" cs) w := by
  simp only [productions, List.mem_cons, List.not_mem_nil, or_false] at hrhs
  rcases hrhs with rfl | rfl
  · rcases h with - | ⟨⟨hnum, hps⟩, - | -⟩
    exact ⟨_, rfl, .inr ⟨hnum, hps.iff (by simp)⟩⟩
  · rcases h with - | ⟨⟨text, -, rfl, rfl⟩, - | -⟩
    exact ⟨_, rfl, .inl ⟨rfl, by simp [Terminal.token]⟩⟩

theorem outcome_funDeclaration (hrhs : rhs ∈ productions .funDeclaration)
    (h : Each (Outcome stof) rhs cs w) :
    Outcome stof (.nonterminal .funDeclaration) (node "fun-declaration" cs) w := by
  simp only [productions, List.mem_cons, List.not_mem_nil, or_false] at hrhs
  subst hrhs
  rcases h with - | ⟨⟨type, rfl, hw⟩, - | ⟨⟨id, -, rfl, rfl⟩, - | ⟨⟨_, -, rfl, rfl⟩, - |
    ⟨⟨list, hlist, hps⟩, - | ⟨⟨_, -, rfl, rfl⟩, - | ⟨hs, - | -⟩⟩⟩⟩⟩⟩
  apply transforms_node
  rcases hps with ⟨hnum, hps⟩ | ⟨hnum, hps⟩
  · simp [transformNodeIter, transformFunDeclaration, SyntaxTreeNode.specifier, hlist, hnum, hw,
      hps, Terminal.token]
    exact hs.last (fun _ => rfl) fun s => ⟨_, rfl, _, rfl⟩
  · simp [transformNodeIter, transformFunDeclaration, SyntaxTreeNode.specifier, hlist, hnum, hw,
      Terminal.token]
    exact (hps.settles fun _ => rfl).bind fun ps _ => hs.last (fun _ => rfl) fun s => ⟨_, rfl, _, rfl⟩

theorem outcome_declaration (hrhs : rhs ∈ productions .declaration)
    (h : Each (Outcome stof) rhs cs w) :
    Outcome stof (.nonterminal .declaration) (node "declaration" cs) w := by
  simp only [productions, List.mem_cons, List.not_mem_nil, or_false] at hrhs
  rcases hrhs with rfl | rfl
  · rcases h with - | ⟨hd, - | -⟩
    exact (transforms_node (hd.as (c := ASTDeclaration.var) fun _ => rfl)).iff (by simp)
  · rcases h with - | ⟨hd, - | -⟩
    exact (transforms_node (hd.as (c := ASTDeclaration.fun) fun _ => rfl)).iff (by simp)

theorem outcome_declarationList (hrhs : rhs ∈ productions .declarationList)
    (h : Each (Outcome stof) rhs cs w) :
    Outcome stof (.nonterminal .declarationList) (node "declaration-list" cs) w := by
  simp only [productions, List.mem_cons, List.not_mem_nil, or_false] at hrhs
  rcases hrhs with rfl | rfl
  · rcases h with - | ⟨hds, - | ⟨hd, - | -⟩⟩
    exact (hds.step rfl rfl rfl hd).iff (by simp)
  · rcases h with - | ⟨hd, - | -⟩
    exact (listed_base (by simp) rfl hd).iff (by simp)

theorem outcome_program (hrhs : rhs ∈ productions .program) (h : Each (Outcome stof) rhs cs w) :
    Outcome stof (.nonterminal .program) (node "program" cs) w := by
  simp only [productions, List.mem_cons, List.not_mem_nil, or_false] at hrhs
  subst hrhs
  rcases h with - | ⟨hds, - | -⟩
  apply transforms_node
  simp [transformNodeIter, transformProgram]
  exact (hds.settles fun _ => rfl).map fun ds _ => ⟨_, rfl, ⟨ds⟩, rfl⟩

/-! ### Operators and numbers -/

theorem outcome_relop (hrhs : rhs ∈ productions .relop) (h : Each (Outcome stof) rhs cs w) :
    Outcome stof (.nonterminal .relop) (node "relop" cs) w := by
  simp only [productions, List.mem_cons, List.not_mem_nil, or_false] at hrhs
  rcases hrhs with rfl | rfl | rfl | rfl | rfl | rfl
  · rcases h with - | ⟨⟨_, rfl, rfl, rfl⟩, - | -⟩
    exact ⟨_, .le, rfl, rfl, by simp [Terminal.token]⟩
  · rcases h with - | ⟨⟨_, rfl, rfl, rfl⟩, - | -⟩
    exact ⟨_, .lt, rfl, rfl, by simp [Terminal.token]⟩
  · rcases h with - | ⟨⟨_, rfl, rfl, rfl⟩, - | -⟩
    exact ⟨_, .gt, rfl, rfl, by simp [Terminal.token]⟩
  · rcases h with - | ⟨⟨_, rfl, rfl, rfl⟩, - | -⟩
    exact ⟨_, .ge, rfl, rfl, by simp [Terminal.token]⟩
  · rcases h with - | ⟨⟨_, rfl, rfl, rfl⟩, - | -⟩
    exact ⟨_, .eq, rfl, rfl, by simp [Terminal.token]⟩
  · rcases h with - | ⟨⟨_, rfl, rfl, rfl⟩, - | -⟩
    exact ⟨_, .neq, rfl, rfl, by simp [Terminal.token]⟩

theorem outcome_addop (hrhs : rhs ∈ productions .addop) (h : Each (Outcome stof) rhs cs w) :
    Outcome stof (.nonterminal .addop) (node "addop" cs) w := by
  simp only [productions, List.mem_cons, List.not_mem_nil, or_false] at hrhs
  rcases hrhs with rfl | rfl
  · rcases h with - | ⟨⟨_, rfl, rfl, rfl⟩, - | -⟩
    exact ⟨_, .plus, rfl, rfl, by simp [Terminal.token]⟩
  · rcases h with - | ⟨⟨_, rfl, rfl, rfl⟩, - | -⟩
    exact ⟨_, .minus, rfl, rfl, by simp [Terminal.token]⟩

theorem outcome_mulop (hrhs : rhs ∈ productions .mulop) (h : Each (Outcome stof) rhs cs w) :
    Outcome stof (.nonterminal .mulop) (node "mulop" cs) w := by
  simp only [productions, List.mem_cons, List.not_mem_nil, or_false] at hrhs
  rcases hrhs with rfl | rfl
  · rcases h with - | ⟨⟨_, rfl, rfl, rfl⟩, - | -⟩
    exact ⟨_, .mul, rfl, rfl, by simp [Terminal.token]⟩
  · rcases h with - | ⟨⟨_, rfl, rfl, rfl⟩, - | -⟩
    exact ⟨_, .div, rfl, rfl, by simp [Terminal.token]⟩

theorem outcome_integer (hrhs : rhs ∈ productions .integer) (h : Each (Outcome stof) rhs cs w) :
    Outcome stof (.nonterminal .integer) (node "integer" cs) w := by
  simp only [productions, List.mem_cons, List.not_mem_nil, or_false] at hrhs
  subst hrhs
  rcases h with - | ⟨⟨text, -, rfl, rfl⟩, - | -⟩
  exact ⟨text, rfl, rfl⟩

theorem outcome_float (hrhs : rhs ∈ productions .float) (h : Each (Outcome stof) rhs cs w) :
    Outcome stof (.nonterminal .float) (node "float" cs) w := by
  simp only [productions, List.mem_cons, List.not_mem_nil, or_false] at hrhs
  subst hrhs
  rcases h with - | ⟨⟨text, -, rfl, rfl⟩, - | -⟩
  exact ⟨text, rfl, rfl⟩

/-! ### The grammar -/

theorem outcome_production {A : NonTerminal} (hrhs : rhs ∈ productions A)
    (h : Each (Outcome stof) rhs cs w) : Outcome stof (.nonterminal A) (node A.name cs) w := by
  cases A with
  | program => exact outcome_program hrhs h
  | declarationList => exact outcome_declarationList hrhs h
  | declaration => exact outcome_declaration hrhs h
  | varDeclaration => exact outcome_varDeclaration hrhs h
  | typeSpecifier => exact outcome_typeSpecifier hrhs h
  | funDeclaration => exact outcome_funDeclaration hrhs h
  | params => exact outcome_params hrhs h
  | paramList => exact outcome_paramList hrhs h
  | param => exact outcome_param hrhs h
  | compoundStmt => exact outcome_compoundStmt hrhs h
  | localDeclarations => exact outcome_localDeclarations hrhs h
  | statementList => exact outcome_statementList hrhs h
  | statement => exact outcome_statement hrhs h
  | expressionStmt => exact outcome_expressionStmt hrhs h
  | selectionStmt => exact outcome_selectionStmt hrhs h
  | iterationStmt => exact outcome_iterationStmt hrhs h
  | returnStmt => exact outcome_returnStmt hrhs h
  | expression => exact outcome_expression hrhs h
  | var => exact outcome_var hrhs h
  | simpleExpression => exact outcome_simpleExpression hrhs h
  | relop => exact outcome_relop hrhs h
  | additiveExpression => exact outcome_additiveExpression hrhs h
  | addop => exact outcome_addop hrhs h
  | term => exact outcome_term hrhs h
  | mulop => exact outcome_mulop hrhs h
  | factor => exact outcome_factor hrhs h
  | integer => exact outcome_integer hrhs h
  | float => exact outcome_float hrhs h
  | call => exact outcome_call hrhs h
  | args => exact outcome_args hrhs h
  | argList => exact outcome_argList hrhs h

theorem outcome_of_derives {s : Symbol Terminal NonTerminal} (h : Derives lexemes s t w) :
    Outcome stof s t w := by
  apply h.rec_productions (P := Outcome stof)
  · rintro k t w ⟨text, hmatch, rfl, rfl⟩
    exact ⟨text, hmatch, rfl, rfl⟩
  · exact fun A rhs hrhs cs w hall => outcome_production hrhs hall

/-- The constructor of `AST` returns on the tree of a program just when its numbers can be
represented. -/
theorem settles_toAST (stof : String → Option (BitVec 32))
    (h : Derives lexemes (.nonterminal .program) t w) :
    Settles (fun fuel => toAST stof fuel t) (Fits stof w) fun _ => True := by
  have hout : Transforms stof .program t (Fits stof w) := outcome_of_derives h
  apply Settles.map hout
  rintro a ⟨p, rfl⟩
  exact ⟨p, rfl, trivial⟩

end Cminusf
