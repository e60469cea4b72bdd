import Cminusf.Builder.Scoping

/-! The visitors of statements are put together from a few parts. A property of the parts that a
sequence keeps is one of the visitors. -/

namespace Cminusf

namespace CminusfBuilder

open Builder

variable {α β : Type} {P : Nat → Prop} {R : ∀ {α : Type}, Builder α → Prop}

/-- A property of the parts; `P` is what is known of the new blocks. -/
structure Parts (P : Nat → Prop) (R : ∀ {α : Type}, Builder α → Prop) : Prop where
  bind : ∀ {α β : Type} {x : Builder α} {f : α → Builder β}, R x → (∀ a, R (f a)) → R (x >>= f)
  reads : ∀ {α : Type} {x : Builder α}, (∀ σ r, x σ = some r → r.2 = σ) → R x
  setTmpVal : ∀ v, R (setTmpVal v)
  create : ∀ {opId ty ops}, opId ≠ .br → R (create opId ty ops)
  createBr : ∀ b, R (createBr b)
  createCondBr : ∀ c b e, R (createCondBr c b e)
  block : ∀ {β : Type} {name : String} {f : Nat → Builder β}, (∀ b, P b → R (f b)) →
    R (createBasicBlock name >>= f)
  setInsertPoint : ∀ b, P b → R (setInsertPoint b)

namespace Parts

variable (hR : Parts P R)

include hR

theorem pure (a : α) : R (pure a : Builder α) :=
  hR.reads fun σ r h => by
    cases h
    rfl

theorem getType (v : Value) : R (getType v) :=
  hR.reads fun σ r h => by
    cases h
    rfl

theorem getTmpVal : R getTmpVal :=
  hR.reads fun σ r h => by
    obtain ⟨v, -, rfl⟩ := Option.map_eq_some_iff.mp h
    rfl

theorem getCurFun : R getCurFun :=
  hR.reads fun σ r h => by
    obtain ⟨f, -, rfl⟩ := Option.map_eq_some_iff.mp h
    rfl

theorem terminated : R terminated :=
  hR.reads fun σ r h => by
    obtain ⟨b, σ₁, hb, h⟩ := bind_some h
    obtain ⟨b', -, he⟩ := Option.map_eq_some_iff.mp hb
    cases he
    cases h
    rfl

theorem discard {x : Builder α} (hx : R x) : R (discard x) :=
  hR.bind hx fun _ => hR.pure _

theorem createBrIfOpen (b : Nat) : R (createBrIfOpen b) := by
  refine hR.bind hR.terminated fun closed => ?_
  split
  · exact hR.pure _
  · exact hR.discard (hR.createBr b)

theorem createRetIfOpen : R createRetIfOpen := by
  refine hR.bind hR.terminated fun closed => ?_
  split
  · exact hR.pure _
  · refine hR.discard (hR.bind hR.getCurFun fun f => hR.bind (hR.reads fun σ r h => ?_) fun m => ?_)
    · cases h
      rfl
    · dsimp only
      split
      · exact hR.create (by simp)
      · split
        · exact hR.create (by simp)
        · exact hR.create (by simp)

theorem createCondition (v : Value) : R (createCondition v) := by
  refine hR.bind (hR.getType v) fun ty => ?_
  split
  · exact hR.create (by simp)
  · exact hR.create (by simp)

theorem convertReturned (ty : Ty) (v : Value) : R (convertReturned ty v) := by
  refine hR.bind (hR.getType v) fun vTy => ?_
  split
  · split
    · exact hR.create (by simp)
    · exact hR.create (by simp)
  · exact hR.pure _

theorem openThen {f : Nat → Builder β} (hf : ∀ c, P c → R (f c)) : R (openThen >>= f) := by
  simp only [CminusfBuilder.openThen, bind_assoc, pure_bind]
  exact hR.bind hR.getTmpVal fun v => hR.block fun b hb => hR.block fun c hc =>
    hR.bind (hR.createCondition v) fun _ => hR.bind (hR.discard (hR.createCondBr _ _ _)) fun _ =>
    hR.bind (hR.setInsertPoint b hb) fun _ => hf c hc

theorem openElse {f : Nat × Nat → Builder β} (hf : ∀ e c, P e → P c → R (f (e, c))) :
    R (openElse >>= f) := by
  simp only [CminusfBuilder.openElse, bind_assoc, pure_bind]
  exact hR.bind hR.getTmpVal fun v => hR.block fun b hb => hR.block fun c hc =>
    hR.bind (hR.createCondition v) fun _ => hR.block fun e he =>
    hR.bind (hR.discard (hR.createCondBr _ _ _)) fun _ => hR.bind (hR.setInsertPoint b hb) fun _ =>
    hf e c he hc

theorem openLoop {f : Nat → Builder β} (hf : ∀ h, P h → R (f h)) : R (openLoop >>= f) := by
  simp only [CminusfBuilder.openLoop, bind_assoc, pure_bind]
  exact hR.block fun h hh => hR.bind (hR.createBrIfOpen h) fun _ =>
    hR.bind (hR.setInsertPoint h hh) fun _ => hf h hh

theorem visitLocalDeclarations (hdecl : ∀ decl, R (visitVarDeclaration decl)) :
    ∀ decls : List ASTVarDeclaration, R (visitLocalDeclarations decls)
  | [] => hR.pure _
  | decl :: decls => hR.bind (hdecl decl) fun _ => visitLocalDeclarations hdecl decls

/-- The scopes may be changed. -/
theorem compound (hdecl : ∀ decl, R (visitVarDeclaration decl)) (hscope : ∀ f, R (modifyScope f))
    (hpre : ∀ b, R (setPreEnterScope b)) (decls : List ASTVarDeclaration) {stmts : List ASTStatement}
    (hstmts : R (visitStatementList stmts)) : R (visitStatement (.compound decls stmts)) := by
  rw [visitStatement]
  refine hR.bind (hR.bind (hR.reads fun σ r h => by cases h; rfl) fun σ => ?_) fun b =>
    hR.bind (hR.visitLocalDeclarations hdecl decls) fun _ => hR.bind hstmts fun _ => ?_
  · dsimp only
    split
    · exact hR.bind (hpre _) fun _ => hR.pure _
    · exact hR.bind (hscope _) fun _ => hR.pure _
  · unfold exitCompound
    split
    · exact hscope _
    · exact hR.pure _

theorem visitParam (hpush : ∀ id v, R (modifyScope (·.push id v))) (f : Nat) (param : ASTParam)
    (argNo : Nat) : R (visitParam f param argNo) :=
  hR.bind (hR.create (by simp)) fun _ => hR.bind (hR.discard (hR.create (by simp))) fun _ =>
    hpush _ _

theorem visitParams (hpush : ∀ id v, R (modifyScope (·.push id v))) (f : Nat)
    (params : List ASTParam) (argNo : Nat) : R (visitParams f params argNo) := by
  induction params generalizing argNo with
  | nil => exact hR.pure _
  | cons param params ih =>
    rw [visitParams_cons]
    exact hR.bind (hR.visitParam hpush f param argNo) fun _ => ih (argNo + 1)

end Parts

/-- The rules for what statements are made of besides. -/
structure StatementRules (P : Nat → Prop) (R : ∀ {α : Type}, Builder α → Prop) : Prop
    extends Parts P R where
  expression : ∀ e, R (visitExpression e)
  compound : ∀ decls {stmts}, R (visitStatementList stmts) → R (visitStatement (.compound decls stmts))

namespace StatementRules

variable (hR : StatementRules P R)

include hR

mutual

theorem visitStatement : ∀ s : ASTStatement, R (visitStatement s)
  | .compound decls stmts => hR.compound decls (visitStatementList stmts)
  | .expressionStmt none => by
    rw [CminusfBuilder.visitStatement]
    exact hR.pure _
  | .expressionStmt (some e) => by
    rw [CminusfBuilder.visitStatement]
    exact hR.expression e
  | .selection e s => by
    rw [visitStatement_selection]
    exact hR.bind (hR.expression e) fun _ => hR.openThen fun c hc =>
      hR.bind (visitStatement s) fun _ => hR.bind (hR.createBrIfOpen c) fun _ =>
      hR.setInsertPoint c hc
  | .selectionElse e s₁ s₂ => by
    rw [visitStatement_selectionElse]
    exact hR.bind (hR.expression e) fun _ => hR.openElse fun d c hd hc =>
      hR.bind (visitStatement s₁) fun _ => hR.bind (hR.createBrIfOpen c) fun _ =>
      hR.bind (hR.setInsertPoint d hd) fun _ => hR.bind (visitStatement s₂) fun _ =>
      hR.bind (hR.createBrIfOpen c) fun _ => hR.setInsertPoint c hc
  | .iteration e s => by
    rw [visitStatement_iteration]
    exact hR.openLoop fun h _ => hR.bind (hR.expression e) fun _ => hR.openThen fun c hc =>
      hR.bind (visitStatement s) fun _ => hR.bind (hR.createBrIfOpen h) fun _ =>
      hR.setInsertPoint c hc
  | .return none => by
    rw [CminusfBuilder.visitStatement]
    exact hR.discard (hR.create (by simp))
  | .return (some e) => by
    rw [CminusfBuilder.visitStatement]
    exact hR.bind hR.getCurFun fun f => hR.bind (hR.reads fun σ r h => by cases h; rfl) fun m =>
      hR.bind (hR.expression e) fun _ => hR.bind hR.getTmpVal fun v =>
      hR.bind (hR.convertReturned _ v) fun v => hR.bind (hR.setTmpVal v) fun _ =>
      hR.discard (hR.create (by simp))

theorem visitStatementList : ∀ ss : List ASTStatement, R (visitStatementList ss)
  | [] => by
    rw [CminusfBuilder.visitStatementList]
    exact hR.pure _
  | s :: ss => by
    rw [CminusfBuilder.visitStatementList]
    refine hR.bind (visitStatement s) fun _ => hR.bind hR.terminated fun closed => ?_
    split
    · exact hR.pure _
    · exact visitStatementList ss

end

/-- What `visit(ASTFunDeclaration)` does in the function. -/
theorem body (hpush : ∀ id v, R (modifyScope (·.push id v))) (f : Nat) (node : ASTFunDeclaration) :
    R (CminusfBuilder.visitParams f node.params 0 >>= fun _ =>
      CminusfBuilder.visitStatement (.compound node.localDeclarations node.statementList) >>= fun _ =>
      CminusfBuilder.createRetIfOpen) :=
  hR.bind (hR.visitParams hpush f node.params 0) fun _ => hR.bind (hR.visitStatement _) fun _ =>
    hR.createRetIfOpen

end StatementRules

end CminusfBuilder

end Cminusf
