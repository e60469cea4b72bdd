import Cminusf.Builder.Expressions

/-! The visitors of declarations and statements, and of a whole program. -/

namespace Cminusf

namespace CminusfBuilder

open Builder

variable {σ σ' σ'' : BuilderState} {s s' s'' : Site} {v : Value} {b c o t : Nat}

/-- A part of a visitor that may bind names in the innermost scope. -/
structure Declares (σ : BuilderState) (s : Site) (σ' : BuilderState) (s' : Site) : Prop where
  run : Extends s s'
  placed : Placed σ' s'
  scope : σ'.scope.inner.tail = σ.scope.inner.tail
  requireLvalue : σ.requireLvalue = false → σ'.requireLvalue = false
  preEnterScope : σ'.preEnterScope = σ.preEnterScope

theorem Declares.trans (h : Declares σ s σ' s') (h' : Declares σ' s' σ'' s'') :
    Declares σ s σ'' s'' where
  run := h.run.trans h'.run h.placed.inv h.placed.bb_lt
  placed := h'.placed
  scope := h'.scope.trans h.scope
  requireLvalue hr := h'.requireLvalue (h.requireLvalue hr)
  preEnterScope := h'.preEnterScope.trans h.preEnterScope

theorem Declares.refl (hp : Placed σ s) : Declares σ s σ s := ⟨.refl s, hp, rfl, id, rfl⟩

theorem declares_of_ran (h : Ran σ s σ' s') : Declares σ s σ' s' :=
  ⟨h.run, h.placed, by rw [h.scope], h.requireLvalue, h.preEnterScope⟩

theorem mem_push {sc : Scope} {name : String} {l : List (String × Value)} {p : String × Value}
    (hl : l ∈ (sc.push name v).inner) (hpl : p ∈ l) : p = (name, v) ∨ ∃ l' ∈ sc.inner, p ∈ l' := by
  unfold Scope.push at hl
  split at hl
  · exact .inr ⟨l, hl, hpl⟩
  · rename_i top rest hin
    split at hl
    · exact .inr ⟨l, hl, hpl⟩
    · rcases List.mem_cons.mp hl with rfl | hl
      · rcases List.mem_cons.mp hpl with rfl | hpl
        · exact .inl rfl
        · exact .inr ⟨top, by simp [hin], hpl⟩
      · exact .inr ⟨l, by simp [hin, hl], hpl⟩

theorem tail_push (sc : Scope) (name : String) (v : Value) :
    (sc.push name v).inner.tail = sc.inner.tail := by
  unfold Scope.push
  split
  · rfl
  · rename_i hin
    split
    · rfl
    · simp [hin]

theorem Placed.push (hp : Placed σ s) (name : String) (hv : NameAt s v) :
    Declares σ s { σ with scope := σ.scope.push name v } s := by
  refine ⟨.refl s, ⟨hp.module_eq, hp.insertBlock, hp.curFun, ?_, hp.inv, hp.bb_lt, hp.bb_fn⟩,
    tail_push _ _ _, id, rfl⟩
  intro l hl p hpl
  rcases mem_push hl hpl with rfl | ⟨l', hl', hpl'⟩
  · exact hv
  · exact hp.scope l' hl' p hpl'

theorem createAlloca_spec (hp : Placed σ s) (ho : s.Open) {ty : Ty} {r : Value × BuilderState}
    (h : createAlloca ty σ = some r) :
    ∃ s', Ran σ s r.2 s' ∧ Pays s s' ∧ s'.Open ∧ NameAt s' r.1 ∧ s'.bb = s.bb ∧ s'.fn = s.fn := by
  obtain ⟨h1, h2, _⟩ := create_spec hp ho .alloca (by simp) h
  refine ⟨_, h2, pays_emit hp.inv rfl, Site.open_emit _ (by simp), ?_, rfl, rfl⟩
  have hem := emitted s.module s.bb (.alloca ty) (.pointer ty) []
  rw [h1]
  refine ⟨lt_of_lt_of_eq (Nat.lt_succ_self _) hem.numInstrs.symm, ?_, ?_⟩
  · rw [s.emit_instrs]
    exact .refl _ _
  · rw [s.emit_instrs]
    rfl

theorem createGlobalVariable_placed (hp : Placed σ s) (ho : s.Open) (name : String) (ty : Ty) :
    let s' : Site := { s with module := s.module.createGlobalVariable name ty (.constZero ty) }
    Ran σ s { σ with module := s'.module } s' ∧ Pays s s' ∧ s'.Open ∧
      NameAt s' (.globalVariable s.module.numGlobals) := by
  intro s'
  have hstep : Step s s' := .global name ty
  obtain ⟨hinv, hext⟩ := hstep.inv hp.inv
  have hran : Extends s s' := ⟨.single hstep, hext, rfl, .inl rfl, .refl _ _, fun _ _ _ => rfl⟩
  refine ⟨⟨hran, ⟨rfl, hp.insertBlock, hp.curFun, ?_, hinv, hp.bb_lt, hp.bb_fn⟩, rfl, id, rfl⟩,
    fun _ _ h => ⟨h.closed, h.pre, h.fresh⟩, ho, Nat.lt_succ_self _⟩
  exact fun l hl p hpl => hran.nameAt hp.inv hp.bb_lt (hp.scope l hl p hpl)

theorem visitVarDeclaration_spec (hp : Placed σ s) (ho : s.Open) {node : ASTVarDeclaration}
    {r : Unit × BuilderState} (h : visitVarDeclaration node σ = some r) :
    ∃ s', Declares σ s r.2 s' ∧ Pays s s' ∧ s'.Open := by
  unfold visitVarDeclaration at h
  obtain ⟨σ0, σ1, h1, h⟩ := bind_some h
  cases h1
  split at h
  · obtain ⟨m, σ2, h2, h⟩ := bind_some h
    cases h2
    rw [hp.module_eq] at h
    cases h
    obtain ⟨hran, hpay, ho', hn⟩ := createGlobalVariable_placed hp ho node.id _
    exact ⟨_, (declares_of_ran hran).trans (Placed.push hran.placed node.id hn), hpay, ho'⟩
  · obtain ⟨a, σ2, h2, h⟩ := bind_some h
    obtain ⟨s', hran, hpay, ho', hn, _⟩ := createAlloca_spec hp ho h2
    cases h
    exact ⟨s', (declares_of_ran hran).trans (Placed.push hran.placed node.id hn), hpay, ho'⟩

theorem visitLocalDeclarations_spec (decls : List ASTVarDeclaration) (hp : Placed σ s)
    (ho : s.Open) {r : Unit × BuilderState} (h : visitLocalDeclarations decls σ = some r) :
    ∃ s', Declares σ s r.2 s' ∧ Pays s s' ∧ s'.Open := by
  induction decls generalizing σ s with
  | nil =>
    cases h
    exact ⟨s, .refl hp, .refl s, ho⟩
  | cons decl decls ih =>
    obtain ⟨_, σ1, h1, h⟩ := bind_some h
    obtain ⟨s1, hd, hpay, ho1⟩ := visitVarDeclaration_spec hp ho h1
    obtain ⟨s2, hd', hpay', ho2⟩ := ih hd.placed ho1 h
    exact ⟨s2, hd.trans hd', hpay.trans hpay', ho2⟩

theorem terminated_spec (hp : Placed σ s) {r : Bool × BuilderState} (h : terminated σ = some r) :
    r = ((s.module.getTerminator s.bb).isSome, σ) := by
  obtain ⟨bb, σ1, h1, h⟩ := bind_some h
  obtain ⟨bb', hb, he⟩ := Option.map_eq_some_iff.mp h1
  rw [hp.insertBlock] at hb
  cases hb
  cases he
  cases h
  rw [hp.module_eq]

/-- What a jump to `t` does, or a block that has returned instead. -/
def Jumps (s : Site) (t : Nat) (s' : Site) : Prop :=
  s'.Closed ∧ ∀ todo room room', Owes s todo room → room' t + 1 ≤ room t →
    (∀ x, room' x ≤ room x) → Owes s' todo room'

theorem createBrIfOpen_spec (hp : Placed σ s) (ht : TargetAt s.module s.origin s.bb t)
    {r : Unit × BuilderState} (h : createBrIfOpen t σ = some r) :
    ∃ s', Ran σ s r.2 s' ∧ s'.bb = s.bb ∧ Jumps s t s' := by
  obtain ⟨b, σ1, h1, h⟩ := bind_some h
  cases terminated_spec hp h1
  split at h
  · rename_i hc
    cases h
    exact ⟨s, .refl hp, rfl, hc, fun _ _ _ how _ hle => how.weaken (List.Subset.refl _) hle⟩
  · rename_i ho
    obtain ⟨_, h⟩ := discard_some h
    exact ⟨_, createBr_spec hp (by simpa using ho) ht h, rfl, closed_emit (.inl rfl),
      fun _ _ _ how => how.jump hp.inv⟩

theorem createCondition_yields (hp : Placed σ s) (ho : s.Open) (hv : s.ValueAt v) :
    Yields (createCondition v) σ s (IsLocal s) := by
  refine getType_bind hp ?_
  split
  · exact create_local hp ho (.cmp hv (y := .constInt 0) trivial) rfl
  · exact create_local hp ho (.fcmp hv (y := .constFP 0) trivial) rfl

theorem convertReturned_yields (hp : Placed σ s) (ho : s.Open) (hv : s.ValueAt v) (ty : Ty) :
    Yields (convertReturned ty v) σ s IsVal := by
  refine getType_bind hp ?_
  split
  · split
    · exact create_yields hp ho (.fptosi hv) rfl
    · exact create_yields hp ho (.sitofp hv) rfl
  · exact Yields.pure hp ho hv

/-- What the visitor of a statement does. -/
def VisitsStmt (x : Builder Unit) : Prop :=
  ∀ σ s, Placed σ s → s.Open → σ.requireLvalue = false → σ.preEnterScope = false →
    ∀ r, x σ = some r → ∃ s', Ran σ s r.2 s' ∧ Pays s s'

/-- The body of a branch: from its first block to a jump to `c`, unless it returns. -/
theorem arm_spec {x : Builder Unit} (hx : VisitsStmt x) {oc : Nat} (hp : Placed σ s)
    (hr : σ.requireLvalue = false) (hpre : σ.preEnterScope = false) (h : Ran σ s σ' s')
    (ht : Fresh s' t o) (htn : s.module.numBlocks ≤ t) (ho : Graph.Ancestor s'.origin s.bb o)
    (hc : c < s'.module.numBlocks) (hoc : s'.origin c = some oc)
    (hanc : Graph.Ancestor s'.origin oc o) {r₁ r₂ : Unit × BuilderState}
    (h2 : x { σ' with insertBlock := some t } = some r₁) (h3 : createBrIfOpen c r₁.2 = some r₂) :
    ∃ s'', Ran σ s r₂.2 s'' ∧ Ext s'.module s'.origin s''.module s''.origin ∧
      (∀ b o', Fresh s' b o' → b ≠ t → Fresh s'' b o') ∧ Jumps { s' with bb := t } c s'' := by
  obtain ⟨hran1, ho1⟩ := Ran.move hp h ht htn ho
  obtain ⟨s2, hran2, hpay2⟩ := hx _ _ hran1.placed ho1 (hran1.requireLvalue hr)
    (hran1.preEnterScope.trans hpre) _ h2
  have hto : Graph.Ancestor s2.origin o s2.bb := by
    have h1 : Graph.Ancestor s'.origin o t := .of_idom ht.origin
    exact (hran2.run.keeps.ancestor hran1.placed.inv ht.lt h1).trans hran2.run.ancestor
  have holt : o < s'.module.numBlocks := ((h.placed.inv.origin_lt t o ht.origin).1).trans ht.lt
  obtain ⟨s3, hran3, hbb3, hjump⟩ := createBrIfOpen_spec hran2.placed ⟨hc.trans_le hran2.run.keeps.numBlocks,
    oc, (hran2.run.keeps.origin c hc).trans hoc,
    (hran2.run.keeps.ancestor hran1.placed.inv holt hanc).trans hto⟩ h3
  refine ⟨s3, (hran1.trans hran2).trans hran3, hran2.run.keeps.trans hran3.run.keeps,
    fun b o' hb hne => ?_, hjump.1, fun _ _ _ how => hjump.2 _ _ _ (hpay2 _ _ how)⟩
  have hb2 : Fresh s2 b o' := hran2.run.fresh hne (Fresh.moved (c := t) hb)
  refine hran3.run.fresh ?_ hb2
  rcases hran2.run.bb with he | hn
  · rw [he]
    exact hne
  · have hlt := hb.lt
    have : s'.module.numBlocks ≤ s2.bb := hn
    omega

theorem withTmpVal {β : Type} {f : Value → Builder β} {r : β × BuilderState}
    (hv : HasVal () σ s) (h : (getTmpVal >>= f) σ = some r) : ∃ v, s.ValueAt v ∧ f v σ = some r := by
  obtain ⟨w, hw, hwv⟩ := hv
  obtain ⟨v, σ', h1, h⟩ := bind_some h
  obtain rfl : σ' = σ := getTmpVal_read _ h1
  obtain rfl : w = v := Option.some.inj (hw.symm.trans (getTmpVal_eq h1))
  exact ⟨w, hwv, h⟩

/-- Two blocks made at the same place. -/
theorem createBlocks_spec {n₁ n₂ : String} (hp : Placed σ s) (ho : s.Open) {r₁ r₂ : Nat × BuilderState}
    (h₁ : createBasicBlock n₁ σ = some r₁) (h₂ : createBasicBlock n₂ r₁.2 = some r₂) :
    ∃ s', Ran σ s r₂.2 s' ∧ s'.Open ∧ s'.bb = s.bb ∧ r₁.1 = s.module.numBlocks ∧
      r₂.1 = s.module.numBlocks + 1 ∧ Fresh s' r₁.1 s.bb ∧ Fresh s' r₂.1 s.bb ∧
      ∀ todo room, Owes s todo room →
        Owes s' (r₂.1 :: r₁.1 :: todo) (Function.update (Function.update room r₁.1 2) r₂.1 2) := by
  obtain ⟨he1, hran1, hf1, ho1, -⟩ := createBasicBlock_spec hp h₁
  obtain ⟨he2, hran2, hf2, ho2, -⟩ := createBasicBlock_spec hran1.placed h₂
  have hne : r₁.1 ≠ (s.addBlock n₁).bb := by
    rw [he1]
    exact hp.bb_lt.ne'
  refine ⟨_, hran1.trans hran2, ho2 (ho1 ho), rfl, he1, he2, hran2.run.fresh hne hf1, hf2,
    fun todo room how => ?_⟩
  rw [he1, he2]
  exact (how.addBlock n₁).addBlock n₂

/-- A conditional branch from the block `o` to two of the blocks made for it. -/
theorem branch_spec (h : Ran σ s σ' s') (ho : s'.Open)
    (hanc : Graph.Ancestor s'.origin s.bb s'.bb) {t f : Nat} (hft : Fresh s' t s'.bb)
    (hff : Fresh s' f s'.bb) (hne : t ≠ f) {cond : Value} (hcond : s'.ValueAt cond) {r : Unit × BuilderState}
    (hrun : discard (createCondBr cond t f) σ' = some r) :
    ∃ s'', Ran σ s r.2 s'' ∧ Ext s'.module s'.origin s''.module s''.origin ∧
      Graph.Ancestor s''.origin s.bb s'.bb ∧ (∀ b, Fresh s' b s'.bb → Fresh s'' b s'.bb) ∧
      s''.Closed ∧ ∀ todo room room', Owes s' todo room → room' t + 1 ≤ room t →
        room' f + 1 ≤ room f → (∀ x, room' x ≤ room x) → Owes s'' todo room' := by
  obtain ⟨_, hrun⟩ := discard_some hrun
  have hran := createCondBr_spec h.placed ho hcond (hft.targetAt (.refl _ _))
    (hff.targetAt (.refl _ _)) hne hrun
  refine ⟨_, h.trans hran, hran.run.keeps,
    hran.run.keeps.ancestor h.placed.inv h.placed.bb_lt hanc, fun b hb => ?_,
    closed_emit (.inl rfl), fun _ _ _ how => how.branch h.placed.inv (labels_condBr hcond) hne⟩
  refine hran.run.fresh ?_ hb
  have := (h.placed.inv.origin_lt b _ hb.origin).1
  omega

/-- The condition of a branch, and the blocks `t` and `c` that are made with it. -/
theorem condition_spec {β : Type} {expression : ASTExpression} {k : Nat → Nat → Value → Builder β}
    {r : β × BuilderState} (hp : Placed σ s) (ho : s.Open) (hr : σ.requireLvalue = false)
    (h : (visitExpression expression >>= fun _ => getTmpVal >>= fun v =>
      createBasicBlock "" >>= fun t => createBasicBlock "" >>= fun c =>
        createCondition v >>= fun cond => k t c cond) σ = some r) :
    ∃ t c cond σ' s', k t c cond σ' = some r ∧ Ran σ s σ' s' ∧ s'.Open ∧ s'.ValueAt cond ∧
      s.module.numBlocks ≤ t ∧ t < c ∧ Fresh s' t s'.bb ∧ Fresh s' c s'.bb ∧
      ∀ todo room, Owes s todo room →
        Owes s' (c :: t :: todo) (Function.update (Function.update room t 2) c 2) := by
  obtain ⟨_, σ1, h1, h⟩ := bind_some h
  obtain ⟨s1, hran1, hpay1, ho1, hv⟩ := visitExpression_yields expression σ s hp ho hr _ h1
  obtain ⟨v, hv, h⟩ := withTmpVal hv h
  obtain ⟨t, σ2, h2, h⟩ := bind_some h
  obtain ⟨c, σ3, h3, h⟩ := bind_some h
  obtain ⟨s3, hran3, ho3, hbb3, ht, hc, hft, hfc, howe3⟩ := createBlocks_spec hran1.placed ho1 h2 h3
  obtain ⟨cond, σ4, h4, h⟩ := bind_some h
  obtain ⟨s4, hran4, hpay4, ho4, hcond, hbb4⟩ := createCondition_yields hran3.placed ho3
    (hran3.valueAt hran1.placed hv) _ h4
  have hbb : s4.bb = s1.bb := hbb4.trans hbb3
  have hle := hran1.run.keeps.numBlocks
  have hlt := hran1.placed.bb_lt
  have hft4 := hran4.run.fresh (by omega) hft
  have hfc4 := hran4.run.fresh (by omega) hfc
  rw [← hbb] at hft4 hfc4
  exact ⟨t, c, cond, σ4, s4, h, (hran1.trans hran3).trans hran4, ho4, hcond, by omega, by omega,
    hft4, hfc4, fun todo room how => hpay4 _ _ (howe3 _ _ (hpay1 _ _ how))⟩

theorem compound_spec {localDeclarations : List ASTVarDeclaration}
    {statementList : List ASTStatement} (hlist : VisitsStmt (visitStatementList statementList)) :
    VisitsStmt (visitStatement (.compound localDeclarations statementList)) := by
  intro σ s hp ho hr hpre r h
  rw [visitStatement] at h
  obtain ⟨need, σ1, h1, h⟩ := bind_some h
  have he : need = true ∧ σ1 = { σ with scope := σ.scope.enter } := by
    obtain ⟨σ0, σ0', h0, h1⟩ := bind_some h1
    cases h0
    rw [hpre] at h1
    cases h1
    exact ⟨rfl, rfl⟩
  obtain ⟨rfl, rfl⟩ := he
  have hp1 : Placed { σ with scope := σ.scope.enter } s := by
    refine ⟨hp.1, hp.2, hp.3, ?_, hp.5, hp.6, hp.7⟩
    intro l hl p hpl
    rcases List.mem_cons.mp hl with rfl | hl
    · cases hpl
    · exact hp.scope l hl p hpl
  obtain ⟨_, σ2, h2, h⟩ := bind_some h
  obtain ⟨s2, hd2, hpay2, ho2⟩ := visitLocalDeclarations_spec localDeclarations hp1 ho h2
  obtain ⟨_, σ3, h3, h⟩ := bind_some h
  obtain ⟨s3, hran3, hpay3⟩ := hlist σ2 s2 hd2.placed ho2
    (hd2.requireLvalue hr) (hd2.preEnterScope.trans hpre) _ h3
  cases h
  have htail : σ3.scope.inner.tail = σ.scope.inner := by
    rw [hran3.scope, hd2.scope]
    rfl
  have hd := hd2.trans (declares_of_ran hran3)
  refine ⟨s3, ⟨hd.run, ⟨hd.placed.1, hd.placed.2, hd.placed.3, ?_, hd.placed.5, hd.placed.6,
    hd.placed.7⟩, ?_, fun _ => hd.requireLvalue hr, hd.preEnterScope⟩, hpay2.trans hpay3⟩
  · exact fun l hl p hpl => hd.placed.scope l (List.mem_of_mem_tail hl) p hpl
  · change Scope.exit _ = _
    rw [Scope.exit, htail]

theorem selection_spec {expression : ASTExpression} {ifStatement : ASTStatement}
    (hif : VisitsStmt (visitStatement ifStatement)) :
    VisitsStmt (visitStatement (.selection expression ifStatement)) := by
  intro σ s hp ho hr hpre r h
  rw [visitStatement] at h
  obtain ⟨t, c, cond, σ4, s4, h, hran, ho4, hcond, ht, htc, hft, hfc, howe4⟩ :=
    condition_spec hp ho hr h
  obtain ⟨_, σ5, h5, h⟩ := bind_some h
  obtain ⟨s5, hran5, -, hanc5, hfresh5, hc5, howe5⟩ :=
    branch_spec hran ho4 hran.run.ancestor hft hfc htc.ne hcond h5
  have hfc5 := hfresh5 c hfc
  obtain ⟨_, σ6, h6, h⟩ := bind_some h
  cases h6
  obtain ⟨_, σ7, h7, h⟩ := bind_some h
  obtain ⟨_, σ8, h8, h⟩ := bind_some h
  cases h
  obtain ⟨s8, hran8, hext8, hfresh8, hjump8⟩ := arm_spec hif hp hr
    hpre hran5 (hfresh5 t hft) ht hanc5 hfc5.lt hfc5.origin (.refl _ _) h7 h8
  have hlt4 : s4.bb < s5.module.numBlocks :=
    (hran5.placed.inv.origin_lt c _ hfc5.origin).1.trans hfc5.lt
  refine ⟨_, (Ran.move hp hran8 (hfresh8 c _ hfc5 (by omega)) (by omega)
    (hext8.ancestor hran5.placed.inv hlt4 hanc5)).1, fun todo room how => ?_⟩
  -- The join has room for one more edge while the arm is visited.
  have htc := htc.ne
  have hroomt : room t = 0 := how.fresh t (by omega)
  have hroomc : room c = 0 := how.fresh c (by omega)
  have howe6 : Owes s5 (t :: c :: todo) (Function.update room c 1) := by
    refine (howe5 _ _ _ (howe4 _ _ how) ?_ ?_ ?_).weaken (by simp) fun _ => le_rfl
    · simp [htc, hroomt]
    · simp
    · exact update_mono (le_update (by simp [hroomt])) (by omega)
  have howe8 := hjump8.2 _ _ room (howe6.move hc5) (by simp [hroomc]) (le_update (by simp [hroomc]))
  exact howe8.move hjump8.1

theorem selectionElse_spec {expression : ASTExpression} {ifStatement elseStatement : ASTStatement}
    (hif : VisitsStmt (visitStatement ifStatement))
    (helse : VisitsStmt (visitStatement elseStatement)) :
    VisitsStmt (visitStatement (.selectionElse expression ifStatement elseStatement)) := by
  intro σ s hp ho hr hpre r h
  rw [visitStatement] at h
  obtain ⟨t, c, cond, σ3, s4, h, hran3, ho3, hcond, ht, htc, hft, hfc, howe3⟩ :=
    condition_spec hp ho hr h
  obtain ⟨f, σ4, h4, h⟩ := bind_some h
  obtain ⟨hf, hran4, hff, ho4, -⟩ := createBasicBlock_spec hran3.placed h4
  dsimp only at hf hff
  have hlt4 := (hran3.placed.inv.origin_lt t _ hft.origin).1
  have hclt := hfc.lt
  have hft4 := hran4.run.fresh (by omega) hft
  have hfc4 := hran4.run.fresh (by omega) hfc
  have hran := hran3.trans hran4
  obtain ⟨_, σ5, h5, h⟩ := bind_some h
  obtain ⟨s5, hran5, -, hanc5, hfresh5, hc5, howe5⟩ := branch_spec hran (ho4 ho3)
    hran.run.ancestor hft4 hff (by omega) (hran4.valueAt hran3.placed hcond) h5
  have hfc5 := hfresh5 c hfc4
  have hff5 := hfresh5 f hff
  obtain ⟨_, σ6, h6, h⟩ := bind_some h
  cases h6
  obtain ⟨_, σ7, h7, h⟩ := bind_some h
  obtain ⟨_, σ8, h8, h⟩ := bind_some h
  obtain ⟨s8, hran8, hext8, hfresh8, hjump8⟩ := arm_spec hif hp hr hpre hran5
    (hfresh5 t hft4) (by omega) hanc5 hfc5.lt hfc5.origin (.refl _ _) h7 h8
  have hlt5 : s4.bb < s5.module.numBlocks :=
    (hran5.placed.inv.origin_lt c _ hfc5.origin).1.trans hfc5.lt
  have hanc8 := hext8.ancestor hran5.placed.inv hlt5 hanc5
  have hfc8 := hfresh8 c _ hfc5 (by omega)
  have hff8 := hfresh8 f _ hff5 (by omega)
  obtain ⟨_, σ9, h9, h⟩ := bind_some h
  cases h9
  obtain ⟨_, σ10, h10, h⟩ := bind_some h
  obtain ⟨_, σ11, h11, h⟩ := bind_some h
  cases h
  obtain ⟨s11, hran11, hext11, hfresh11, hjump11⟩ := arm_spec helse hp hr hpre
    hran8 hff8 (by omega) hanc8 hfc8.lt hfc8.origin (.refl _ _) h10 h11
  refine ⟨_, (Ran.move hp hran11 (hfresh11 c _ hfc8 (by omega)) (by omega)
    (hext11.ancestor hran8.placed.inv (hlt5.trans_le hext8.numBlocks) hanc8)).1,
    fun todo room how => ?_⟩
  -- The join has room for one edge from each arm.
  have htc := htc.ne
  have htf : t ≠ f := by omega
  have hfc : f ≠ c := by omega
  have hroomt : room t = 0 := how.fresh t (by omega)
  have hroomc : room c = 0 := how.fresh c (by omega)
  have hroomf : room f = 0 := how.fresh f (by omega)
  have howe4 := (howe3 _ _ how).addBlock ""
  rw [← hf] at howe4
  have hsub : f :: c :: t :: todo ⊆ t :: f :: c :: todo := by
    intro x hx
    simp only [List.mem_cons] at hx ⊢
    tauto
  have howe6 : Owes s5 (t :: f :: c :: todo) (Function.update room c 2) := by
    refine (howe5 _ _ _ howe4 ?_ ?_ ?_).weaken hsub fun _ => le_rfl
    · simp [htc, htf, hroomt]
    · simp [hfc, hroomf]
    · intro x
      refine (update_mono (le_update (by simp [hroomt])) le_rfl x).trans (le_update ?_ x)
      rw [Function.update_of_ne hfc, Function.update_of_ne htf.symm]
      omega
  have howe8 := hjump8.2 _ _ (Function.update room c 1) (howe6.move hc5) (by simp)
    (update_mono (fun _ => le_rfl) (by omega))
  have howe11 := hjump11.2 _ _ room (howe8.move hjump8.1) (by simp [hroomc])
    (le_update (by simp [hroomc]))
  exact howe11.move hjump11.1

theorem iteration_spec {expression : ASTExpression} {statement : ASTStatement}
    (hbody : VisitsStmt (visitStatement statement)) :
    VisitsStmt (visitStatement (.iteration expression statement)) := by
  intro σ s hp ho hr hpre r h
  rw [visitStatement] at h
  obtain ⟨e, σ1, h1, h⟩ := bind_some h
  obtain ⟨he, hran1, hfe, ho1, -⟩ := createBasicBlock_spec hp h1
  dsimp only at he hran1 hfe
  have hlt := hp.bb_lt
  obtain ⟨_, σ2, h2, h⟩ := bind_some h
  obtain ⟨s2, hran2, hbb2, hjump2⟩ :=
    createBrIfOpen_spec hran1.placed (hfe.targetAt (.refl _ _)) h2
  have hbb1 : (s.addBlock "").bb = s.bb := rfl
  have hfe2 := hran2.run.fresh (by omega) hfe
  have helt := hfe2.lt
  obtain ⟨_, σ3, h3, h⟩ := bind_some h
  cases h3
  obtain ⟨hran3, ho3⟩ := Ran.move hp (hran1.trans hran2) hfe2 he.ge (.refl _ _)
  obtain ⟨t, c, cond, σ7, s7, h, hran7, ho7, hcond, ht, htc, hft, hfc, howe7⟩ :=
    condition_spec hran3.placed ho3 (hran3.requireLvalue hr) h
  dsimp only at ht
  have hran := hran3.trans hran7
  -- The loop condition starts in `e`, whose origin is the block before the loop.
  have he7 : s7.origin e = some s.bb := (hran7.run.keeps.origin e helt).trans hfe2.origin
  obtain ⟨_, σ8, h8, h⟩ := bind_some h
  obtain ⟨s8, hran8, hext8, hanc8, hfresh8, hc8, howe8⟩ :=
    branch_spec hran ho7 hran.run.ancestor hft hfc htc.ne hcond h8
  have hfc8 := hfresh8 c hfc
  obtain ⟨_, σ9, h9, h⟩ := bind_some h
  cases h9
  obtain ⟨_, σ10, h10, h⟩ := bind_some h
  obtain ⟨_, σ11, h11, h⟩ := bind_some h
  cases h
  have helt7 : e < s7.module.numBlocks := helt.trans_le hran7.run.keeps.numBlocks
  have hle : s.module.numBlocks ≤ s2.module.numBlocks := hran3.run.keeps.numBlocks
  obtain ⟨s11, hran11, hext11, hfresh11, hjump11⟩ := arm_spec hbody hp hr hpre
    hran8 (hfresh8 t hft) (by omega) hanc8 (helt7.trans_le hext8.numBlocks)
    ((hext8.origin e helt7).trans he7) hanc8 h10 h11
  have hlt7 : s7.bb < s8.module.numBlocks :=
    (hran8.placed.inv.origin_lt c _ hfc8.origin).1.trans hfc8.lt
  refine ⟨_, (Ran.move hp hran11 (hfresh11 c _ hfc8 (by omega)) (by omega)
    (hext11.ancestor hran8.placed.inv hlt7 hanc8)).1, fun todo room how => ?_⟩
  -- The block of the condition has room for the edge back from the body.
  have htc := htc.ne
  have hte : t ≠ e := by omega
  have hce : c ≠ e := by omega
  have hroome : room e = 0 := how.fresh e (by omega)
  have hroomt : room t = 0 := how.fresh t (by omega)
  have hroomc : room c = 0 := how.fresh c (by omega)
  have howe1 := how.addBlock ""
  rw [← he] at howe1
  have howe2 := hjump2.2 _ _ (Function.update room e 1) howe1 (by simp)
    (update_mono (fun _ => le_rfl) (by omega))
  have howe7 := howe7 _ _ (howe2.move hjump2.1)
  have howe9 : Owes s8 (t :: c :: todo) (Function.update room e 1) := by
    refine (howe8 _ _ _ howe7 ?_ ?_ ?_).weaken (by simp) fun _ => le_rfl
    · simp [htc, hte, hroomt]
    · simp [hce, hroomc]
    · intro x
      refine (le_update (k := 2) ?_ x).trans (le_update (k := 2) ?_ x)
      · rw [Function.update_of_ne hte]
        omega
      · rw [Function.update_of_ne htc.symm, Function.update_of_ne hce]
        omega
  have howe11 := hjump11.2 _ _ room (howe9.move hc8) (by simp [hroome]) (le_update (by simp [hroome]))
  exact howe11.move hjump11.1

theorem return_spec {expression : ASTExpression} :
    VisitsStmt (visitStatement (.return (some expression))) := by
  intro σ s hp ho hr _ r h
  rw [visitStatement] at h
  obtain ⟨f, σ1, h1, h⟩ := bind_some h
  obtain ⟨_, hf, he⟩ := Option.map_eq_some_iff.mp h1
  cases he
  obtain ⟨m, σ2, h2, h⟩ := bind_some h
  cases h2
  obtain ⟨_, σ3, h3, h⟩ := bind_some h
  obtain ⟨s3, hran3, hpay3, ho3, hv⟩ := visitExpression_yields expression σ s hp ho hr _ h3
  obtain ⟨v, hv, h⟩ := withTmpVal hv h
  obtain ⟨w, σ4, h4, h⟩ := bind_some h
  obtain ⟨s4, hran4, hpay4, ho4, hw⟩ := convertReturned_yields hran3.placed ho3 hv _ _ h4
  obtain ⟨_, σ5, h5, h⟩ := bind_some h
  cases h5
  obtain ⟨_, h⟩ := discard_some h
  have hp5 := hran4.placed.setTmpVal (some w)
  obtain ⟨s5, hran5, -, hpay5, -⟩ := createRet_spec hp5 ho4 (.ret hw) h
  exact ⟨s5, (hran3.trans hran4).trans ⟨hran5.run, hran5.placed, hran5.scope, hran5.requireLvalue,
    hran5.preEnterScope⟩, (hpay3.trans hpay4).trans hpay5⟩

mutual

theorem visitStatement_spec : ∀ stmt, VisitsStmt (visitStatement stmt)
  | .compound _ statementList => compound_spec (visitStatementList_spec statementList)
  | .expressionStmt none => by
    intro σ s hp _ _ _ r h
    cases h
    exact ⟨s, .refl hp, .refl s⟩
  | .expressionStmt (some expression) => by
    intro σ s hp ho hr _ r h
    obtain ⟨s', hran, hpay, -⟩ := visitExpression_yields expression σ s hp ho hr r h
    exact ⟨s', hran, hpay⟩
  | .selection _ ifStatement => selection_spec (visitStatement_spec ifStatement)
  | .selectionElse _ ifStatement elseStatement =>
    selectionElse_spec (visitStatement_spec ifStatement) (visitStatement_spec elseStatement)
  | .iteration _ statement => iteration_spec (visitStatement_spec statement)
  | .return none => by
    intro σ s hp ho _ _ r h
    obtain ⟨_, h⟩ := discard_some h
    obtain ⟨s', hran, -, hpay, -⟩ := createRet_spec hp ho .retVoid h
    exact ⟨s', hran, hpay⟩
  | .return (some _) => return_spec

theorem visitStatementList_spec : ∀ stmts, VisitsStmt (visitStatementList stmts)
  | [] => by
    intro σ s hp _ _ _ r h
    cases h
    exact ⟨s, .refl hp, .refl s⟩
  | stmt :: stmts => by
    intro σ s hp ho hr hpre r h
    rw [visitStatementList] at h
    obtain ⟨_, σ1, h1, h⟩ := bind_some h
    obtain ⟨s1, hran1, hpay1⟩ := visitStatement_spec stmt σ s hp ho hr hpre _ h1
    obtain ⟨b, σ2, h2, h⟩ := bind_some h
    cases terminated_spec hran1.placed h2
    split at h
    · cases h
      exact ⟨s1, hran1, hpay1⟩
    · rename_i hopen
      obtain ⟨s2, hran2, hpay2⟩ := visitStatementList_spec stmts σ1 s1 hran1.placed (by simpa using hopen)
        (hran1.requireLvalue hr) (hran1.preEnterScope.trans hpre) _ h
      exact ⟨s2, hran1.trans hran2, hpay1.trans hpay2⟩

end

/-- The state of the visitors between two declarations: nothing local is in scope. -/
structure TopLevel (σ : BuilderState) (s : Site) : Prop where
  module_eq : σ.module = s.module
  steps : Relation.ReflTransGen Step ⟨initial.module, fun _ => none, 0, 0⟩ s
  scope : ∀ l ∈ σ.scope.inner, ∀ p ∈ l, NameAt s p.2 ∧ ∀ i, p.2 ≠ .instruction i
  scope_length : σ.scope.inner.length = 1
  closed : ∀ b < s.module.numBlocks, (s.module.getTerminator b).isSome
  pre : ∀ b < s.module.numBlocks, (s.module.blocks b).preBbs.length ≤ 2
  requireLvalue : σ.requireLvalue = false
  preEnterScope : σ.preEnterScope = false

theorem initial_inv : Inv initial.module (fun _ => none) := by
  have hempty : Inv Module.empty (fun _ => none) := by
    constructor <;> simp [Module.empty, Module.operands]
    intro v use
    cases use.val <;> simp
  exact createFunction_inv (createFunction_inv (createFunction_inv (createFunction_inv hempty
    .int32 []) .void [.int32]) .void [.float]) .void []

theorem TopLevel.inv (h : TopLevel σ s) : Inv s.module s.origin := (steps_inv h.steps initial_inv).1

theorem topLevel_initial : TopLevel initial ⟨initial.module, fun _ => none, 0, 0⟩ := by
  refine ⟨rfl, .refl, ?_, rfl, fun _ hb => absurd hb (Nat.not_lt_zero _),
    fun _ hb => absurd hb (Nat.not_lt_zero _), rfl, rfl⟩
  intro l hl p hpl
  have h : initial.scope.inner = [[("neg_idx_except", .function 3), ("outputFloat", .function 2),
      ("output", .function 1), ("input", .function 0)]] := rfl
  rw [h, List.mem_singleton] at hl
  subst hl
  simp only [List.mem_cons, List.not_mem_nil, or_false] at hpl
  have hnum : initial.module.numFunctions = 4 := rfl
  rcases hpl with rfl | rfl | rfl | rfl <;> exact ⟨by simp [NameAt, hnum], by simp⟩

theorem visitParams_spec {f : Nat} (params : List ASTParam) (argNo : Nat) (hp : Placed σ s)
    (ho : s.Open) (hf : s.fn = f)
    (hlen : argNo + params.length ≤ (s.module.functions f).paramTypes.length)
    {r : Unit × BuilderState} (h : visitParams f params argNo σ = some r) :
    ∃ s', Declares σ s r.2 s' ∧ Pays s s' ∧ s'.Open := by
  induction params generalizing σ s argNo with
  | nil =>
    cases h
    exact ⟨s, .refl hp, .refl s, ho⟩
  | cons param params ih =>
    rw [visitParams] at h
    obtain ⟨a, σ1, h1, h⟩ := bind_some h
    obtain ⟨s1, hran1, hpay1, ho1, hn1, hbb1, hfn1⟩ := createAlloca_spec hp ho h1
    obtain ⟨_, σ2, h2, h⟩ := bind_some h
    obtain ⟨_, h2⟩ := discard_some h2
    have hfn : (s1.module.blocks s1.bb).parent = f := hran1.placed.bb_fn.trans (hfn1.trans hf)
    have hflt : f < s.module.numFunctions := by
      have := (hp.inv.block_parent s.bb hp.bb_lt).1
      rwa [hp.bb_fn, hf] at this
    have hpar := hran1.run.keeps.paramTypes f hflt
    rw [List.length_cons] at hlen
    have ha1 : s1.AddressAt a := by
      dsimp only at hn1
      cases a with
      | instruction j => exact ⟨hn1.1, hn1.2.1, .inl hn1.2.2⟩
      | globalVariable g => exact hn1
      | function g =>
        cases (create_spec hp ho .alloca (by simp) h1).1
      | _ => exact hn1.elim
    have hem : Emits s1.module s1.origin s1.module.numInstrs s1.bb .store .void [.argument f argNo, a] := by
      rw [← hfn]
      refine .storeArg ?_ ha1
      rw [hfn, hpar]
      omega
    obtain ⟨_, hran2, _⟩ := create_spec hran1.placed ho1 hem (by simp) h2
    obtain ⟨_, σ3, h3, h⟩ := bind_some h
    cases h3
    have hn2 := hran2.run.nameAt hran1.placed.inv hran1.placed.bb_lt hn1
    have hd3 := Placed.push hran2.placed param.id hn2
    obtain ⟨s', hd, hpay, ho'⟩ := ih (argNo + 1) hd3.placed (Site.open_emit _ (by simp))
      (hran2.run.fn.trans (hfn1.trans hf)) (by
        have := hran2.run.keeps.paramTypes f (hflt.trans_le hran1.run.keeps.numFunctions)
        rw [this, hpar]
        omega) h
    exact ⟨s', ((declares_of_ran (hran1.trans hran2)).trans hd3).trans hd,
      (hpay1.trans (hem.pays hran1.placed.inv (by simp))).trans hpay, ho'⟩

theorem length_push (sc : Scope) (name : String) (v : Value) :
    (sc.push name v).inner.length = sc.inner.length := by
  unfold Scope.push
  split
  · rfl
  · rename_i hin
    split <;> simp [hin]

theorem nameAt_ext (h : Ext s.module s.origin s'.module s'.origin) (hn : NameAt s v)
    (hi : ∀ i, v ≠ .instruction i) : NameAt s' v := by
  cases v with
  | instruction i => exact absurd rfl (hi i)
  | globalVariable g => exact lt_of_lt_of_le hn h.numGlobals
  | function f => exact lt_of_lt_of_le hn h.numFunctions
  | _ => exact hn

/-- The names of the global scope stay bound to objects of the module. -/
theorem scope_ext {sc : Scope} (h : Ext s.module s.origin s'.module s'.origin)
    (hs : ∀ l ∈ sc.inner, ∀ p ∈ l, NameAt s p.2 ∧ ∀ i, p.2 ≠ .instruction i) {name : String}
    (hv : NameAt s' v ∧ ∀ i, v ≠ .instruction i) :
    ∀ l ∈ (sc.push name v).inner, ∀ p ∈ l, NameAt s' p.2 ∧ ∀ i, p.2 ≠ .instruction i := by
  intro l hl p hpl
  rcases mem_push hl hpl with rfl | ⟨l', hl', hpl'⟩
  · exact hv
  · obtain ⟨h1, h2⟩ := hs l' hl' p hpl'
    exact ⟨nameAt_ext h h1 h2, h2⟩

theorem visitVarDeclaration_topLevel (h : TopLevel σ s) {node : ASTVarDeclaration}
    {r : Unit × BuilderState} (hrun : visitVarDeclaration node σ = some r) :
    ∃ s', TopLevel r.2 s' := by
  unfold visitVarDeclaration at hrun
  obtain ⟨σ0, σ1, h1, hrun⟩ := bind_some hrun
  cases h1
  rw [if_pos (by simp [Scope.inGlobal, h.scope_length])] at hrun
  obtain ⟨m, σ2, h2, hrun⟩ := bind_some hrun
  cases h2
  rw [h.module_eq] at hrun
  cases hrun
  have hstep : ∀ ty, Step s { s with module := s.module.createGlobalVariable node.id ty (.constZero ty) } :=
    fun ty => .global node.id ty
  refine ⟨_, rfl, h.steps.tail (hstep _), ?_, (length_push _ _ _).trans h.scope_length,
    h.closed, h.pre, h.requireLvalue, h.preEnterScope⟩
  exact scope_ext ((hstep _).inv h.inv).2 h.scope ⟨Nat.lt_succ_self _, by simp⟩

theorem visitBody_spec {decls : List ASTVarDeclaration} {stmts : List ASTStatement}
    (hp : Placed σ s) (ho : s.Open) (hr : σ.requireLvalue = false) (hpre : σ.preEnterScope = true)
    {r : Unit × BuilderState} (h : visitStatement (.compound decls stmts) σ = some r) :
    ∃ s', Extends s s' ∧ Pays s s' ∧ Placed r.2 s' ∧
      r.2.scope.inner.tail = σ.scope.inner.tail ∧ r.2.requireLvalue = false ∧
      r.2.preEnterScope = false := by
  rw [visitStatement] at h
  obtain ⟨need, σ1, h1, h⟩ := bind_some h
  have he : need = false ∧ σ1 = { σ with preEnterScope := false } := by
    obtain ⟨σ0, σ0', h0, h1⟩ := bind_some h1
    cases h0
    rw [hpre] at h1
    cases h1
    exact ⟨rfl, rfl⟩
  obtain ⟨rfl, rfl⟩ := he
  have hp1 : Placed { σ with preEnterScope := false } s :=
    ⟨hp.1, hp.2, hp.3, hp.4, hp.5, hp.6, hp.7⟩
  obtain ⟨_, σ2, h2, h⟩ := bind_some h
  obtain ⟨s2, hd2, hpay2, ho2⟩ := visitLocalDeclarations_spec decls hp1 ho h2
  obtain ⟨_, σ3, h3, h⟩ := bind_some h
  obtain ⟨s3, hran3, hpay3⟩ := visitStatementList_spec stmts σ2 s2 hd2.placed ho2
    (hd2.requireLvalue hr) (hd2.preEnterScope.trans rfl) _ h3
  cases h
  have hd := hd2.trans (declares_of_ran hran3)
  exact ⟨s3, hd.run, hpay2.trans hpay3, hd.placed, hd.scope, hd.requireLvalue hr, hd.preEnterScope⟩

/-- The site at the start of a function. -/
def entrySite (s : Site) (node : ASTFunDeclaration) : Site where
  module := (s.module.createFunction node.id (returnType node) (node.params.map paramType)).createBasicBlock
    "entry" s.module.numFunctions
  origin := Function.update s.origin s.module.numBlocks none
  fn := s.module.numFunctions
  bb := s.module.numBlocks

theorem enterFunction_spec (h : TopLevel σ s) {node : ASTFunDeclaration} {r : Nat × BuilderState}
    (hrun : enterFunction node σ = some r) :
    r.1 = s.module.numFunctions ∧ Placed r.2 (entrySite s node) ∧ (entrySite s node).Open ∧
      r.2.scope.inner.tail = (σ.scope.push node.id (.function r.1)).inner ∧
      r.2.requireLvalue = false ∧ r.2.preEnterScope = true ∧
      (entrySite s node).module.numFunctions = s.module.numFunctions + 1 ∧
      node.params.length ≤ ((entrySite s node).module.functions r.1).paramTypes.length := by
  have hr : enterFunction node σ = some (σ.module.numFunctions, { σ with
      module := (σ.module.createFunction node.id (returnType node)
        (node.params.map paramType)).createBasicBlock "entry" σ.module.numFunctions
      scope := (σ.scope.push node.id (.function σ.module.numFunctions)).enter
      curFun := some σ.module.numFunctions
      insertBlock := some σ.module.numBlocks
      preEnterScope := true }) := rfl
  rw [hr, h.module_eq] at hrun
  cases hrun
  have hstep : Step s (entrySite s node) := .function _ _ _
  obtain ⟨hinv, hext⟩ := hstep.inv h.inv
  have hblock : (entrySite s node).module.blocks s.module.numBlocks =
      ⟨"label_entry", s.module.numFunctions, [], [], []⟩ := by
    exact (createBasicBlock_blocks _).trans (if_pos rfl)
  have hnum : (entrySite s node).module.numFunctions = s.module.numFunctions + 1 := rfl
  refine ⟨rfl, ⟨rfl, rfl, rfl, ?_, hinv, Nat.lt_succ_self _, ?_⟩, ?_, rfl, h.requireLvalue, rfl, hnum, ?_⟩
  · intro l hl p hpl
    rcases List.mem_cons.mp hl with rfl | hl
    · cases hpl
    · have hf : NameAt (entrySite s node) (.function s.module.numFunctions) :=
        Nat.lt_succ_self _
      exact (scope_ext hext h.scope ⟨hf, by simp⟩ l hl p hpl).1
  · exact congrArg BasicBlock.parent hblock
  · change Module.getTerminator _ s.module.numBlocks = none
    simp only [Module.getTerminator, hblock]
    rfl
  · change _ ≤ ((Module.createBasicBlock _ _ _).functions s.module.numFunctions).paramTypes.length
    rw [(createBasicBlock_types _).2]
    simp [Module.createFunction]

/-- Only the entry block is to be done at the start of a function. -/
theorem entrySite_owes (h : TopLevel σ s) (node : ASTFunDeclaration) :
    Owes (entrySite s node) [] fun _ => 0 := by
  have hnum : (entrySite s node).module.numBlocks = s.module.numBlocks + 1 := rfl
  have hold : ∀ b, b ≠ s.module.numBlocks →
      (entrySite s node).module.blocks b = s.module.blocks b :=
    fun b hb => (createBasicBlock_blocks b).trans (if_neg hb)
  refine ⟨fun b hb hne _ => ?_, fun b hb => ?_, fun _ _ => rfl⟩
  · rw [hnum] at hb
    have hbn : b ≠ s.module.numBlocks := hne
    rw [getTerminator_of_instrs (congrArg BasicBlock.instrList (hold b hbn)) fun _ _ => rfl]
    exact h.closed b (by omega)
  · rw [hnum] at hb
    by_cases hbn : b = s.module.numBlocks
    · subst hbn
      have hnew : ((entrySite s node).module.blocks s.module.numBlocks).preBbs = [] :=
        congrArg BasicBlock.preBbs ((createBasicBlock_blocks _).trans (if_pos rfl))
      simp [hnew]
    · rw [hold b hbn]
      exact h.pre b (by omega)

theorem createRetIfOpen_spec (hp : Placed σ s) {r : Unit × BuilderState}
    (h : createRetIfOpen σ = some r) : ∃ s', Ran σ s r.2 s' ∧ Pays s s' ∧ s'.Closed := by
  obtain ⟨b, σ1, h1, h⟩ := bind_some h
  cases terminated_spec hp h1
  split at h
  · rename_i hc
    cases h
    exact ⟨s, .refl hp, .refl s, hc⟩
  · rename_i ho
    obtain ⟨_, h⟩ := discard_some h
    obtain ⟨s', hran, -, hpay, hc⟩ := createDefaultRet_spec hp (by simpa using ho) h
    exact ⟨s', hran, hpay, hc⟩

theorem visitFunDeclaration_topLevel (h : TopLevel σ s) {node : ASTFunDeclaration}
    {r : Unit × BuilderState} (hrun : visitFunDeclaration node σ = some r) :
    ∃ s', TopLevel r.2 s' := by
  obtain ⟨f, σ1, h1, hrun⟩ := bind_some hrun
  obtain ⟨hf, hp1, ho1, hscope1, hr1, hpre1, hnum, hlen⟩ := enterFunction_spec h h1
  dsimp only at hf hp1 hscope1 hr1 hpre1 hlen
  obtain ⟨_, σ2, h2, hrun⟩ := bind_some hrun
  obtain ⟨s2, hd2, hpay2, ho2⟩ := visitParams_spec node.params 0 hp1 ho1 (by rw [hf]; rfl) (by omega) h2
  obtain ⟨_, σ3, h3, hrun⟩ := bind_some hrun
  obtain ⟨s3, hext3, hpay3, hp3, hscope3, hr3, hpre3⟩ := visitBody_spec hd2.placed ho2
    (hd2.requireLvalue hr1) (hd2.preEnterScope.trans hpre1) h3
  obtain ⟨_, σ4, h4, hrun⟩ := bind_some hrun
  obtain ⟨s4, hran4, hpay4, hc4⟩ := createRetIfOpen_spec hp3 h4
  cases hrun
  have hstep : Step s (entrySite s node) := .function _ _ _
  have hext := (hd2.run.trans hext3 hd2.placed.inv hd2.placed.bb_lt).trans hran4.run hp3.inv hp3.bb_lt
  have hscope : σ4.scope.inner.tail = (σ.scope.push node.id (.function f)).inner := by
    rw [hran4.scope, hscope3, hd2.scope, hscope1]
  have howe := hpay4 _ _ (hpay3 _ _ (hpay2 _ _ (entrySite_owes h node)))
  refine ⟨s4, hran4.placed.module_eq, (h.steps.tail hstep).trans hext.steps, ?_, ?_,
    howe.terminated hc4, howe.pre, hran4.requireLvalue hr3, hran4.preEnterScope.trans hpre3⟩
  · intro l hl
    have hl' : l ∈ (σ.scope.push node.id (.function f)).inner := hscope ▸ hl
    refine scope_ext ((hstep.inv h.inv).2.trans hext.keeps) h.scope ⟨?_, by simp⟩ l hl'
    have : f < (entrySite s node).module.numFunctions := by omega
    exact this.trans_le hext.keeps.numFunctions
  · change σ4.scope.inner.tail.length = 1
    rw [hscope, length_push, h.scope_length]

theorem visitDeclarations_topLevel (decls : List ASTDeclaration) (h : TopLevel σ s)
    {r : Unit × BuilderState} (hrun : visitDeclarations decls σ = some r) :
    ∃ s', TopLevel r.2 s' := by
  induction decls generalizing σ s with
  | nil =>
    cases hrun
    exact ⟨s, h⟩
  | cons decl decls ih =>
    obtain ⟨_, σ1, h1, hrun⟩ := bind_some hrun
    obtain ⟨s1, hs1⟩ : ∃ s', TopLevel σ1 s' := by
      cases decl with
      | var decl => exact visitVarDeclaration_topLevel h h1
      | «fun» decl => exact visitFunDeclaration_topLevel h h1
    exact ih hs1 hrun

theorem buildModule_topLevel {p : ASTProgram} {m : Module} (h : buildModule p = some m) :
    ∃ σ s, TopLevel σ s ∧ s.module = m := by
  obtain ⟨⟨u, σ⟩, hrun, hm⟩ := Option.map_eq_some_iff.mp h
  obtain ⟨s, hs⟩ := visitDeclarations_topLevel p.declarations topLevel_initial hrun
  exact ⟨σ, s, hs, hs.module_eq.symm.trans hm⟩

/-- Every module that the visitors build comes with a sketch. -/
theorem buildModule_inv {p : ASTProgram} {m : Module} (h : buildModule p = some m) :
    ∃ origin, Inv m origin := by
  obtain ⟨σ, s, hs, rfl⟩ := buildModule_topLevel h
  exact ⟨s.origin, hs.inv⟩

end CminusfBuilder

end Cminusf
