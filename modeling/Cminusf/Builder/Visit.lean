import Cminusf.Builder.Invariant
import Cminusf.CminusfBuilder

/-! The visitors only take steps of the construction. -/

namespace Cminusf

namespace Builder

/-- The values that a name can be bound to. -/
def NameAt (s : Site) : Value → Prop
  | .instruction j => j < s.module.numInstrs ∧
      Graph.Ancestor s.origin (s.module.instrs j).parent s.bb ∧ (s.module.instrs j).isAlloca
  | .globalVariable g => g < s.module.numGlobals
  | .function f => f < s.module.numFunctions
  | _ => False

abbrev Site.ValueAt (s : Site) : Value → Prop :=
  Builder.ValueAt s.module s.origin s.module.numInstrs s.bb

abbrev Site.AddressAt (s : Site) : Value → Prop :=
  Builder.AddressAt s.module s.origin s.module.numInstrs s.bb

/-- The state of the visitors at a site. -/
structure Placed (σ : BuilderState) (s : Site) : Prop where
  module_eq : σ.module = s.module
  insertBlock : σ.insertBlock = some s.bb
  curFun : σ.curFun = some s.fn
  scope : ∀ l ∈ σ.scope.inner, ∀ p ∈ l, NameAt s p.2
  inv : Inv s.module s.origin
  bb_lt : s.bb < s.module.numBlocks
  bb_fn : (s.module.blocks s.bb).parent = s.fn

abbrev Site.Open (s : Site) : Prop := s.module.getTerminator s.bb = none

/-- A run of the construction that writes to no older block than the one it starts at. -/
structure Extends (s s' : Site) : Prop where
  steps : Relation.ReflTransGen Step s s'
  keeps : Ext s.module s.origin s'.module s'.origin
  fn : s'.fn = s.fn
  bb : s'.bb = s.bb ∨ s.module.numBlocks ≤ s'.bb
  ancestor : Graph.Ancestor s'.origin s.bb s'.bb
  instrList : ∀ b < s.module.numBlocks, b ≠ s.bb →
    (s'.module.blocks b).instrList = (s.module.blocks b).instrList

/-- A part of a visitor that ends with the scopes it found. -/
structure Ran (σ : BuilderState) (s : Site) (σ' : BuilderState) (s' : Site) : Prop where
  run : Extends s s'
  placed : Placed σ' s'
  scope : σ'.scope = σ.scope
  requireLvalue : σ.requireLvalue = false → σ'.requireLvalue = false
  preEnterScope : σ'.preEnterScope = σ.preEnterScope

/-- A block made for later, with its origin. -/
structure Fresh (s : Site) (b o : Nat) : Prop where
  lt : b < s.module.numBlocks
  fn : (s.module.blocks b).parent = s.fn
  empty : (s.module.blocks b).instrList = []
  origin : s.origin b = some o

section

variable {σ σ' σ'' : BuilderState} {s s' s'' : Site} {v : Value} {b o : Nat} {α β : Type}

theorem bind_some {x : Builder α} {f : α → Builder β} {r : β × BuilderState}
    (h : (x >>= f) σ = some r) : ∃ a σ', x σ = some (a, σ') ∧ f a σ' = some r := by
  obtain ⟨⟨a, σ'⟩, hx, hf⟩ := Option.bind_eq_some_iff.mp h
  exact ⟨a, σ', hx, hf⟩

theorem discard_some {x : Builder α} {r : Unit × BuilderState} (h : discard x σ = some r) :
    ∃ a, x σ = some (a, r.2) := by
  obtain ⟨a, σ', hx, hr⟩ := bind_some (f := fun _ => pure ()) h
  cases hr
  exact ⟨a, hx⟩

theorem Extends.refl (s : Site) : Extends s s :=
  ⟨.refl, .refl _ _, rfl, .inl rfl, .refl _ _, fun _ _ _ => rfl⟩

theorem Extends.trans (h : Extends s s') (h' : Extends s' s'') (hi : Inv s'.module s'.origin)
    (hb : s'.bb < s'.module.numBlocks) : Extends s s'' where
  steps := h.steps.trans h'.steps
  keeps := h.keeps.trans h'.keeps
  fn := h'.fn.trans h.fn
  bb := by
    have := h.keeps.numBlocks
    rcases h'.bb with he | hn
    · rw [he]
      exact h.bb
    · exact .inr (by omega)
  ancestor := (h'.keeps.ancestor hi hb h.ancestor).trans h'.ancestor
  instrList b hb hne := by
    have hne' : b ≠ s'.bb := by
      rcases h.bb with he | hn
      · rwa [he]
      · omega
    rw [h'.instrList b (hb.trans_le h.keeps.numBlocks) hne', h.instrList b hb hne]

theorem Ran.trans (h : Ran σ s σ' s') (h' : Ran σ' s' σ'' s'') : Ran σ s σ'' s'' where
  run := h.run.trans h'.run h.placed.inv h.placed.bb_lt
  placed := h'.placed
  scope := h'.scope.trans h.scope
  requireLvalue hr := h'.requireLvalue (h.requireLvalue hr)
  preEnterScope := h'.preEnterScope.trans h.preEnterScope

theorem Extends.valueAt (h : Extends s s') (hi : Inv s.module s.origin)
    (hb : s.bb < s.module.numBlocks) (hv : s.ValueAt v) : s'.ValueAt v := by
  have := h.keeps.valueAt hi hb le_rfl h.keeps.numInstrs hv
  cases v with
  | instruction j => exact ⟨this.1, this.2.1.trans h.ancestor, this.2.2⟩
  | _ => exact this

theorem Extends.addressAt (h : Extends s s') (hi : Inv s.module s.origin)
    (hb : s.bb < s.module.numBlocks) (hv : s.AddressAt v) : s'.AddressAt v := by
  have := h.keeps.addressAt hi hb le_rfl h.keeps.numInstrs hv
  cases v with
  | instruction j => exact ⟨this.1, this.2.1.trans h.ancestor, this.2.2⟩
  | _ => exact this

theorem Extends.nameAt (h : Extends s s') (hi : Inv s.module s.origin)
    (hb : s.bb < s.module.numBlocks) (hv : NameAt s v) : NameAt s' v := by
  cases v with
  | instruction j =>
    obtain ⟨h1, h2, h3⟩ := hv
    have hj := h.keeps.instrs j h1
    exact ⟨h1.trans_le h.keeps.numInstrs, by rw [hj]; exact (h.keeps.ancestor hi hb h2).trans h.ancestor,
      by rw [hj]; exact h3⟩
  | globalVariable g => exact lt_of_lt_of_le hv h.keeps.numGlobals
  | function f => exact lt_of_lt_of_le hv h.keeps.numFunctions
  | _ => exact hv

theorem Ran.valueAt (h : Ran σ s σ' s') (hp : Placed σ s) (hv : s.ValueAt v) : s'.ValueAt v :=
  h.run.valueAt hp.inv hp.bb_lt hv

theorem Ran.addressAt (h : Ran σ s σ' s') (hp : Placed σ s) (hv : s.AddressAt v) : s'.AddressAt v :=
  h.run.addressAt hp.inv hp.bb_lt hv

theorem Extends.fresh (h : Extends s s') (hne : b ≠ s.bb) (hf : Fresh s b o) : Fresh s' b o where
  lt := hf.lt.trans_le h.keeps.numBlocks
  fn := by rw [h.keeps.parent b hf.lt, hf.fn, h.fn]
  empty := by rw [h.instrList b hf.lt hne, hf.empty]
  origin := (h.keeps.origin b hf.lt).trans hf.origin

theorem Fresh.moved {c : Nat} (h : Fresh s b o) : Fresh { s with bb := c } b o :=
  ⟨h.1, h.2, h.3, h.4⟩

theorem Fresh.targetAt (h : Fresh s b o) (ho : Graph.Ancestor s.origin o s.bb) :
    TargetAt s.module s.origin s.bb b := ⟨h.lt, o, h.origin, ho⟩

/-- Moves the insert point to a block made in the run. -/
theorem Ran.move (hp : Placed σ s) (h : Ran σ s σ' s') (hf : Fresh s' b o)
    (hb : s.module.numBlocks ≤ b) (ho : Graph.Ancestor s'.origin s.bb o) :
    Ran σ s { σ' with insertBlock := some b } { s' with bb := b } ∧
      Site.Open { s' with bb := b } := by
  have hfn : (s'.module.blocks b).parent = s'.fn := hf.fn
  have hext : Extends s { s' with bb := b } := {
    steps := h.run.steps.tail (.move hf.lt hfn)
    keeps := h.run.keeps
    fn := h.run.fn
    bb := .inr hb
    ancestor := ho.trans (.of_idom hf.origin)
    instrList := h.run.instrList }
  refine ⟨⟨hext, ⟨h.placed.module_eq, rfl, h.placed.curFun, ?_, h.placed.inv, hf.lt, hfn⟩, h.scope,
    h.requireLvalue, h.preEnterScope⟩, ?_⟩
  · intro l hl p hpl
    change l ∈ σ'.scope.inner at hl
    rw [h.scope] at hl
    exact hext.nameAt hp.inv hp.bb_lt (hp.scope l hl p hpl)
  · change s'.module.getTerminator b = none
    simp [Module.getTerminator, hf.empty]

/-- The site after an instruction has been emitted. -/
def Site.emit (s : Site) (opId : OpID) (ty : Ty) (ops : List Value) : Site :=
  { s with module := (link s.module s.bb (labels ops)).createInstruction opId ty ops s.bb }

variable {opId : OpID} {ty : Ty} {ops : List Value}

theorem Site.emit_instrs (s : Site) (opId : OpID) (ty : Ty) (ops : List Value) :
    (s.emit opId ty ops).module.instrs s.module.numInstrs = ⟨opId, ty, ops, s.bb⟩ :=
  (congrFun (emitted s.module s.bb opId ty ops).instrs _).trans (Function.update_self _ _ _)

theorem Placed.emit (hp : Placed σ s) (ho : s.Open)
    (he : Emits s.module s.origin s.module.numInstrs s.bb opId ty ops) :
    Ran σ s { σ with module := (s.emit opId ty ops).module } (s.emit opId ty ops) := by
  have hem := emitted s.module s.bb opId ty ops
  have hstep : Step s (s.emit opId ty ops) := .emit hp.bb_lt hp.bb_fn ho he
  have hext : Extends s (s.emit opId ty ops) := {
    steps := .single hstep
    keeps := (hstep.inv hp.inv).2
    fn := rfl
    bb := .inl rfl
    ancestor := .refl _ _
    instrList := fun b _ hne => (hem.instrList b).trans (by simp [hne]) }
  refine ⟨hext, ⟨rfl, hp.insertBlock, hp.curFun, ?_, (hstep.inv hp.inv).1, ?_, ?_⟩, rfl, id, rfl⟩
  · exact fun l hl p hpl => hext.nameAt hp.inv hp.bb_lt (hp.scope l hl p hpl)
  · exact hp.bb_lt.trans_le hext.keeps.numBlocks
  · exact (hem.parent s.bb).trans hp.bb_fn

/-- An instruction without successors leaves the block open, unless it is `ret`. -/
theorem Site.open_emit (s : Site) (hop : opId ≠ .br ∧ opId ≠ .ret) :
    (s.emit opId ty ops).Open := by
  have hem := emitted s.module s.bb opId ty ops
  have hlist := hem.instrList s.bb
  simp only [if_true] at hlist
  change Module.getTerminator ((link s.module s.bb (labels ops)).createInstruction opId ty ops s.bb)
    s.bb = none
  simp only [Module.getTerminator, hlist, hem.instrs, List.getLast?_concat, Function.update_self,
    Instruction.isTerminator, Instruction.isBr, Instruction.isRet]
  cases opId <;> simp_all

theorem pure_apply {α : Type} (a : α) : (pure a : Builder α) σ = some (a, σ) := rfl

theorem create_eq (hp : Placed σ s) :
    create opId ty ops σ = some (.instruction s.module.numInstrs,
      { σ with module := s.module.createInstruction opId ty ops s.bb }) := by
  simp [create, getInsertBlock, getModule, setModule, hp.insertBlock, hp.module_eq, modify,
    modifyGet, MonadStateOf.modifyGet, StateT.modifyGet, bind, StateT.bind, get, getThe,
    MonadStateOf.get, StateT.get, pure_apply]

/-- An instruction that makes no edge. -/
theorem create_spec (hp : Placed σ s) (ho : s.Open)
    (he : Emits s.module s.origin s.module.numInstrs s.bb opId ty ops)
    (hop : opId ≠ .br) {r : Value × BuilderState} (h : create opId ty ops σ = some r) :
    r.1 = .instruction s.module.numInstrs ∧ Ran σ s r.2 (s.emit opId ty ops) ∧
      r.2.tmpVal = σ.tmpVal := by
  have hl : labels ops = [] := by
    rcases he.labels_eq with hl | ⟨hbr, -⟩
    · exact hl
    · exact absurd hbr hop
  have hran := hp.emit ho he
  rw [create_eq hp] at h
  cases h
  refine ⟨rfl, ?_, rfl⟩
  simpa only [Site.emit, hl, link, List.reverse_nil, List.foldl_nil] using hran

theorem getTerminator_of_instrs {m m' : Module} (hl : (m'.blocks b).instrList = (m.blocks b).instrList)
    (hi : ∀ i ∈ (m.blocks b).instrList, m'.instrs i = m.instrs i) :
    m'.getTerminator b = m.getTerminator b := by
  unfold Module.getTerminator
  rw [hl]
  cases hlast : (m.blocks b).instrList.getLast? with
  | none => rfl
  | some i => simp only [hi i (List.mem_of_getLast? hlast)]

/-- The site after a block has been made. -/
def Site.addBlock (s : Site) (name : String) : Site :=
  { s with
    module := s.module.createBasicBlock name s.fn
    origin := Function.update s.origin s.module.numBlocks (some s.bb) }

theorem createBasicBlock_spec {name : String} (hp : Placed σ s) {r : Nat × BuilderState}
    (h : createBasicBlock name σ = some r) :
    r.1 = s.module.numBlocks ∧ Ran σ s r.2 (s.addBlock name) ∧ Fresh (s.addBlock name) r.1 s.bb ∧
      (s.Open → (s.addBlock name).Open) ∧ r.2.tmpVal = σ.tmpVal := by
  have hr : createBasicBlock name σ = some (s.module.numBlocks,
      { σ with module := s.module.createBasicBlock name s.fn }) := by
    simp [createBasicBlock, getCurFun, getModule, setModule, hp.curFun, hp.module_eq, modify,
      modifyGet, MonadStateOf.modifyGet, StateT.modifyGet, bind, StateT.bind, get, getThe,
      MonadStateOf.get, StateT.get, pure_apply]
  rw [hr] at h
  cases h
  have hstep : Step s (s.addBlock name) := .block name hp.bb_lt hp.bb_fn
  obtain ⟨hinv, hext⟩ := hstep.inv hp.inv
  have hold : ∀ b < s.module.numBlocks,
      (s.addBlock name).module.blocks b = s.module.blocks b := by
    intro b hb
    exact (createBasicBlock_blocks b).trans (if_neg hb.ne)
  have hran : Extends s (s.addBlock name) :=
    ⟨.single hstep, hext, rfl, .inl rfl, .refl _ _, fun b hb _ => by rw [hold b hb]⟩
  refine ⟨rfl, ⟨hran, ⟨rfl, hp.insertBlock, hp.curFun, ?_, hinv, ?_, ?_⟩, rfl, id, rfl⟩,
    ⟨Nat.lt_succ_self _, ?_, ?_, Function.update_self _ _ _⟩, fun ho => ?_, rfl⟩
  · exact fun l hl p hpl => hran.nameAt hp.inv hp.bb_lt (hp.scope l hl p hpl)
  · exact hp.bb_lt.trans_le hext.numBlocks
  · exact (congrArg BasicBlock.parent (hold s.bb hp.bb_lt)).trans hp.bb_fn
  · exact congrArg BasicBlock.parent ((createBasicBlock_blocks _).trans (if_pos rfl))
  · exact congrArg BasicBlock.instrList ((createBasicBlock_blocks _).trans (if_pos rfl))
  · exact (getTerminator_of_instrs (congrArg BasicBlock.instrList (hold s.bb hp.bb_lt))
      fun _ _ => rfl).trans ho

theorem createBr_spec {t : Nat} (hp : Placed σ s) (ho : s.Open)
    (ht : TargetAt s.module s.origin s.bb t) {r : Value × BuilderState}
    (h : createBr t σ = some r) : Ran σ s r.2 (s.emit .br .void [.basicBlock t]) := by
  have hr : createBr t σ = some (.instruction s.module.numInstrs,
      { σ with module := (s.emit .br .void [.basicBlock t]).module }) := by
    have hl : labels [.basicBlock t] = [t] := rfl
    simp [createBr, create, getInsertBlock, getModule, setModule, hp.insertBlock, hp.module_eq,
      modify, modifyGet, MonadStateOf.modifyGet, StateT.modifyGet, bind, StateT.bind, get, getThe,
      MonadStateOf.get, StateT.get, pure_apply, Site.emit, hl, link]
    rfl
  rw [hr] at h
  cases h
  exact hp.emit ho (.br ht)

theorem createCondBr_spec {c : Value} {t f : Nat} (hp : Placed σ s) (ho : s.Open)
    (hc : s.ValueAt c) (ht : TargetAt s.module s.origin s.bb t)
    (hf : TargetAt s.module s.origin s.bb f) (hne : t ≠ f) {r : Value × BuilderState}
    (h : createCondBr c t f σ = some r) :
    Ran σ s r.2 (s.emit .br .void [c, .basicBlock t, .basicBlock f]) := by
  have hl : labels [c, .basicBlock t, .basicBlock f] = [t, f] := by
    cases c <;> first | rfl | exact absurd hc id
  have hr : createCondBr c t f σ = some (.instruction s.module.numInstrs,
      { σ with module := (s.emit .br .void [c, .basicBlock t, .basicBlock f]).module }) := by
    simp [createCondBr, create, getInsertBlock, getModule, setModule, hp.insertBlock, hp.module_eq,
      modify, modifyGet, MonadStateOf.modifyGet, StateT.modifyGet, bind, StateT.bind, get, getThe,
      MonadStateOf.get, StateT.get, pure_apply, Site.emit, hl, link]
    rfl
  rw [hr] at h
  cases h
  exact hp.emit ho (.condBr hc ht hf hne)

end

end Builder

end Cminusf
