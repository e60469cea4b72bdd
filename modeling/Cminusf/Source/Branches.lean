import Cminusf.Builder.Vacancy
import Cminusf.Source.Access

/-! Blocks and the branches to them. -/

namespace Cminusf

namespace Source

open Machine Builder CminusfBuilder

/-- The words of the arguments of a call, which fit the parameters. -/
inductive Passes (μ : Layout) : List (CminusType × Bool) → List Val → List Word → Prop where
  | nil : Passes μ [] [] []
  | cons {param : CminusType × Bool} {params : List (CminusType × Bool)} {v : Val} {vs : List Val}
      {x : Word} {xs : List Word} : param.1 ≠ .void → Denotes μ v (paramTy param) x →
      Passes μ params vs xs → Passes μ (param :: params) (v :: vs) (x :: xs)

/-- The calls of `f` in the module do what `call` does. -/
def Setting.CallsTo (S : Setting) (f : Callee) (params : List (CminusType × Bool))
    (call : List Val → Eval (Option Val)) : Prop :=
  ∀ (vs : List Val) (xs : List Word) (frame : Frame) (t : Store) (w : World) (i : Nat)
    (rest : List Nat) (args : List Value), f.index < S.target.numFunctions →
    frame.rest = i :: rest → (S.target.instrs i).opId = .call →
    (S.target.instrs i).operands = .function f.index :: args → args.mapM frame.value = some xs →
    Passes S.layout params vs xs → S.layout.Made S.callers.length frame.count →
    Mirrors S.target S.layout t w →
    Emulates (step S.ops S.target)
      (fun o t' s' => ∃ x w', s' = .running (frame.next i rest x) S.callers w' ∧
        Mirrors S.target S.layout t' w' ∧ Stable S.layout t t' ∧
        ∀ u, o = some u → ∃ z, x = some z ∧
          Denotes S.layout u (S.target.functions f.index).returnType z)
      (S.Fails t) (.running frame S.callers w) (call vs t)

/-- The calls in the module do what the calls in the program do. -/
def Setting.Calls (S : Setting) (c : Context) : Prop := ∀ f, S.CallsTo f (c.params f) (c.call f)

/-- What a construct relies on: the module has no phis, `neg_idx_except` is not redefined, and the
functions are there and do what they should. -/
structure Serves (S : Setting) (c : Context) : Prop where
  ops : c.ops = S.ops
  globals : S.globals.Le S.layout
  phis : ∀ b < S.target.numBlocks, Gvn.phis S.target b = []
  negIdxExcept : ∀ f, S.env.find "neg_idx_except" = some (.function f) → f = .negIdxExcept
  library : (S.target.functions 3).name = "neg_idx_except" ∧ (S.target.functions 3).isDeclaration
  params : ∀ f : Callee, f.index < S.target.numFunctions →
    (S.target.functions f.index).paramTypes = (c.params f).map paramTy
  call : ∀ μ, S.globals.Le μ → ({ S with layout := μ } : Setting).Calls c

/-- A block of the current function that is made for later. -/
structure Awaits (frame : Frame) (b : Nat) (σ : BuilderState) : Prop extends Empty b σ where
  mem : b ∈ (σ.module.functions frame.func).basicBlocks

variable {α : Type} {S : Setting} {c : Context} {σ σ' : BuilderState} {frame frame' : Frame}
  {t t' : Store} {w w' : World} {b d : Nat} {m m' M : Module} {operands : List Value} {val : Value}
  {x : Builder α} {r : α × BuilderState} {name : String}

theorem Awaits.keep (h : Awaits frame b σ) (hx : x σ = some r) (hcx : Continues x)
    (hkx : KeepsEmpty b x) (hf : frame.func < σ.module.numFunctions) : Awaits frame b r.2 where
  toEmpty := hkx σ r hx h.toEmpty
  mem := ((hcx σ r hx).1.basicBlocks frame.func hf).subset h.mem

theorem Awaits.of_later {n : Nat} (h : Awaits frame b σ) (hl : Later n frame frame') :
    Awaits frame' b σ where
  toEmpty := h.toEmpty
  mem := by
    rw [hl.func]
    exact h.mem

/-- A new block is no code. -/
theorem createBasicBlock_matches {r : Nat × BuilderState} (h : S.Matches σ frame t w)
    (hr : createBasicBlock name σ = some r) : Within σ.module r.2.module ∧
      S.Matches r.2 frame t w ∧ Awaits frame r.1 r.2 ∧ Only σ r.2 ∧
      ∀ b, Awaits frame b σ → Awaits frame b r.2 ∧ b ≠ r.1 := by
  obtain ⟨g, hg, rfl⟩ := createBasicBlock_appended hr
  obtain rfl : frame.func = g := Option.some.inj (h.curFun.symm.trans hg)
  have hw := createBasicBlock_within σ.module name frame.func
  have hold : ∀ b < σ.module.numBlocks,
      (σ.module.createBasicBlock name frame.func).blocks b = σ.module.blocks b := fun b hb =>
    createBasicBlock_old hb
  have haway : σ.insertBlock ≠ some σ.module.numBlocks := by
    rw [h.insertBlock]
    intro he
    exact h.block.ne (Option.some.inj he)
  refine ⟨hw, ?_, ⟨createBasicBlock_empty hr haway, ?_⟩, rfl, fun b hb => ⟨⟨⟨?_, ?_, hb.away⟩, ?_⟩,
    hb.lt.ne⟩⟩
  · refine ⟨h.curFun, h.func.trans_le hw.widens.numFunctions, h.requireLvalue, h.insertBlock,
      h.block.trans_le hw.widens.numBlocks, ?_, ?_, ?_, h.made, h.mirrors⟩
    · show (σ.module.createBasicBlock name frame.func).getTerminator frame.block = none
      rw [Module.getTerminator, hold _ h.block]
      exact h.isOpen
    · show _ = ((σ.module.createBasicBlock name frame.func).blocks frame.block).instrList ++ _
      rw [hold _ h.block]
      exact h.rest
    · exact h.binds.later hw (.refl _ _) (.refl _)
  · show σ.module.numBlocks ∈
      ((σ.module.createBasicBlock name frame.func).functions frame.func).basicBlocks
    rw [createBasicBlock_basicBlocks, if_pos rfl]
    exact List.mem_append_right _ (List.mem_singleton_self _)
  · exact hb.lt.trans_le hw.widens.numBlocks
  · show ((σ.module.createBasicBlock name frame.func).blocks b).instrList = []
    rw [hold b hb.lt, hb.nil]
  · exact (hw.basicBlocks frame.func h.func).subset hb.mem

theorem Implements.block {γ δ : Type} {f : Nat → Builder γ} {y : Eval δ}
    {R : γ → δ → BuilderState → Frame → Prop} (h : S.Matches σ frame t w)
    (hf : ∀ a σ', Within σ.module σ'.module → S.Matches σ' frame t w → Awaits frame a σ' →
      Only σ σ' → (∀ b, Awaits frame b σ → Awaits frame b σ' ∧ b ≠ a) →
      Implements S (f a) y σ' frame t w R) :
    Implements S (createBasicBlock name >>= f) y σ frame t w R := by
  intro r hr hM
  obtain ⟨a, σ₁, h₁, hr⟩ := bind_some hr
  obtain ⟨hw, hm, ha, honly, hold⟩ := createBasicBlock_matches h h₁
  have hnum : σ₁.module.numInstrs = σ.module.numInstrs := by
    obtain ⟨g, -, he⟩ := createBasicBlock_appended h₁
    cases he
    rfl
  have hx := hf a σ₁ hw hm ha honly hold r hr hM
  rwa [hnum] at hx

/-! ### Branches -/

theorem body_eq (h : Gvn.phis M b = []) : Gvn.body M b = (M.blocks b).instrList := by
  refine List.filter_eq_self.mpr fun i hi => ?_
  have hnot : i ∉ Gvn.phis M b := by
    rw [h]
    exact List.not_mem_nil
  have hphi : (M.instrs i).isPhi = false := by
    cases hp : (M.instrs i).isPhi with
    | false => rfl
    | true => exact absurd (List.mem_filter.mpr ⟨hi, hp⟩) hnot
  rw [hphi]
  rfl

/-- A block without phis is entered at its first instruction. -/
theorem jump_eq (h : Gvn.phis M b = []) :
    frame.jump M b = { frame with block := b, rest := (M.blocks b).instrList } := by
  simp [Frame.jump, h, body_eq h]

/-- The frame at the start of a block to which the visitors have gone. -/
theorem enter_matches (hphis : Gvn.phis S.target b = []) (hcur : σ.curFun = some frame.func)
    (hfunc : frame.func < σ.module.numFunctions) (hlval : σ.requireLvalue = false)
    (hins : σ.insertBlock = some b) (hb : b < σ.module.numBlocks)
    (hempty : (σ.module.blocks b).instrList = [])
    (hbinds : Binds S.layout σ.module frame S.env σ.scope.inner)
    (hmade : S.layout.Made S.callers.length frame.count)
    (hmem : Mirrors S.target S.layout t w) : S.Matches σ (frame.jump S.target b) t w := by
  rw [jump_eq hphis]
  refine ⟨hcur, hfunc, hlval, hins, hb, ?_, ?_, ?_, hmade, hmem⟩
  · simp [Module.getTerminator, hempty]
  · simp [hempty]
  · exact hbinds.later (.refl _) ⟨rfl, rfl, fun _ _ => rfl, fun _ => le_rfl⟩ (.refl _)

theorem jump_later (n : Nat) (hphis : Gvn.phis M b = []) : Later n frame (frame.jump M b) := by
  rw [jump_eq hphis]
  exact ⟨rfl, rfl, fun _ _ => rfl, fun _ => le_rfl⟩

theorem action_br {ops : FloatOps} {depth i : Nat} (hi : (M.instrs i).opId = .br)
    (hops : (M.instrs i).operands = [.basicBlock b]) :
    Machine.action ops M depth frame w i = some (.jumps b) := by
  simp [Machine.action, hi, hops]

theorem action_condBr {ops : FloatOps} {depth i : Nat} {v : Bool} (hi : (M.instrs i).opId = .br)
    (hops : (M.instrs i).operands = [val, .basicBlock b, .basicBlock d])
    (hv : frame.value val = some (.number (.bool v))) :
    Machine.action ops M depth frame w i = some (.jumps (if v then b else d)) := by
  simp [Machine.action, hi, hops, hv]

/-- The branch at the insert point is taken. -/
theorem branch_step (h : S.Matches σ frame t w)
    (hap : Appended σ.module frame.block .br .void operands m') (hM : Within m' S.target)
    (hact : ∀ i, S.target.instrs i = ⟨.br, .void, operands, frame.block⟩ →
      Machine.action S.ops S.target S.callers.length frame w i = some (.jumps b))
    (hb : b ∈ (σ.module.functions frame.func).basicBlocks) :
    step S.ops S.target (.running frame S.callers w) =
      some (.running (frame.jump S.target b) S.callers w) := by
  obtain ⟨rest, hrest, hins, -, -⟩ := h.emit hap hM
  have hmem : b ∈ (S.target.functions frame.func).basicBlocks :=
    ((hap.within.trans hM).basicBlocks frame.func h.func).subset hb
  rw [step, hrest]
  dsimp only
  rw [hact _ hins, Option.bind_some, perform, if_pos hmem]

/-- The branch on a condition. -/
theorem condBr_step {c : Context} {a : Nat} {v : Bool} {r : Value × BuilderState} (hS : Serves S c)
    (h : S.Matches σ frame t w) (hv : frame.value val = some (.number (.bool v)))
    (ha : Awaits frame a σ) (hd : Awaits frame d σ) (hr : createCondBr val a d σ = some r)
    (hM : Within r.2.module S.target) :
    step S.ops S.target (.running frame S.callers w) =
        some (.running (frame.jump S.target (if v then a else d)) S.callers w) ∧
      S.Matches { r.2 with insertBlock := some (if v then a else d) }
        (frame.jump S.target (if v then a else d)) t w ∧
      Only σ r.2 ∧ Within σ.module r.2.module ∧ Empty a r.2 ∧ Empty d r.2 ∧
      ∀ n, Later n frame (frame.jump S.target (if v then a else d)) := by
  obtain ⟨bb, hbb, honly, hap⟩ := createCondBr_appended hr
  obtain rfl : frame.block = bb := Option.some.inj (h.insertBlock.symm.trans hbb)
  have hw : Within σ.module r.2.module := hap.within
  have hins : r.2.insertBlock = σ.insertBlock := by rw [honly]
  have hea : Empty a r.2 := empty_of_appended hap h.insertBlock hins ha.toEmpty
  have hed : Empty d r.2 := empty_of_appended hap h.insertBlock hins hd.toEmpty
  have hb : Awaits frame (if v then a else d) σ ∧ Empty (if v then a else d) r.2 := by
    cases v with
    | true => exact ⟨ha, hea⟩
    | false => exact ⟨hd, hed⟩
  have hphis := hS.phis _ (hb.2.lt.trans_le hM.widens.numBlocks)
  have hact : ∀ i, S.target.instrs i = ⟨.br, .void, [val, .basicBlock a, .basicBlock d],
      frame.block⟩ → Machine.action S.ops S.target S.callers.length frame w i =
        some (.jumps (if v then a else d)) := fun i hi =>
    action_condBr (by rw [hi]) (by rw [hi]) hv
  refine ⟨branch_step h hap hM hact hb.1.mem, ?_, honly, hw, hea, hed, fun n => jump_later n hphis⟩
  refine enter_matches hphis ?_ (h.func.trans_le hw.widens.numFunctions) ?_ rfl hb.2.lt hb.2.nil ?_
    h.made h.mirrors
  · show r.2.curFun = _
    rw [honly]
    exact h.curFun
  · show r.2.requireLvalue = _
    rw [honly]
    exact h.requireLvalue
  · show Binds S.layout r.2.module frame S.env r.2.scope.inner
    rw [honly]
    exact h.binds.later hw (.refl _ _) (.refl _)

/-- The frame stays at the start of a block while the visitors emit code elsewhere. -/
theorem Matches.wait (σ' : BuilderState) (h : S.Matches { σ with insertBlock := some b } frame t w)
    (he : Empty b σ) (hw : Within σ.module σ'.module) (hcur : σ'.curFun = σ.curFun)
    (hscope : σ'.scope = σ.scope) (hlval : σ'.requireLvalue = false)
    (he' : (σ'.module.blocks b).instrList = []) :
    S.Matches { σ' with insertBlock := some b } frame t w := by
  obtain rfl : b = frame.block := Option.some.inj h.insertBlock
  have hrest := h.rest
  refine ⟨hcur.trans h.curFun, h.func.trans_le hw.widens.numFunctions, hlval, rfl,
    h.block.trans_le hw.widens.numBlocks, ?_, ?_, ?_, h.made, h.mirrors⟩
  · simp [Module.getTerminator, he']
  · rw [hrest]
    show (σ.module.blocks frame.block).instrList ++ _ = (σ'.module.blocks frame.block).instrList ++ _
    rw [he.nil, he']
  · show Binds S.layout σ'.module frame S.env σ'.scope.inner
    rw [hscope]
    exact h.binds.later hw (.refl _ _) (.refl _)

end Source

end Cminusf
