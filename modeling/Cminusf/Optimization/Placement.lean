import Cminusf.Builder.Cfg
import Cminusf.LightIR.Address
import Cminusf.Optimization.DominatorTree
import Mathlib.Order.Bounds.Basic

/-! What the analysis of one function computes: the immediate dominators and the walk of
`re_name` over their tree, the dominance frontiers, and the phis that are placed on them. -/

namespace Cminusf

section Walk

variable {σ ω : Type} {children : Nat → List Nat} {enter : Nat → σ → Exec (σ × ω)}
  {leave : Nat → ω → σ → Exec σ} {fuel fuel' b : Nat} {s s' : σ} {log log' : List Nat}

/-- A recursion over a tree that works on a vertex before and after its children. -/
def walkTree (children : Nat → List Nat) (enter : Nat → σ → Exec (σ × ω))
    (leave : Nat → ω → σ → Exec σ) : Nat → Nat → σ → Exec σ
  | 0, _, _ => throw .outOfFuel
  | fuel + 1, b, s => do
    let (s, w) ← enter b s
    let s ← (children b).foldlM (fun s c => walkTree children enter leave fuel c s) s
    leave b w s

/-- The walk with a log of the vertices that it enters. -/
def walkLog (children : Nat → List Nat) (enter : Nat → σ → Exec (σ × ω))
    (leave : Nat → ω → σ → Exec σ) : Nat → Nat → σ × List Nat → Exec (σ × List Nat) :=
  walkTree children
    (fun b s => do
      let (s', w) ← enter b s.1
      return ((s', s.2 ++ [b]), w))
    (fun b w s => do return (← leave b w s.1, s.2))

theorem walkTree_mono (hf : fuel ≤ fuel') (b : Nat) (s : σ) :
    Exec.Le (walkTree children enter leave fuel b s) (walkTree children enter leave fuel' b s) := by
  induction fuel generalizing fuel' b s with
  | zero => exact .of_outOfFuel _
  | succ fuel ih =>
    obtain ⟨fuel', rfl⟩ : ∃ n, fuel' = n + 1 := ⟨fuel' - 1, by omega⟩
    apply (Exec.Le.refl (enter b s)).bind
    intro r
    apply (Exec.Le.foldlM (fun s c => ih (by omega) c s) _ _).bind
    exact fun _ => .refl _

/-- A loop that keeps a log, when every pass adds `p` to it. -/
theorem foldlM_log {f : σ → Nat → Exec σ} {g : σ × List Nat → Nat → Exec (σ × List Nat)}
    {p : Nat → List Nat} (hp : ∀ c s log s' log', g (s, log) c = .ok (s', log') ↔
      f s c = .ok s' ∧ log' = log ++ p c) {cs : List Nat} :
    cs.foldlM g (s, log) = .ok (s', log') ↔
      cs.foldlM f s = .ok s' ∧ log' = log ++ cs.flatMap p := by
  induction cs generalizing s log with
  | nil => simp [List.foldlM, pure, Except.pure, eq_comm]
  | cons c cs ih =>
    rw [List.foldlM_cons, List.foldlM_cons, List.flatMap_cons, ← List.append_assoc]
    constructor
    · intro h
      obtain ⟨⟨s₁, log₁⟩, hc, h⟩ := Exec.bind_eq_ok.mp h
      obtain ⟨hc', rfl⟩ := (hp c s log s₁ log₁).mp hc
      obtain ⟨hcs, rfl⟩ := ih.mp h
      exact ⟨Exec.bind_eq_ok.mpr ⟨s₁, hc', hcs⟩, rfl⟩
    · rintro ⟨h, rfl⟩
      obtain ⟨s₁, hc, h⟩ := Exec.bind_eq_ok.mp h
      exact Exec.bind_eq_ok.mpr ⟨(s₁, log ++ p c), (hp c s log _ _).mpr ⟨hc, rfl⟩, ih.mpr ⟨h, rfl⟩⟩

/-- The log does not change the walk, and it lists the vertices in preorder. -/
theorem walkLog_eq_ok : walkLog children enter leave fuel b (s, log) = .ok (s', log') ↔
    walkTree children enter leave fuel b s = .ok s' ∧
      log' = log ++ Graph.preorder children fuel b := by
  induction fuel generalizing b s log s' log' with
  | zero =>
    constructor
    · intro h
      cases h
    · rintro ⟨h, -⟩
      cases h
  | succ fuel ih =>
    have hfold : ∀ {s₁ s₃ log₁ log₃}, (children b).foldlM
        (fun s c => walkLog children enter leave fuel c s) (s₁, log₁) = .ok (s₃, log₃) ↔
          (children b).foldlM (fun s c => walkTree children enter leave fuel c s) s₁ = .ok s₃ ∧
            log₃ = log₁ ++ (children b).flatMap (Graph.preorder children fuel) :=
      foldlM_log fun _ _ _ _ _ => ih
    rw [Graph.preorder, ← List.singleton_append, ← List.append_assoc]
    constructor
    · intro h
      obtain ⟨⟨⟨s₁, log₁⟩, w⟩, hent, h⟩ := Exec.bind_eq_ok.mp h
      obtain ⟨⟨s₂, w'⟩, hent', he⟩ := Exec.bind_eq_ok.mp hent
      cases he
      obtain ⟨⟨s₃, log₃⟩, h₃, h⟩ := Exec.bind_eq_ok.mp h
      obtain ⟨s₄, hleave, he⟩ := Exec.bind_eq_ok.mp h
      cases he
      obtain ⟨h₃', rfl⟩ := hfold.mp h₃
      exact ⟨Exec.bind_eq_ok.mpr ⟨_, hent', Exec.bind_eq_ok.mpr ⟨_, h₃', hleave⟩⟩, rfl⟩
    · rintro ⟨h, rfl⟩
      obtain ⟨⟨s₁, w⟩, hent, h⟩ := Exec.bind_eq_ok.mp h
      obtain ⟨s₃, h₃, hleave⟩ := Exec.bind_eq_ok.mp h
      refine Exec.bind_eq_ok.mpr ⟨((s₁, log ++ [b]), w), ?_, ?_⟩
      · exact Exec.bind_eq_ok.mpr ⟨(s₁, w), hent, rfl⟩
      · exact Exec.bind_eq_ok.mpr ⟨_, hfold.mpr ⟨h₃, rfl⟩, Exec.bind_eq_ok.mpr ⟨s', hleave, rfl⟩⟩

/-- A walk that returns does the same with more fuel. -/
theorem walkLog_fuel (hf : fuel ≤ fuel')
    (h : walkLog children enter leave fuel b (s, log) = .ok (s', log')) :
    log' = log ++ Graph.preorder children fuel' b :=
  (walkLog_eq_ok.mp ((walkTree_mono hf b (s, log)).eq_ok h)).2

end Walk

namespace Mem2Reg

/-- Steps 3 to 6 of `re_name`, with `wait_delete`. -/
def enterReName (bb : Nat) (s : Mem2Reg) : Exec (Mem2Reg × List Nat) := do
  let s := (s.module.blocks bb).instrList.foldl pushPhi s
  let (s, waitDelete) ← (s.module.blocks bb).instrList.foldlM renameInstr (s, [])
  let s ← (s.module.blocks bb).succBbs.foldlM
    (fun s succ => (s.module.blocks succ).instrList.foldlM (completePhi bb) s) s
  return (s, waitDelete)

/-- Step 8 of `re_name` and the removal of `wait_delete`. -/
def leaveReName (bb : Nat) (waitDelete : List Nat) (s : Mem2Reg) : Exec Mem2Reg := do
  let varValStack ← (s.module.blocks bb).instrList.foldlM (popInstr s.module) s.varValStack
  return ⟨eraseInstrs s.module bb waitDelete, varValStack⟩

/-- `re_name` with a log of the blocks on which it is called. -/
def reNameLog (d : Dominators) : Nat → Nat → Mem2Reg × List Nat → Exec (Mem2Reg × List Nat) :=
  walkLog d.children enterReName leaveReName

theorem reName_eq_walkTree (d : Dominators) (fuel bb : Nat) (s : Mem2Reg) :
    reName d fuel bb s = walkTree d.children enterReName leaveReName fuel bb s := by
  induction fuel generalizing bb s with
  | zero => rfl
  | succ fuel ih =>
    have hrec : (fun s c => reName d fuel c s) =
        fun s c => walkTree d.children enterReName leaveReName fuel c s :=
      funext fun s => funext fun c => ih c s
    simp only [reName, walkTree, hrec, enterReName, leaveReName, bind_assoc, pure_bind]

end Mem2Reg

namespace Dominators

open Mem2Reg

variable {m : Module} {addr : Nat → Nat} {blocks : List Nat} {entry b : Nat} {d d' : Dominators}

theorem HasIdoms.idom_iff (hcfg : FunctionCfg m blocks entry) (h : HasIdoms m blocks entry d)
    (hb : Graph.Reaches (Succ m) entry b) (hne : b ≠ entry) (c : Nat) :
    d.idom b = some c ↔ Graph.IsIdom (Succ m) entry c b := by
  have hm := hcfg.reaches_mem hb
  constructor
  · exact h.isIdom b hm hne c
  · intro hc
    obtain ⟨c', hc'⟩ := Option.isSome_iff_exists.mp ((h.isSome b hm).mpr hb)
    rw [hc', (h.isIdom b hm hne c' hc').unique hb hc]

/-- `create_dom_tree_succ` lists the blocks below each block. -/
theorem HasIdoms.hasTree (haddr : Function.Injective addr) (h : HasIdoms m blocks entry d)
    (hfresh : ∀ b ∈ blocks, d.children b = []) :
    HasTree m addr blocks entry (createDomTreeSucc addr blocks d) := by
  have htree := createDomTreeSucc_spec haddr blocks d
  refine ⟨h.congr htree.idom, fun x hx y => ?_, fun x hx => ?_⟩
  · have hnil := hfresh x hx
    rw [children] at hnil
    rw [children, htree.mem, hnil, htree.idom]
    simp only [List.not_mem_nil, false_or, ne_eq, Option.some.injEq]
    constructor
    · exact fun ⟨hy, hidom, hne⟩ => ⟨hy, hidom, Ne.symm hne⟩
    · exact fun ⟨hy, hidom, hne⟩ => ⟨hy, hidom, Ne.symm hne⟩
  · apply htree.sorted
    have hnil := hfresh x hx
    rw [children] at hnil
    rw [hnil]
    exact .nil

/-- On every graph whose entry has no predecessor, `create_idom` finds the immediate dominators
of the reachable blocks, and `re_name`, when it returns, has come once to each of them. -/
theorem createIdom_tree (haddr : Function.Injective addr) (hcfg : FunctionCfg m blocks entry)
    (hfresh : ∀ b ∈ blocks, d.children b = []) :
    ∃ fuel d₁ d₂, createReversePostOrder m entry fuel d = .ok d₁ ∧
      createIdom m blocks entry fuel d₁ = .ok d₂ ∧ d₂.idom entry = some entry ∧
      (∀ b, Graph.Reaches (Succ m) entry b → b ≠ entry →
        ∀ c, d₂.idom b = some c ↔ Graph.IsIdom (Succ m) entry c b) ∧
      (∀ b ∈ blocks, ¬ Graph.Reaches (Succ m) entry b → d₂.idom b = none) ∧
      Graph.IsTree (createDomTreeSucc addr blocks d₂).idom (createDomTreeSucc addr blocks d₂).children
        (Graph.Reaches (Succ m) entry) ∧
      ∀ fuel s s', (reName (createDomTreeSucc addr blocks d₂) fuel entry s = .ok s' ↔
          ∃ log, reNameLog (createDomTreeSucc addr blocks d₂) fuel entry (s, []) = .ok (s', log)) ∧
        ∀ log, reNameLog (createDomTreeSucc addr blocks d₂) fuel entry (s, []) = .ok (s', log) →
          log.Nodup ∧ ∀ b, b ∈ log ↔ Graph.Reaches (Succ m) entry b := by
  obtain ⟨d₁, h₁, hord, -, -, htree₁⟩ := createReversePostOrder_spec (d := d) hcfg.cfg
    (Nat.lt_succ_self blocks.length)
  obtain ⟨n, d₂, h₂, hframe, hidom⟩ := createIdom_spec hcfg.cfg hord
  have hfresh' : ∀ b ∈ blocks, d₂.children b = [] := by
    intro b hb
    rw [children, hframe.domTreeSuccBlocks, htree₁]
    exact hfresh b hb
  have htree := hidom.hasTree haddr hfresh'
  refine ⟨max (blocks.length + 1) n, d₁, d₂,
    (createReversePostOrder_mono (le_max_left _ _) entry d).eq_ok h₁,
    (createIdom_mono (le_max_right _ _) blocks entry d₁).eq_ok h₂, hidom.root,
    fun b hb hne c => hidom.idom_iff hcfg hb hne c, fun b hb hno => ?_, htree.isTree hcfg,
    fun fuel s s' => ⟨?_, fun log hlog => ?_⟩⟩
  · by_contra hsome
    exact hno ((hidom.isSome b hb).mp (Option.isSome_iff_ne_none.mpr hsome))
  · rw [reName_eq_walkTree]
    constructor
    · exact fun hrun => ⟨_, walkLog_eq_ok.mpr ⟨hrun, rfl⟩⟩
    · rintro ⟨log, hlog⟩
      exact (walkLog_eq_ok.mp hlog).1
  · have hpre := walkLog_fuel (le_max_left fuel (blocks.length + 1)) hlog
    rw [List.nil_append] at hpre
    rw [hpre]
    refine ⟨(htree.isTree hcfg).nodup_preorder .refl, fun b => ?_⟩
    exact htree.mem_preorder hcfg (by omega)

theorem createIdom_tree_deadJoinProgram : ∃ m, buildModule deadJoinProgram = some m ∧
    ∃ fuel d₁ d₂, createReversePostOrder m 0 fuel empty = .ok d₁ ∧
      createIdom m (m.functions 4).basicBlocks 0 fuel d₁ = .ok d₂ ∧ d₂.idom 2 = some 0 ∧
      d₂.idom 4 = none := by
  obtain ⟨m, hm, h4, hhead, hmem, hdead, hlive, hclosed⟩ := deadJoinProgram_edges
  have hcfg := (moduleCfg_of_buildModule hm).function 4 h4 0 hhead
  obtain ⟨fuel, d₁, d₂, h₁, h₂, -, hidom, hnone, -⟩ :=
    createIdom_tree (d := empty) Function.injective_id hcfg fun _ _ => rfl
  have hno : ¬ Graph.Reaches (Succ m) 0 4 := not_reaches_of_closed _ (by simp) hclosed (by simp)
  have hidom₂ := (hidom 2 (.single hlive) (by decide) 0).mpr
    ⟨⟨Graph.dominates_root _ _ _, by decide⟩, fun e he => he.dominates_pred hlive⟩
  exact ⟨m, hm, fuel, d₁, d₂, h₁, h₂, hidom₂, hnone 4 hmem hno⟩

/-- When all blocks are reachable, the frontiers are those of the graph. -/
theorem createDominanceFrontier_iff (haddr : Function.Injective addr)
    (hcfg : FunctionCfg m blocks entry) (hreach : ∀ b ∈ blocks, Graph.Reaches (Succ m) entry b)
    (hfresh : ∀ b ∈ blocks, d.domFrontier (some b) = []) :
    ∃ fuel d₁ d₂ d₃, createReversePostOrder m entry fuel d = .ok d₁ ∧
      createIdom m blocks entry fuel d₁ = .ok d₂ ∧
      createDominanceFrontier m addr blocks fuel d₂ = .ok d₃ ∧
      ∀ x ∈ blocks, ∀ y ∈ blocks, y ∈ d₃.domFrontier (some x) ↔
        (∃ p ∈ (m.blocks y).preBbs, Graph.Dominates (Succ m) entry x p) ∧
          ¬ Graph.StrictlyDominates (Succ m) entry x y := by
  have hdead : NoDeadEdge m blocks entry := fun p hp _ _ _ => hreach p hp
  obtain ⟨d₁, h₁, hord, -, hf₁, -⟩ := createReversePostOrder_spec (d := d) hcfg.cfg
    (Nat.lt_succ_self blocks.length)
  obtain ⟨n₂, d₂, h₂, hframe, hidom⟩ := createIdom_spec hcfg.cfg hord
  obtain ⟨n₃, d₃, h₃, hadd⟩ := createDominanceFrontier_spec haddr hcfg hdead hidom
  refine ⟨max (blocks.length + 1) (max n₂ n₃), d₁, d₂, d₃,
    (createReversePostOrder_mono (by omega) entry d).eq_ok h₁,
    (createIdom_mono (by omega) blocks entry d₁).eq_ok h₂,
    (createDominanceFrontier_mono (by omega) blocks d₂).eq_ok h₃, fun x hx y hy => ?_⟩
  rw [hadd.mem, hframe.domFrontier, hf₁, hfresh x hx, frontier_iff hcfg hdead (hreach x hx)]
  simp only [List.not_mem_nil, false_or, Graph.Frontier]
  refine and_congr_left fun _ => ⟨?_, ?_⟩
  · rintro ⟨p, hpy, hp, hxp⟩
    exact ⟨p, (hcfg.pre y hy p).mpr ⟨hcfg.reaches_mem hp, hpy⟩, hxp⟩
  · rintro ⟨p, hp, hxp⟩
    obtain ⟨hpb, hpy⟩ := (hcfg.pre y hy p).mp hp
    exact ⟨p, hpy, hreach p hpb, hxp⟩

/-- `int main(void) { int i; i = 0; while (i) i = 1; return i; }`. -/
def countProgram : ASTProgram :=
  let i : ASTExpression := .simple (.ofTerm (.ofFactor (.var (.scalar "i"))))
  ⟨[.fun ⟨.int, "main", [], [⟨.int, "i", none⟩],
    [.expressionStmt (some (.assign (.scalar "i") (literal 0))),
      .iteration i (.expressionStmt (some (.assign (.scalar "i") (literal 1)))), .return (some i)]⟩]⟩

theorem countProgram_module : ∃ m, buildModule countProgram = some m ∧ 4 < m.numFunctions ∧
    (m.functions 4).basicBlocks = [0, 1, 2, 3] ∧ (m.blocks 0).succBbs = [1] ∧
    (m.blocks 1).succBbs = [3, 2] :=
  exists_buildModule countProgram _ (by decide +kernel)

theorem countProgram_reaches {m : Module} (h0 : (m.blocks 0).succBbs = [1])
    (h1 : (m.blocks 1).succBbs = [3, 2]) : ∀ b ∈ [0, 1, 2, 3], Graph.Reaches (Succ m) 0 b := by
  have h01 : Graph.Reaches (Succ m) 0 1 := .single (by simp [Succ, h0])
  have h12 : Succ m 1 2 := by simp [Succ, h1]
  have h13 : Succ m 1 3 := by simp [Succ, h1]
  simp only [List.forall_mem_cons, List.not_mem_nil, false_implies, implies_true, and_true]
  exact ⟨.refl, h01, h01.tail h12, h01.tail h13⟩

theorem createDominanceFrontier_iff_countProgram : ∃ m, buildModule countProgram = some m ∧
    ∃ fuel d₁ d₂ d₃, createReversePostOrder m 0 fuel empty = .ok d₁ ∧
      createIdom m [0, 1, 2, 3] 0 fuel d₁ = .ok d₂ ∧
      createDominanceFrontier m id [0, 1, 2, 3] fuel d₂ = .ok d₃ ∧
      ∀ x ∈ [0, 1, 2, 3], ∀ y ∈ [0, 1, 2, 3], y ∈ d₃.domFrontier (some x) ↔
        (∃ p ∈ (m.blocks y).preBbs, Graph.Dominates (Succ m) 0 x p) ∧
          ¬ Graph.StrictlyDominates (Succ m) 0 x y := by
  obtain ⟨m, hm, h4, hblocks, h0, h1⟩ := countProgram_module
  have hcfg := (moduleCfg_of_buildModule hm).function 4 h4 0 (by rw [hblocks]; rfl)
  rw [hblocks] at hcfg
  exact ⟨m, hm, createDominanceFrontier_iff Function.injective_id hcfg (countProgram_reaches h0 h1)
    fun _ _ => rfl⟩

end Dominators

namespace Mem2Reg

variable {m : Module} {addr : Value → Nat} {blocks : List Nat} {d : Dominators} {fuel : Nat}

/-- The sets that contain the frontiers of the blocks that store to `v` and their own. -/
def FrontierClosed (m : Module) (d : Dominators) (blocks : List Nat) (v : Value) : Set (Set Nat) :=
  { D | ∀ x, Stores m blocks v x ∨ x ∈ D → ∀ y ∈ d.domFrontier (some x), y ∈ D }

theorem isLeast_phiBlock (v : Value) :
    IsLeast (FrontierClosed m d blocks v) { b | PhiBlock d (Stores m blocks v) b } := by
  constructor
  · rintro x (hx | hx) y hy
    · exact Graph.IteratedFrontier.base hx hy
    · exact Graph.IteratedFrontier.step hx hy
  · intro D hD b hb
    induction hb with
    | base hx hxy => exact hD _ (.inl hx) _ hxy
    | step _ hxy ih => exact hD _ (.inr ih) _ hxy

/-- `generate_phi` returns, with one phi of each variable in front of each block of the least set
that is closed under the frontiers, and with no other phi. -/
theorem generatePhi_isLeast (haddr : Function.Injective addr)
    (hdf : ∀ x ∈ blocks, ∀ y ∈ d.domFrontier (some x), y ∈ blocks) (hfuel : 2 * blocks.length ≤ fuel) :
    ∃ (m' : Module) (phis : Nat → List Nat), generatePhi addr d fuel blocks m = .ok m' ∧
      (∀ b, m'.blocks b = { m.blocks b with instrList := phis b ++ (m.blocks b).instrList }) ∧
      (∀ i < m.numInstrs, m'.instrs i = m.instrs i) ∧
      (∀ b, (phis b).Nodup ∧ ∀ p ∈ phis b, m.numInstrs ≤ p ∧
        ∃ v, m'.instrs p = ⟨.phi v, phiType m v, [], b⟩) ∧
      ∀ v, ∃ D, IsLeast (FrontierClosed m d blocks v) D ∧ ∀ b,
        (b ∈ D → ∃! p, p ∈ phis b ∧ phiVar m' p = some v) ∧
        (b ∉ D → ∀ p ∈ phis b, phiVar m' p ≠ some v) := by
  have hspec := generatePhi_spec (m := m) haddr hdf fuel
  cases hrun : generatePhi addr d fuel blocks m with
  | error fault =>
    rw [hrun] at hspec
    cases hspec with
    | error hfault => omega
  | ok m' =>
    rw [hrun] at hspec
    cases hspec with
    | ok hok =>
      obtain ⟨s, phis, rfl, hs, hhas⟩ := hok
      have hphi : ∀ b, ∀ p ∈ phis b, ∀ v, phiVar s.module p = some v →
          PhiBlock d (Stores m blocks v) b := by
        intro b p hp v hv
        obtain ⟨-, -, w, hins, hw⟩ := hs.phi b p hp
        rw [phiVar, hins] at hv
        cases hv
        exact (hhas b _).mp hw
      refine ⟨s.module, phis, rfl, hs.blocks, fun i hi => hs.instrs i (.inl hi),
        fun b => ⟨hs.nodup b, fun p hp => ?_⟩, fun v => ⟨_, isLeast_phiBlock v, fun b =>
          ⟨fun hb => ?_, fun hb p hp hv => hb (hphi b p hp v hv)⟩⟩⟩
      · obtain ⟨hle, -, v, hins, -⟩ := hs.phi b p hp
        exact ⟨hle, v, hins⟩
      · obtain ⟨p, hp, hins⟩ := hs.has b v ((hhas b v).mpr hb)
        have hpv : phiVar s.module p = some v := by rw [phiVar, hins]
        refine ⟨p, ⟨hp, hpv⟩, ?_⟩
        rintro q ⟨hq, hqv⟩
        obtain ⟨-, -, w, hqins, -⟩ := hs.phi b q hq
        rw [phiVar, hqins] at hqv
        cases hqv
        apply hs.unique b q hq p hp
        rw [hins, hqins]

theorem generatePhi_isLeast_countProgram : ∃ m, buildModule Dominators.countProgram = some m ∧
    ∃ d, Dominators.run m (fun b => Value.code (.basicBlock b)) 10 = .ok d ∧
      ∃ (m' : Module) (phis : Nat → List Nat), generatePhi Value.code d 8 [0, 1, 2, 3] m = .ok m' ∧
        ∀ b, m'.blocks b = { m.blocks b with instrList := phis b ++ (m.blocks b).instrList } := by
  obtain ⟨m, hm, h4, hblocks, hrun⟩ := exists_buildModule Dominators.countProgram
    (fun m => 4 < m.numFunctions ∧ (m.functions 4).basicBlocks = [0, 1, 2, 3] ∧
      (Dominators.run m (fun b => Value.code (.basicBlock b)) 10).isOk) (by decide +kernel)
  cases hd : Dominators.run m (fun b => Value.code (.basicBlock b)) 10 with
  | error fault =>
    rw [hd] at hrun
    cases hrun
  | ok d =>
    have han := Dominators.run_analysed
      (fun x y h => Value.basicBlock.inj (Value.code_injective h)) (moduleCfg_of_buildModule hm) hd 4
      (List.mem_range.mpr h4) 0 (by rw [hblocks]; rfl)
    rw [hblocks] at han
    obtain ⟨m', phis, hgen, hb, -⟩ := generatePhi_isLeast (m := m) Value.code_injective
      (fun x hx y hy => han.frontier_mem hx hy) (show 2 * [0, 1, 2, 3].length ≤ 8 by decide)
    exact ⟨m, hm, d, hd, m', phis, hgen, hb⟩

end Mem2Reg

end Cminusf
