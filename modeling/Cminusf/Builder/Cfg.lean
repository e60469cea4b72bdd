import Cminusf.Builder.Statements
import Cminusf.Optimization.DominatorsRun

/-! The control-flow graphs of the modules that the visitors build. -/

namespace Cminusf

namespace Builder

open Dominators

variable {m : Module} {origin : Nat → Option Nat} {a b d f entry : Nat}

theorem Inv.succ_parent (h : Inv m origin) (ha : a < m.numBlocks) (hab : Succ m a b) :
    b < m.numBlocks ∧ (m.blocks b).parent = (m.blocks a).parent := by
  obtain ⟨hb, c, hc, hca⟩ := h.targetAt ha hab
  refine ⟨hb, ?_⟩
  rw [← (h.origin_lt b c hc).2.2, (h.ancestor_lt hca ha).2.2]

theorem Inv.mem_blocks (h : Inv m origin) (hf : f < m.numFunctions) :
    b ∈ (m.functions f).basicBlocks ↔ b < m.numBlocks ∧ (m.blocks b).parent = f := by
  constructor
  · exact h.block_mem f hf b
  · rintro ⟨hb, rfl⟩
    exact (h.block_parent b hb).2

theorem Inv.functionCfg (h : Inv m origin) (hf : f < m.numFunctions)
    (he : (m.functions f).basicBlocks.head? = some entry) :
    FunctionCfg m (m.functions f).basicBlocks entry where
  head := he
  closed a ha b hab := by
    obtain ⟨ha, hp⟩ := (h.mem_blocks hf).mp ha
    obtain ⟨hb, hpb⟩ := h.succ_parent ha hab
    exact (h.mem_blocks hf).mpr ⟨hb, hpb.trans hp⟩
  pre b hb a := by
    obtain ⟨hb, hp⟩ := (h.mem_blocks hf).mp hb
    rw [h.pre b hb a, h.mem_blocks hf]
    constructor
    · rintro ⟨ha, hab⟩
      exact ⟨⟨ha, ((h.succ_parent ha hab).2.symm.trans hp)⟩, hab⟩
    · rintro ⟨⟨ha, -⟩, hab⟩
      exact ⟨ha, hab⟩
  entry_pre := by
    obtain ⟨hlt, hp⟩ := (h.mem_blocks hf).mp (List.mem_of_mem_head? he)
    rw [List.eq_nil_iff_forall_not_mem]
    intro a ha
    obtain ⟨ha, hab⟩ := (h.pre entry hlt a).mp ha
    obtain ⟨-, c, hc, -⟩ := h.targetAt ha hab
    have hnone := (h.origin_none entry hlt).mpr (by rw [hp, he])
    rw [hnone] at hc
    cases hc

theorem Inv.moduleCfg (h : Inv m origin) : ModuleCfg m where
  function _ hf _ he := h.functionCfg hf he
  disjoint _ hf _ hg hne _ hb hb' :=
    hne (((h.mem_blocks hf).mp hb).2.symm.trans ((h.mem_blocks hg).mp hb').2)

/-- The origins of a block dominate it. -/
theorem Inv.dominates (h : Inv m origin) (hf : f < m.numFunctions)
    (he : (m.functions f).basicBlocks.head? = some entry)
    (hd : Graph.Ancestor origin d b) : Graph.Dominates (Succ m) entry d b := by
  intro ha
  have key : ∀ v, Graph.Avoids (Succ m) entry d v → ¬ Graph.Ancestor origin d v := by
    intro v hv
    induction hv with
    | root hne =>
      intro hd
      obtain ⟨hlt, hp⟩ := (h.mem_blocks hf).mp (List.mem_of_mem_head? he)
      have hnone := (h.origin_none entry hlt).mpr (by rw [hp, he])
      obtain ⟨c, hc, -⟩ := hd.parent (Ne.symm hne)
      rw [hnone] at hc
      cases hc
    | @step u v hu huv hne ih =>
      intro hd
      have hult := ((h.mem_blocks hf).mp ((h.functionCfg hf he).reaches_mem hu.reaches)).1
      obtain ⟨-, c, hc, hcu⟩ := h.targetAt hult huv
      obtain ⟨c', hc', hdc⟩ := hd.parent (Ne.symm hne)
      rw [hc] at hc'
      cases hc'
      exact ih (hdc.trans hcu)
  exact key b ha hd

end Builder

theorem moduleCfg_of_buildModule {p : ASTProgram} {m : Module} (h : buildModule p = some m) :
    ModuleCfg m := by
  obtain ⟨origin, hinv⟩ := CminusfBuilder.buildModule_inv h
  exact hinv.moduleCfg

/-- A module is built and has a property that evaluation can decide. -/
theorem exists_buildModule (p : ASTProgram) (P : Module → Prop) [DecidablePred P]
    (h : (buildModule p).any (fun m => decide (P m)) = true) : ∃ m, buildModule p = some m ∧ P m := by
  obtain ⟨m, hm, hP⟩ := (Option.any_eq_true _ _).mp h
  exact ⟨m, hm, of_decide_eq_true hP⟩

namespace Dominators

variable {p : ASTProgram} {m : Module} {addr : Nat → Nat}

/-- On a module that the visitors have built, the analysis returns exactly when no edge
leads from an unreachable block to a reachable one; otherwise its runner never stops. -/
theorem run_buildModule_iff (h : buildModule p = some m) (haddr : Function.Injective addr) :
    ((∃ fuel d, run m addr fuel = .ok d) ↔ NoDeadEdges m) ∧
      (¬ NoDeadEdges m → ∀ fuel, run m addr fuel = .error .outOfFuel) := by
  have hcfg := moduleCfg_of_buildModule h
  refine ⟨⟨?_, ?_⟩, fun hdead fuel => ?_⟩
  · rintro ⟨fuel, d, hrun⟩
    exact noDeadEdges_of_run hcfg hrun
  · intro hdead
    obtain ⟨fuel, d, hrun, -⟩ := run_spec haddr hcfg hdead
    exact ⟨fuel, d, hrun⟩
  · exact (run_noFault hcfg fuel).eq_outOfFuel fun d hrun => hdead (noDeadEdges_of_run hcfg hrun)

/-- The number `n` as an expression. -/
def literal (n : BitVec 32) : ASTExpression := .simple (.ofTerm (.ofFactor (.num (.int n))))

/-- `int main(void) { while (1) return 0; return 1; }`. -/
def loopProgram : ASTProgram := ⟨[.fun ⟨.int, "main", [], [],
  [.iteration (literal 1) (.return (some (literal 0))), .return (some (literal 1))]⟩]⟩

theorem run_buildModule_loopProgram : ∃ m, buildModule loopProgram = some m ∧
    ((∃ fuel d, run m id fuel = .ok d) ↔ NoDeadEdges m) := by
  obtain ⟨m, hm, -⟩ := exists_buildModule loopProgram (fun _ => True) (by decide +kernel)
  exact ⟨m, hm, (run_buildModule_iff hm Function.injective_id).1⟩

/-- `int main(void) { if (1) { if (1) return 1; else return 2; } return 0; }`. -/
def deadJoinProgram : ASTProgram := ⟨[.fun ⟨.int, "main", [], [],
  [.selection (literal 1) (.compound [] [.selectionElse (literal 1) (.return (some (literal 1)))
    (.return (some (literal 2)))]), .return (some (literal 0))]⟩]⟩

/-- A set of blocks that contains the entry and is closed under the edges. -/
theorem not_reaches_of_closed {m : Module} {entry b : Nat} (S : List Nat) (he : entry ∈ S)
    (hclosed : ∀ x ∈ S, ∀ y ∈ (m.blocks x).succBbs, y ∈ S) (hb : b ∉ S) :
    ¬ Graph.Reaches (Succ m) entry b := by
  intro h
  refine hb ?_
  clear hb
  induction h with
  | refl => exact he
  | tail _ huv ih => exact hclosed _ ih _ huv

/-- The block after the inner `if` is out of reach and branches to the block after the outer one. -/
theorem deadJoinProgram_edges : ∃ m, buildModule deadJoinProgram = some m ∧ 4 < m.numFunctions ∧
    (m.functions 4).basicBlocks.head? = some 0 ∧ 4 ∈ (m.functions 4).basicBlocks ∧
    2 ∈ (m.blocks 4).succBbs ∧ 2 ∈ (m.blocks 0).succBbs ∧
    ∀ x ∈ [0, 1, 2, 3, 5], ∀ y ∈ (m.blocks x).succBbs, y ∈ [0, 1, 2, 3, 5] :=
  exists_buildModule deadJoinProgram _ (by decide +kernel)

/-- On this module the analysis runs forever. -/
theorem run_deadJoinProgram : ∃ m, buildModule deadJoinProgram = some m ∧
    ∀ addr fuel, run m addr fuel = .error .outOfFuel := by
  obtain ⟨m, hm, h4, hhead, hmem, hdead, hlive, hclosed⟩ := deadJoinProgram_edges
  have hcfg := moduleCfg_of_buildModule hm
  refine ⟨m, hm, fun addr fuel => (run_noFault hcfg fuel).eq_outOfFuel fun d hrun => ?_⟩
  have hreach := noDeadEdges_of_run hcfg hrun 4 h4 0 hhead 4 hmem 2 hdead (.single hlive)
  exact not_reaches_of_closed _ (by simp) hclosed (by simp) hreach

end Dominators

end Cminusf
