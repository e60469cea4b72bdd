import Cminusf.Graph.Preorder
import Cminusf.Optimization.DominatorsRun
import Cminusf.Optimization.GeneratePhi
import Mathlib.Data.Finset.Card

/-! The dominator tree and the iterated frontiers that the maps of `Dominators` describe. -/

namespace Cminusf

namespace Dominators

variable {m : Module} {addr : Nat → Nat} {blocks : List Nat} {entry b c x y : Nat} {d : Dominators}
  {Init : Nat → Prop}

/-- The blocks that a node of the dominator tree has below it. -/
abbrev children (d : Dominators) (b : Nat) : List Nat := d.domTreeSuccBlocks (some b)

theorem IsAnalysed.frontier_mem (h : IsAnalysed m addr blocks entry d) (hx : x ∈ blocks)
    (hy : y ∈ d.domFrontier (some x)) : y ∈ blocks :=
  ((h.frontier x hx y).mp hy).1

theorem IsAnalysed.phiBlock_mem (h : IsAnalysed m addr blocks entry d)
    (hinit : ∀ x, Init x → x ∈ blocks) (hb : Mem2Reg.PhiBlock d Init b) : b ∈ blocks := by
  induction hb with
  | base hx hxy => exact h.frontier_mem (hinit _ hx) hxy
  | step _ hxy ih => exact h.frontier_mem ih hxy

/-- The immediate dominators and the blocks that each has below it in their tree. -/
structure HasTree (m : Module) (addr : Nat → Nat) (blocks : List Nat) (entry : Nat) (d : Dominators) :
    Prop where
  idoms : HasIdoms m blocks entry d
  children : ∀ x ∈ blocks, ∀ y, y ∈ d.children x ↔ y ∈ blocks ∧ d.idom y = some x ∧ y ≠ x
  sorted : ∀ x ∈ blocks, (d.children x).Pairwise (addr · < addr ·)

theorem IsAnalysed.hasTree (h : IsAnalysed m addr blocks entry d) : HasTree m addr blocks entry d :=
  ⟨h.idoms, h.children, h.children_sorted⟩

section

variable (hcfg : FunctionCfg m blocks entry) (h : HasTree m addr blocks entry d)
include hcfg h

theorem HasTree.child (hb : Graph.Reaches (Succ m) entry b) :
    c ∈ d.children b ↔ Graph.Reaches (Succ m) entry c ∧ c ≠ entry ∧ Graph.IsIdom (Succ m) entry b c := by
  rw [h.children b (hcfg.reaches_mem hb)]
  constructor
  · rintro ⟨hc, hidom, hne⟩
    have hce : c ≠ entry := by
      rintro rfl
      rw [h.idoms.root] at hidom
      exact hne (Option.some.inj hidom)
    exact ⟨(h.idoms.isSome c hc).mp (by simp [hidom]), hce, h.idoms.isIdom c hc hce b hidom⟩
  · rintro ⟨hcr, hce, hidom⟩
    have hc := hcfg.reaches_mem hcr
    obtain ⟨b', hb'⟩ := Option.isSome_iff_exists.mp ((h.idoms.isSome c hc).mpr hcr)
    have := (h.idoms.isIdom c hc hce b' hb').unique hcr hidom
    exact ⟨hc, this ▸ hb', hidom.1.2.symm⟩

theorem HasTree.isTree :
    Graph.IsTree d.idom d.children (Graph.Reaches (Succ m) entry) where
  child b hb c hc := by
    obtain ⟨hcm, hidom, hne⟩ := (h.children b (hcfg.reaches_mem hb) c).mp hc
    exact ⟨hidom, hne, ((h.child hcfg hb).mp hc).1⟩
  nodup b hb := Mem2Reg.nodup_of_sorted (h.sorted b (hcfg.reaches_mem hb))
  antisymm x y hy hxy hyx := by
    have hxy' := (h.idoms.ancestor y hy x).mp hxy
    have hx := hxy'.reaches hy
    exact hxy'.antisymm hx ((h.idoms.ancestor x hx y).mp hyx)

/-- The size of the tree below a block decreases from a block to its children. -/
theorem HasTree.exists_rank : ∃ rank : Nat → Nat,
    (∀ b, Graph.Reaches (Succ m) entry b → ∀ c ∈ d.children b, rank c < rank b) ∧
      ∀ b, rank b ≤ blocks.length := by
  classical
  refine ⟨fun b => (blocks.toFinset.filter fun y => Graph.Reaches (Succ m) entry y ∧
    Graph.Dominates (Succ m) entry b y).card, fun b hb c hc => ?_, fun b => ?_⟩
  · obtain ⟨hcr, -, hidom⟩ := (h.child hcfg hb).mp hc
    refine Finset.card_lt_card (Finset.ssubset_iff_of_subset ?_ |>.mpr ⟨b, ?_, ?_⟩)
    · intro y hy
      simp only [Finset.mem_filter] at hy ⊢
      exact ⟨hy.1, hy.2.1, hidom.1.1.trans hy.2.2⟩
    · simp [hcfg.reaches_mem hb, hb, Graph.dominates_refl]
    · simp only [Finset.mem_filter, not_and]
      intro _ _ hcb
      exact hidom.1.2 (hidom.1.1.antisymm hb hcb)
  · exact (Finset.card_filter_le _ _).trans (List.toFinset_card_le blocks)

/-- A walk over the tree that is deep enough meets the reachable blocks. -/
theorem HasTree.mem_preorder {n : Nat} (hn : blocks.length < n) :
    b ∈ Graph.preorder d.children n entry ↔ Graph.Reaches (Succ m) entry b := by
  constructor
  · intro hb
    exact ((h.isTree hcfg).of_mem_preorder .refl hb).2
  · intro hb
    obtain ⟨rank, hrank, hle⟩ := h.exists_rank hcfg
    have hreach : ∀ z, Graph.Ancestor d.idom z b → Graph.Reaches (Succ m) entry z :=
      fun z hz => ((h.idoms.ancestor b hb z).mp hz).reaches hb
    have := hle entry
    refine Graph.mem_preorder (fun z hz c hc => hrank z (hreach z hz) c hc) ?_ (by omega)
      ((h.idoms.ancestor b hb entry).mpr (Graph.dominates_root _ _ _))
    intro z hz p hp hne
    have hzm := hcfg.reaches_mem (hreach z hz)
    exact (h.children p (h.idoms.idom_mem hcfg hzm hp) z).mpr ⟨hzm, hp, hne.symm⟩

end

section

variable (hcfg : FunctionCfg m blocks entry) (h : IsAnalysed m addr blocks entry d)
include hcfg h

/-- The frontier of the pass is the frontier of the graph, for a reachable block. -/
theorem IsAnalysed.frontier_iff (hdead : NoDeadEdge m blocks entry) (hx : x ∈ blocks)
    (hy : Graph.Reaches (Succ m) entry y) :
    y ∈ d.domFrontier (some x) ↔ Graph.Frontier (Succ m) entry x y := by
  rw [h.frontier x hx]
  constructor
  · intro hf
    obtain ⟨hyb, hlen, p, hp, hrun⟩ := id hf
    obtain ⟨hpb, hpy⟩ := (hcfg.pre y hyb p).mp hp
    have hxr := (hrun.1 hy).1.reaches (hdead p hpb y hpy hy)
    exact (Dominators.frontier_iff hcfg hdead hxr).mp hf
  · intro hf
    obtain ⟨p, hpy, hp, hxp⟩ := hf.1
    exact (Dominators.frontier_iff hcfg hdead (hxp.reaches hp)).mpr hf

/-- The phis in reachable blocks are on the iterated frontier of the graph. -/
theorem IsAnalysed.phiBlock_iff (hdead : NoDeadEdge m blocks entry)
    (hinit : ∀ x, Init x → x ∈ blocks) (hb : Graph.Reaches (Succ m) entry b) :
    Mem2Reg.PhiBlock d Init b ↔ Graph.IteratedFrontier (Graph.Frontier (Succ m) entry) Init b := by
  have hreach : ∀ x y, Graph.Frontier (Succ m) entry x y → Graph.Reaches (Succ m) entry x :=
    fun x y ⟨⟨p, _, hp, hxp⟩, _⟩ => hxp.reaches hp
  constructor
  · intro hphi
    induction hphi with
    | base hx hxy => exact .base hx ((h.frontier_iff hcfg hdead (hinit _ hx) hb).mp hxy)
    | step hx hxy ih =>
      have hf := (h.frontier_iff hcfg hdead (h.phiBlock_mem hinit hx) hb).mp hxy
      exact .step (ih (hreach _ _ hf)) hf
  · intro hphi
    induction hphi with
    | base hx hxy => exact .base hx ((h.frontier_iff hcfg hdead (hinit _ hx) hb).mpr hxy)
    | step hx hxy ih =>
      have hxr := hreach _ _ hxy
      exact .step (ih hxr) ((h.frontier_iff hcfg hdead (hcfg.reaches_mem hxr) hb).mpr hxy)

end

end Dominators

end Cminusf
