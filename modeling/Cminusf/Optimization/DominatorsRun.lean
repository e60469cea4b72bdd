import Cminusf.Optimization.Frontier

/-! `Dominators::run`: it terminates exactly when no edge leads from an unreachable
block to a reachable one, and then its maps describe every function. -/

namespace Cminusf

namespace Dominators

variable {m : Module} {addr : Nat → Nat} {blocks : List Nat} {entry fuel x y : Nat}
  {d d' d'' : Dominators}

/-- What the maps say about the blocks of one function. -/
structure IsAnalysed (m : Module) (addr : Nat → Nat) (blocks : List Nat) (entry : Nat)
    (d : Dominators) : Prop where
  idoms : HasIdoms m blocks entry d
  frontier : ∀ x ∈ blocks, ∀ y, y ∈ d.domFrontier (some x) ↔
    y ∈ blocks ∧ 2 ≤ (m.blocks y).preBbs.length ∧ ∃ p ∈ (m.blocks y).preBbs, RunnerAt m entry y p x
  frontier_sorted : ∀ x ∈ blocks, (d.domFrontier (some x)).Pairwise (addr · < addr ·)
  children : ∀ x ∈ blocks, ∀ y, y ∈ d.domTreeSuccBlocks (some x) ↔
    y ∈ blocks ∧ d.idom y = some x ∧ y ≠ x
  children_sorted : ∀ x ∈ blocks, (d.domTreeSuccBlocks (some x)).Pairwise (addr · < addr ·)

/-- The keys outside `blocks` keep their values. -/
structure Untouched (blocks : List Nat) (d d' : Dominators) : Prop where
  idom : ∀ v, v ∉ blocks → d'.idom v = d.idom v
  domFrontier : ∀ v, v ∉ blocks → d'.domFrontier (some v) = d.domFrontier (some v)
  domTreeSuccBlocks : ∀ v, v ∉ blocks →
    d'.domTreeSuccBlocks (some v) = d.domTreeSuccBlocks (some v)

/-- No frontier and no child has been recorded for the blocks yet. -/
def Fresh (blocks : List Nat) (d : Dominators) : Prop :=
  ∀ v ∈ blocks, d.domFrontier (some v) = [] ∧ d.domTreeSuccBlocks (some v) = []

theorem Untouched.fresh {bs : List Nat} (h : Untouched blocks d d') (hf : Fresh bs d)
    (hdisj : ∀ v ∈ bs, v ∉ blocks) : Fresh bs d' := by
  intro v hv
  rw [h.domFrontier v (hdisj v hv), h.domTreeSuccBlocks v (hdisj v hv)]
  exact hf v hv

theorem HasIdoms.congr_on (hcfg : FunctionCfg m blocks entry) (h : HasIdoms m blocks entry d)
    (he : ∀ v ∈ blocks, d'.idom v = d.idom v) : HasIdoms m blocks entry d' := by
  have hstep : ∀ v c, Graph.Reaches (Succ m) entry v → d.idom v = some c →
      Graph.Reaches (Succ m) entry c :=
    fun v c hv hc => ((h.ancestor v hv c).mp (.of_idom hc)).reaches hv
  refine ⟨by rw [he entry hcfg.entry_mem, h.root], fun v hv => by rw [he v hv, h.isSome v hv],
    fun v hv hne c hc => h.isIdom v hv hne c (by rw [← he v hv, hc]), fun v hv x => ?_⟩
  rw [← h.ancestor v hv x]
  constructor
  · intro hx
    induction hx using Relation.ReflTransGen.head_induction_on with
    | refl => exact .refl _ _
    | head hac _ ih =>
      rw [he _ (hcfg.reaches_mem hv)] at hac
      exact (ih (hstep _ _ hv hac)).trans (.of_idom hac)
  · intro hx
    induction hx using Relation.ReflTransGen.head_induction_on with
    | refl => exact .refl _ _
    | head hac _ ih =>
      have hc := hstep _ _ hv hac
      rw [← he _ (hcfg.reaches_mem hv)] at hac
      exact (ih hc).trans (.of_idom hac)

theorem IsAnalysed.untouched {bs : List Nat} (hcfg : FunctionCfg m blocks entry)
    (h : IsAnalysed m addr blocks entry d) (hu : Untouched bs d d')
    (hdisj : ∀ v ∈ blocks, v ∉ bs) : IsAnalysed m addr blocks entry d' where
  idoms := h.idoms.congr_on hcfg fun v hv => hu.idom v (hdisj v hv)
  frontier v hv y := by rw [hu.domFrontier v (hdisj v hv), h.frontier v hv]
  frontier_sorted v hv := by
    rw [hu.domFrontier v (hdisj v hv)]
    exact h.frontier_sorted v hv
  children v hv y := by
    rw [hu.domTreeSuccBlocks v (hdisj v hv), h.children v hv]
    constructor
    · rintro ⟨hy, hyv⟩
      rw [hu.idom y (hdisj y hy)]
      exact ⟨hy, hyv⟩
    · rintro ⟨hy, hyv⟩
      rw [hu.idom y (hdisj y hy)] at hyv
      exact ⟨hy, hyv⟩
  children_sorted v hv := by
    rw [hu.domTreeSuccBlocks v (hdisj v hv)]
    exact h.children_sorted v hv

theorem runnerAt_mem (hcfg : FunctionCfg m blocks entry) (hy : y ∈ blocks)
    {p : Nat} (hp : p ∈ (m.blocks y).preBbs) (h : RunnerAt m entry y p x)
    (hdead : NoDeadEdge m blocks entry) : x ∈ blocks := by
  obtain ⟨hpb, hpy⟩ := (hcfg.pre y hy p).mp hp
  by_cases hr : Graph.Reaches (Succ m) entry y
  · exact hcfg.reaches_mem ((h.1 hr).1.reaches (hdead p hpb y hpy hr))
  · exact h.2 hr ▸ hpb

theorem HasIdoms.idom_mem (hcfg : FunctionCfg m blocks entry) (h : HasIdoms m blocks entry d)
    (hy : y ∈ blocks) (hx : d.idom y = some x) : x ∈ blocks := by
  have hr := (h.isSome y hy).mp (by simp [hx])
  exact hcfg.reaches_mem (((h.ancestor y hr x).mp (.of_idom hx)).reaches hr)

theorem runOnFunction_ok {d1 d2 d3 : Dominators} (hcfg : FunctionCfg m blocks entry)
    (h1 : createReversePostOrder m entry fuel d = .ok d1)
    (h2 : createIdom m blocks entry fuel d1 = .ok d2)
    (h3 : createDominanceFrontier m addr blocks fuel d2 = .ok d3) :
    runOnFunction m addr fuel blocks d = .ok (createDomTreeSucc addr blocks d3) := by
  have hhead := hcfg.head
  cases blocks with
  | nil => cases hhead
  | cons b bs =>
    cases hhead
    rw [runOnFunction, h1]
    change (createIdom m (entry :: bs) entry fuel d1 >>= _) = _
    rw [h2]
    change (createDominanceFrontier m addr (entry :: bs) fuel d2 >>= _) = _
    rw [h3]
    rfl

/-- The pass over one function. -/
theorem runOnFunction_spec (haddr : Function.Injective addr) (hcfg : FunctionCfg m blocks entry)
    (hdead : NoDeadEdge m blocks entry) (hf : Fresh blocks d) :
    ∃ fuel d', runOnFunction m addr fuel blocks d = .ok d' ∧ Untouched blocks d d' ∧
      IsAnalysed m addr blocks entry d' := by
  obtain ⟨d1, hd1, hord, hi1, hf1, ht1⟩ := createReversePostOrder_spec (d := d) hcfg.cfg
    (Nat.lt_succ_self blocks.length)
  obtain ⟨n2, d2, hd2, hfr2, hid2⟩ := createIdom_spec hcfg.cfg hord
  obtain ⟨n3, d3, hd3, hadd⟩ := createDominanceFrontier_spec haddr hcfg hdead hid2
  have htree := createDomTreeSucc_spec haddr blocks d3
  have hid3 := hid2.congr hadd.idom
  obtain ⟨n, h1, h2, h3⟩ : ∃ n, blocks.length + 1 ≤ n ∧ n2 ≤ n ∧ n3 ≤ n :=
    ⟨blocks.length + 1 + n2 + n3, by omega, by omega, by omega⟩
  have hfront : ∀ v, d2.domFrontier (some v) = d.domFrontier (some v) := by
    intro v
    rw [hfr2.domFrontier, hf1]
  have hsucc : ∀ k, d3.domTreeSuccBlocks k = d.domTreeSuccBlocks k := by
    intro k
    rw [hadd.domTreeSuccBlocks, hfr2.domTreeSuccBlocks, ht1]
  refine ⟨n, createDomTreeSucc addr blocks d3,
    runOnFunction_ok hcfg ((createReversePostOrder_mono h1 entry d).eq_ok hd1)
      ((createIdom_mono h2 blocks entry d1).eq_ok hd2)
      ((createDominanceFrontier_mono h3 blocks d2).eq_ok hd3),
    ⟨fun v hv => ?_, fun v hv => ?_, fun v hv => ?_⟩,
    ⟨hid3.congr htree.idom, fun v hv y => ?_, fun v hv => ?_, fun v hv y => ?_, fun v hv => ?_⟩⟩
  · rw [htree.idom, hadd.idom, hfr2.idom v hv, hi1]
  · rw [htree.domFrontier, hadd.frame v, hfront]
    rintro y ⟨hy, _, p, hp, hr⟩
    exact hv (runnerAt_mem hcfg hy hp hr hdead)
  · rw [htree.frame (some v), hsucc]
    intro y hy hv'
    exact absurd (hid3.idom_mem hcfg hy hv') hv
  · rw [htree.domFrontier, hadd.mem, hfront, (hf v hv).1]
    simp
  · rw [htree.domFrontier]
    refine hadd.sorted _ ?_
    rw [hfront, (hf v hv).1]
    exact .nil
  · rw [htree.mem, hsucc, (hf v hv).2, htree.idom]
    simp only [List.not_mem_nil, false_or, ne_eq, Option.some.injEq, eq_comm (a := v)]
  · refine htree.sorted _ ?_
    rw [hsucc, (hf v hv).2]
    exact .nil

/-- The pass returns on a function only if none of its edges leaves the unreachable blocks. -/
theorem noDeadEdge_of_runOnFunction (hcfg : FunctionCfg m blocks entry)
    (h : runOnFunction m addr fuel blocks d = .ok d') : NoDeadEdge m blocks entry := by
  obtain ⟨d1, hd1, hord, -⟩ := createReversePostOrder_spec (d := d) hcfg.cfg
    (Nat.lt_succ_self blocks.length)
  obtain ⟨n2, d2, hd2, -, hid2⟩ := createIdom_spec hcfg.cfg hord
  have hhead := hcfg.head
  cases blocks with
  | nil => cases hhead
  | cons b bs =>
    cases hhead
    obtain ⟨e1, he1, h⟩ := Exec.bind_eq_ok.mp h
    obtain ⟨e2, he2, h⟩ := Exec.bind_eq_ok.mp h
    obtain ⟨e3, he3, h⟩ := Exec.bind_eq_ok.mp h
    cases Exec.ok_unique (fun _ _ hn => createReversePostOrder_mono hn entry d) he1 hd1
    cases Exec.ok_unique (fun _ _ hn => createIdom_mono hn _ entry d1) he2 hd2
    exact noDeadEdge_of_ok hcfg hid2 he3

theorem runOnFunction_noFault (hcfg : FunctionCfg m blocks entry) (fuel : Nat) (d : Dominators) :
    Exec.NoFault (runOnFunction m addr fuel blocks d) := by
  obtain ⟨d1, hd1, hord, -⟩ := createReversePostOrder_spec (d := d) hcfg.cfg
    (Nat.lt_succ_self blocks.length)
  obtain ⟨n2, d2, hd2, -, hid2⟩ := createIdom_spec hcfg.cfg hord
  have hhead := hcfg.head
  cases blocks with
  | nil => cases hhead
  | cons b bs =>
    cases hhead
    refine Exec.NoFault.bind ?_ fun e1 he1 => Exec.NoFault.bind ?_ fun e2 _ => Exec.NoFault.bind
      (createDominanceFrontier_noFault _ fuel e2) fun e3 _ => .ok _
    · exact .of_ok (fun _ _ hn => createReversePostOrder_mono hn entry d) hd1 fuel
    · cases Exec.ok_unique (fun _ _ hn => createReversePostOrder_mono hn entry d) he1 hd1
      exact .of_ok (fun _ _ hn => createIdom_mono hn _ entry d1) hd2 fuel

end Dominators

/-- The control-flow graphs of a module: those of its functions, which share no block. -/
structure ModuleCfg (m : Module) : Prop where
  function : ∀ f < m.numFunctions, ∀ entry, (m.functions f).basicBlocks.head? = some entry →
    Dominators.FunctionCfg m (m.functions f).basicBlocks entry
  disjoint : ∀ f < m.numFunctions, ∀ g < m.numFunctions, f ≠ g →
    ∀ b ∈ (m.functions f).basicBlocks, b ∉ (m.functions g).basicBlocks

namespace Dominators

/-- No function of the module has an edge from an unreachable block to a reachable one. -/
def NoDeadEdges (m : Module) : Prop :=
  ∀ f < m.numFunctions, ∀ entry, (m.functions f).basicBlocks.head? = some entry →
    NoDeadEdge m (m.functions f).basicBlocks entry

/-- The maps describe every function of the list. -/
def Analysed (m : Module) (addr : Nat → Nat) (fs : List Nat) (d : Dominators) : Prop :=
  ∀ f ∈ fs, ∀ entry, (m.functions f).basicBlocks.head? = some entry →
    IsAnalysed m addr (m.functions f).basicBlocks entry d

theorem runFold_spec (haddr : Function.Injective addr) (hcfg : ModuleCfg m) (hdead : NoDeadEdges m)
    (fs done : List Nat) (hnd : (done ++ fs).Nodup) (hfs : ∀ f ∈ done ++ fs, f < m.numFunctions)
    (hfresh : ∀ f ∈ fs, Fresh (m.functions f).basicBlocks d) (hd : Analysed m addr done d) :
    ∃ fuel d', fs.foldlM (fun d f => runOnFunction m addr fuel (m.functions f).basicBlocks d) d =
      .ok d' ∧ Analysed m addr (done ++ fs) d' := by
  induction fs generalizing d done with
  | nil => exact ⟨0, d, rfl, by simpa using hd⟩
  | cons f fs ih =>
    have hf := hfs f (by simp)
    have hlist : done ++ f :: fs = (done ++ [f]) ++ fs := by simp
    rw [hlist] at hnd hfs
    have hne : ∀ g ∈ fs, f ≠ g := by
      intro g hg
      have := (List.nodup_append.mp hnd).2.2 f (by simp) g hg
      exact this
    have hne' : ∀ g ∈ done, g ≠ f := by
      intro g hg
      exact (List.nodup_append.mp (List.nodup_append.mp hnd).1).2.2 g hg f (by simp)
    obtain ⟨n, d1, hd1, hun, hnew⟩ : ∃ n d1,
        runOnFunction m addr n (m.functions f).basicBlocks d = .ok d1 ∧
        Untouched (m.functions f).basicBlocks d d1 ∧ Analysed m addr [f] d1 := by
      cases hh : (m.functions f).basicBlocks.head? with
      | none =>
        rw [List.head?_eq_none_iff] at hh
        refine ⟨0, d, by rw [hh]; rfl, ⟨fun _ _ => rfl, fun _ _ => rfl, fun _ _ => rfl⟩, ?_⟩
        intro g hg entry he
        rw [List.mem_singleton.mp hg, hh] at he
        cases he
      | some entry =>
        obtain ⟨n, d1, hd1, hun, han⟩ := runOnFunction_spec haddr (hcfg.function f hf entry hh)
          (hdead f hf entry hh) (hfresh f (by simp))
        refine ⟨n, d1, hd1, hun, fun g hg e he => ?_⟩
        rw [List.mem_singleton.mp hg] at he ⊢
        rw [hh] at he
        cases he
        exact han
    obtain ⟨n', d2, hd2, han⟩ := ih (d := d1) (done ++ [f]) hnd hfs
      (fun g hg => hun.fresh (hfresh g (by simp [hg]))
        (hcfg.disjoint g (hfs g (by simp [hg])) f hf (hne g hg).symm)) (by
        intro g hg e he
        rcases List.mem_append.mp hg with hg | hg
        · have hgn := hfs g (by simp [hg])
          exact (hd g hg e he).untouched (hcfg.function g hgn e he) hun
            (hcfg.disjoint g hgn f hf (hne' g hg))
        · exact hnew g hg e he)
    refine ⟨max n n', d2, ?_, by rwa [hlist]⟩
    rw [List.foldlM_cons, (runOnFunction_mono (le_max_left n n') _ d).eq_ok hd1]
    exact (Exec.Le.foldlM (fun d f => runOnFunction_mono (le_max_right n n') _ d) fs d1).eq_ok hd2

theorem run_spec (haddr : Function.Injective addr) (hcfg : ModuleCfg m) (hdead : NoDeadEdges m) :
    ∃ fuel d, run m addr fuel = .ok d ∧ Analysed m addr (List.range m.numFunctions) d := by
  refine runFold_spec haddr hcfg hdead (List.range m.numFunctions) [] ?_ ?_ ?_ ?_
  · exact List.nodup_range
  · simp
  · exact fun f _ v _ => ⟨rfl, rfl⟩
  · simp [Analysed]

theorem noDeadEdges_of_run (hcfg : ModuleCfg m) (h : run m addr fuel = .ok d) : NoDeadEdges m := by
  intro f hf entry hh
  obtain ⟨t, t', -, ht⟩ := (Exec.foldlM_ok (P := fun _ => True) (fun _ _ _ _ _ => trivial) trivial h).2
    f (List.mem_range.mpr hf)
  exact noDeadEdge_of_runOnFunction (hcfg.function f hf entry hh) ht

theorem run_noFault (hcfg : ModuleCfg m) (fuel : Nat) : Exec.NoFault (run m addr fuel) := by
  refine Exec.NoFault.foldlM (fun d f hf => ?_) empty
  cases hh : (m.functions f).basicBlocks.head? with
  | none =>
    rw [List.head?_eq_none_iff.mp hh]
    exact .ok d
  | some entry =>
    exact runOnFunction_noFault (hcfg.function f (List.mem_range.mp hf) entry hh) fuel d

/-- When the pass returns, its maps describe every function. -/
theorem run_analysed (haddr : Function.Injective addr) (hcfg : ModuleCfg m)
    (h : run m addr fuel = .ok d) : Analysed m addr (List.range m.numFunctions) d := by
  obtain ⟨n, d', hd', han⟩ := run_spec haddr hcfg (noDeadEdges_of_run hcfg h)
  rwa [Exec.ok_unique (fun _ _ hn => run_mono hn) h hd']

end Dominators

end Cminusf
