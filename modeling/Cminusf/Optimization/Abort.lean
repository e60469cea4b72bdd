import Cminusf.LightIR.Address
import Cminusf.Optimization.Mem2RegRun
import Mathlib.Data.Finset.Lattice.Fold
import Mathlib.Order.Lattice.Nat

/-! When `Mem2Reg` aborts: the walk completes a phi on an edge from a block above which
the variable has no value, after it has come past a block that gives it one. -/

namespace Cminusf

namespace Mem2Reg

open Renaming Builder Dominators

variable {m m' m1 : Module} {b c f g i j p entry fuel : Nat} {v w x : Value}
  {origin : Nat → Option Nat} {d : Dominators} {phis : Nat → List Nat}

/-- Every block is reachable from the entry of its function. -/
def AllReachable (m : Module) : Prop :=
  ∀ f < m.numFunctions, ∀ entry, (m.functions f).basicBlocks.head? = some entry →
    ∀ b ∈ (m.functions f).basicBlocks, Graph.Reaches (Succ m) entry b

/-- Some path comes to block `b` without a store to `v`. -/
inductive Unstored (m : Module) (entry : Nat) (v : Value) : Nat → Prop where
  | entry : Unstored m entry v entry
  | edge {b c : Nat} : Unstored m entry v b →
      (∀ i ∈ (m.blocks b).instrList, storedVar m i ≠ some v) → Succ m b c → Unstored m entry v c

/-- On every path a local variable is stored before it is loaded. -/
def StoredBeforeLoaded (m : Module) : Prop :=
  ∀ f < m.numFunctions, ∀ entry, (m.functions f).basicBlocks.head? = some entry →
    ∀ v b, Unstored m entry v b → ∀ is i js, (m.blocks b).instrList = is ++ i :: js →
      loadedVar m i = some v → ∃ k ∈ is, storedVar m k = some v

/-- The blocks of function `f` that store to `v` or are on the iterated frontier of these. -/
abbrev GivesValue (m : Module) (f entry : Nat) (v : Value) : Nat → Prop :=
  Graph.Defines (Succ m) entry (Stores m (m.functions f).basicBlocks v)

/-- Every edge to a block on the iterated frontier of the stores to a variable comes from a
block that has a value of the variable, or that dominates all blocks that give it one. -/
def Covered (m : Module) : Prop :=
  ∀ f < m.numFunctions, ∀ entry, (m.functions f).basicBlocks.head? = some entry →
    ∀ v b s, Graph.Reaches (Succ m) entry b → Succ m b s →
      Graph.IteratedFrontier (Graph.Frontier (Succ m) entry)
        (Stores m (m.functions f).basicBlocks v) s →
      (∃ a, GivesValue m f entry v a ∧ Graph.Dominates (Succ m) entry a b) ∨
        ∀ a, GivesValue m f entry v a → Graph.Dominates (Succ m) entry b a

section

variable {addr : Nat → Nat} (hm : Inv m origin) (hf : f < m.numFunctions)
  (hh : (m.functions f).basicBlocks.head? = some entry)
  (hd : IsAnalysed m addr (m.functions f).basicBlocks entry d)
  (hdead : NoDeadEdge m (m.functions f).basicBlocks entry)
include hm hf hh hd hdead

theorem stores_phiBlock_iff (hb : Graph.Reaches (Succ m) entry b) :
    PhiBlock d (Stores m (m.functions f).basicBlocks v) b ↔
      Graph.IteratedFrontier (Graph.Frontier (Succ m) entry)
        (Stores m (m.functions f).basicBlocks v) b :=
  hd.phiBlock_iff (hm.functionCfg hf hh) hdead (fun _ hx => hx.1) hb

theorem Laid.def_iff_givesValue (hl : Laid m d f m1 phis) (hb : Graph.Reaches (Succ m) entry b) :
    Def m1 v b ↔ GivesValue m f entry v b := by
  rw [hl.def_iff hm hf ((hm.functionCfg hf hh).reaches_mem hb),
    stores_phiBlock_iff hm hf hh hd hdead hb]
  rfl

omit hd hdead in
/-- A block that no value of the variable reaches is reached without a store to it. -/
theorem unstored_of_not_givesValue (hb : Graph.Reaches (Succ m) entry b)
    (hno : ∀ a, GivesValue m f entry v a → ¬ Graph.StrictlyDominates (Succ m) entry a b)
    (hphi : ¬ Graph.IteratedFrontier (Graph.Frontier (Succ m) entry)
      (Stores m (m.functions f).basicBlocks v) b) : Unstored m entry v b := by
  have key : ∀ c, Graph.Reaches (Succ m) entry c → Graph.Reaches (Succ m) c b →
      Unstored m entry v c := by
    intro c hc
    induction hc with
    | refl => exact fun _ => .entry
    | @tail a c hea hac ih =>
      intro hcb
      refine .edge (ih ((Relation.ReflTransGen.single hac).trans hcb)) (fun i hi hv => ?_) hac
      have hst : Stores m (m.functions f).basicBlocks v a :=
        ⟨(hm.functionCfg hf hh).reaches_mem hea, i, hi, hv⟩
      have hab : Relation.TransGen (Succ m) a b := .head' hac hcb
      rcases Graph.Defines.reaches (.inl hst) hea hab with ⟨z, hz, hzb⟩ | hif
      · exact hno z hz hzb
      · exact hphi hif
  exact key b hb .refl

/-- No fault on a module whose edges are covered. -/
theorem not_faulty (hs : StoredBeforeLoaded m) (hc : Covered m) (fault : Fault) :
    ¬ Faulty m d f entry fuel fault := by
  rintro ⟨m1, phis, hl, pre, b, post, v, hord, hdef, hno, hcause⟩
  have hcfg := hm.functionCfg hf hh
  have htree := hd.hasTree.isTree hcfg
  have hmem : ∀ {c}, c ∈ Graph.preorder d.children fuel entry → Graph.Reaches (Succ m) entry c :=
    fun hc => (htree.of_mem_preorder .refl hc).2
  have hb : Graph.Reaches (Succ m) entry b := hmem (by rw [hord]; simp)
  have hbf := hcfg.reaches_mem hb
  have hgives : ∀ {a}, Graph.Reaches (Succ m) entry a → (Def m1 v a ↔ GivesValue m f entry v a) :=
    fun ha => hl.def_iff_givesValue hm hf hh hd hdead ha
  have hnone : ∀ a, GivesValue m f entry v a → ¬ Graph.StrictlyDominates (Succ m) entry a b := by
    intro a ha hdom
    exact hno a ((hd.idoms.ancestor b hb a).mpr hdom.1) hdom.2 ((hgives (hdom.1.reaches hb)).mpr ha)
  rcases hcause with ⟨-, hnb, s, hsucc, p, hp, hpv⟩ | ⟨-, hnphi, is, i, js, hlist, hload, hnst⟩
  · rw [hl.blocks b hbf] at hsucc
    have hsr : Graph.Reaches (Succ m) entry s := hb.tail hsucc
    have hsf := hcfg.reaches_mem hsr
    have hif : Graph.IteratedFrontier (Graph.Frontier (Succ m) entry)
        (Stores m (m.functions f).basicBlocks v) s := by
      rw [← stores_phiBlock_iff hm hf hh hd hdead hsr]
      rcases (hl.mem_instrList hsf).mp hp with hp | hp
      · obtain ⟨u, hu, -, hph⟩ := hl.phiVar_phi hp
        rw [hpv] at hu
        cases hu
        exact hph
      · rw [hl.phiVar_old hm hf hsf hp] at hpv
        cases hpv
    have hnb' : ¬ GivesValue m f entry v b := fun hg => hnb ((hgives hb).mpr hg)
    rcases hc f hf entry hh v b s hb hsucc hif with ⟨a, ha, hdom⟩ | hall
    · by_cases hab : a = b
      · exact hnb' (hab ▸ ha)
      · exact hnone a ha ⟨hdom, hab⟩
    · -- a block that gives a value and comes before `b` is dominated by `b`
      obtain ⟨c, hcpre, hcdef⟩ := hdef.resolve_left id
      have hcr : Graph.Reaches (Succ m) entry c := hmem (by rw [hord]; simp [hcpre])
      have hbc := hall c ((hgives hcr).mp hcdef)
      have hanc := (hd.idoms.ancestor c hcr b).mpr hbc
      have hpw := htree.pairwise_preorder .refl (n := fuel)
      rw [hord] at hpw
      exact (List.pairwise_append.mp hpw).2.2 c hcpre b List.mem_cons_self hanc
  · have hi : i ∈ (m.blocks b).instrList := by
      refine ((hl.mem_instrList hbf).mp (by rw [hlist]; simp)).resolve_left fun hip => ?_
      rw [(hl.phi_not_old hip).2] at hload
      cases hload
    obtain ⟨is', rfl, hlist'⟩ := hl.split hm hf hbf hlist hi
    rw [hl.loadedVar hm hf hbf hi] at hload
    have hnif : ¬ Graph.IteratedFrontier (Graph.Frontier (Succ m) entry)
        (Stores m (m.functions f).basicBlocks v) b := by
      rw [← stores_phiBlock_iff hm hf hh hd hdead hb]
      intro hph
      obtain ⟨p, hp, hpi⟩ := hl.has b v hph
      exact hnphi p ((hl.mem_instrList hbf).mpr (.inl hp)) (by simp [phiVar, hpi])
    have hun := unstored_of_not_givesValue hm hf hh hb hnone hnif
    obtain ⟨k, hk, hkv⟩ := hs f hf entry hh v b hun is' i js hlist' hload
    refine hnst k (List.mem_append_right _ hk) ?_
    rw [hl.storedVar hm hf hbf (by rw [hlist']; simp [hk]), hkv]

/-- A walk that visits the blocks above `a` first, and returns, has come past `a` before `b`. -/
theorem Promoted.covered {r : Renaming} (hp : Promoted m d f entry fuel m1 phis r m')
    (hfuel : (m.functions f).basicBlocks.length < fuel)
    (hb : Graph.Reaches (Succ m) entry b) {s : Nat} (hs : Succ m b s)
    (hif : Graph.IteratedFrontier (Graph.Frontier (Succ m) entry)
      (Stores m (m.functions f).basicBlocks v) s)
    (hno : ∀ a, GivesValue m f entry v a → ¬ Graph.Dominates (Succ m) entry a b)
    {a : Nat} (ha : Graph.Reaches (Succ m) entry a) (hav : GivesValue m f entry v a)
    (hba : ¬ Graph.Dominates (Succ m) entry b a)
    (hfirst : ∀ x, Graph.Reaches (Succ m) entry x → (d.children x).Pairwise fun c c' =>
      Graph.Dominates (Succ m) entry c' a → Graph.Dominates (Succ m) entry c a) : False := by
  have hcfg := hm.functionCfg hf hh
  have htree := hd.hasTree.isTree hcfg
  have hanc : ∀ {x y}, Graph.Reaches (Succ m) entry y →
      (Graph.Ancestor d.idom x y ↔ Graph.Dominates (Succ m) entry x y) :=
    fun hy => hd.idoms.ancestor _ hy _
  have hmem : ∀ {y}, Graph.Reaches (Succ m) entry y → y ∈ Graph.preorder d.children fuel entry := by
    intro y hy
    rw [← hp.order]
    exact (hp.mem_order hm hf hh hd hfuel).mpr hy
  have hsub : [a, b].Sublist r.order := by
    rw [hp.order]
    refine htree.sublist_preorder .refl (fun x hx => ?_) (hmem ha) (hmem hb) ?_ ?_
    · exact (hfirst x hx).imp fun hcc => by rwa [hanc ha, hanc ha]
    · rw [hanc hb]
      exact hno a hav
    · rwa [hanc ha]
  obtain ⟨l, l', hl, hal, hbl⟩ := List.cons_sublist_iff.mp hsub
  obtain ⟨l1, l2, rfl⟩ := List.append_of_mem (List.singleton_sublist.mp hbl)
  have hord : r.order = (l ++ l1) ++ b :: l2 := by rw [hl]; simp
  have hbo : b ∈ r.order := by rw [hord]; simp
  obtain ⟨keys, -, hw⟩ := hp.walked
  have hlay := hp.laid
  have hdef : ∀ {c}, Graph.Reaches (Succ m) entry c → (Def m1 v c ↔ GivesValue m f entry v c) :=
    fun hc => hlay.def_iff_givesValue hm hf hh hd hdead hc
  have hsr : Graph.Reaches (Succ m) entry s := hb.tail hs
  obtain ⟨p, hps, hpi⟩ := hlay.has s v ((stores_phiBlock_iff hm hf hh hd hdead hsr).mpr hif)
  have hnil : valsAtEnd m1 r b v = [] := by
    refine (hw.vals_eq_nil (hlay.arranged hm hf hh hd) hd.idoms.root hbo).mpr fun c hcb hc => ?_
    have hdom := (hanc hb).mp hcb
    exact hno c ((hdef (hdom.reaches hb)).mp hc) hdom
  have hnone := (hw.edges b hbo s (by rw [hlay.blocks b (hcfg.reaches_mem hb)]; exact hs) p
    ((hlay.mem_instrList (hcfg.reaches_mem hsr)).mpr (.inl hps)) v (by simp [phiVar, hpi])).2 hnil
  have hsome := (hw.entryKeys _ b _ hord v).mpr
    (.inr ⟨a, List.mem_append_left _ hal, (hdef ha).mpr hav⟩)
  rw [hnone] at hsome
  cases hsome

end

theorem AllReachable.noDeadEdges (hr : AllReachable m) : NoDeadEdges m := by
  intro f hf entry hh p hp b _ _
  exact hr f hf entry hh p hp

/-- The analysis returns, with fuel for the rest of the pass. -/
theorem exists_fuel {addr : Value → Nat} (hm : Inv m origin) (hr : AllReachable m)
    (haddr : Function.Injective addr) :
    ∃ fuel d, Dominators.run m (fun bb => addr (.basicBlock bb)) fuel = .ok d ∧
      ∀ f < m.numFunctions, 2 * (m.functions f).basicBlocks.length < fuel := by
  have hinj : Function.Injective fun bb => addr (.basicBlock bb) :=
    fun x y h => Value.basicBlock.inj (haddr h)
  obtain ⟨n, d, hd, -⟩ := Dominators.run_spec hinj hm.moduleCfg (hr.noDeadEdges)
  let k := (Finset.range m.numFunctions).sup fun f => 2 * (m.functions f).basicBlocks.length
  refine ⟨max n (k + 1), d, (Dominators.run_mono (le_max_left _ _)).eq_ok hd, fun f hf => ?_⟩
  have hle : 2 * (m.functions f).basicBlocks.length ≤ k :=
    Finset.le_sup (f := fun f => 2 * (m.functions f).basicBlocks.length) (Finset.mem_range.mpr hf)
  omega

theorem Faulty.ne_outOfFuel {fault : Fault} (h : Faulty m d f entry fuel fault) :
    fault ≠ .outOfFuel := by
  obtain ⟨m1, phis, -, pre, b, post, v, -, -, -, ⟨rfl, -⟩ | ⟨rfl, -⟩⟩ := h
  · simp
  · simp

/-- The pass returns when it has the fuel and does not fault. -/
theorem rewritten_of_noFault {addr : Value → Nat} (hm : Inv m origin)
    (haddr : Function.Injective addr)
    (hd : Dominators.run m (fun bb => addr (.basicBlock bb)) fuel = .ok d)
    (hfuel : ∀ f < m.numFunctions, 2 * (m.functions f).basicBlocks.length < fuel)
    (hno : Exec.NoFault (run m addr fuel)) :
    ∃ m', run m addr fuel = .ok m' ∧ Rewritten m d fuel m' := by
  have hspec := run_spec hm haddr hd
  cases hrun : run m addr fuel with
  | ok m' =>
    rw [hrun] at hspec
    cases hspec with
    | ok h => exact ⟨m', rfl, h⟩
  | error fault =>
    rw [hrun] at hspec
    have hout := hno fault hrun
    cases hspec with
    | error h =>
      obtain ⟨f, hf, ⟨-, hle⟩ | ⟨entry, -, hfl⟩⟩ := h
      · have := hfuel f hf
        omega
      · exact absurd hout hfl.ne_outOfFuel

/-- If the pass never aborts, whatever the addresses, the edges are covered. -/
theorem covered_of_noFault (hm : Inv m origin) (hr : AllReachable m)
    (hno : ∀ addr, Function.Injective addr → ∀ fuel, Exec.NoFault (run m addr fuel)) :
    Covered m := by
  classical
  intro f hf entry hh v b s hb hs hif
  by_contra hcov
  simp only [not_or, not_exists, not_and, not_forall] at hcov
  obtain ⟨hnone, a, hav, hba⟩ := hcov
  have hcfg := hm.functionCfg hf hh
  have hdead := hr.noDeadEdges f hf entry hh
  -- the blocks that dominate `a` get the lowest addresses
  let first := (m.functions f).basicBlocks.filter fun x => Graph.Dominates (Succ m) entry x a
  have haddr := Value.addressFrom_injective first
  obtain ⟨fuel, d, hd, hfuel⟩ := exists_fuel hm hr haddr
  obtain ⟨m', -, hrew⟩ := rewritten_of_noFault hm haddr hd hfuel (hno _ haddr fuel)
  obtain ⟨m1, phis, r, hp⟩ := hrew.promoted f hf entry hh
  have han := run_analysed (fun x y h => Value.basicBlock.inj (haddr h)) hm.moduleCfg hd f
    (List.mem_range.mpr hf) entry hh
  have ha : Graph.Reaches (Succ m) entry a := by
    rcases hav with hst | hph
    · exact hr f hf entry hh a hst.1
    · cases hph with
      | base _ hfr =>
        obtain ⟨q, hqa, hq, -⟩ := hfr.1
        exact hq.tail hqa
      | step _ hfr =>
        obtain ⟨q, hqa, hq, -⟩ := hfr.1
        exact hq.tail hqa
  refine hp.covered hm hf hh han hdead (by have := hfuel f hf; omega) hb hs hif hnone ha hav hba
    fun x hx => ?_
  refine (han.children_sorted x (hcfg.reaches_mem hx)).imp_of_mem fun {c c'} _ hc' hlt hdom => ?_
  by_contra hndom
  have hcf := hcfg.reaches_mem ((han.hasTree.child hcfg hx).mp hc').1
  have hlt' : Value.addressFrom first (.basicBlock c') < Value.addressFrom first (.basicBlock c) :=
    Value.code_lt_addressFrom (List.mem_filter.mpr ⟨hcf, by simpa using hdom⟩) (by
      rintro ⟨y, hy, he⟩
      cases he
      exact hndom (by simpa using (List.mem_filter.mp hy).2))
  omega

/-- On covered edges the pass returns, whatever the addresses. -/
theorem run_of_covered {addr : Value → Nat} (hm : Inv m origin) (hr : AllReachable m)
    (hs : StoredBeforeLoaded m) (hc : Covered m) (haddr : Function.Injective addr) :
    ∃ fuel m', run m addr fuel = .ok m' := by
  obtain ⟨fuel, d, hd, hfuel⟩ := exists_fuel hm hr haddr
  have han := run_analysed (fun x y h => Value.basicBlock.inj (haddr h)) hm.moduleCfg hd
  have hspec := run_spec hm haddr hd
  cases hrun : run m addr fuel with
  | ok m' => exact ⟨fuel, m', hrun⟩
  | error fault =>
    rw [hrun] at hspec
    cases hspec with
    | error h =>
      obtain ⟨f, hf, ⟨-, hle⟩ | ⟨entry, hh, hfl⟩⟩ := h
      · have := hfuel f hf
        omega
      · exact absurd hfl (not_faulty hm hf hh (han f (List.mem_range.mpr hf) entry hh)
          (hr.noDeadEdges f hf entry hh) hs hc fault)

/-- On a valid program the pass never aborts, whatever the addresses of the objects, exactly
when the edges to its phis are covered; then it also returns. -/
theorem run_noFault_iff {program : ASTProgram} (h : buildModule program = some m)
    (hr : AllReachable m) (hs : StoredBeforeLoaded m) :
    ((∀ addr, Function.Injective addr → ∀ fuel, Exec.NoFault (run m addr fuel)) ↔ Covered m) ∧
      (Covered m → ∀ addr, Function.Injective addr → ∃ fuel m', run m addr fuel = .ok m') := by
  obtain ⟨origin, hm⟩ := CminusfBuilder.buildModule_inv h
  refine ⟨⟨covered_of_noFault hm hr, fun hc addr haddr fuel => ?_⟩,
    fun hc addr haddr => run_of_covered hm hr hs hc haddr⟩
  obtain ⟨n, m', hrun⟩ := run_of_covered hm hr hs hc haddr
  exact Exec.NoFault.of_ok (fun _ _ hn => run_mono hn) hrun fuel

/-- `int main(void) { int a; int b; if (input()) a = 1; else b = 1; return 0; }`. -/
def armsProgram : ASTProgram := ⟨[.fun ⟨.int, "main", [], [⟨.int, "a", none⟩, ⟨.int, "b", none⟩],
  [.selectionElse (.simple (.ofTerm (.ofFactor (.call "input" []))))
    (.expressionStmt (some (.assign (.scalar "a") (Dominators.literal 1))))
    (.expressionStmt (some (.assign (.scalar "b") (Dominators.literal 1)))),
    .return (some (Dominators.literal 0))]⟩]⟩

/-- The assertion of `re_name` fails. -/
def asserts : Exec Module → Bool
  | .error .assertion => true
  | _ => false

/-- Where nothing is loaded. -/
theorem storedBeforeLoaded_of_none (hm : Inv m origin)
    (hload : ∀ i < m.numInstrs, loadedVar m i = none) : StoredBeforeLoaded m := by
  intro f hlt entry hh v b hun is i js hlist hi
  have hb : i ∈ (m.blocks b).instrList := by rw [hlist]; simp
  by_cases hbn : b < m.numBlocks
  · rw [hload i (hm.instr_mem b hbn i hb).1] at hi
    cases hi
  · rw [hm.fresh_block b (Nat.le_of_not_lt hbn)] at hb
    cases hb

theorem armsProgram_module : ∃ m, buildModule armsProgram = some m ∧ m.numFunctions = 5 ∧
    (∀ f < 4, (m.functions f).basicBlocks = []) ∧ (m.functions 4).basicBlocks = [0, 1, 2, 3] ∧
    (1 ∈ (m.blocks 0).succBbs ∧ 3 ∈ (m.blocks 0).succBbs ∧ 2 ∈ (m.blocks 1).succBbs) ∧
    (∀ i < m.numInstrs, loadedVar m i = none) ∧ asserts (run m Value.code 20) = true :=
  exists_buildModule armsProgram _ (by decide +kernel)

theorem armsProgram_valid : ∃ m, buildModule armsProgram = some m ∧ AllReachable m ∧
    StoredBeforeLoaded m ∧ asserts (run m Value.code 20) = true := by
  obtain ⟨m, hm, hn, hnil, hblocks, ⟨h1, h3, h2⟩, hload, hrun⟩ := armsProgram_module
  obtain ⟨origin, hinv⟩ := CminusfBuilder.buildModule_inv hm
  have hf : ∀ f < m.numFunctions, ∀ entry, (m.functions f).basicBlocks.head? = some entry →
      f = 4 ∧ entry = 0 := by
    intro f hf entry hh
    by_cases h4 : f < 4
    · rw [hnil f h4] at hh
      cases hh
    · obtain rfl : f = 4 := by omega
      rw [hblocks] at hh
      cases hh
      exact ⟨rfl, rfl⟩
  refine ⟨m, hm, fun f hlt entry hh b hb => ?_, storedBeforeLoaded_of_none hinv hload, hrun⟩
  obtain ⟨rfl, rfl⟩ := hf f hlt entry hh
  rw [hblocks] at hb
  simp only [List.mem_cons, List.not_mem_nil, or_false] at hb
  rcases hb with rfl | rfl | rfl | rfl
  · exact .refl
  · exact .single h1
  · exact .tail (.single h1) h2
  · exact .single h3

theorem run_noFault_iff_armsProgram : ∃ m, buildModule armsProgram = some m ∧
    ((∀ addr, Function.Injective addr → ∀ fuel, Exec.NoFault (run m addr fuel)) ↔ Covered m) := by
  obtain ⟨m, hm, hr, hs, -⟩ := armsProgram_valid
  exact ⟨m, hm, (run_noFault_iff hm hr hs).1⟩

/-- The walk comes to the block with the store to `a` first, and then completes the phi of `a`
on the edge from the other arm with an empty stack. -/
theorem run_armsProgram : ∃ m, buildModule armsProgram = some m ∧ AllReachable m ∧
    StoredBeforeLoaded m ∧ ∃ addr, Function.Injective addr ∧
      ∃ fuel, run m addr fuel = .error .assertion := by
  obtain ⟨m, hm, hr, hs, hrun⟩ := armsProgram_valid
  refine ⟨m, hm, hr, hs, Value.code, Value.code_injective, 20, ?_⟩
  cases he : run m Value.code 20 with
  | ok m' =>
    rw [he] at hrun
    cases hrun
  | error fault =>
    rw [he] at hrun
    cases fault <;> first | rfl | cases hrun

end Mem2Reg

end Cminusf
