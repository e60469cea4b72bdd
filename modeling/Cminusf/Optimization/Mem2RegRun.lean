import Cminusf.Optimization.Promote

/-! The run of `Mem2Reg` over all functions of a module that the visitors have built. -/

namespace Cminusf

namespace Mem2Reg

open Renaming Builder Dominators

variable {m m' m1 : Module} {b c f g i j p fuel : Nat} {v w x : Value} {fs : Nat → Prop}
  {origin : Nat → Option Nat} {d : Dominators} {entry : Nat} {phis : Nat → List Nat}
  {keys : Value → Prop} {r : Renaming} {addr : Nat → Nat} {blocks gone : List Nat}
  {stack : VarValStack}

/-- `remove_alloca` on the module that a walk has produced. -/
theorem removeAlloca_spec (hm : ∀ b, ∀ i ∈ (m1.blocks b).instrList, (m1.instrs i).parent = b)
    {live : Value → Prop} (h : Represents live m1 r m') (blocks : List Nat) :
    ∃ gone, Represents live m1 { r with erased := gone } (removeAlloca blocks m') ∧
      ∀ b, ∀ i ∈ (m1.blocks b).instrList,
        i ∈ gone ↔ i ∈ r.erased ∨ b ∈ blocks ∧ isScalarAlloca m1 i := by
  induction blocks generalizing r m' with
  | nil => exact ⟨r.erased, h, by simp⟩
  | cons a blocks ih =>
    have hsc : ∀ i, isScalarAlloca m' i = isScalarAlloca m1 i := by
      intro i
      simp only [isScalarAlloca, h.opId, show (m'.instrs i).type = (m1.instrs i).type by rw [h.instrs i]]
    have hlist : (m'.blocks a).instrList = r.instrList m1 a := by rw [h.blocks a]
    have hpar : ∀ i ∈ (m'.blocks a).instrList.filter (isScalarAlloca m'), (m1.instrs i).parent = a := by
      intro i hi
      rw [hlist] at hi
      exact hm a i (List.mem_of_mem_filter (List.mem_of_mem_filter hi))
    obtain ⟨gone, h1, h2⟩ := ih (h.eraseInstrs hm _ hpar)
    refine ⟨gone, h1, fun b i hi => (h2 b i hi).trans ?_⟩
    have hpi := hm b i hi
    by_cases hr : i ∈ r.erased
    · simp [hr]
    · by_cases hba : b = a
      · subst hba
        simp [hlist, Renaming.instrList, hi, hr, hsc]
      · have hnot : i ∉ (m1.blocks a).instrList := fun hia => hba (hpi.symm.trans (hm a i hia))
        simp [hlist, Renaming.instrList, hnot, hr, hba]

/-- What is left of the layout after the walk and `remove_alloca`. -/
structure Finished (m1 : Module) (blocks : List Nat) (r : Renaming) (gone : List Nat) (m' : Module) :
    Prop where
  represents : Represents m1.Present m1 { r with erased := gone } m'
  gone_iff : ∀ b, ∀ i ∈ (m1.blocks b).instrList,
    i ∈ gone ↔ i ∈ r.erased ∨ b ∈ blocks ∧ isScalarAlloca m1 i

/-- What the pass has made of function `f`: the walk `r` over the layout `m1` describes it. -/
structure Promoted (m : Module) (d : Dominators) (f entry fuel : Nat) (m1 : Module)
    (phis : Nat → List Nat) (r : Renaming) (m' : Module) : Prop where
  laid : Laid m d f m1 phis
  order : r.order = Graph.preorder d.children fuel entry
  walked : ∃ keys, (∀ j, keys (.instruction j) → m.functionOf j ≠ f) ∧
    Walked m1 d.idom (Graph.Reaches (Succ m) entry) entry keys r
  shaped : Shaped m1 r
  erased : ∀ b ∈ r.order, ∀ i ∈ (m1.blocks b).instrList, i ∈ r.erased ↔ Erasable m1 r i
  kept : ∀ b, b ∉ r.order → ∀ i ∈ (m1.blocks b).instrList, i ∉ r.erased
  vals : ∀ b ∈ r.order, ∀ is js, (m1.blocks b).instrList = is ++ js → ∀ v,
    ∀ j, .instruction j ∈ valsAfter m1 r b is v → j < m1.numInstrs ∧ m1.functionOf j = f
  blocks : ∀ b ∈ (m.functions f).basicBlocks, m'.blocks b = { m.blocks b with
    instrList := (m1.blocks b).instrList.filter fun i => i ∉ r.erased ∧ ¬ isScalarAlloca m1 i }
  instrs : ∀ b ∈ (m.functions f).basicBlocks, ∀ i ∈ (m'.blocks b).instrList,
    m'.instrs i = { m1.instrs i with operands := r.operands m1 i }

/-- The state between two functions. -/
structure Idle (m : Module) (fs : Nat → Prop) (s : Mem2Reg) : Prop where
  between : Between m fs s.module
  stack : ∀ v, (s.varValStack v).getD [] = []
  keys : ∀ v, (s.varValStack v).isSome → ∃ j, v = .instruction j ∧ fs (m.functionOf j)

theorem Finished.mem (h : Finished m1 blocks r gone m') :
    i ∈ (m'.blocks b).instrList ↔ i ∈ (m1.blocks b).instrList ∧ i ∉ gone := by
  rw [h.represents.blocks b]
  simp [Renaming.instrList]

theorem Finished.instrs (h : Finished m1 blocks r gone m') (hb : Between m fs m1)
    (hi : i ∈ (m'.blocks b).instrList) :
    m'.instrs i = { m1.instrs i with operands := r.operands m1 i } := by
  obtain ⟨hi, hg⟩ := h.mem.mp hi
  have hlive : ({ r with erased := gone } : Renaming).Live m1.Present (.instruction i) := by
    refine ⟨Module.present_instruction.mpr ((hb.mem b i hi).2.symm ▸ hi), fun j hj he => ?_⟩
    cases he
    exact hg hj
  rw [h.represents.instrs i, h.represents.operands i hlive]
  rfl

theorem Between.functionOf_iff (h : Between m fs m') (hm : Inv m origin) (hf : f < m.numFunctions)
    (hi : i ∈ (m'.blocks b).instrList) : m'.functionOf i = f ↔ b ∈ (m.functions f).basicBlocks := by
  have hlt : b < m.numBlocks := by
    by_contra hge
    rw [h.restBlocks b (.inr (Nat.le_of_not_lt hge)), hm.fresh_block b (Nat.le_of_not_lt hge)] at hi
    cases hi
  rw [Module.functionOf, (h.mem b i hi).2, h.blocks, hm.mem_blocks hf]
  simp [hlt]

section

variable (hm : Inv m origin) (hf : f < m.numFunctions)
  (hh : (m.functions f).basicBlocks.head? = some entry)
  (hd : IsAnalysed m addr (m.functions f).basicBlocks entry d) (hl : Laid m d f m1 phis)
  (hb : Between m (fun g => fs g ∨ g = f) m1)
  (hw : Walked m1 d.idom (Graph.Reaches (Succ m) entry) entry keys r) (hs : Shaped m1 r)
include hm hf hh hb hw

theorem Walked.functionOf (hbo : b ∈ r.order) (hi : i ∈ (m1.blocks b).instrList) :
    i < m1.numInstrs ∧ m1.functionOf i = f := by
  obtain ⟨h1, h2⟩ := hb.mem b i hi
  have hbf := (hm.functionCfg hf hh).reaches_mem (hw.above b hbo).1
  refine ⟨h1, ?_⟩
  rw [Module.functionOf, h2, hb.blocks b]
  exact ((hm.mem_blocks hf).mp hbf).2

include hd hl hs

/-- The values of the variables of a function are computed in it. -/
theorem Walked.functionOf_vals (hbo : b ∈ r.order) {is js : List Nat}
    (hlist : (m1.blocks b).instrList = is ++ js) (hj : .instruction j ∈ valsAfter m1 r b is v) :
    j < m1.numInstrs ∧ m1.functionOf j = f := by
  have key : ∀ b ∈ r.order, ∀ is js, (m1.blocks b).instrList = is ++ js → ∀ v,
      ∀ x ∈ valsAfter m1 r b is v, ∀ j, x = .instruction j →
        j < m1.numInstrs ∧ m1.functionOf j = f := by
    refine Renaming.Walked.vals_rec (hl.arranged hm hf hh hd) hs hd.idoms.root hw
      (P := fun _ _ _ x => ∀ j, x = .instruction j → j < m1.numInstrs ∧ m1.functionOf j = f)
      ?_ ?_ ?_ ?_ ?_
    · intro b hbo p hp _ _ j hj
      cases hj
      exact Walked.functionOf hm hf hh hb hw hbo hp
    · intro b hbo is i js hlist v w _ hop _ j hj
      have hi : i ∈ (m1.blocks b).instrList := by rw [hlist]; simp
      have hp := (hb.mem b i hi).2
      rw [hj] at hop
      obtain ⟨h1, h2⟩ := hb.within i (Module.present_instruction.mpr (hp.symm ▸ hi)) j
        (List.mem_of_getElem? hop)
      exact ⟨h1, h2.trans (Walked.functionOf hm hf hh hb hw hbo hi).2⟩
    · exact fun _ _ _ _ _ _ _ _ _ _ _ _ _ _ _ _ _ _ _ hx => hx
    · exact fun _ _ _ _ _ _ _ _ hx => hx
    · exact fun _ _ _ _ _ _ _ _ hx => hx
  exact key b hbo is js hlist v _ hj j rfl

theorem Walked.functionOf_operands (hi : m1.Present (.instruction i))
    (hj : .instruction j ∈ r.operands m1 i) :
    j < m1.numInstrs ∧ m1.functionOf j = m1.functionOf i := by
  have hcfg := hm.functionCfg hf hh
  rcases List.mem_append.mp hj with hj | hj
  · obtain ⟨u, hu, hsub⟩ := List.mem_map.mp hj
    by_cases hne : r.sub u = u
    · rw [hne] at hsub
      subst hsub
      exact hb.within i hi j hu
    · -- the operand was a load of the function, and so is its user
      obtain ⟨k, rfl, hk, hko⟩ := hw.sub_ne hs hne
      have hpk := hcfg.reaches_mem (hw.above _ hko).1
      have hif : m1.functionOf i = f := by
        rw [← (hb.within i hi k hu).2, Module.functionOf, hb.blocks]
        exact ((hm.mem_blocks hf).mp hpk).2
      have hpi := (hb.functionOf_iff hm hf (Module.present_instruction.mp hi)).mp hif
      have hkm : k ∈ (m1.blocks (m1.instrs k).parent).instrList := by
        rcases (hl.mem_instrList hpi).mp (Module.present_instruction.mp hi) with hip | hip
        · obtain ⟨v, -, hv, -⟩ := hl.phiVar_phi hip
          rw [hv] at hu
          cases hu
        · obtain ⟨hin, hins, hp, hfi⟩ := hl.old hm hf hpi hip
          rw [hins] at hu
          obtain ⟨hki, -, hkp⟩ := hm.operand_parent hin hu
          rw [hl.instrs k (hki.trans hin) (hkp.trans hfi)] at hpk ⊢
          exact (hl.mem_instrList hpk).mpr (.inr (hm.instr_parent k (hki.trans hin)).2)
      obtain ⟨is, js, hlist⟩ := List.append_of_mem hkm
      obtain ⟨v, hv⟩ := Option.isSome_iff_exists.mp hk
      have hval := (hw.loads _ hko).mem_vals hlist hv hne
      rw [hsub] at hval
      rw [hif]
      exact Walked.functionOf_vals hm hf hh hd hl hb hw hs hko hlist hval
  · obtain ⟨pair, hp, hj⟩ := List.mem_flatMap.mp hj
    obtain ⟨ho, s, hsucc, hi, v, -, hval⟩ := hw.incoming i pair hp
    have hpair : .instruction j = pair.1 := by simpa using hj
    have hmem := List.mem_of_mem_head? hval
    rw [← hpair] at hmem
    have hr := (hw.above _ ho).1
    rw [hl.blocks _ (hcfg.reaches_mem hr)] at hsucc
    rw [(hb.functionOf_iff hm hf hi).mpr (hcfg.reaches_mem (hr.tail hsucc))]
    exact Walked.functionOf_vals hm hf hh hd hl hb hw hs ho (List.append_nil _).symm hmem

omit hd in
/-- The part of the module outside the function is not touched. -/
theorem Walked.operands_of_ne (hi : m1.Present (.instruction i)) (hne : m1.functionOf i ≠ f) :
    r.operands m1 i = (m1.instrs i).operands := by
  have hsub : (m1.instrs i).operands.map r.sub = (m1.instrs i).operands := by
    refine (List.map_congr_left fun v hv => ?_).trans (List.map_id _)
    by_contra hsub
    obtain ⟨j, rfl, hj, hjo⟩ := hw.sub_ne hs hsub
    have hjm : j < m1.numInstrs ∧ m1.functionOf j = m1.functionOf i := hb.within i hi j hv
    have hbf := (hm.functionCfg hf hh).reaches_mem (hw.above _ hjo).1
    refine hne ?_
    rw [← hjm.2, Module.functionOf, hb.blocks]
    exact ((hm.mem_blocks hf).mp hbf).2
  have hinc : r.incoming i = [] := by
    rw [List.eq_nil_iff_forall_not_mem]
    intro pair hp
    obtain ⟨ho, s, hsucc, hi, -⟩ := hw.incoming i pair hp
    have hcfg := hm.functionCfg hf hh
    have hr := (hw.above _ ho).1
    rw [hl.blocks _ (hcfg.reaches_mem hr)] at hsucc
    obtain ⟨-, hp⟩ := hb.mem s i hi
    refine hne ?_
    rw [Module.functionOf, hp, hb.blocks]
    exact ((hm.mem_blocks hf).mp (hcfg.reaches_mem (hr.tail hsucc))).2
  rw [Renaming.operands, hsub, hinc]
  exact List.append_nil _

omit hd hl hs in
theorem Finished.not_gone (h : Finished m1 (m.functions f).basicBlocks r gone m')
    (hi : i ∈ (m1.blocks b).instrList) (hne : b ∉ (m.functions f).basicBlocks) : i ∉ gone := by
  intro hg
  rcases (h.gone_iff b i hi).mp hg with hr | ⟨hbf, -⟩
  · have ho := (hw.erased i hr).1
    rw [(hb.mem b i hi).2] at ho
    exact hne ((hm.functionCfg hf hh).reaches_mem (hw.above b ho).1)
  · exact hne hbf

omit hd in
theorem Finished.apart (h : Finished m1 (m.functions f).basicBlocks r gone m') :
    Apart m f m1 m' where
  blocks b hbn hne := by
    have hbf : b ∉ (m.functions f).basicBlocks := fun hbf => hne ((hm.mem_blocks hf).mp hbf).2
    have hfilter : ({ r with erased := gone } : Renaming).instrList m1 b = (m1.blocks b).instrList := by
      refine List.filter_eq_self.mpr fun i hi => ?_
      simpa using Finished.not_gone hm hf hh hb hw h hi hbf
    rw [h.represents.blocks b, hfilter]
  instrs i hi hne := by
    have hp := Module.present_instruction.mp hi
    have hbf : (m1.instrs i).parent ∉ (m.functions f).basicBlocks := by
      intro hbf
      refine hne ?_
      rw [Module.functionOf, hb.blocks]
      exact ((hm.mem_blocks hf).mp hbf).2
    have hmem := h.mem.mpr ⟨hp, Finished.not_gone hm hf hh hb hw h hp hbf⟩
    rw [h.instrs hb hmem, Walked.operands_of_ne hm hf hh hl hb hw hs hi hne]

/-- The module between two functions, after the function. -/
theorem Finished.between (h : Finished m1 (m.functions f).basicBlocks r gone m') :
    Between m (fun g => fs g ∨ g = f) m' := by
  have hap := Finished.apart hm hf hh hl hb hw hs h
  have hrep := h.represents
  have hblocks : ∀ b, m'.blocks b = { m1.blocks b with instrList := (m'.blocks b).instrList } := by
    intro b
    rw [hrep.blocks b]
  have hold : ∀ i < m.numInstrs, ¬ (fs (m.functionOf i) ∨ m.functionOf i = f) →
      m1.Present (.instruction i) ∧ m1.functionOf i ≠ f := by
    intro i hi hfi
    have hins := hb.restInstrs i hi hfi
    have hbl := hb.restBlocks (m.instrs i).parent (.inl hfi)
    refine ⟨Module.present_instruction.mpr ?_, fun he => hfi (.inr ?_)⟩
    · rw [hins, hbl]
      exact (hm.instr_parent i hi).2
    · rw [← he, Module.functionOf, Module.functionOf, hins, hbl]
  have hfn : ∀ i, m'.functionOf i = m1.functionOf i := by
    intro i
    rw [Module.functionOf, Module.functionOf, hrep.instrs i, hrep.blocks]
  refine ⟨hrep.functions.trans hb.functions, hrep.numFunctions.trans hb.numFunctions, funext fun g => ?_,
    hrep.numGlobals.trans hb.numGlobals, hrep.numBlocks.trans hb.numBlocks,
    hb.numInstrs.trans_eq hrep.numInstrs.symm, fun b => ?_, fun b hbn => ?_, fun i hi => ?_,
    fun i hi hfi => ?_, fun b i hi => ?_, ?_, fun b i hi => ?_, fun i hi j hj => ?_⟩
  · have hops : (m.globals g).operands.map r.sub = (m.globals g).operands := by
      refine (List.map_congr_left fun v hv => ?_).trans (List.map_id _)
      by_contra hsub
      obtain ⟨j, rfl, -⟩ := hs.sub_load v hsub
      cases hm.global_init g _ hv
    have hglob := hrep.globalOperands g (fun _ hi => by cases hi)
    rw [hrep.globals g, hglob, Module.operands, hb.globals]
    change { m.globals g with operands := (m.globals g).operands.map r.sub } = _
    rw [hops]
  · rw [hblocks b, hb.blocks b]
  · by_cases hlt : b < m.numBlocks
    · have hfb := hbn.resolve_right (Nat.not_le.mpr hlt)
      rw [hap.blocks b hlt fun he => hfb (.inr he)]
      exact hb.restBlocks b hbn
    · have hnil : (m1.blocks b).instrList = [] := by
        rw [hb.restBlocks b (.inr (Nat.le_of_not_lt hlt))]
        exact hm.fresh_block b (Nat.le_of_not_lt hlt)
      rw [hrep.blocks b, Renaming.instrList, hnil]
      rw [← hb.restBlocks b (.inr (Nat.le_of_not_lt hlt)), List.filter_nil, ← hnil]
  · rw [hrep.instrs i, hb.instrs i hi]
  · obtain ⟨h1, h2⟩ := hold i hi hfi
    rw [hap.instrs i h1 h2]
    exact hb.restInstrs i hi hfi
  · obtain ⟨h1, h2⟩ := hb.mem b i (h.mem.mp hi).1
    exact ⟨h1.trans_eq hrep.numInstrs.symm, by rw [hrep.instrs i]; exact h2⟩
  · refine hrep.uses.congr fun w _ => ?_
    cases w with
    | instruction i =>
      rw [Renaming.Live, Module.present_instruction, Module.present_instruction, h.mem, hrep.instrs i]
      refine and_congr_right fun _ => ⟨fun hg hi => hg i hi rfl, fun hg j hj he => ?_⟩
      cases he
      exact hg hj
    | _ => simp [Renaming.Live, Module.Present]
  · intro v j hv hj hld
    have hi' := (h.mem.mp hi).1
    have hload : ∀ j, (m'.instrs j).isLoad = (m1.instrs j).isLoad := by
      intro j
      rw [hrep.instrs j]
      rfl
    have hnphi : ¬ (m1.instrs i).isPhi := by
      intro hphi
      rw [h.instrs hb hi] at hv
      revert hphi hv
      simp only [Instruction.isLoad, Instruction.isStore, Instruction.isPhi]
      cases (m1.instrs i).opId <;> simp
    have hinc : r.incoming i = [] := by
      by_contra hne
      exact hnphi (hs.incoming_phi i hne)
    have hops : ∀ n, (m'.instrs i).getOperand n = ((m1.instrs i).getOperand n).map r.sub := by
      intro n
      rw [h.instrs hb hi]
      simp [Instruction.getOperand, Renaming.operands, hinc, pairOperands]
    have hstore : (m'.instrs i).isStore = (m1.instrs i).isStore := by
      rw [hrep.instrs i]
      rfl
    rw [hload, hstore, hops, hops, hj] at hv
    have hu : ∃ u, ((m1.instrs i).isLoad ∧ (m1.instrs i).getOperand 0 = some u ∨
        (m1.instrs i).isStore ∧ (m1.instrs i).getOperand 1 = some u) ∧ r.sub u = .instruction j := by
      rcases hv with ⟨h1, h2⟩ | ⟨h1, h2⟩
      · obtain ⟨u, hu, hsub⟩ := Option.map_eq_some_iff.mp h2
        exact ⟨u, .inl ⟨h1, hu⟩, hsub⟩
      · obtain ⟨u, hu, hsub⟩ := Option.map_eq_some_iff.mp h2
        exact ⟨u, .inr ⟨h1, hu⟩, hsub⟩
    obtain ⟨u, hu, hsub⟩ := hu
    have hdir := hb.direct b i hi'
    rw [hs.sub_eq fun k hk => hdir u k hu hk] at hsub
    rw [hload] at hld
    exact hdir u j hu hsub hld
  · rw [hrep.numInstrs, hfn, hfn]
    have hmem := Module.present_instruction.mp hi
    have hi1 : m1.Present (.instruction i) := by
      have := (h.mem.mp hmem).1
      rw [hrep.instrs i] at this
      exact Module.present_instruction.mpr this
    rw [h.instrs hb hmem] at hj
    exact Walked.functionOf_operands hm hf hh hd hl hb hw hs hi1 hj

theorem Finished.promoted (h : Finished m1 (m.functions f).basicBlocks r gone m')
    (hkeys : ∀ j, keys (.instruction j) → m.functionOf j ≠ f)
    (hspan : Spans m1 d.idom (Graph.Reaches (Succ m) entry) entry keys
      (Graph.preorder d.children fuel entry) (initial stack) r) :
    Promoted m d f entry fuel m1 phis r m' where
  laid := hl
  order := hspan.order
  walked := ⟨keys, hkeys, hw⟩
  shaped := hs
  erased b hbo := hspan.erased b (by rwa [hspan.order] at hbo)
  kept b hbo i hi he := by
    rw [hspan.kept i] at he
    · cases he
    · rw [(hb.mem b i hi).2]
      rwa [hspan.order] at hbo
  vals b hbo is js hlist v j hj := Walked.functionOf_vals hm hf hh hd hl hb hw hs hbo hlist hj
  blocks b hbf := by
    have hlist : ({ r with erased := gone } : Renaming).instrList m1 b =
        (m1.blocks b).instrList.filter fun i => i ∉ r.erased ∧ ¬ isScalarAlloca m1 i := by
      refine List.filter_congr fun i hi => ?_
      simp [h.gone_iff b i hi, hbf]
    rw [h.represents.blocks b, hlist, hl.blocks b hbf]
  instrs b _ i hi := h.instrs hb hi

end

section

variable {s s' : Mem2Reg}

/-- The cause of a fault in function `f`. -/
def Faulty (m : Module) (d : Dominators) (f entry fuel : Nat) (fault : Fault) : Prop :=
  ∃ m1 phis, Laid m d f m1 phis ∧
    Blame m1 d.idom (fun _ => False) (Graph.preorder d.children fuel entry) fault

/-- A variable that a phi of the function joins is one of its allocations. -/
theorem Laid.phiVar_local (hl : Laid m d f m1 phis) (hm : Inv m origin) (hf : f < m.numFunctions)
    (hb : b ∈ (m.functions f).basicBlocks) (hp : p ∈ (m1.blocks b).instrList)
    (hv : Mem2Reg.phiVar m1 p = some v) : ∃ j, v = .instruction j ∧ m.functionOf j = f := by
  rcases (hl.mem_instrList hb).mp hp with hp | hp
  · obtain ⟨u, hu, -, hph⟩ := hl.phiVar_phi hp
    rw [hv] at hu
    cases hu
    obtain ⟨c, hc⟩ := hph.exists_init
    obtain ⟨j, rfl, -, -, hj⟩ := hc.alloca hm hf
    exact ⟨j, rfl, hj⟩
  · rw [hl.phiVar_old hm hf hb hp] at hv
    cases hv

/-- A local variable that the function loads is one of its allocations. -/
theorem Laid.loadedVar_local (hl : Laid m d f m1 phis) (hm : Inv m origin) (hf : f < m.numFunctions)
    (hb : b ∈ (m.functions f).basicBlocks) (hi : i ∈ (m1.blocks b).instrList)
    (hv : Mem2Reg.loadedVar m1 i = some v) : ∃ j, v = .instruction j ∧ m.functionOf j = f := by
  have hold : i ∈ (m.blocks b).instrList := by
    refine ((hl.mem_instrList hb).mp hi).resolve_left fun hip => ?_
    rw [(hl.phi_not_old hip).2] at hv
    cases hv
  obtain ⟨hin, -, hp, -⟩ := hl.old hm hf hb hold
  rw [hl.loadedVar hm hf hb hold] at hv
  obtain ⟨j, rfl, -, -, hanc⟩ := hm.loadedVar hin hv
  rw [hp] at hanc
  obtain ⟨hlt, hbf⟩ := (hm.mem_blocks hf).mp hb
  exact ⟨j, rfl, (hm.ancestor_lt hanc hlt).2.2.trans hbf⟩

/-- The keys of the functions before play no part in a fault. -/
theorem Laid.faulty (hl : Laid m d f m1 phis) (hm : Inv m origin) (hf : f < m.numFunctions)
    (hh : (m.functions f).basicBlocks.head? = some entry)
    (hd : IsAnalysed m addr (m.functions f).basicBlocks entry d)
    (hkeys : ∀ v, keys v → ∃ j, v = .instruction j ∧ m.functionOf j ≠ f) {fault : Fault}
    (h : Blame m1 d.idom keys (Graph.preorder d.children fuel entry) fault) :
    Faulty m d f entry fuel fault := by
  obtain ⟨pre, b, post, v, hord, hdef, hno, hcause⟩ := h
  refine ⟨m1, phis, hl, pre, b, post, v, hord, ?_, hno, hcause⟩
  have hcfg := hm.functionCfg hf hh
  have hb : Graph.Reaches (Succ m) entry b := by
    refine ((hd.hasTree.isTree hcfg).of_mem_preorder (n := fuel) (x := entry) (.refl) ?_).2
    rw [hord]
    simp
  have hbf := hcfg.reaches_mem hb
  have hv : ∃ j, v = .instruction j ∧ m.functionOf j = f := by
    rcases hcause with ⟨-, -, s, hs, p, hp, hpv⟩ | ⟨-, -, is, i, js, hlist, hload, -⟩
    · rw [hl.blocks b hbf] at hs
      exact hl.phiVar_local hm hf (hcfg.reaches_mem (hb.tail hs)) hp hpv
    · exact hl.loadedVar_local hm hf hbf (by rw [hlist]; simp) hload
  refine .inr (hdef.resolve_left fun hk => ?_)
  obtain ⟨j, rfl, hj⟩ := hv
  obtain ⟨j', hj', hne⟩ := hkeys _ hk
  cases hj'
  exact hne hj

/-- `generate_phi` has made `m1` of the module of `s`. -/
structure Prepared (m : Module) (d : Dominators) (f : Nat) (fs : Nat → Prop) (s : Mem2Reg)
    (m1 : Module) (phis : Nat → List Nat) : Prop where
  between : Between m (fun g => fs g ∨ g = f) m1
  laid : Laid m d f m1 phis
  apart : Apart m f s.module m1
  blocks : ∀ b, m1.blocks b =
    { s.module.blocks b with instrList := phis b ++ (s.module.blocks b).instrList }

theorem Idle.generatePhi_spec {addr : Value → Nat} {addr' : Nat → Nat} (hs : Idle m fs s)
    (hm : Inv m origin) (haddr : Function.Injective addr) (hf : f < m.numFunctions)
    (hd : IsAnalysed m addr' (m.functions f).basicBlocks entry d) (hfs : ¬ fs f) (fuel : Nat) :
    Exec.Meets (fun m1 => ∃ phis, Prepared m d f fs s m1 phis)
      (fun fault => fault = .outOfFuel ∧ fuel < 2 * (m.functions f).basicBlocks.length)
      (generatePhi addr d fuel (m.functions f).basicBlocks s.module) := by
  refine (Mem2Reg.generatePhi_spec haddr (fun x hx y hy => hd.frontier_mem hx hy) fuel).mono ?_
    fun _ h => h
  rintro m1 ⟨ps, phis, rfl, hps, hhas⟩
  have hhas' : ∀ b v, (b, v) ∈ ps.bbHasVarPhi ↔
      PhiBlock d (Stores m (m.functions f).basicBlocks v) b := by
    intro b v
    rw [hhas b v, show Stores s.module (m.functions f).basicBlocks v =
      Stores m (m.functions f).basicBlocks v from
        funext fun c => propext (hs.between.stores hm hf hfs)]
  exact ⟨phis, hs.between.places hm hf hd hps hhas', hs.between.laid hm hf hfs hd hps hhas',
    hs.between.places_apart hm hf hd hps hhas', hps.blocks⟩

/-- The variables that have a vector belong to the functions before. -/
theorem Idle.keys_ne (hs : Idle m fs s) (hfs : ¬ fs f) (hv : (s.varValStack v).isSome) :
    ∃ j, v = .instruction j ∧ m.functionOf j ≠ f := by
  obtain ⟨j, rfl, hj⟩ := hs.keys v hv
  exact ⟨j, rfl, fun he => hfs (he ▸ hj)⟩

/-- The walk starts at the entry of the function. -/
theorem Idle.enters (hs : Idle m fs s)
    (hd : IsAnalysed m addr (m.functions f).basicBlocks entry d) :
    Enters m1 d.idom (Graph.Reaches (Succ m) entry) entry entry (initial s.varValStack) := by
  refine ⟨.refl, by simp [initial], fun a hae hne => ?_, .inl ⟨rfl, hs.stack⟩⟩
  exact absurd (hae.eq_of_fixed hd.idoms.root) hne

theorem runOnFunction_spec {addr : Value → Nat} {addr' : Nat → Nat} (hm : Inv m origin)
    (haddr : Function.Injective addr) (hf : f < m.numFunctions)
    (hh : (m.functions f).basicBlocks.head? = some entry)
    (hd : IsAnalysed m addr' (m.functions f).basicBlocks entry d)
    (hs : Idle m fs s) (hfs : ¬ fs f) (fuel : Nat) :
    Exec.Meets (fun s' => Idle m (fun g => fs g ∨ g = f) s' ∧ Apart m f s.module s'.module ∧
        ∃ m1 phis r, Promoted m d f entry fuel m1 phis r s'.module)
      (fun fault => fault = .outOfFuel ∧ fuel ≤ 2 * (m.functions f).basicBlocks.length ∨
        Faulty m d f entry fuel fault)
      (runOnFunction addr d fuel s f) := by
  have hcfg := hm.functionCfg hf hh
  have hblocks : (s.module.functions f).basicBlocks = (m.functions f).basicBlocks := by
    rw [hs.between.functions]
  have hrun : runOnFunction addr d fuel s f = (do
      let m' ← generatePhi addr d fuel (m.functions f).basicBlocks s.module
      let s ← reName d fuel entry { s with module := m' }
      return { s with module := removeAlloca (m.functions f).basicBlocks s.module }) := by
    rw [runOnFunction, hblocks]
    cases hlist : (m.functions f).basicBlocks with
    | nil => simp [hlist] at hh
    | cons a blocks =>
      rw [hlist] at hh
      cases hh
      rfl
  rw [hrun]
  refine ((hs.generatePhi_spec hm haddr hf hd hfs fuel).mono
    (fun _ h => h) fun fault hfl => .inl ⟨hfl.1, by omega⟩).bind ?_
  rintro m1 ⟨phis, hprep⟩
  have hb := hprep.between
  have hl := hprep.laid
  have ha := hl.arranged hm hf hh hd
  have hkeys : ∀ v, (s.varValStack v).isSome → ∃ j, v = .instruction j ∧ m.functionOf j ≠ f :=
    fun v hv => hs.keys_ne hfs hv
  obtain ⟨rank, hrank, hle⟩ := hd.hasTree.exists_rank hcfg
  have hwalk := walk_spec ha (hd.hasTree.isTree hcfg) hd.idoms.root hrank fuel entry
    (initial s.varValStack) (walked_initial (fun _ => Iff.rfl) hs.stack) (hs.enters hd)
    (by simp [initial])
  have hren := reName_simulates hb.walkable d fuel entry _ _ (hb.simulates s.varValStack)
  refine ((hren.meets hwalk).mono (fun _ h => h) fun fault hfl => ?_).bind ?_
  · rcases hfl with ⟨hfl, hfuel⟩ | hfl
    · have := hle entry
      exact .inl ⟨hfl, by omega⟩
    · exact .inr (hl.faulty hm hf hh hd hkeys (by simpa [initial] using hfl.blame))
  rintro s2 ⟨r, hsim, hspan⟩
  obtain ⟨gone, hrep, hgone⟩ := removeAlloca_spec hl.parent hsim.represents
    (m.functions f).basicBlocks
  have hw := hspan.walked
  have hfin : Finished m1 (m.functions f).basicBlocks r gone
      (removeAlloca (m.functions f).basicBlocks s2.module) := ⟨hrep, hgone⟩
  refine .pure ⟨⟨Finished.between hm hf hh hd hl hb hw hsim.shaped hfin, fun v => ?_, fun v hv => ?_⟩,
    ?_, m1, phis, r, Finished.promoted hm hf hh hd hl hb hw hsim.shaped hfin (fun j hj => ?_)
      hspan⟩
  · rw [hsim.stack, hspan.stack v]
    exact hs.stack v
  · rw [hsim.stack] at hv
    rcases (hw.stackKeys v).mp hv with hv | ⟨c, hc, hdef⟩
    · obtain ⟨j, hj, hjf⟩ := hs.keys v hv
      exact ⟨j, hj, .inl hjf⟩
    · have hcf := hcfg.reaches_mem (hw.above c hc).1
      have hst : ∃ c, Stores m (m.functions f).basicBlocks v c := by
        rcases (hl.def_iff hm hf hcf).mp hdef with hst | hph
        · exact ⟨c, hst⟩
        · exact hph.exists_init
      obtain ⟨c, hst⟩ := hst
      obtain ⟨j, rfl, -, -, hj⟩ := hst.alloca hm hf
      exact ⟨j, rfl, .inr hj⟩
  · have hap := Finished.apart hm hf hh hl hb hw hsim.shaped hfin
    have hap' := hprep.apart
    refine ⟨fun b hlt hne => (hap.blocks b hlt hne).trans (hap'.blocks b hlt hne), fun i hi hne => ?_⟩
    have hp := Module.present_instruction.mp hi
    have hins := hap'.instrs i hi hne
    have hbl := hprep.blocks (s.module.instrs i).parent
    rw [hap.instrs i (Module.present_instruction.mpr ?_) ?_, hins]
    · rw [hins, hbl]
      exact List.mem_append_right _ hp
    · rw [Module.functionOf, hins, hbl]
      exact hne
  · obtain ⟨j', hj', hne⟩ := hkeys _ hj
    cases hj'
    exact hne

/-- With enough fuel the walk comes past every reachable block. -/
theorem Promoted.mem_order (hp : Promoted m d f entry fuel m1 phis r m') (hm : Inv m origin)
    (hf : f < m.numFunctions) (hh : (m.functions f).basicBlocks.head? = some entry)
    (hd : IsAnalysed m addr (m.functions f).basicBlocks entry d)
    (hfuel : (m.functions f).basicBlocks.length < fuel) :
    b ∈ r.order ↔ Graph.Reaches (Succ m) entry b := by
  rw [hp.order]
  exact hd.hasTree.mem_preorder (hm.functionCfg hf hh) (by omega)

theorem Between.succ (h : Between m fs m') : Succ m' = Succ m := by
  funext a c
  rw [Succ, Succ, h.blocks a]

theorem Between.mono {fs' : Nat → Prop} (h : Between m fs m') (hfs : ∀ g, fs g → fs' g) :
    Between m fs' m' :=
  { h with
    restBlocks := fun b hb => h.restBlocks b (hb.imp_left fun hb hg => hb (hfs _ hg))
    restInstrs := fun i hi hfi => h.restInstrs i hi fun hg => hfi (hfs _ hg) }

theorem Idle.mono {fs' : Nat → Prop} (h : Idle m fs s) (hfs : ∀ g, fs g → fs' g) : Idle m fs' s where
  between := h.between.mono hfs
  stack := h.stack
  keys v hv := (h.keys v hv).imp fun _ hj => ⟨hj.1, hfs _ hj.2⟩

/-- A function that has been rewritten stays as it is. -/
theorem Promoted.apart {m'' : Module} (h : Promoted m d g entry fuel m1 phis r m') (hm : Inv m origin)
    (hg : g < m.numFunctions) (hb : Between m fs m') (hap : Apart m f m' m'') (hne : g ≠ f) :
    Promoted m d g entry fuel m1 phis r m'' := by
  have hblock : ∀ b ∈ (m.functions g).basicBlocks, m''.blocks b = m'.blocks b := by
    intro b hbg
    obtain ⟨hlt, hp⟩ := (hm.mem_blocks hg).mp hbg
    exact hap.blocks b hlt (by rwa [hp])
  refine { h with blocks := fun b hbg => ?_, instrs := fun b hbg i hi => ?_ }
  · rw [hblock b hbg]
    exact h.blocks b hbg
  · rw [hblock b hbg] at hi
    have hpi : m'.Present (.instruction i) :=
      Module.present_instruction.mpr ((hb.mem b i hi).2.symm ▸ hi)
    rw [hap.instrs i hpi]
    · exact h.instrs b hbg i hi
    · rwa [(hb.functionOf_iff hm hg hi).mpr hbg]

/-- The module that the pass returns. -/
structure Rewritten (m : Module) (d : Dominators) (fuel : Nat) (m' : Module) : Prop where
  between : Between m (· < m.numFunctions) m'
  promoted : ∀ f < m.numFunctions, ∀ entry, (m.functions f).basicBlocks.head? = some entry →
    ∃ m1 phis r, Promoted m d f entry fuel m1 phis r m'

/-- The loop of `run` over the first `k` functions. -/
theorem runFold_spec {addr : Value → Nat} {addr' : Nat → Nat} (hm : Inv m origin)
    (haddr : Function.Injective addr) (hd : Analysed m addr' (List.range m.numFunctions) d)
    (fuel : Nat) {k : Nat} (hk : k ≤ m.numFunctions) :
    Exec.Meets (fun s => Idle m (· < k) s ∧ ∀ f < k, ∀ entry,
        (m.functions f).basicBlocks.head? = some entry →
          ∃ m1 phis r, Promoted m d f entry fuel m1 phis r s.module)
      (fun fault => ∃ f < m.numFunctions,
        fault = .outOfFuel ∧ fuel ≤ 2 * (m.functions f).basicBlocks.length ∨
          ∃ entry, (m.functions f).basicBlocks.head? = some entry ∧ Faulty m d f entry fuel fault)
      ((List.range k).foldlM (runOnFunction addr d fuel) ⟨m, fun _ => none⟩) := by
  refine (Exec.Meets.foldlM (I := fun done s => Idle m (· ∈ done) s ∧ ∀ g ∈ done, ∀ entry,
    (m.functions g).basicBlocks.head? = some entry →
      ∃ m1 phis r, Promoted m d g entry fuel m1 phis r s.module) ?_ ?_).mono ?_ fun _ h => h
  · intro done f rest s hrange ⟨hs, hdone⟩
    have hfk : f < k := List.mem_range.mp (by rw [hrange]; simp)
    have hlt : f < m.numFunctions := by omega
    have hnd : (done ++ f :: rest).Nodup := hrange ▸ List.nodup_range
    have hfs : f ∉ done := by
      intro hmem
      exact (List.nodup_append.mp hnd).2.2 f hmem f List.mem_cons_self rfl
    have hg : ∀ g ∈ done, g < m.numFunctions := by
      intro g hg
      have : g < k := List.mem_range.mp (by rw [hrange]; simp [hg])
      omega
    cases hh : (m.functions f).basicBlocks.head? with
    | none =>
      have hrun : runOnFunction addr d fuel s f = .ok s := by
        rw [runOnFunction, hs.between.functions, List.head?_eq_none_iff.mp hh]
        rfl
      rw [hrun]
      refine .ok ⟨hs.mono fun g hg => List.mem_append_left _ hg, fun g hgm entry he => ?_⟩
      rcases List.mem_append.mp hgm with hgm | hgm
      · exact hdone g hgm entry he
      · rw [List.mem_singleton.mp hgm, hh] at he
        cases he
    | some entry =>
      refine (runOnFunction_spec hm haddr hlt hh (hd f (List.mem_range.mpr hlt) entry hh) hs hfs
        fuel).mono (fun s' hs' => ?_) fun fault hfl =>
          ⟨f, hlt, hfl.imp_right fun hfl => ⟨entry, hh, hfl⟩⟩
      obtain ⟨hidle, hap, hprom⟩ := hs'
      refine ⟨hidle.mono fun g hg => ?_, fun g hgm entry' he => ?_⟩
      · rcases hg with hg | rfl
        · exact List.mem_append_left _ hg
        · simp
      · rcases List.mem_append.mp hgm with hgd | hgm
        · obtain ⟨m1, phis, r, hp⟩ := hdone g hgd entry' he
          refine ⟨m1, phis, r, hp.apart hm (hg g hgd) hs.between hap ?_⟩
          rintro rfl
          exact hfs hgd
        · rw [List.mem_singleton.mp hgm, hh] at he
          cases he
          rw [List.mem_singleton.mp hgm]
          exact hprom
  · refine ⟨⟨(initial_between hm).mono fun _ h => h.elim, fun _ => rfl, fun v hv => ?_⟩, by simp⟩
    cases hv
  · intro s ⟨hs, hprom⟩
    exact ⟨hs.mono fun g hg => List.mem_range.mp hg,
      fun f hf entry hh => hprom f (List.mem_range.mpr hf) entry hh⟩

/-- `Mem2Reg::run` on a module that the visitors have built and the analysis `d` of it. -/
theorem run_spec {addr : Value → Nat} (hm : Inv m origin) (haddr : Function.Injective addr)
    (hd : Dominators.run m (fun bb => addr (.basicBlock bb)) fuel = .ok d) :
    Exec.Meets (Rewritten m d fuel)
      (fun fault => ∃ f < m.numFunctions,
        fault = .outOfFuel ∧ fuel ≤ 2 * (m.functions f).basicBlocks.length ∨
          ∃ entry, (m.functions f).basicBlocks.head? = some entry ∧ Faulty m d f entry fuel fault)
      (run m addr fuel) := by
  have hinj : Function.Injective fun bb => addr (.basicBlock bb) :=
    fun x y h => Value.basicBlock.inj (haddr h)
  have hrun : run m addr fuel = (do
      let s ← (List.range m.numFunctions).foldlM (runOnFunction addr d fuel) ⟨m, fun _ => none⟩
      return s.module) := by
    rw [run, hd]
    rfl
  rw [hrun]
  refine (runFold_spec hm haddr (run_analysed hinj hm.moduleCfg hd) fuel le_rfl).bind fun s hs => ?_
  exact .pure ⟨hs.1.between, hs.2⟩

end

section

variable {fuel' : Nat} {addr : Value → Nat}

theorem placeVar_mono (hf : fuel ≤ fuel') {ty : Ty} (work : List Nat) (s : PhiState) :
    Exec.Le (placeVar d v ty fuel work s) (placeVar d v ty fuel' work s) := by
  induction fuel generalizing fuel' work s with
  | zero =>
    cases work with
    | nil =>
      cases fuel' <;> exact .refl _
    | cons b work => exact .of_outOfFuel _
  | succ fuel ih =>
    obtain ⟨fuel', rfl⟩ : ∃ n, fuel' = n + 1 := ⟨fuel' - 1, by omega⟩
    cases work with
    | nil => exact .refl _
    | cons b work => exact ih (by omega) _ _

theorem reName_mono (hf : fuel ≤ fuel') (bb : Nat) (s : Mem2Reg) :
    Exec.Le (reName d fuel bb s) (reName d fuel' bb s) := by
  induction fuel generalizing fuel' bb s with
  | zero => exact .of_outOfFuel _
  | succ fuel ih =>
    obtain ⟨fuel', rfl⟩ : ∃ n, fuel' = n + 1 := ⟨fuel' - 1, by omega⟩
    refine Exec.Le.bind (.refl _) fun x => Exec.Le.bind (.refl _) fun s => ?_
    exact Exec.Le.bind (Exec.Le.foldlM (fun s succ => ih (by omega) succ s) _ s) fun _ => .refl _

theorem runOnFunction_mono (hf : fuel ≤ fuel') (s : Mem2Reg) (f : Nat) :
    Exec.Le (runOnFunction addr d fuel s f) (runOnFunction addr d fuel' s f) := by
  unfold runOnFunction
  cases (s.module.functions f).basicBlocks with
  | nil => exact .refl _
  | cons entry blocks =>
    refine Exec.Le.bind ?_ fun m => (reName_mono hf entry _).bind fun _ => .refl _
    exact (Exec.Le.foldlM (fun s v => placeVar_mono hf _ s) _ _).bind fun _ => .refl _

theorem run_mono (hf : fuel ≤ fuel') : Exec.Le (run m addr fuel) (run m addr fuel') := by
  refine (Dominators.run_mono hf).bind fun d => ?_
  exact (Exec.Le.foldlM (fun s f => runOnFunction_mono hf s f) _ _).bind fun _ => .refl _

end

end Mem2Reg

end Cminusf
