import Cminusf.Optimization.Thinned

/-! `DeadCode` with the functions that `FuncInfo` reports pure: what the pass leaves of a program ends
like the program. -/

namespace Cminusf

namespace DeadCode

variable {isPure : Nat → Bool} {m m' : Module} {f i n fuel : Nat} {marked : Nat → Bool}

/-- The pass. -/
def pass (m : Module) (fuel : Nat) : Exec Module := do
  let funcInfo ← FuncInfo.run m fuel fun _ => none
  run (fun func => (funcInfo.isPureFunction func).getD false) m fuel

/-- A module with the same global variables, and with some of the instructions in their order. -/
structure Filtered (m m' : Module) : Prop where
  globals : m'.globals = m.globals
  numGlobals : m'.numGlobals = m.numGlobals
  blocks : ∀ b, ∃ p : Nat → Bool, (m'.blocks b).instrList = (m.blocks b).instrList.filter p

theorem Filtered.refl (m : Module) : Filtered m m where
  globals := rfl
  numGlobals := rfl
  blocks b := ⟨fun _ => true, by simp⟩

theorem Filtered.trans {m'' : Module} (h : Filtered m m') (h' : Filtered m' m'') :
    Filtered m m'' where
  globals := h'.globals.trans h.globals
  numGlobals := h'.numGlobals.trans h.numGlobals
  blocks b := by
    obtain ⟨p, hp⟩ := h.blocks b
    obtain ⟨q, hq⟩ := h'.blocks b
    exact ⟨fun i => q i && p i, by rw [hq, hp, List.filter_filter]⟩

theorem filtered_foldl {α : Type} {step : Module → α → Module}
    (h : ∀ m x, Filtered m (step m x)) (xs : List α) (m : Module) :
    Filtered m (xs.foldl step m) := by
  induction xs generalizing m with
  | nil => exact .refl m
  | cons x xs ih => exact (h m x).trans (ih _)

theorem filtered_erase (m : Module) (i : Nat) : Filtered m (erase m i) where
  globals := rfl
  numGlobals := rfl
  blocks b := by
    by_cases hb : b = (m.instrs i).parent
    · subst hb
      exact ⟨fun j => decide (j ≠ i), by simp [erase, Module.modifyBlock]⟩
    · exact ⟨fun _ => true, by simp [erase, Module.modifyBlock, hb]⟩

theorem filtered_sweep (m : Module) (marked : Nat → Bool) (f : Nat) :
    Filtered m (sweep m marked f) := by
  have huse : ∀ (m : Module) (op : Value) (u : Value), Filtered m (m.removeUse op u) :=
    fun m _ _ => ⟨rfl, rfl, (Filtered.refl m).blocks⟩
  have huses : ∀ (m : Module) (i : Nat), Filtered m (m.removeUseOfOps (.instruction i)) :=
    fun m i => filtered_foldl (fun m op => huse m op (.instruction i)) _ m
  exact (filtered_foldl huses _ m).trans (filtered_foldl filtered_erase _ _)

theorem filtered_round {fs : List Nat} {s s' : Module × Bool}
    (h : fs.foldlM (runOnFunction isPure n) s = .ok s') : Filtered s.1 s'.1 := by
  induction fs generalizing s with
  | nil =>
    cases h
    exact .refl _
  | cons f fs ih =>
    rw [List.foldlM_cons] at h
    obtain ⟨t, ht, h⟩ := Exec.bind_eq_ok.mp h
    obtain ⟨marked, -, ht⟩ := Exec.bind_eq_ok.mp ht
    cases ht
    exact (filtered_sweep s.1 marked f).trans (ih h)

theorem filtered_runLoop (h : runLoop isPure n fuel m = .ok m') : Filtered m m' := by
  induction fuel generalizing m with
  | zero => cases h
  | succ fuel ih =>
    obtain ⟨⟨m₁, changed⟩, hround, h⟩ := Exec.bind_eq_ok.mp h
    have hm := filtered_round hround
    cases changed with
    | true => exact hm.trans (ih h)
    | false =>
      cases h
      exact hm

/-- The instruction is in the block that it is said to be in. -/
def stays (m : Module) (i : Nat) : Bool := i ∈ (m.blocks (m.instrs i).parent).instrList

theorem stays_iff (hm : Parented m) (hrun : run isPure m fuel = .ok m') (hf : f < m.numFunctions)
    (hi : i ∈ instructions m f) : stays m' i ↔ Needed isPure m f i := by
  obtain ⟨b, hb, hi⟩ := mem_instructions.mp hi
  have hparent : (m'.instrs i).parent = b := by rw [(run_swept hm hrun).instrs, hm.instr b i hi]
  rw [stays, hparent, decide_eq_true_iff, mem_run hm hrun hf hb, and_iff_right hi]

/-- What `DeadCode` removes is computed without effect. -/
theorem thinned_run {P : Nat → Prop} (hm : Closed m) (hc : FuncInfo.Consistent m)
    (hq : Machine.Quiet m P) (hpure : ∀ f < m.numFunctions, isPure f → P f)
    (hrun : run isPure m fuel = .ok m') :
    Machine.Thinned m m' (stays m') P := by
  have hparented := hm.toParented
  have hswept := run_swept hparented hrun
  have hfiltered := filtered_runLoop hrun
  have hcritical : ∀ f < m.numFunctions, ∀ i ∈ instructions m f, stays m' i = false →
      isCritical isPure m i ≠ .ok true := by
    intro f hf i hi hk hcrit
    have hstay := (stays_iff hparented hrun hf hi).mpr (.critical hi hcrit)
    simp [hk] at hstay
  refine ⟨hswept.functions, hfiltered.globals, hfiltered.numGlobals, hswept.instrs,
    hswept.numFunctions, fun f hf b hb => ?_, fun f hf i hi hk j hj => ?_, fun f hf i hi hk => ?_,
    fun f hf i hi hk hop g operands hops => ?_, fun f hf i hi g operands hops => ?_, hq⟩
  · obtain ⟨p, hp⟩ := hfiltered.blocks b
    rw [hp]
    refine List.filter_congr fun i hi => ?_
    have hmem := mem_instructions.mpr ⟨b, hb, hi⟩
    rw [Bool.eq_iff_iff, stays_iff hparented hrun hf hmem]
    have hin := mem_run hparented hrun hf hb (i := i)
    rw [hp, List.mem_filter] at hin
    tauto
  · have hji := hm.operands f hf i hi j hj
    have hsame : m.functionOf j = m.functionOf i := by
      rw [hparented.functionOf hf hji, hparented.functionOf hf hi]
    rw [stays_iff hparented hrun hf hi] at hk
    exact (stays_iff hparented hrun hf hji).mpr (hk.operand hj hsame)
  · have hno := hcritical f hf i hi hk
    refine ⟨fun hop => hno ?_, fun hop => hno ?_, fun hop => hno ?_⟩
    all_goals
      rw [isCritical, hop]
      rfl
  · apply hpure g (hc.calls f hf i hi 0 g (by simp [hops])).2.2
    by_contra hfalse
    apply hcritical f hf i hi hk
    rw [isCritical, hop, Instruction.getOperand, hops]
    simp only [List.getElem?_cons_zero, Bool.not_eq_true] at hfalse ⊢
    rw [hfalse]
    rfl
  · exact (hc.calls f hf i hi 0 g (by simp [hops])).2.2

theorem pass_returns (hm : Closed m) (hc : FuncInfo.Consistent m) (hb : FuncInfo.Based m) :
    ∃ m' bound, ∀ fuel ≥ bound, pass m fuel = .ok m' := by
  obtain ⟨s, bound, hs⟩ := FuncInfo.run_returns hc hb fun _ => none
  obtain ⟨m', bound', hrun⟩ : ∃ m' bound, ∀ fuel ≥ bound,
      run (fun func => (s.isPureFunction func).getD false) m fuel = .ok m' := run_returns hm
  refine ⟨m', max bound bound', fun fuel hfuel => ?_⟩
  rw [pass, hs fuel (le_trans (le_max_left _ _) hfuel)]
  exact hrun fuel (le_trans (le_max_right _ _) hfuel)

/-- The program that the pass leaves calls the same functions of the library in the same order and
ends in the same way, and its operands are there. The pass ends if `get_first_addr` does. -/
theorem pass_preserves (hm : Closed m) (hc : FuncInfo.Consistent m)
    (ha : ∀ f < m.numFunctions, ¬ FuncInfo.Impure m f → Machine.Addressed m f) :
    (FuncInfo.Based m → ∃ m' bound, ∀ fuel ≥ bound, pass m fuel = .ok m') ∧
      ∀ fuel m', pass m fuel = .ok m' →
        (∀ ops input o, Machine.Ends ops m input o → Machine.Ends ops m' input o) ∧
        ∀ f < m'.numFunctions, ∀ i ∈ instructions m' f, ∀ j,
          .instruction j ∈ (m'.instrs i).operands → j ∈ instructions m' f := by
  refine ⟨pass_returns hm hc, fun fuel m' hpass => ?_⟩
  obtain ⟨s, hs, hrun⟩ := Exec.bind_eq_ok.mp hpass
  have hpure : ∀ f < m.numFunctions, (s.isPureFunction f).getD false →
      f < m.numFunctions ∧ ¬ FuncInfo.Impure m f := by
    intro f hf hp
    refine ⟨hf, Machine.not_impure_of_isPureFunction hc hs hf ?_⟩
    cases hp' : s.isPureFunction f with
    | none => simp [hp'] at hp
    | some b => simpa [hp'] using hp
  have hq : Machine.Quiet m fun f => f < m.numFunctions ∧ ¬ FuncInfo.Impure m f := by
    refine Machine.quiet_of_not_impure (fun f hf => ⟨hf.1, hf.2, ha f hf.1 hf.2⟩) ?_
    intro f hf g hg
    exact ⟨(hc.use_of_calls hg).1, Machine.not_impure_of_calls hg hf.2⟩
  refine ⟨fun ops input o hend => (thinned_run hm hc hq hpure hrun).ends hend, ?_⟩
  intro f hf i hi j hj
  have hswept := run_swept hm.toParented hrun
  rw [hswept.numFunctions] at hf
  rw [hswept.instrs] at hj
  obtain ⟨b, hb, hib⟩ := mem_instructions.mp hi
  rw [hswept.functions] at hb
  obtain ⟨hib, hneeded⟩ := (mem_run hm.toParented hrun hf hb).mp hib
  have hmem := mem_instructions.mpr ⟨b, hb, hib⟩
  have hji := hm.operands f hf i hmem j hj
  have hsame : m.functionOf j = m.functionOf i := by
    rw [hm.functionOf hf hji, hm.functionOf hf hmem]
  obtain ⟨c, hcb, hjc⟩ := mem_instructions.mp hji
  refine mem_instructions.mpr ⟨c, by rwa [hswept.functions], ?_⟩
  exact (mem_run hm.toParented hrun hf hcb).mpr ⟨hjc, hneeded.operand hj hsame⟩

open Machine

theorem pass_preserves_nextProgram : ∃ m, buildModule nextProgram = some m ∧
    (∃ m' bound, ∀ fuel ≥ bound, pass m fuel = .ok m') ∧
      ∀ fuel m', pass m fuel = .ok m' →
        (∀ ops input o, Ends ops m input o → Ends ops m' input o) ∧
        ∀ f < m'.numFunctions, ∀ i ∈ instructions m' f, ∀ j,
          .instruction j ∈ (m'.instrs i).operands → j ∈ instructions m' f := by
  obtain ⟨m, hm, haddr, -⟩ := nextProgram_module
  have hpass := pass_preserves (closed_of_buildModule hm) (FuncInfo.consistent_of_buildModule hm)
    fun f hf _ => addressed_of (haddr f hf)
  exact ⟨m, hm, hpass.1 (FuncInfo.based_of_buildModule hm), hpass.2⟩

theorem operand_writerModule {j : Nat} (h : .instruction j ∈ (writerModule.instrs i).operands) :
    i = 3 ∧ j = 0 ∨ i = 4 ∧ j = 3 ∨ i = 8 ∧ j = 7 := by
  by_cases hi : i < 10
  · interval_cases i <;> simp_all [writerModule]
  · obtain ⟨k, rfl⟩ := Nat.exists_eq_add_of_le (not_lt.mp hi)
    rw [Nat.add_comm] at h
    cases h

theorem writerModule_closed : Closed writerModule where
  toParented := writerModule_parented
  operands := by
    have h : ∀ f < 3, ∀ i ∈ instructions writerModule f, (i = 3 → 0 ∈ instructions writerModule f) ∧
        (i = 4 → 3 ∈ instructions writerModule f) ∧
        (i = 8 → 7 ∈ instructions writerModule f) := by decide
    intro f hf i hi j hj
    obtain ⟨h0, h3, h7⟩ := h f hf i hi
    rcases operand_writerModule hj with ⟨hi, rfl⟩ | ⟨hi, rfl⟩ | ⟨hi, rfl⟩
    · exact h0 hi
    · exact h3 hi
    · exact h7 hi
  calls f hf i hi hop := by
    have hlt := mem_instructions_writerModule.mpr ⟨f, hf, hi⟩
    interval_cases i
    case «6» | «8» => exact ⟨_, rfl⟩
    all_goals cases hop

theorem phi_writerModule {b : Nat} (hi : i ∈ (writerModule.blocks b).instrList)
    (hphi : (writerModule.instrs i).isPhi) : i = 3 ∧ b = 2 := by
  have hparent := writerModule_parented.instr b i hi
  by_cases hlt : i < 10
  · have h : ∀ i < 10, (writerModule.instrs i).isPhi → i = 3 := by decide
    obtain rfl := h i hlt hphi
    exact ⟨rfl, hparent.symm⟩
  · obtain ⟨k, rfl⟩ := Nat.exists_eq_add_of_le (not_lt.mp hlt)
    rw [Nat.add_comm] at hphi
    cases hphi

theorem writerModule_wellFormed : Mem2Reg.WellFormed writerModule where
  present f hf b hb i hi v hv := by
    rintro j rfl
    rcases operand_writerModule hv with ⟨-, rfl⟩ | ⟨-, rfl⟩ | ⟨-, rfl⟩ <;> decide
  dominates f hf entry hentry b hb is i js hlist hphi v hv := by
    rintro j rfl
    have hi : i ∈ (writerModule.blocks b).instrList := by simp [hlist]
    have hparent := writerModule_parented.instr b i hi
    rcases operand_writerModule hv with ⟨rfl, rfl⟩ | ⟨rfl, rfl⟩ | ⟨rfl, rfl⟩
    · exact absurd rfl hphi
    · subst hparent
      refine .inl ?_
      change [3, 4, 5] = is ++ 4 :: js at hlist
      cases is with
      | nil => simp at hlist
      | cons k is => simp_all
    · subst hparent
      refine .inl ?_
      change [6, 7, 8, 9] = is ++ 8 :: js at hlist
      cases is with
      | nil => simp at hlist
      | cons k is =>
        cases is with
        | nil => simp at hlist
        | cons l is => simp_all
  phiDominates f hf entry hentry b hb i hi hphi pair hpair := by
    obtain ⟨rfl, rfl⟩ := phi_writerModule hi hphi
    have hpairs : pair = (.instruction 0, .basicBlock 1) ∨
        pair = (.globalVariable 0, .basicBlock 0) := by
      simpa [writerModule, pairUp] using hpair
    rcases hpairs with rfl | rfl
    · refine ⟨1, rfl, fun j hj => .inr ?_⟩
      cases hj
      have hentry' : entry = 0 := by
        have hf : f < 3 := hf
        interval_cases f
        · cases hentry
        · cases hentry
          rfl
        · cases hentry
          rcases hb.cases_head with he | ⟨c, hc, -⟩
          · cases he
          · cases hc
      subst hentry'
      exact ⟨Graph.dominates_root _ _ _, by decide⟩
    · exact ⟨0, rfl, fun j hj => by cases hj⟩
  phiPrint f hf b hb i hi hphi := by
    obtain ⟨rfl, rfl⟩ := phi_writerModule hi hphi
    exact ⟨_, rfl, by decide⟩

/-- The call of `main`. -/
def mainFrame (m : Module) : Frame := ⟨2, 3, [], fun _ => none, fun _ => 0, Gvn.body m 3⟩

theorem ends_writerModule (h : m.functions = writerModule.functions) (hnum : m.numFunctions = 3)
    {o o' : Outcome} (ho : (Machine.run noFloats m 9
      (.running (mainFrame m) [] (start m []))).outcome = some o) :
    Ends noFloats m [] o' ↔ o' = o := by
  have hcall : invoke m 2 [] = some (mainFrame m) := by
    rw [invoke, h]
    rfl
  constructor
  · rintro ⟨f, hf, hname, frame, s, hframe, hs, ho'⟩
    have hmain : ∀ f < 3, (writerModule.functions f).name = "main" → f = 2 := by decide
    rw [hnum] at hf
    rw [h] at hname
    obtain rfl := hmain f hf hname
    rw [hcall] at hframe
    cases hframe
    exact outcome_unique hs ho' (reaches_run _ _ _ _) ho
  · rintro rfl
    refine ⟨2, by rw [hnum]; decide, by rw [h]; rfl, mainFrame m, _, hcall, ?_, ho⟩
    exact reaches_run _ _ _ _

/-- The call that writes to `x` is removed, and another number is put out. -/
theorem not_preserves_writerModule : ∃ (m' : Module) (o : Outcome), Closed writerModule ∧
    FuncInfo.Consistent writerModule ∧ Mem2Reg.WellFormed writerModule ∧
    pass writerModule 20 = .ok m' ∧ Ends noFloats writerModule [] o ∧ ¬ Ends noFloats m' [] o := by
  have hpass : ((pass writerModule 20).toOption.any fun m' => (Machine.run noFloats m' 9
      (.running (mainFrame m') [] (start m' []))).outcome =
        some (.returned (some (.number (.int 0))) [.output 0])) = true := by
    decide +kernel
  obtain ⟨m', hm', hout⟩ := (Option.any_eq_true _ _).mp hpass
  have hm' := Exec.ok_of_toOption hm'
  obtain ⟨r, -, hrun⟩ := Exec.bind_eq_ok.mp hm'
  have hswept := run_swept writerModule_parented hrun
  refine ⟨m', .returned (some (.number (.int 0))) [.output 1], writerModule_closed,
    writerModule_consistent, writerModule_wellFormed, hm', ?_, ?_⟩
  · exact (ends_writerModule rfl rfl (by decide +kernel)).mpr rfl
  · rw [ends_writerModule hswept.functions hswept.numFunctions (of_decide_eq_true hout)]
    decide

end DeadCode

end Cminusf
