import Cminusf.Optimization.Ssa

/-! The pass `DeadCode`. What it leaves of a function is what its critical instructions depend on,
and of the phis that `Mem2Reg` has made it keeps also those without a second pair. -/

namespace Cminusf

/-- `work_list` and `marked`. -/
structure DeadCode where
  workList : List Nat
  marked : Nat → Bool

namespace DeadCode

/-- `marked[ins] = true; work_list.push_back(ins)`. -/
def push (s : DeadCode) (ins : Nat) : DeadCode :=
  ⟨s.workList ++ [ins], Function.update s.marked ins true⟩

/-- `isPure` is `func_info->is_pure_function`. -/
def isCritical (isPure : Nat → Bool) (m : Module) (ins : Nat) : Exec Bool :=
  match (m.instrs ins).opId, (m.instrs ins).getOperand 0 with
  | .call, some (.function callee) => return !isPure callee
  | .call, _ => throw .undefinedBehaviour
  | .br, _ | .ret, _ | .store, _ => return true
  | _, _ => return false

/-- One round of the loop of `mark` over the operands of `ins`. -/
def markOperand (m : Module) (ins : Nat) (s : DeadCode) : Value → Exec DeadCode
  | .instruction op =>
    -- an operand that was erased before is read after it was freed
    if op ∉ (m.blocks (m.instrs op).parent).instrList then throw .undefinedBehaviour
    else if s.marked op then return s
    else if m.functionOf op ≠ m.functionOf ins then return s
    else return s.push op
  | _ => return s

/-- `mark` on an instruction. -/
def markInstr (m : Module) (ins : Nat) (s : DeadCode) : Exec DeadCode :=
  (m.instrs ins).operands.foldlM (markOperand m ins) s

/-- The loop of `mark` over `work_list`. -/
def markLoop (m : Module) : Nat → DeadCode → Exec (Nat → Bool)
  | _, ⟨[], marked⟩ => return marked
  | 0, ⟨_ :: _, _⟩ => throw .outOfFuel
  | fuel + 1, ⟨now :: workList, marked⟩ => do
    let s ← markInstr m now ⟨workList, marked⟩
    markLoop m fuel s

/-- The instructions of a function, block by block. -/
def instructions (m : Module) (f : Nat) : List Nat :=
  (m.functions f).basicBlocks.flatMap fun bb => (m.blocks bb).instrList

def markCritical (isPure : Nat → Bool) (m : Module) (s : DeadCode) (ins : Nat) :
    Exec DeadCode := do
  if ← isCritical isPure m ins then return s.push ins else return s

/-- `mark` on a function. -/
def mark (isPure : Nat → Bool) (m : Module) (fuel f : Nat) : Exec (Nat → Bool) := do
  let s ← (instructions m f).foldlM (markCritical isPure m) ⟨[], fun _ => false⟩
  markLoop m fuel s

/-- `wait_del`; the instructions are removed one by one, which does not depend on their order. -/
def waitDel (m : Module) (marked : Nat → Bool) (f : Nat) : List Nat :=
  (instructions m f).filter fun ins => !marked ins

/-- `inst->get_parent()->get_instructions().erase(inst)`. -/
def erase (m : Module) (ins : Nat) : Module :=
  m.modifyBlock (m.instrs ins).parent fun bb =>
    { bb with instrList := bb.instrList.filter (· ≠ ins) }

def sweep (m : Module) (marked : Nat → Bool) (f : Nat) : Module :=
  (waitDel m marked f).foldl erase
    ((waitDel m marked f).foldl (fun m ins => m.removeUseOfOps (.instruction ins)) m)

/-- One round of the loop over the functions, with `changed`. -/
def runOnFunction (isPure : Nat → Bool) (fuel : Nat) (s : Module × Bool) (f : Nat) :
    Exec (Module × Bool) := do
  let marked ← mark isPure s.1 fuel f
  return (sweep s.1 marked f, s.2 || !(waitDel s.1 marked f).isEmpty)

/-- The `do`-`while` loop of `run`. -/
def runLoop (isPure : Nat → Bool) (n : Nat) : Nat → Module → Exec Module
  | 0, _ => throw .outOfFuel
  | fuel + 1, m => do
    let s ← (List.range m.numFunctions).foldlM (runOnFunction isPure n) (m, false)
    if s.2 then runLoop isPure n fuel s.1 else return s.1

def run (isPure : Nat → Bool) (m : Module) (fuel : Nat) : Exec Module :=
  runLoop isPure fuel fuel m

/-- An instruction is needed when a critical one of its function depends on it. -/
inductive Needed (isPure : Nat → Bool) (m : Module) (f : Nat) : Nat → Prop where
  | critical {i} : i ∈ instructions m f → isCritical isPure m i = .ok true → Needed isPure m f i
  | operand {i j} : Needed isPure m f i → .instruction j ∈ (m.instrs i).operands →
      m.functionOf j = m.functionOf i → Needed isPure m f j

variable {isPure : Nat → Bool} {m m' : Module} {f g i j n fuel : Nat} {s s' : DeadCode}
  {marked : Nat → Bool} {b : Nat} {now : List Nat}

theorem mem_instructions : i ∈ instructions m f ↔
    ∃ b ∈ (m.functions f).basicBlocks, i ∈ (m.blocks b).instrList := by
  simp [instructions]

/-- The operands of `i` are marked, as far as they are instructions of its function. -/
def Passed (m : Module) (s : DeadCode) (i : Nat) : Prop :=
  ∀ j, .instruction j ∈ (m.instrs i).operands → m.functionOf j = m.functionOf i → s.marked j

/-- What holds at every round of the loops of `mark`, but for the operands of `now`. -/
structure Marking (isPure : Nat → Bool) (m : Module) (f : Nat) (now : List Nat) (s : DeadCode) :
    Prop where
  needed : ∀ i, s.marked i → Needed isPure m f i
  work : ∀ i ∈ s.workList, s.marked i
  passed : ∀ i, s.marked i → i ∉ now ++ s.workList → Passed m s i

theorem marked_push : (s.push j).marked i ↔ i = j ∨ s.marked i := by
  by_cases h : i = j
  · subst h
    simp [push]
  · simp [push, h]

theorem Passed.mono (h : Passed m s i) (hs : ∀ j, s.marked j → s'.marked j) : Passed m s' i :=
  fun j hj hf => hs j (h j hj hf)

theorem Marking.push (h : Marking isPure m f now s) (hj : Needed isPure m f j) :
    Marking isPure m f now (s.push j) where
  needed i hi := by
    rcases marked_push.mp hi with rfl | hi
    · exact hj
    · exact h.needed i hi
  work i hi := by
    rcases List.mem_append.mp hi with hi | hi
    · exact marked_push.mpr (.inr (h.work i hi))
    · exact marked_push.mpr (.inl (List.mem_singleton.mp hi))
  passed i hi hw := by
    have hne : i ≠ j := fun he => hw (by simp [DeadCode.push, he])
    have hi := (marked_push.mp hi).resolve_left hne
    have hp := h.passed i hi fun hmem => hw (by
      rw [DeadCode.push, ← List.append_assoc]
      exact List.mem_append_left _ hmem)
    exact hp.mono fun _ hk => marked_push.mpr (.inr hk)

/-- One operand of an instruction that is marked. -/
theorem markOperand_spec {op : Value} (h : Marking isPure m f now s) (hi : s.marked i)
    (hop : op ∈ (m.instrs i).operands) (hrun : markOperand m i s op = .ok s') :
    Marking isPure m f now s' ∧ (∀ j, s.marked j → s'.marked j) ∧
      ∀ j, op = .instruction j → m.functionOf j = m.functionOf i → s'.marked j := by
  cases op with
  | instruction k =>
    rw [markOperand] at hrun
    split at hrun
    · cases hrun
    split at hrun
    · rename_i hk
      cases hrun
      exact ⟨h, fun _ hj => hj, fun j hj _ => by cases hj; exact hk⟩
    split at hrun
    · rename_i hne
      cases hrun
      exact ⟨h, fun _ hj => hj, fun j hj hf => by cases hj; exact absurd hf hne⟩
    · rename_i hf
      cases hrun
      have hk := (h.needed i hi).operand hop (not_not.mp hf)
      refine ⟨h.push hk, fun _ hj => marked_push.mpr (.inr hj), fun j hj _ => ?_⟩
      cases hj
      exact marked_push.mpr (.inl rfl)
  | _ =>
    cases hrun
    exact ⟨h, fun _ hj => hj, fun j hj _ => by cases hj⟩

theorem markOperands_spec {ops : List Value} (h : Marking isPure m f now s) (hi : s.marked i)
    (hops : ∀ op ∈ ops, op ∈ (m.instrs i).operands)
    (hrun : ops.foldlM (markOperand m i) s = .ok s') :
    Marking isPure m f now s' ∧ (∀ j, s.marked j → s'.marked j) ∧
      ∀ j, .instruction j ∈ ops → m.functionOf j = m.functionOf i → s'.marked j := by
  induction ops generalizing s with
  | nil =>
    cases hrun
    exact ⟨h, fun _ hj => hj, by simp⟩
  | cons op ops ih =>
    rw [List.foldlM_cons] at hrun
    obtain ⟨t, ht, hrun⟩ := Exec.bind_eq_ok.mp hrun
    obtain ⟨ht, hmono, hop⟩ := markOperand_spec h hi (hops op List.mem_cons_self) ht
    obtain ⟨hs', hmono', hrest⟩ := ih ht (hmono i hi)
      (fun op hop => hops op (List.mem_cons_of_mem _ hop)) hrun
    refine ⟨hs', fun j hj => hmono' j (hmono j hj), fun j hj hf => ?_⟩
    rcases List.mem_cons.mp hj with hj | hj
    · exact hmono' j (hop j hj.symm hf)
    · exact hrest j hj hf

theorem markInstr_spec (h : Marking isPure m f [i] s) (hi : s.marked i)
    (hrun : markInstr m i s = .ok s') :
    Marking isPure m f [] s' ∧ ∀ j, s.marked j → s'.marked j := by
  obtain ⟨hs', hmono, hops⟩ := markOperands_spec h hi (fun _ hop => hop) hrun
  refine ⟨⟨hs'.needed, hs'.work, fun j hj hw => ?_⟩, hmono⟩
  by_cases hji : j = i
  · subst hji
    exact hops
  · exact hs'.passed j hj (by simpa [hji] using hw)

theorem markLoop_spec (h : Marking isPure m f [] s) (hrun : markLoop m fuel s = .ok marked) :
    Marking isPure m f [] ⟨[], marked⟩ ∧ ∀ j, s.marked j → marked j := by
  induction fuel generalizing s with
  | zero =>
    obtain ⟨workList, marked'⟩ := s
    cases workList with
    | nil =>
      cases hrun
      exact ⟨h, fun _ hj => hj⟩
    | cons now workList => cases hrun
  | succ fuel ih =>
    obtain ⟨workList, marked'⟩ := s
    cases workList with
    | nil =>
      cases hrun
      exact ⟨h, fun _ hj => hj⟩
    | cons now workList =>
      obtain ⟨t, ht, hrun⟩ := Exec.bind_eq_ok.mp hrun
      have hpop : Marking isPure m f [now] ⟨workList, marked'⟩ :=
        ⟨h.needed, fun i hi => h.work i (List.mem_cons_of_mem _ hi), h.passed⟩
      obtain ⟨ht, hmono⟩ := markInstr_spec hpop (h.work now List.mem_cons_self) ht
      obtain ⟨hm, hmono'⟩ := ih ht hrun
      exact ⟨hm, fun j hj => hmono' j (hmono j hj)⟩

/-- The critical instructions are marked first. -/
theorem markCriticals_spec {is : List Nat} (h : Marking isPure m f [] s)
    (his : ∀ i ∈ is, i ∈ instructions m f) (hrun : is.foldlM (markCritical isPure m) s = .ok s') :
    Marking isPure m f [] s' ∧ (∀ j, s.marked j → s'.marked j) ∧
      ∀ i ∈ is, isCritical isPure m i = .ok true → s'.marked i := by
  induction is generalizing s with
  | nil =>
    cases hrun
    exact ⟨h, fun _ hj => hj, by simp⟩
  | cons i is ih =>
    rw [List.foldlM_cons] at hrun
    obtain ⟨t, ht, hrun⟩ := Exec.bind_eq_ok.mp hrun
    obtain ⟨critical, hc, ht⟩ := Exec.bind_eq_ok.mp ht
    have his' : ∀ i ∈ is, i ∈ instructions m f := fun k hk => his k (List.mem_cons_of_mem _ hk)
    cases critical with
    | true =>
      cases ht
      have hi := Needed.critical (his i List.mem_cons_self) hc
      obtain ⟨hs', hmono, hrest⟩ := ih (h.push hi) his' hrun
      refine ⟨hs', fun j hj => hmono j (marked_push.mpr (.inr hj)), fun j hj hcj => ?_⟩
      rcases List.mem_cons.mp hj with rfl | hj
      · exact hmono j (marked_push.mpr (.inl rfl))
      · exact hrest j hj hcj
    | false =>
      cases ht
      obtain ⟨hs', hmono, hrest⟩ := ih h his' hrun
      refine ⟨hs', hmono, fun j hj hcj => ?_⟩
      rcases List.mem_cons.mp hj with rfl | hj
      · rw [hc] at hcj
        cases hcj
      · exact hrest j hj hcj

/-- `mark` marks what is needed. -/
theorem mark_spec (hrun : mark isPure m fuel f = .ok marked) :
    ∀ i, marked i ↔ Needed isPure m f i := by
  obtain ⟨s, hs, hrun⟩ := Exec.bind_eq_ok.mp hrun
  have hinit : Marking isPure m f [] ⟨[], fun _ => false⟩ := ⟨by simp, by simp, by simp⟩
  obtain ⟨hs, -, hcrit⟩ := markCriticals_spec hinit (fun _ hi => hi) hs
  obtain ⟨hm, hmono⟩ := markLoop_spec hs hrun
  refine fun i => ⟨hm.needed i, fun hi => ?_⟩
  induction hi with
  | critical hi hc => exact hmono _ (hcrit _ hi hc)
  | operand _ hj hf ih => exact hm.passed _ ih (by simp) _ hj hf

/-- A module from which some instructions have been removed. -/
structure Swept (m m' : Module) : Prop where
  functions : m'.functions = m.functions
  numFunctions : m'.numFunctions = m.numFunctions
  instrs : m'.instrs = m.instrs
  blocks : ∀ b, m'.blocks b = { m.blocks b with instrList := (m'.blocks b).instrList }
  sub : ∀ b, ∀ i ∈ (m'.blocks b).instrList, i ∈ (m.blocks b).instrList

theorem Swept.refl (m : Module) : Swept m m := ⟨rfl, rfl, rfl, fun _ => rfl, fun _ _ hi => hi⟩

theorem Swept.trans {m'' : Module} (h : Swept m m') (h' : Swept m' m'') : Swept m m'' where
  functions := h'.functions.trans h.functions
  numFunctions := h'.numFunctions.trans h.numFunctions
  instrs := h'.instrs.trans h.instrs
  blocks b := by rw [h'.blocks b, h.blocks b]
  sub b i hi := h.sub b i (h'.sub b i hi)

theorem Swept.functionOf (h : Swept m m') : m'.functionOf i = m.functionOf i := by
  rw [Module.functionOf, Module.functionOf, h.instrs, h.blocks]

theorem Swept.isCritical (h : Swept m m') : isCritical isPure m' i = isCritical isPure m i := by
  rw [DeadCode.isCritical, DeadCode.isCritical, h.instrs]

theorem removeUses_swept (is : List Nat) :
    Swept m (is.foldl (fun m ins => m.removeUseOfOps (.instruction ins)) m) ∧
      (is.foldl (fun m ins => m.removeUseOfOps (.instruction ins)) m).blocks = m.blocks := by
  induction is generalizing m with
  | nil => exact ⟨.refl m, rfl⟩
  | cons i is ih =>
    obtain ⟨hr, ho⟩ := Module.foldl_removeUse_rewires (m := m) (u := .instruction i)
      (m.operands (.instruction i))
    have hm : Swept m (m.removeUseOfOps (.instruction i)) := by
      refine ⟨hr.functions, hr.numFunctions, ?_, fun b => ?_, fun b j hj => ?_⟩
      · funext j
        refine (hr.instrs j).trans ?_
        rw [ho (.instruction j)]
        rfl
      · rw [show (m.removeUseOfOps (.instruction i)).blocks = m.blocks from hr.blocks]
      · rwa [show (m.removeUseOfOps (.instruction i)).blocks = m.blocks from hr.blocks] at hj
    obtain ⟨h, hb⟩ := ih (m := m.removeUseOfOps (.instruction i))
    exact ⟨hm.trans h, hb.trans hr.blocks⟩

theorem mem_erase : j ∈ ((erase m i).blocks b).instrList ↔
    j ∈ (m.blocks b).instrList ∧ ¬ (j = i ∧ (m.instrs i).parent = b) := by
  by_cases hb : b = (m.instrs i).parent
  · subst hb
    simp [erase, Module.modifyBlock]
  · simp [erase, Module.modifyBlock, hb, Ne.symm hb]

theorem erase_swept : Swept m (erase m i) := by
  refine ⟨rfl, rfl, rfl, fun b => ?_, fun b j hj => (mem_erase.mp hj).1⟩
  by_cases hb : b = (m.instrs i).parent
  · subst hb
    simp [erase, Module.modifyBlock]
  · simp [erase, Module.modifyBlock, hb]

theorem erases_spec (is : List Nat) : Swept m (is.foldl erase m) ∧
    ∀ b j, j ∈ ((is.foldl erase m).blocks b).instrList ↔
      j ∈ (m.blocks b).instrList ∧ ¬ (j ∈ is ∧ (m.instrs j).parent = b) := by
  induction is generalizing m with
  | nil => exact ⟨.refl m, by simp⟩
  | cons i is ih =>
    obtain ⟨h, hmem⟩ := ih (m := erase m i)
    refine ⟨erase_swept.trans h, fun b j => ?_⟩
    rw [List.foldl_cons, hmem, mem_erase, erase_swept.instrs, List.mem_cons]
    constructor
    · rintro ⟨⟨hj, h1⟩, h2⟩
      refine ⟨hj, ?_⟩
      rintro ⟨rfl | hjs, hp⟩
      · exact h1 ⟨rfl, hp⟩
      · exact h2 ⟨hjs, hp⟩
    · rintro ⟨hj, hno⟩
      refine ⟨⟨hj, ?_⟩, fun ⟨hjs, hp⟩ => hno ⟨.inr hjs, hp⟩⟩
      rintro ⟨rfl, hp⟩
      exact hno ⟨.inl rfl, hp⟩

theorem sweep_spec : Swept m (sweep m marked f) ∧
    ∀ b j, j ∈ ((sweep m marked f).blocks b).instrList ↔
      j ∈ (m.blocks b).instrList ∧ ¬ (j ∈ waitDel m marked f ∧ (m.instrs j).parent = b) := by
  obtain ⟨h₁, hb⟩ := removeUses_swept (m := m) (waitDel m marked f)
  obtain ⟨h₂, hmem⟩ := erases_spec (m := (waitDel m marked f).foldl
    (fun m ins => m.removeUseOfOps (.instruction ins)) m) (waitDel m marked f)
  refine ⟨h₁.trans h₂, fun b j => ?_⟩
  rw [sweep, hmem, hb, h₁.instrs]

/-- The instructions know their blocks, and the blocks their functions. -/
structure Parented (m : Module) : Prop where
  instr : ∀ b, ∀ i ∈ (m.blocks b).instrList, (m.instrs i).parent = b
  block : ∀ f < m.numFunctions, ∀ b ∈ (m.functions f).basicBlocks, (m.blocks b).parent = f

theorem Parented.functionOf (h : Parented m) (hf : f < m.numFunctions)
    (hi : i ∈ instructions m f) : m.functionOf i = f := by
  obtain ⟨b, hb, hi⟩ := mem_instructions.mp hi
  rw [Module.functionOf, h.instr b i hi, h.block f hf b hb]

/-- What is needed has not been removed. -/
structure Kept (isPure : Nat → Bool) (m m' : Module) : Prop extends Swept m m' where
  needed : ∀ f < m.numFunctions, ∀ b ∈ (m.functions f).basicBlocks, ∀ i ∈ (m.blocks b).instrList,
    Needed isPure m f i → i ∈ (m'.blocks b).instrList

theorem Kept.needed_iff (h : Kept isPure m m') (hf : f < m.numFunctions) :
    Needed isPure m' f i ↔ Needed isPure m f i := by
  constructor
  · intro hi
    induction hi with
    | critical hi hc =>
      obtain ⟨b, hb, hi⟩ := mem_instructions.mp hi
      rw [h.functions] at hb
      rw [h.isCritical] at hc
      exact .critical (mem_instructions.mpr ⟨b, hb, h.sub b _ hi⟩) hc
    | operand _ hj hfun ih =>
      rw [h.instrs] at hj
      rw [h.functionOf, h.functionOf] at hfun
      exact ih.operand hj hfun
  · intro hi
    induction hi with
    | critical hi hc =>
      have hn := Needed.critical hi hc
      obtain ⟨b, hb, hi⟩ := mem_instructions.mp hi
      rw [← h.isCritical] at hc
      refine .critical (mem_instructions.mpr ⟨b, ?_, h.needed f hf b hb _ hi hn⟩) hc
      rwa [h.functions]
    | operand _ hj hfun ih =>
      rw [← h.instrs] at hj
      rw [← h.functionOf, ← h.functionOf] at hfun
      exact ih.operand hj hfun

theorem Kept.sweep {m' : Module} (h : Kept isPure m m') (hm : Parented m) (hf : f < m.numFunctions)
    (hmark : ∀ i, marked i ↔ Needed isPure m' f i) : Kept isPure m (sweep m' marked f) := by
  obtain ⟨hs, hmem⟩ := @sweep_spec m' f marked
  refine ⟨h.toSwept.trans hs, fun g hg b hb i hi hn => (hmem b i).mpr
    ⟨h.needed g hg b hb i hi hn, ?_⟩⟩
  rintro ⟨hdel, -⟩
  obtain ⟨hif, hno⟩ := List.mem_filter.mp hdel
  -- the instruction is one of `f`, so it is `f` that needs it
  obtain ⟨c, hc, hic⟩ := mem_instructions.mp hif
  rw [h.functions] at hc
  have hf' := hm.functionOf hf (mem_instructions.mpr ⟨c, hc, h.sub c i hic⟩)
  have hg' := hm.functionOf hg (mem_instructions.mpr ⟨b, hb, hi⟩)
  have hfg : g = f := hg'.symm.trans hf'
  subst hfg
  have := (hmark i).mpr ((h.needed_iff hf).mpr hn)
  simp [this] at hno

theorem round_kept {fs : List Nat} {s s' : Module × Bool} (hm : Parented m)
    (hfs : ∀ f ∈ fs, f < m.numFunctions) (h : Kept isPure m s.1)
    (hrun : fs.foldlM (runOnFunction isPure fuel) s = .ok s') : Kept isPure m s'.1 := by
  induction fs generalizing s with
  | nil =>
    cases hrun
    exact h
  | cons f fs ih =>
    rw [List.foldlM_cons] at hrun
    obtain ⟨t, ht, hrun⟩ := Exec.bind_eq_ok.mp hrun
    obtain ⟨marked, hmark, ht⟩ := Exec.bind_eq_ok.mp ht
    cases ht
    apply ih (fun g hg => hfs g (List.mem_cons_of_mem _ hg)) _ hrun
    exact h.sweep hm (hfs f List.mem_cons_self) (mark_spec hmark)

/-- A round that changes nothing finds all instructions marked. -/
theorem round_unchanged {fs : List Nat} {s : Module × Bool}
    (hrun : fs.foldlM (runOnFunction isPure fuel) s = .ok (m', false)) :
    s = (m', false) ∧ ∀ f ∈ fs, ∃ marked, mark isPure m' fuel f = .ok marked ∧
      waitDel m' marked f = [] := by
  induction fs generalizing s with
  | nil =>
    cases hrun
    exact ⟨rfl, by simp⟩
  | cons f fs ih =>
    rw [List.foldlM_cons] at hrun
    obtain ⟨t, ht, hrun⟩ := Exec.bind_eq_ok.mp hrun
    obtain ⟨marked, hmark, ht⟩ := Exec.bind_eq_ok.mp ht
    cases ht
    obtain ⟨he, hfs⟩ := ih hrun
    obtain ⟨hs, hc⟩ := Prod.mk.inj he
    obtain ⟨hfalse, hempty⟩ := Bool.or_eq_false_iff.mp hc
    have hnil : waitDel s.1 marked f = [] := by simpa using hempty
    have hs : s.1 = m' := by rw [← hs, sweep, hnil]; rfl
    rw [hs] at hmark hnil
    refine ⟨Prod.ext hs hfalse, fun g hg => ?_⟩
    rcases List.mem_cons.mp hg with rfl | hg
    · exact ⟨marked, hmark, hnil⟩
    · exact hfs g hg

/-- What the pass leaves of a function is what is needed. -/
theorem runLoop_spec {m₀ : Module} (hm : Parented m₀) (h : Kept isPure m₀ m)
    (hrun : runLoop isPure n fuel m = .ok m') : Kept isPure m₀ m' ∧
      ∀ f < m₀.numFunctions, ∀ i ∈ instructions m' f, Needed isPure m₀ f i := by
  induction fuel generalizing m with
  | zero => cases hrun
  | succ fuel ih =>
    obtain ⟨⟨m₁, changed⟩, hround, hrun⟩ := Exec.bind_eq_ok.mp hrun
    have hkept : Kept isPure m₀ m₁ := by
      apply round_kept hm _ h hround
      intro f hf
      rw [← h.numFunctions]
      exact List.mem_range.mp hf
    cases changed with
    | true => exact ih hkept hrun
    | false =>
      cases hrun
      obtain ⟨-, hfs⟩ := round_unchanged hround
      refine ⟨hkept, fun f hf i hi => ?_⟩
      obtain ⟨marked, hmark, hnil⟩ := hfs f (List.mem_range.mpr (by rw [h.numFunctions]; exact hf))
      rw [← hkept.needed_iff hf, ← mark_spec hmark]
      by_contra hno
      have hdel : i ∈ waitDel m₁ marked f := List.mem_filter.mpr ⟨hi, by simpa using hno⟩
      rw [hnil] at hdel
      cases hdel

theorem mem_run (hm : Parented m) (hrun : run isPure m fuel = .ok m') (hf : f < m.numFunctions)
    (hb : b ∈ (m.functions f).basicBlocks) : i ∈ (m'.blocks b).instrList ↔
      i ∈ (m.blocks b).instrList ∧ Needed isPure m f i := by
  have hrefl : Kept isPure m m := { Swept.refl m with needed := fun _ _ _ _ _ hi _ => hi }
  obtain ⟨hkept, hneeded⟩ := runLoop_spec hm hrefl hrun
  refine ⟨fun hi => ⟨hkept.sub b i hi, ?_⟩, fun ⟨hi, hn⟩ => hkept.needed f hf b hb i hi hn⟩
  apply hneeded f hf i
  apply mem_instructions.mpr
  rw [hkept.functions]
  exact ⟨b, hb, hi⟩

theorem run_swept (hm : Parented m) (hrun : run isPure m fuel = .ok m') : Swept m m' :=
  (runLoop_spec hm { Swept.refl m with needed := fun _ _ _ _ _ hi _ => hi } hrun).1.toSwept

end DeadCode

namespace Mem2Reg

open DeadCode Renaming Dominators Builder

/-- `valueExpr` finds the operands 0 to 3 of every phi. -/
def PhisReadable (m : Module) : Prop :=
  ∀ f < m.numFunctions, ∀ b ∈ (m.functions f).basicBlocks, ∀ i ∈ (m.blocks b).instrList,
    (m.instrs i).isPhi → ∀ n ∈ [0, 1, 2, 3], n < (m.instrs i).operands.length

/-- A store to `v` leads to the end of block `a`, or is in it. -/
def StoredBefore (m : Module) (f : Nat) (v : Value) (a : Nat) : Prop :=
  ∃ s, Stores m (m.functions f).basicBlocks v s ∧ Graph.Reaches (Succ m) s a

/-- Stores to `v` come to block `b` over two of its edges. -/
def StoredTwice (m : Module) (f entry : Nat) (v : Value) (b : Nat) : Prop :=
  ∃ a a', a ≠ a' ∧ ∀ x, x = a ∨ x = a' →
    Graph.Reaches (Succ m) entry x ∧ Succ m x b ∧ StoredBefore m f v x

theorem length_pairOperands {pairs : List (Value × Nat)} :
    (pairOperands pairs).length = 2 * pairs.length := by
  induction pairs with
  | nil => rfl
  | cons pair pairs ih =>
    rw [pairOperands, List.flatMap_cons, List.length_append, ← pairOperands, ih]
    simp only [List.length_cons, List.length_nil]
    omega

theorem exists_phiVar {m : Module} {i : Nat} (h : (m.instrs i).isPhi) :
    ∃ v, phiVar m i = some v := by
  cases ho : (m.instrs i).opId with
  | phi v => exact ⟨v, by simp [phiVar, ho]⟩
  | _ => simp [Instruction.isPhi, ho] at h

namespace Described

variable {m m' m1 : Module} {a b f p entry fuel : Nat} {v : Value} {origin : Nat → Option Nat}
  {d : Dominators} {phis : Nat → List Nat} {r : Renaming} {addr : Nat → Nat}
  (h : Described m origin addr d f entry fuel m1 phis r m')
include h

theorem storedBefore_iff (ha : Graph.Reaches (Succ m) entry a) :
    StoredBefore m f v a ↔ valsAtEnd m1 r a v ≠ [] := by
  have haf := h.cfg.reaches_mem ha
  rw [valsAtEnd, Ne, h.vals_eq_nil_iff ha (List.append_nil _).symm]
  constructor
  · rintro ⟨s, hs, hsa⟩ ⟨hno, hno'⟩
    rcases Relation.reflTransGen_iff_eq_or_transGen.mp hsa with rfl | hsa
    · obtain ⟨-, i, hi, hv⟩ := hs
      apply hno i ((h.laid.mem_instrList haf).mpr (.inr hi))
      rw [h.laid.storedVar h.inv h.lt haf hi, hv]
    · exact hno' s hs hsa
  · intro hno
    by_contra hstored
    apply hno
    refine ⟨fun k hk hv => hstored ⟨a, ⟨haf, k, ?_⟩, .refl⟩, fun s hs hsa =>
      hstored ⟨s, hs, hsa.to_reflTransGen⟩⟩
    rcases (h.laid.mem_instrList haf).mp hk with hp | hi
    · rw [(h.laid.phi_not_old hp).1] at hv
      cases hv
    · rw [h.laid.storedVar h.inv h.lt haf hi] at hv
      exact ⟨hi, hv⟩

/-- A phi has a pair for each edge over which stores come to it. -/
theorem storedTwice_iff (hb : b ∈ (m.functions f).basicBlocks) (hp : p ∈ phis b)
    (hv : phiVar m1 p = some v) : StoredTwice m f entry v b ↔ 2 ≤ (r.incoming p).length := by
  obtain ⟨keys, -, hw⟩ := h.promoted.walked
  have hp1 := (h.laid.mem_instrList hb).mpr (.inl hp)
  constructor
  · rintro ⟨a, a', hne, hedges⟩
    have hpair : ∀ x, x = a ∨ x = a' → ∃ y, (y, x) ∈ r.incoming p := by
      intro x hx
      obtain ⟨hr, hs, hst⟩ := hedges x hx
      obtain ⟨y, ys, hys⟩ := List.exists_cons_of_ne_nil ((h.storedBefore_iff hr).mp hst)
      have hs1 : b ∈ (m1.blocks x).succBbs := by
        rw [h.laid.blocks x (h.cfg.reaches_mem hr)]
        exact hs
      exact ⟨y, (hw.edges x (h.mem_order.mpr hr) b hs1 p hp1 v hv).1 y (by rw [hys]; rfl)⟩
    obtain ⟨y, hy⟩ := hpair a (.inl rfl)
    obtain ⟨y', hy'⟩ := hpair a' (.inr rfl)
    have hmem : ∀ x, x = a ∨ x = a' → x ∈ (r.incoming p).map Prod.snd := by
      rintro x (rfl | rfl)
      · exact List.mem_map.mpr ⟨_, hy, rfl⟩
      · exact List.mem_map.mpr ⟨_, hy', rfl⟩
    have hsub : [a, a'].Subperm ((r.incoming p).map Prod.snd) := by
      apply List.Nodup.subperm (by simp [hne])
      intro x hx
      exact hmem x (by simpa using hx)
    simpa using hsub.length_le
  · intro hlen
    obtain ⟨⟨x, a⟩, ⟨x', a'⟩, rest, hrest⟩ : ∃ q q' rest, r.incoming p = q :: q' :: rest := by
      cases hl : r.incoming p with
      | nil => simp [hl] at hlen
      | cons q qs =>
        cases qs with
        | nil => simp [hl] at hlen
        | cons q' rest => exact ⟨q, q', rest, rfl⟩
    have hnd := hw.incoming_nodup p
    rw [hrest] at hnd
    have hne : a ≠ a' := by
      rintro rfl
      simp at hnd
    refine ⟨a, a', hne, ?_⟩
    have hedge : ∀ q ∈ r.incoming p, Graph.Reaches (Succ m) entry q.2 ∧ Succ m q.2 b ∧
        StoredBefore m f v q.2 := by
      intro q hq
      obtain ⟨hr, hs, -⟩ := h.incoming_pair hb hp hq
      refine ⟨hr, hs, (h.storedBefore_iff hr).mpr fun hnil => ?_⟩
      obtain ⟨-, s, -, -, v', hv', hval⟩ := hw.incoming p q hq
      rw [hv] at hv'
      cases hv'
      rw [hnil] at hval
      cases hval
    rintro y (rfl | rfl)
    · exact hedge (x, y) (by simp [hrest])
    · exact hedge (x', y) (by simp [hrest])

end Described

theorem parented_of_between {m m' : Module} {origin : Nat → Option Nat} (hm : Inv m origin)
    (h : Between m (· < m.numFunctions) m') : Parented m' where
  instr b i hi := (h.mem b i hi).2
  block f hf b hb := by
    rw [h.functions] at hb
    rw [h.numFunctions] at hf
    rw [h.blocks b]
    exact ((hm.mem_blocks hf).mp hb).2

variable {m m' m'' : Module} {isPure : Nat → Bool} {fuel fuel' : Nat}

/-- The phis of the module that `DeadCode` leaves have all the operands that GVN reads exactly when
stores to the variable come over two edges, for each phi that a critical instruction depends on. -/
theorem run_phisReadable_iff {program : ASTProgram} {addr : Value → Nat}
    (h : buildModule program = some m) (haddr : Function.Injective addr)
    (hrun : run m addr fuel = .ok m') (hdce : DeadCode.run isPure m' fuel' = .ok m'') :
    PhisReadable m'' ↔ ∀ f < m.numFunctions, ∀ entry,
      (m.functions f).basicBlocks.head? = some entry → ∀ b ∈ (m.functions f).basicBlocks,
        ∀ p ∈ (m'.blocks b).instrList, ∀ v, phiVar m' p = some v → Needed isPure m' f p →
          StoredTwice m f entry v b := by
  obtain ⟨origin, hm⟩ := CminusfBuilder.buildModule_inv h
  obtain ⟨hbet, d, n, hdesc⟩ := describe hm haddr hrun
  have hpar := parented_of_between hm hbet
  have hswept := run_swept hpar hdce
  -- both sides are about the phis of `m'` that are needed
  have hphi : ∀ f < m.numFunctions, ∀ entry, (m.functions f).basicBlocks.head? = some entry →
      ∀ b ∈ (m.functions f).basicBlocks, ∀ p ∈ (m'.blocks b).instrList, ∀ v,
        phiVar m' p = some v → (StoredTwice m f entry v b ↔ 4 ≤ (m'.instrs p).operands.length) := by
    intro f hf entry hh b hb p hp v hv
    obtain ⟨m1, phis, r, hd⟩ := hdesc f hf entry hh
    have hphi : (m'.instrs p).isPhi := isPhi_of_phiVar hv
    have hp' := ((hd.mem_final_cases hb hp).resolve_right fun ho => ho.2 hphi).1
    have hv1 : phiVar m1 p = some v := by
      rw [phiVar, hd.promoted.instrs b hb p hp] at hv
      exact hv
    rw [hd.storedTwice_iff hb hp' hv1, hd.operands_phi hb hp', length_pairOperands]
    omega
  constructor
  · intro hread f hf entry hh b hb p hp v hv hn
    rw [hphi f hf entry hh b hb p hp v hv]
    have hp'' := (mem_run hpar hdce (by rw [hbet.numFunctions]; exact hf)
      (by rw [hbet.functions]; exact hb)).mpr ⟨hp, hn⟩
    have := hread f (by rw [hswept.numFunctions, hbet.numFunctions]; exact hf) b
      (by rw [hswept.functions, hbet.functions]; exact hb) p hp''
      (by rw [hswept.instrs]; exact isPhi_of_phiVar hv) 3 (by simp)
    rwa [hswept.instrs] at this
  · intro hstored f hf b hb p hp hisPhi n hn
    rw [hswept.numFunctions, hbet.numFunctions] at hf
    rw [hswept.functions, hbet.functions] at hb
    rw [hswept.instrs] at hisPhi ⊢
    obtain ⟨hp', hneeded⟩ := (mem_run hpar hdce (by rw [hbet.numFunctions]; exact hf)
      (by rw [hbet.functions]; exact hb)).mp hp
    obtain ⟨entry, hh⟩ := exists_head hb
    obtain ⟨v, hv⟩ := exists_phiVar hisPhi
    have hlen := (hphi f hf entry hh b hb p hp' v hv).mp
      (hstored f hf entry hh b hb p hp' v hv hneeded)
    have hn3 : n ≤ 3 := by
      simp only [List.mem_cons, List.not_mem_nil, or_false] at hn
      omega
    omega

/-- `int main(void) { int x; if (input()) x = 1; return x; }`. -/
def maybeProgram : ASTProgram :=
  let x : ASTExpression := .simple (.ofTerm (.ofFactor (.var (.scalar "x"))))
  let input : ASTExpression := .simple (.ofTerm (.ofFactor (.call "input" [])))
  ⟨[.fun ⟨.int, "main", [], [⟨.int, "x", none⟩],
    [.selection input (.expressionStmt (some (.assign (.scalar "x") (Dominators.literal 1)))),
      .return (some x)]⟩]⟩

/-- Some phi has less than two pairs. -/
def shortPhi (m : Module) : Bool :=
  (List.range m.numFunctions).any fun f => (m.functions f).basicBlocks.any fun b =>
    (m.blocks b).instrList.any fun i => (m.instrs i).isPhi && (m.instrs i).operands.length < 4

theorem not_phisReadable_of_shortPhi (h : shortPhi m) : ¬ PhisReadable m := by
  intro hread
  simp only [shortPhi, List.any_eq_true, List.mem_range, Bool.and_eq_true, decide_eq_true_eq] at h
  obtain ⟨f, hf, b, hb, i, hi, hphi, hlen⟩ := h
  have := hread f hf b hb i hi hphi 3 (by simp)
  omega

theorem maybeProgram_module : ∃ m, buildModule maybeProgram = some m ∧
    ∃ m', run m Value.code 20 = .ok m' ∧
      ∃ m'', DeadCode.run (fun _ => false) m' 20 = .ok m'' ∧ shortPhi m'' := by
  obtain ⟨m, hm, h⟩ := exists_buildModule maybeProgram
    (fun m => (run m Value.code 20).toOption.any fun m' =>
      (DeadCode.run (fun _ => false) m' 20).toOption.any shortPhi) (by decide +kernel)
  obtain ⟨m', hrun, h⟩ := (Option.any_eq_true _ _).mp h
  obtain ⟨m'', hdce, h⟩ := (Option.any_eq_true _ _).mp h
  exact ⟨m, hm, m', Exec.ok_of_toOption hrun, m'', Exec.ok_of_toOption hdce, h⟩

theorem run_phisReadable_iff_maybeProgram : ∃ m, buildModule maybeProgram = some m ∧
    ∃ m', run m Value.code 20 = .ok m' ∧ ∃ m'', DeadCode.run (fun _ => false) m' 20 = .ok m'' ∧
      (PhisReadable m'' ↔ ∀ f < m.numFunctions, ∀ entry,
        (m.functions f).basicBlocks.head? = some entry → ∀ b ∈ (m.functions f).basicBlocks,
          ∀ p ∈ (m'.blocks b).instrList, ∀ v, phiVar m' p = some v →
            Needed (fun _ => false) m' f p → StoredTwice m f entry v b) := by
  obtain ⟨m, hm, m', hrun, m'', hdce, -⟩ := maybeProgram_module
  exact ⟨m, hm, m', hrun, m'', hdce, run_phisReadable_iff hm Value.code_injective hrun hdce⟩

/-- The phi of `x` has no pair for the edge on which `x` has no value, and it is returned. -/
theorem not_phisReadable_maybeProgram : ∃ m, buildModule maybeProgram = some m ∧
    ∃ addr, Function.Injective addr ∧ ∃ fuel m', run m addr fuel = .ok m' ∧
      ∃ isPure m'', DeadCode.run isPure m' fuel = .ok m'' ∧ ¬ PhisReadable m'' := by
  obtain ⟨m, hm, m', hrun, m'', hdce, h⟩ := maybeProgram_module
  exact ⟨m, hm, Value.code, Value.code_injective, 20, m', hrun, fun _ => false, m'', hdce,
    not_phisReadable_of_shortPhi h⟩

end Mem2Reg

end Cminusf
