import Cminusf.LightIR.Rewrite
import Cminusf.Optimization.Mem2Reg

/-! The walk of `re_name` over a module that does not change. What the pass does to
the module is kept apart: a substitution on values, the operands added to each phi
and the erased instructions. Two fields only record the history of the walk. -/

namespace Cminusf

structure Renaming where
  sub : Value → Value
  incoming : Nat → List (Value × Nat)
  erased : List Nat
  stack : VarValStack
  /-- The blocks entered so far, and the stacks with which they were entered. -/
  order : List Nat
  entryStack : Nat → VarValStack

namespace Renaming

def initial (stack : VarValStack) : Renaming where
  sub := id
  incoming _ := []
  erased := []
  stack := stack
  order := []
  entryStack _ _ := none

/-- The operands of the completed pairs. -/
def pairOperands (pairs : List (Value × Nat)) : List Value :=
  pairs.flatMap fun pair => [pair.1, .basicBlock pair.2]

def operands (m : Module) (r : Renaming) (i : Nat) : List Value :=
  (m.instrs i).operands.map r.sub ++ pairOperands (r.incoming i)

def instrList (m : Module) (r : Renaming) (bb : Nat) : List Nat :=
  (m.blocks bb).instrList.filter (· ∉ r.erased)

/-- `replace_all_use_with` on an instruction. -/
def replace (r : Renaming) (i : Nat) (val : Value) : Renaming :=
  { r with
    sub := fun v => if r.sub v = .instruction i then val else r.sub v
    incoming := fun p => (r.incoming p).map fun pair =>
      (if pair.1 = .instruction i then val else pair.1, pair.2) }

def addPair (r : Renaming) (i : Nat) (val : Value) (bb : Nat) : Renaming :=
  { r with incoming := Function.update r.incoming i (r.incoming i ++ [(val, bb)]) }

def enter (r : Renaming) (bb : Nat) : Renaming :=
  { r with
    order := r.order ++ [bb]
    entryStack := Function.update r.entryStack bb r.stack }

def pushPhi (m : Module) (r : Renaming) (i : Nat) : Renaming :=
  match Mem2Reg.phiVar m i with
  | some lVal => { r with stack := r.stack.push lVal (.instruction i) }
  | none => r

def renameInstr (m : Module) (s : Renaming × List Nat) (i : Nat) : Exec (Renaming × List Nat) := do
  let (r, waitDelete) := s
  match Mem2Reg.loadedVar m i, Mem2Reg.storedVar m i with
  | some lVal, _ =>
    match r.stack lVal with
    | none => return (r, waitDelete)
    | some [] => throw .undefinedBehaviour
    | some (val :: _) =>
      if val = .instruction i then throw .outOfFuel
      else return (r.replace i val, waitDelete ++ [i])
  | none, some lVal =>
    match (m.instrs i).getOperand 0 with
    | none => throw .undefinedBehaviour
    | some rVal => return ({ r with stack := r.stack.push lVal (r.sub rVal) }, waitDelete ++ [i])
  | none, none => return (r, waitDelete)

def completePhi (m : Module) (bb : Nat) (r : Renaming) (i : Nat) : Exec Renaming :=
  match Mem2Reg.phiVar m i with
  | none => return r
  | some lVal =>
    match r.stack lVal with
    | none => return r
    | some [] => throw .assertion
    | some (val :: _) => return r.addPair i val bb

def walk (m : Module) (d : Dominators) : Nat → Nat → Renaming → Exec Renaming
  | 0, _, _ => throw .outOfFuel
  | fuel + 1, bb, r => do
    let r := (r.instrList m bb).foldl (pushPhi m) (r.enter bb)
    let (r, waitDelete) ← (r.instrList m bb).foldlM (renameInstr m) (r, [])
    let r ← (m.blocks bb).succBbs.foldlM
      (fun r succ => (r.instrList m succ).foldlM (completePhi m bb) r) r
    let r ← (d.domTreeSuccBlocks (some bb)).foldlM (fun r succ => walk m d fuel succ r) r
    let stack ← (r.instrList m bb).foldlM (Mem2Reg.popInstr m) r.stack
    return { r with erased := r.erased ++ waitDelete, stack := stack }

/-- The users that are live in the module and not erased by the walk. -/
def Live (live : Value → Prop) (r : Renaming) (v : Value) : Prop :=
  live v ∧ ∀ i ∈ r.erased, v ≠ .instruction i

/-- The module that the walk over `m` has produced. -/
structure Represents (live : Value → Prop) (m : Module) (r : Renaming) (m' : Module) : Prop where
  functions : m'.functions = m.functions
  numFunctions : m'.numFunctions = m.numFunctions
  numGlobals : m'.numGlobals = m.numGlobals
  numBlocks : m'.numBlocks = m.numBlocks
  numInstrs : m'.numInstrs = m.numInstrs
  globals : ∀ g, m'.globals g = { m.globals g with operands := m'.operands (.globalVariable g) }
  globalOperands : ∀ g, live (.globalVariable g) →
    m'.operands (.globalVariable g) = (m.operands (.globalVariable g)).map r.sub
  blocks : ∀ bb, m'.blocks bb = { m.blocks bb with instrList := r.instrList m bb }
  instrs : ∀ i, m'.instrs i = { m.instrs i with operands := m'.operands (.instruction i) }
  operands : ∀ i, r.Live live (.instruction i) →
    m'.operands (.instruction i) = r.operands m i
  uses : m'.UsesOf (r.Live live)

/-- Addresses are not loaded from memory, and only phis take pairs. -/
structure Shaped (m : Module) (r : Renaming) : Prop where
  sub_load : ∀ v, r.sub v ≠ v → ∃ j, v = .instruction j ∧ (Mem2Reg.loadedVar m j).isSome
  incoming_phi : ∀ i, r.incoming i ≠ [] → (m.instrs i).isPhi

end Renaming

/-- The instruction does not load from or store to an address that was loaded. -/
def DirectAddress (m : Module) (i : Nat) : Prop :=
  ∀ v j, ((m.instrs i).isLoad ∧ (m.instrs i).getOperand 0 = some v ∨
    (m.instrs i).isStore ∧ (m.instrs i).getOperand 1 = some v) →
    v = .instruction j → ¬ (m.instrs j).isLoad

namespace Renaming

variable {m m' : Module} {r : Renaming} {live : Value → Prop} {i bb : Nat} {v val : Value}
  {s : Mem2Reg}

theorem Represents.opId (h : Represents live m r m') (i : Nat) :
    (m'.instrs i).opId = (m.instrs i).opId := by rw [h.instrs i]

theorem Represents.phiVar (h : Represents live m r m') (i : Nat) :
    Mem2Reg.phiVar m' i = Mem2Reg.phiVar m i := by
  simp only [Mem2Reg.phiVar, h.opId]

theorem Represents.isLocal (h : Represents live m r m') (v : Value) :
    Mem2Reg.isLocal m' v = Mem2Reg.isLocal m v := by
  cases v <;> simp [Mem2Reg.isLocal, Module.isGepInstr, Instruction.isGep, h.opId]

theorem Represents.getOperand (h : Represents live m r m') (hs : Shaped m r)
    (hi : r.Live live (.instruction i)) (hphi : ¬ (m.instrs i).isPhi) (k : Nat) :
    (m'.instrs i).getOperand k = ((m.instrs i).getOperand k).map r.sub := by
  have hno : r.incoming i = [] := by
    by_contra hne
    exact hphi (hs.incoming_phi i hne)
  have ho : (m'.instrs i).operands = r.operands m i := h.operands i hi
  rw [Instruction.getOperand, ho, Renaming.operands, hno]
  simp [pairOperands, Instruction.getOperand]

theorem isLoad_of_loadedVar (h : Mem2Reg.loadedVar m i = some v) : (m.instrs i).isLoad := by
  by_contra hl
  simp [Mem2Reg.loadedVar, hl] at h

theorem Shaped.sub_eq (hs : Shaped m r) (hv : ∀ j, v = .instruction j → ¬ (m.instrs j).isLoad) :
    r.sub v = v := by
  by_contra hne
  obtain ⟨j, hj, hl⟩ := hs.sub_load v hne
  obtain ⟨u, hu⟩ := Option.isSome_iff_exists.mp hl
  exact hv j hj (isLoad_of_loadedVar hu)

theorem Represents.filter_address (h : Represents live m r m') (hs : Shaped m r) {x : Option Value}
    (hx : ∀ v, x = some v → ∀ j, v = .instruction j → ¬ (m.instrs j).isLoad) :
    (x.map r.sub).filter (Mem2Reg.isLocal m') = x.filter (Mem2Reg.isLocal m) := by
  cases x with
  | none => rfl
  | some v =>
    rw [Option.map_some, hs.sub_eq (hx v rfl)]
    simp only [Option.filter, h.isLocal]

theorem Represents.loadedVar (h : Represents live m r m') (hs : Shaped m r)
    (hd : DirectAddress m i) (hi : r.Live live (.instruction i)) :
    Mem2Reg.loadedVar m' i = Mem2Reg.loadedVar m i := by
  have hload : (m'.instrs i).isLoad = (m.instrs i).isLoad := by simp [Instruction.isLoad, h.opId]
  simp only [Mem2Reg.loadedVar, hload]
  by_cases hl : (m.instrs i).isLoad
  · have hphi : ¬ (m.instrs i).isPhi := by
      revert hl
      simp only [Instruction.isLoad, Instruction.isPhi]
      cases (m.instrs i).opId <;> simp
    simp only [hl, if_true, h.getOperand hs hi hphi]
    exact h.filter_address hs fun v hv j hj => hd v j (.inl ⟨hl, hv⟩) hj
  · simp [hl]

theorem Represents.storedVar (h : Represents live m r m') (hs : Shaped m r)
    (hd : DirectAddress m i) (hi : r.Live live (.instruction i)) :
    Mem2Reg.storedVar m' i = Mem2Reg.storedVar m i := by
  have hstore : (m'.instrs i).isStore = (m.instrs i).isStore := by
    simp [Instruction.isStore, h.opId]
  simp only [Mem2Reg.storedVar, hstore]
  by_cases hl : (m.instrs i).isStore
  · have hphi : ¬ (m.instrs i).isPhi := by
      revert hl
      simp only [Instruction.isStore, Instruction.isPhi]
      cases (m.instrs i).opId <;> simp
    simp only [hl, if_true, h.getOperand hs hi hphi]
    exact h.filter_address hs fun v hv j hj => hd v j (.inr ⟨hl, hv⟩) hj
  · simp [hl]

theorem pairOperands_map (f : Value → Value) (hf : ∀ b, f (.basicBlock b) = .basicBlock b)
    (pairs : List (Value × Nat)) :
    pairOperands (pairs.map fun pair => (f pair.1, pair.2)) = (pairOperands pairs).map f := by
  simp [pairOperands, List.flatMap_map, List.map_flatMap, hf]

/-- Replacing the uses of a load. -/
theorem Represents.replace (h : Represents live m r m') (hne : val ≠ .instruction i) :
    Represents live m (r.replace i val) (m'.replaceAllUseWith (.instruction i) val) := by
  have hr := Module.replaceAllUseWith_rewires m' (.instruction i) val
  refine ⟨hr.functions.trans h.functions, hr.numFunctions.trans h.numFunctions,
    hr.numGlobals.trans h.numGlobals, hr.numBlocks.trans h.numBlocks,
    hr.numInstrs.trans h.numInstrs, fun g => ?_, fun g hg => ?_, fun b => ?_, fun j => ?_,
    fun j hj => ?_, ?_⟩
  · rw [hr.globals g, h.globals g]
  · rw [Module.operands_replaceAllUseWith h.uses _ _ ⟨hg, by simp⟩, h.globalOperands g hg, List.map_map]
    rfl
  · rw [hr.blocks, h.blocks b]
    rfl
  · rw [hr.instrs j, h.instrs j]
  · rw [Module.operands_replaceAllUseWith h.uses _ _ hj, h.operands j hj]
    simp only [Renaming.operands, Renaming.replace, List.map_append, List.map_map]
    rw [pairOperands_map (fun x => if x = .instruction i then val else x) (by simp)]
    rfl
  · exact Module.usesOf_replaceAllUseWith h.uses hne

/-- Adding the operands of one pair to a phi. -/
theorem Represents.addPair (h : Represents live m r m') (hi : r.Live live (.instruction i)) :
    Represents live m (r.addPair i val bb)
      ((m'.addOperand (.instruction i) val).addOperand (.instruction i) (.basicBlock bb)) := by
  have hr := (Module.addOperand_rewires (m := m') (u := .instruction i) (v := val)).trans
    (Module.addOperand_rewires (u := .instruction i) (v := .basicBlock bb))
  have hother : ∀ w, w ≠ .instruction i →
      ((m'.addOperand (.instruction i) val).addOperand (.instruction i) (.basicBlock bb)).operands w =
        m'.operands w := by
    intro w hw
    rw [Module.operands_addOperand_of_ne hw, Module.operands_addOperand_of_ne hw]
  refine ⟨hr.functions.trans h.functions, hr.numFunctions.trans h.numFunctions,
    hr.numGlobals.trans h.numGlobals, hr.numBlocks.trans h.numBlocks,
    hr.numInstrs.trans h.numInstrs, fun g => ?_, fun g hg => ?_, fun b => ?_, fun j => ?_,
    fun j hj => ?_, ?_⟩
  · rw [hr.globals g, h.globals g]
  · rw [hother _ (by simp), h.globalOperands g hg]
    rfl
  · rw [hr.blocks, h.blocks b]
    rfl
  · rw [hr.instrs j, h.instrs j]
  · by_cases hji : j = i
    · subst hji
      rw [Module.operands_addOperand_self rfl, Module.operands_addOperand_self rfl, h.operands j hj]
      simp [Renaming.operands, Renaming.addPair, pairOperands]
    · rw [hother _ (by simpa using hji), h.operands j hj]
      simp [Renaming.operands, Renaming.addPair, hji]
  · exact Module.usesOf_addOperand (Module.usesOf_addOperand h.uses rfl hi) rfl hi

/-- Erasing an instruction of the block `bb`. -/
theorem Represents.erase (h : Represents live m r m') (hi : (m.instrs i).parent = bb)
    (hm : ∀ b, ∀ j ∈ (m.blocks b).instrList, (m.instrs j).parent = b) :
    Represents live m { r with erased := r.erased ++ [i] } (m'.eraseInstr bb i) := by
  have he := Module.eraseInstr_erases (m := m') (b := bb) (i := i)
  refine ⟨he.functions.trans h.functions, he.numFunctions.trans h.numFunctions,
    he.numGlobals.trans h.numGlobals, he.numBlocks.trans h.numBlocks,
    he.numInstrs.trans h.numInstrs, fun g => ?_, fun g hg => ?_, fun b => ?_, fun j => ?_,
    fun j hj => ?_, ?_⟩
  · rw [he.operands, he.globals]
    exact h.globals g
  · rw [he.operands]
    exact h.globalOperands g hg
  · rw [he.blocks]
    have hfilter : ∀ b, ((m.blocks b).instrList.filter (· ∉ r.erased)).filter (· ≠ i) =
        (m.blocks b).instrList.filter (· ∉ r.erased ++ [i]) := by
      intro b
      rw [List.filter_filter]
      refine List.filter_congr fun j _ => ?_
      simp [Bool.and_comm]
    by_cases hb : b = bb
    · subst hb
      simp only [Function.update_self, h.blocks b, instrList, hfilter]
    · simp only [Function.update_of_ne hb, h.blocks b, instrList]
      have hself : ((m.blocks b).instrList.filter (· ∉ r.erased)).filter (· ≠ i) =
          (m.blocks b).instrList.filter (· ∉ r.erased) := by
        refine List.filter_eq_self.mpr fun j hj => ?_
        have hjb := hm b j (List.mem_of_mem_filter hj)
        simp only [decide_eq_true_eq]
        rintro rfl
        exact hb (hjb.symm.trans hi)
      rw [← hfilter, hself]
  · rw [he.operands, he.instrs]
    exact h.instrs j
  · rw [he.operands]
    exact h.operands j ⟨hj.1, fun k hk => hj.2 k (by simp [hk])⟩
  · intro v use
    rw [Module.usesOf_eraseInstr h.uses v use]
    simp only [Live, List.mem_append, List.mem_singleton]
    constructor
    · rintro ⟨⟨⟨hl, hr⟩, hne⟩, ho⟩
      refine ⟨⟨hl, fun k hk => ?_⟩, ho⟩
      rcases hk with hk | rfl
      · exact hr k hk
      · exact hne
    · rintro ⟨⟨hl, hr⟩, ho⟩
      exact ⟨⟨⟨hl, fun k hk => hr k (.inl hk)⟩, hr i (.inr rfl)⟩, ho⟩

/-- Erasing the instructions `wait` of the block `bb`. -/
theorem Represents.eraseInstrs (h : Represents live m r m')
    (hm : ∀ b, ∀ j ∈ (m.blocks b).instrList, (m.instrs j).parent = b) (wait : List Nat)
    (hw : ∀ i ∈ wait, (m.instrs i).parent = bb) :
    Represents live m { r with erased := r.erased ++ wait } (Mem2Reg.eraseInstrs m' bb wait) := by
  induction wait generalizing r m' with
  | nil => simpa [Mem2Reg.eraseInstrs] using h
  | cons i wait ih =>
    have := ih (h.erase (hw i List.mem_cons_self) hm) fun j hj => hw j (List.mem_cons_of_mem i hj)
    simpa [Mem2Reg.eraseInstrs] using this

section

variable {s : Mem2Reg} {d : Dominators}

/-- The pass and the walk over `m` are in the same state. -/
structure Simulates (live : Value → Prop) (m : Module) (r : Renaming) (s : Mem2Reg) : Prop where
  represents : Represents live m r s.module
  shaped : Shaped m r
  stack : s.varValStack = r.stack

/-- What the walk needs to know of the module it runs over. -/
structure Walkable (live : Value → Prop) (m : Module) : Prop where
  direct : ∀ b, ∀ i ∈ (m.blocks b).instrList, DirectAddress m i
  live : ∀ b, ∀ i ∈ (m.blocks b).instrList, live (.instruction i)
  parent : ∀ b, ∀ i ∈ (m.blocks b).instrList, (m.instrs i).parent = b

theorem Walkable.live_instrList (hm : Walkable live m) (hi : i ∈ r.instrList m bb) :
    r.Live live (.instruction i) := by
  obtain ⟨hi, hne⟩ := List.mem_filter.mp hi
  refine ⟨hm.live bb i hi, fun j hj he => ?_⟩
  cases he
  simp [hj] at hne

theorem Simulates.withStack (h : Simulates live m r s) {stack stack' : VarValStack}
    (hs : stack' = stack) :
    Simulates live m { r with stack := stack } { s with varValStack := stack' } :=
  ⟨⟨h.1.1, h.1.2, h.1.3, h.1.4, h.1.5, h.1.6, h.1.7, h.1.8, h.1.9, h.1.10, h.1.11⟩,
    ⟨h.2.1, h.2.2⟩, hs⟩

theorem Simulates.pushPhi (h : Simulates live m r s) (i : Nat) :
    Simulates live m (Renaming.pushPhi m r i) (Mem2Reg.pushPhi s i) := by
  simp only [Renaming.pushPhi, Mem2Reg.pushPhi, h.represents.phiVar]
  cases Mem2Reg.phiVar m i with
  | none => exact h
  | some v => exact h.withStack (by rw [h.stack])

theorem Simulates.foldl_pushPhi (h : Simulates live m r s) (is : List Nat) :
    Simulates live m (is.foldl (Renaming.pushPhi m) r) (is.foldl Mem2Reg.pushPhi s) := by
  induction is generalizing r s with
  | nil => exact h
  | cons i is ih => exact ih (h.pushPhi i)

theorem Shaped.replace (hs : Shaped m r) (hi : (Mem2Reg.loadedVar m i).isSome) : Shaped m (r.replace i val) where
  sub_load v hv := by
    by_cases hsub : r.sub v = v
    · by_cases hvi : v = .instruction i
      · exact ⟨i, hvi, hi⟩
      · simp [Renaming.replace, hsub, hvi] at hv
    · exact hs.sub_load v hsub
  incoming_phi p hp := by
    refine hs.incoming_phi p fun he => hp ?_
    simp [Renaming.replace, he]

theorem isStore_of_storedVar (h : Mem2Reg.storedVar m i = some v) : (m.instrs i).isStore := by
  by_contra hl
  simp [Mem2Reg.storedVar, hl] at h

theorem isPhi_of_phiVar (h : Mem2Reg.phiVar m i = some v) : (m.instrs i).isPhi := by
  unfold Mem2Reg.phiVar at h
  unfold Instruction.isPhi
  cases ho : (m.instrs i).opId <;> simp [ho] at h ⊢

theorem Simulates.renameInstr (h : Simulates live m r s) (hd : DirectAddress m i)
    (hi : r.Live live (.instruction i)) (wait : List Nat) :
    Exec.Rel (fun (x : Mem2Reg × List Nat) (y : Renaming × List Nat) =>
        Simulates live m y.1 x.1 ∧ y.1.erased = r.erased ∧ x.2 = y.2 ∧ ∀ j ∈ y.2, j ∈ wait ∨ j = i)
      (Mem2Reg.renameInstr (s, wait) i) (Renaming.renameInstr m (r, wait) i) := by
  simp only [Mem2Reg.renameInstr, Renaming.renameInstr,
    h.represents.loadedVar h.shaped hd hi, h.represents.storedVar h.shaped hd hi, h.stack]
  cases hload : Mem2Reg.loadedVar m i with
  | some v =>
    dsimp only
    cases r.stack v with
    | none => exact .pure ⟨h, rfl, rfl, fun _ => .inl⟩
    | some vals =>
      cases vals with
      | nil => exact .throw _
      | cons val vals =>
        by_cases hself : val = .instruction i
        · simp only [hself, if_true]
          exact .throw _
        · simp only [hself, if_false]
          exact .pure ⟨⟨h.represents.replace hself,
            h.shaped.replace (by simp [hload]), rfl⟩, rfl, rfl, by simp⟩
  | none =>
    cases hstore : Mem2Reg.storedVar m i with
    | none => exact .pure ⟨h, rfl, rfl, fun _ => .inl⟩
    | some v =>
      have hphi : ¬ (m.instrs i).isPhi := by
        have hst := isStore_of_storedVar hstore
        revert hst
        simp only [Instruction.isStore, Instruction.isPhi]
        cases (m.instrs i).opId <;> simp
      simp only [h.represents.getOperand h.shaped hi hphi]
      cases (m.instrs i).getOperand 0 with
      | none => exact .throw _
      | some rVal => exact .pure ⟨h.withStack rfl, rfl, rfl, by simp⟩

theorem Simulates.completePhi (h : Simulates live m r s) (hi : r.Live live (.instruction i)) :
    Exec.Rel (fun x y => Simulates live m y x ∧ y.erased = r.erased)
      (Mem2Reg.completePhi bb s i) (Renaming.completePhi m bb r i) := by
  simp only [Mem2Reg.completePhi, Renaming.completePhi, h.represents.phiVar, h.stack]
  cases hphi : Mem2Reg.phiVar m i with
  | none => exact .pure ⟨h, rfl⟩
  | some v =>
    dsimp only
    cases r.stack v with
    | none => exact .pure ⟨h, rfl⟩
    | some vals =>
      cases vals with
      | nil => exact .throw _
      | cons val vals =>
        refine .pure ⟨⟨h.represents.addPair hi, ⟨h.shaped.sub_load, fun p hp => ?_⟩, rfl⟩, rfl⟩
        by_cases hpi : p = i
        · exact hpi ▸ isPhi_of_phiVar hphi
        · exact h.shaped.incoming_phi p (by simpa [Renaming.addPair, hpi] using hp)

theorem Simulates.popInstr (h : Simulates live m r s) (hd : DirectAddress m i)
    (hi : r.Live live (.instruction i)) (stack : VarValStack) :
    Mem2Reg.popInstr s.module stack i = Mem2Reg.popInstr m stack i := by
  simp only [Mem2Reg.popInstr, h.represents.phiVar, h.represents.storedVar h.shaped hd hi]

theorem Simulates.enter (h : Simulates live m r s) : Simulates live m (r.enter bb) s :=
  ⟨⟨h.1.1, h.1.2, h.1.3, h.1.4, h.1.5, h.1.6, h.1.7, h.1.8, h.1.9, h.1.10, h.1.11⟩,
    ⟨h.2.1, h.2.2⟩, h.stack⟩

theorem Simulates.instrList_eq (h : Simulates live m r s) (b : Nat) :
    (s.module.blocks b).instrList = r.instrList m b := by
  rw [h.represents.blocks b]

theorem Simulates.succBbs_eq (h : Simulates live m r s) (b : Nat) :
    (s.module.blocks b).succBbs = (m.blocks b).succBbs := by
  rw [h.represents.blocks b]

/-- Steps 4 and 5 for a block. -/
theorem Simulates.renameInstrs (h : Simulates live m r s) (hm : Walkable live m) (bb : Nat) :
    Exec.Rel (fun (x : Mem2Reg × List Nat) (y : Renaming × List Nat) =>
        Simulates live m y.1 x.1 ∧ y.1.erased = r.erased ∧ x.2 = y.2 ∧
          ∀ j ∈ y.2, (m.instrs j).parent = bb)
      ((r.instrList m bb).foldlM Mem2Reg.renameInstr (s, []))
      ((r.instrList m bb).foldlM (Renaming.renameInstr m) (r, [])) := by
  refine Exec.Rel.foldlM (fun x y hxy i hi => ?_) ⟨h, rfl, rfl, by simp⟩
  obtain ⟨s', wait⟩ := x
  obtain ⟨r', wait'⟩ := y
  obtain ⟨hs, he, hw, hp⟩ := hxy
  dsimp only at hs he hw hp
  subst hw
  have hlive := hm.live_instrList hi
  have hlive' : r'.Live live (.instruction i) := ⟨hlive.1, by rw [he]; exact hlive.2⟩
  refine (hs.renameInstr (hm.direct bb i (List.mem_of_mem_filter hi)) hlive' wait).mono fun x y hxy => ?_
  refine ⟨hxy.1, hxy.2.1.trans he, hxy.2.2.1, fun j hj => ?_⟩
  rcases hxy.2.2.2 j hj with hj | rfl
  · exact hp j hj
  · exact hm.parent bb j (List.mem_of_mem_filter hi)

/-- Step 6 for a block. -/
theorem Simulates.completePhis (h : Simulates live m r s) (hm : Walkable live m) (bb : Nat)
    (succs : List Nat) :
    Exec.Rel (fun x y => Simulates live m y x ∧ y.erased = r.erased)
      (succs.foldlM (fun s succ => (s.module.blocks succ).instrList.foldlM (Mem2Reg.completePhi bb) s) s)
      (succs.foldlM (fun r succ => (r.instrList m succ).foldlM (Renaming.completePhi m bb) r) r) := by
  refine Exec.Rel.foldlM (fun x y hxy succ _ => ?_) ⟨h, rfl⟩
  rw [hxy.1.instrList_eq]
  have hy : ∀ i ∈ y.instrList m succ, y.Live live (.instruction i) := fun i hi => hm.live_instrList hi
  refine Exec.Rel.mono (R := fun x z => Simulates live m z x ∧ z.erased = y.erased)
    (Exec.Rel.foldlM (fun x z hxz i hi => ?_) ⟨hxy.1, rfl⟩) fun x z hxz => ⟨hxz.1, hxz.2.trans hxy.2⟩
  have hlive : z.Live live (.instruction i) := ⟨(hy i hi).1, by rw [hxz.2]; exact (hy i hi).2⟩
  exact (hxz.1.completePhi hlive).mono fun x w hxw => ⟨hxw.1, hxw.2.trans hxz.2⟩

/-- Step 8 and the erasures for a block. -/
theorem Simulates.leave (h : Simulates live m r s) (hm : Walkable live m) {wait : List Nat}
    (hw : ∀ j ∈ wait, (m.instrs j).parent = bb) :
    Exec.Rel (fun x y => Simulates live m y x)
      (do
        let stack ← (s.module.blocks bb).instrList.foldlM (Mem2Reg.popInstr s.module) s.varValStack
        return ⟨Mem2Reg.eraseInstrs s.module bb wait, stack⟩)
      (do
        let stack ← (r.instrList m bb).foldlM (Mem2Reg.popInstr m) r.stack
        return { r with erased := r.erased ++ wait, stack := stack }) := by
  rw [h.instrList_eq, h.stack]
  have hpop : Exec.Rel Eq ((r.instrList m bb).foldlM (Mem2Reg.popInstr s.module) r.stack)
      ((r.instrList m bb).foldlM (Mem2Reg.popInstr m) r.stack) := by
    refine Exec.Rel.foldlM (fun x y hxy i hi => ?_) rfl
    subst hxy
    rw [h.popInstr (hm.direct bb i (List.mem_of_mem_filter hi)) (hm.live_instrList hi)]
    cases Mem2Reg.popInstr m x i with
    | ok _ => exact .ok rfl
    | error _ => exact .error _
  refine hpop.bind fun stack stack' he => .pure ?_
  have her := h.represents.eraseInstrs hm.parent wait hw
  exact ⟨⟨her.1, her.2, her.3, her.4, her.5, her.6, her.7, her.8, her.9, her.10, her.11⟩,
    ⟨h.shaped.1, h.shaped.2⟩, he⟩

/-- `re_name` is the walk, seen on the module. -/
theorem reName_simulates (hm : Walkable live m) (d : Dominators) (fuel : Nat) :
    ∀ bb r s, Simulates live m r s →
      Exec.Rel (fun x y => Simulates live m y x) (Mem2Reg.reName d fuel bb s) (walk m d fuel bb r) := by
  induction fuel with
  | zero => exact fun _ _ _ _ => .throw _
  | succ fuel ih =>
    intro bb r s h
    have h1 := h.enter.foldl_pushPhi (r := r.enter bb) (r.instrList m bb)
    simp only [Mem2Reg.reName, walk]
    rw [h.instrList_eq bb, h1.instrList_eq bb]
    refine (h1.renameInstrs hm bb).bind ?_
    rintro ⟨s2, wait⟩ ⟨r2, wait'⟩ ⟨h2, -, hw, hp⟩
    dsimp only at h2 hw hp ⊢
    subst hw
    rw [h2.succBbs_eq bb]
    refine (h2.completePhis hm bb _).bind ?_
    rintro s3 r3 ⟨h3, -⟩
    refine (Exec.Rel.foldlM (fun x y hxy c _ => ih c y x hxy) h3).bind fun s4 r4 h4 => ?_
    exact h4.leave hm hp

end

end Renaming

end Cminusf
