import Cminusf.Builder.Variables
import Cminusf.Optimization.DominatorTree
import Cminusf.Optimization.Walk

/-! `Mem2Reg` on one function of a module that the visitors have built. The functions
before it have been rewritten already, and those after it are still as they were. -/

namespace Cminusf

namespace Module

variable {m m' : Module} {live live' : Value → Prop}

/-- The function of an instruction. -/
def functionOf (m : Module) (i : Nat) : Nat := (m.blocks (m.instrs i).parent).parent

/-- An instruction is present when it is in the list of its block. -/
def Present (m : Module) (w : Value) : Prop :=
  ∀ i, w = .instruction i → i ∈ (m.blocks (m.instrs i).parent).instrList

theorem present_instruction {i : Nat} :
    m.Present (.instruction i) ↔ i ∈ (m.blocks (m.instrs i).parent).instrList :=
  ⟨fun h => h i rfl, fun h j hj => by cases hj; exact h⟩

theorem UsesOf.congr (h : m.UsesOf live) (hl : ∀ w, m.operands w ≠ [] → (live w ↔ live' w)) :
    m.UsesOf live' := by
  intro v use
  rw [h v use]
  refine and_congr_left fun ho => hl use.val ?_
  intro hnil
  simp [hnil] at ho

end Module

namespace Mem2Reg

open Renaming Builder Dominators

variable {m m' m1 : Module} {b c f g i j p : Nat} {v w : Value} {fs : Nat → Prop}
  {origin : Nat → Option Nat} {d : Dominators} {entry : Nat} {phis : Nat → List Nat}

/-- What the module looks like when the functions of `fs` have been rewritten. -/
structure Between (m : Module) (fs : Nat → Prop) (m' : Module) : Prop where
  functions : m'.functions = m.functions
  numFunctions : m'.numFunctions = m.numFunctions
  globals : m'.globals = m.globals
  numGlobals : m'.numGlobals = m.numGlobals
  numBlocks : m'.numBlocks = m.numBlocks
  numInstrs : m.numInstrs ≤ m'.numInstrs
  blocks : ∀ b, m'.blocks b = { m.blocks b with instrList := (m'.blocks b).instrList }
  restBlocks : ∀ b, ¬ fs (m.blocks b).parent ∨ m.numBlocks ≤ b → m'.blocks b = m.blocks b
  instrs : ∀ i < m.numInstrs, m'.instrs i = { m.instrs i with operands := (m'.instrs i).operands }
  restInstrs : ∀ i < m.numInstrs, ¬ fs (m.functionOf i) → m'.instrs i = m.instrs i
  mem : ∀ b, ∀ i ∈ (m'.blocks b).instrList, i < m'.numInstrs ∧ (m'.instrs i).parent = b
  uses : m'.UsesOf m'.Present
  direct : ∀ b, ∀ i ∈ (m'.blocks b).instrList, DirectAddress m' i
  within : ∀ i, m'.Present (.instruction i) → ∀ j, .instruction j ∈ (m'.instrs i).operands →
    j < m'.numInstrs ∧ m'.functionOf j = m'.functionOf i

/-- Outside function `f` nothing has changed. -/
structure Apart (m : Module) (f : Nat) (m' m'' : Module) : Prop where
  blocks : ∀ b, b < m.numBlocks → (m.blocks b).parent ≠ f → m''.blocks b = m'.blocks b
  instrs : ∀ i, m'.Present (.instruction i) → m'.functionOf i ≠ f → m''.instrs i = m'.instrs i

/-- The blocks of function `f` after `generate_phi`. -/
structure Laid (m : Module) (d : Dominators) (f : Nat) (m1 : Module) (phis : Nat → List Nat) :
    Prop where
  blocks : ∀ b ∈ (m.functions f).basicBlocks,
    m1.blocks b = { m.blocks b with instrList := phis b ++ (m.blocks b).instrList }
  parent : ∀ b, ∀ i ∈ (m1.blocks b).instrList, (m1.instrs i).parent = b
  instrs : ∀ i < m.numInstrs, m.functionOf i = f → m1.instrs i = m.instrs i
  opId : ∀ i < m.numInstrs, (m1.instrs i).opId = (m.instrs i).opId
  phi : ∀ b, ∀ p ∈ phis b, m.numInstrs ≤ p ∧ ∃ v, m1.instrs p = ⟨.phi v, phiType m v, [], b⟩ ∧
    PhiBlock d (Stores m (m.functions f).basicBlocks v) b
  has : ∀ b v, PhiBlock d (Stores m (m.functions f).basicBlocks v) b →
    ∃ p ∈ phis b, m1.instrs p = ⟨.phi v, phiType m v, [], b⟩
  nodup : ∀ b, (phis b).Nodup
  unique : ∀ b, ∀ p ∈ phis b, ∀ q ∈ phis b, (m1.instrs p).opId = (m1.instrs q).opId → p = q

theorem initial_between (h : Inv m origin) : Between m (fun _ => False) m where
  functions := rfl
  numFunctions := rfl
  globals := rfl
  numGlobals := rfl
  numBlocks := rfl
  numInstrs := le_rfl
  blocks _ := rfl
  restBlocks _ _ := rfl
  instrs _ _ := rfl
  restInstrs _ _ _ := rfl
  mem b i hi := by
    by_cases hb : b < m.numBlocks
    · exact h.instr_mem b hb i hi
    · rw [h.fresh_block b (Nat.le_of_not_lt hb)] at hi
      cases hi
  uses := by
    have huses : m.UsesOf fun _ => True := fun v use => by simpa using h.useList v use
    refine huses.congr fun w hw => ⟨fun _ i hi => ?_, fun _ => trivial⟩
    subst hi
    by_cases hi : i < m.numInstrs
    · exact (h.instr_parent i hi).2
    · exact absurd (h.fresh_instr i (Nat.le_of_not_lt hi)) hw
  direct b i hi := by
    by_cases hb : b < m.numBlocks
    · exact h.directAddress (h.instr_mem b hb i hi).1
    · rw [h.fresh_block b (Nat.le_of_not_lt hb)] at hi
      cases hi
  within i hi j hj := by
    by_cases hlt : i < m.numInstrs
    · obtain ⟨h1, -, h3⟩ := h.operand_parent hlt hj
      exact ⟨h1.trans hlt, h3⟩
    · rw [h.fresh_instr i (Nat.le_of_not_lt hlt)] at hj
      cases hj

section

variable {s : PhiState} {addr : Nat → Nat}

/-- The phis of a function are in its blocks. -/
theorem phis_mem (hd : IsAnalysed m addr (m.functions f).basicBlocks entry d)
    (hph : PhiBlock d (Stores m (m.functions f).basicBlocks v) b) : b ∈ (m.functions f).basicBlocks :=
  hd.phiBlock_mem (fun _ hx => hx.1) hph

theorem Between.opId (h : Between m fs m') (hi : i < m.numInstrs) :
    (m'.instrs i).opId = (m.instrs i).opId := by rw [h.instrs i hi]

theorem isLocal_congr (hop : ∀ j < m.numInstrs, (m'.instrs j).opId = (m.instrs j).opId)
    (hv : ∀ j, v = .instruction j → j < m.numInstrs) : isLocal m' v = isLocal m v := by
  cases v with
  | instruction j => simp only [isLocal, Module.isGepInstr, Instruction.isGep, hop j (hv j rfl)]
  | _ => rfl

theorem storedVar_congr (hm : Inv m origin) (hi : i < m.numInstrs) (hins : m'.instrs i = m.instrs i)
    (hop : ∀ j < m.numInstrs, (m'.instrs j).opId = (m.instrs j).opId) :
    storedVar m' i = storedVar m i := by
  by_cases hl : (m.instrs i).isStore
  · obtain ⟨val, ptr, hops, hp, -⟩ := (hm.emits_of_opId hi (opId_of_isStore hl)).store_operands
    have hloc : isLocal m' ptr = isLocal m ptr :=
      isLocal_congr hop fun j hj => (hp.available j hj).1.trans hi
    simp only [storedVar, hins, Instruction.getOperand, hops, hl, if_true, List.getElem?_cons_succ,
      List.getElem?_cons_zero, Option.filter_some, hloc]
  · simp [storedVar, hins, hl]

theorem loadedVar_congr (hm : Inv m origin) (hi : i < m.numInstrs) (hins : m'.instrs i = m.instrs i)
    (hop : ∀ j < m.numInstrs, (m'.instrs j).opId = (m.instrs j).opId) :
    loadedVar m' i = loadedVar m i := by
  by_cases hl : (m.instrs i).isLoad
  · obtain ⟨ptr, hops, hp, -⟩ := (hm.emits_of_opId hi (opId_of_isLoad hl)).load_operands
    have hloc : isLocal m' ptr = isLocal m ptr :=
      isLocal_congr hop fun j hj => (hp.available j hj).1.trans hi
    simp only [loadedVar, hins, Instruction.getOperand, hops, hl, if_true, List.getElem?_cons_zero,
      Option.filter_some, hloc]
  · simp [loadedVar, hins, hl]

theorem Between.stores (h : Between m fs m') (hm : Inv m origin) (hf : f < m.numFunctions)
    (hfs : ¬ fs f) : Stores m' (m.functions f).basicBlocks v b ↔
      Stores m (m.functions f).basicBlocks v b := by
  refine and_congr_right fun hb => ?_
  obtain ⟨hlt, hp⟩ := (hm.mem_blocks hf).mp hb
  rw [h.restBlocks b (.inl (by rwa [hp]))]
  refine exists_congr fun i => and_congr_right fun hi => ?_
  obtain ⟨hi, hpi⟩ := hm.instr_mem b hlt i hi
  rw [storedVar_congr hm hi (h.restInstrs i hi (by rwa [Module.functionOf, hpi, hp]))
    fun j hj => h.opId hj]

/-- `generate_phi` on function `f`. -/
theorem Between.places (h : Between m fs m') (hm : Inv m origin) (hf : f < m.numFunctions)
    (hd : IsAnalysed m addr (m.functions f).basicBlocks entry d) (hs : Places m' s phis)
    (hhas : ∀ b v, (b, v) ∈ s.bbHasVarPhi ↔
      PhiBlock d (Stores m (m.functions f).basicBlocks v) b) :
    Between m (fun g => fs g ∨ g = f) s.module := by
  have hold : ∀ i, i < m'.numInstrs → s.module.instrs i = m'.instrs i :=
    fun i hi => hs.instrs i (.inl hi)
  have hphi : ∀ b, ∀ p ∈ phis b, m'.numInstrs ≤ p ∧ p < s.module.numInstrs ∧
      b ∈ (m.functions f).basicBlocks ∧ ∃ v, s.module.instrs p = ⟨.phi v, phiType m' v, [], b⟩ := by
    intro b p hp
    obtain ⟨h1, h2, v, h3, h4⟩ := hs.phi b p hp
    exact ⟨h1, h2, phis_mem hd ((hhas b v).mp h4), v, h3⟩
  have hnone : ∀ b, b ∉ (m.functions f).basicBlocks → s.module.blocks b = m'.blocks b := by
    intro b hb
    rw [hs.blocks b, List.eq_nil_iff_forall_not_mem.mpr fun p hp => hb (hphi b p hp).2.2.1]
    rfl
  have hmem : ∀ b, ∀ i ∈ (s.module.blocks b).instrList, i ∈ phis b ∨ i ∈ (m'.blocks b).instrList := by
    intro b i hi
    rw [hs.blocks b] at hi
    exact List.mem_append.mp hi
  have hfn : ∀ i, i < m'.numInstrs → s.module.functionOf i = m'.functionOf i := by
    intro i hi
    rw [Module.functionOf, hold i hi, hs.blocks]
    rfl
  have hpres : ∀ i, s.module.Present (.instruction i) → i < m'.numInstrs ∨
      (s.module.instrs i).operands = [] := by
    intro i hi
    rcases hmem _ i (Module.present_instruction.mp hi) with hi | hi
    · obtain ⟨-, -, -, v, hv⟩ := hphi _ i hi
      exact .inr (by rw [hv])
    · exact .inl (h.mem _ i hi).1
  refine ⟨hs.functions.trans h.functions, hs.numFunctions.trans h.numFunctions,
    hs.globals.trans h.globals, hs.numGlobals.trans h.numGlobals, hs.numBlocks.trans h.numBlocks,
    h.numInstrs.trans hs.numInstrs, fun b => ?_, fun b hb => ?_, fun i hi => ?_, fun i hi hfi => ?_,
    fun b i hi => ?_, ?_, fun b i hi => ?_, fun i hi j hj => ?_⟩
  · rw [hs.blocks b, h.blocks b]
  · rw [hnone b fun hbf => ?_]
    · exact h.restBlocks b (hb.imp_left fun hb hfs => hb (.inl hfs))
    · obtain ⟨h1, h2⟩ := (hm.mem_blocks hf).mp hbf
      rcases hb with hb | hb
      · exact hb (.inr h2)
      · omega
  · rw [hold i (hi.trans_le h.numInstrs)]
    exact h.instrs i hi
  · rw [hold i (hi.trans_le h.numInstrs)]
    exact h.restInstrs i hi fun hfs => hfi (.inl hfs)
  · rcases hmem b i hi with hi | hi
    · obtain ⟨-, h2, -, v, hv⟩ := hphi b i hi
      exact ⟨h2, by rw [hv]⟩
    · obtain ⟨h1, h2⟩ := h.mem b i hi
      exact ⟨h1.trans_le hs.numInstrs, by rw [hold i h1, h2]⟩
  · have huses : s.module.UsesOf m'.Present := by
      intro v use
      rw [hs.useList, h.uses v use]
      refine and_congr_right fun hl => ?_
      cases hu : use.val with
      | instruction i =>
        rw [hu] at hl
        have hi := (h.mem _ i (Module.present_instruction.mp hl)).1
        simp only [Module.operands, hold i hi]
      | globalVariable g => simp only [Module.operands, hs.globals]
      | _ => rfl
    refine huses.congr fun w hw => ?_
    cases w with
    | instruction i =>
      by_cases hi : i < m'.numInstrs
      · rw [Module.present_instruction, Module.present_instruction, hold i hi, hs.blocks,
          List.mem_append]
        refine ⟨.inr, fun hor => hor.resolve_left fun hip => ?_⟩
        have := (hphi _ i hip).1
        omega
      · by_cases hi' : i < s.module.numInstrs
        · obtain ⟨b, hb⟩ := hs.covers i (Nat.le_of_not_lt hi) hi'
          obtain ⟨-, -, -, v, hv⟩ := hphi b i hb
          simp [Module.operands, hv] at hw
        · refine iff_of_false (fun hp => ?_) fun hp => ?_
          · exact hi (h.mem _ i (Module.present_instruction.mp hp)).1
          · rcases hmem _ i (Module.present_instruction.mp hp) with hp | hp
            · exact hi' (hphi _ i hp).2.1
            · exact hi (h.mem _ i hp).1
    | _ => simp [Module.Present]
  · intro v j hv hj
    rcases hmem b i hi with hi | hi
    · obtain ⟨-, -, -, u, hu⟩ := hphi b i hi
      simp [hu, Instruction.isLoad, Instruction.isStore] at hv
    · obtain ⟨h1, h2⟩ := h.mem b i hi
      have hpi : m'.Present (.instruction i) := Module.present_instruction.mpr (h2.symm ▸ hi)
      rw [hold i h1] at hv
      have hjm : .instruction j ∈ (m'.instrs i).operands := by
        rcases hv with ⟨-, hv⟩ | ⟨-, hv⟩
        · exact hj ▸ List.mem_of_getElem? hv
        · exact hj ▸ List.mem_of_getElem? hv
      rw [hold j (h.within i hpi j hjm).1]
      exact h.direct b i hi v j hv hj
  · rcases hpres i hi with hlt | hnil
    · have hpi : m'.Present (.instruction i) := by
        rcases hmem _ i (Module.present_instruction.mp hi) with hi | hi
        · have := (hphi _ i hi).1
          omega
        · rw [hold i hlt] at hi
          exact Module.present_instruction.mpr hi
      rw [hold i hlt] at hj
      obtain ⟨h1, h2⟩ := h.within i hpi j hj
      exact ⟨h1.trans_le hs.numInstrs, by rw [hfn j h1, hfn i hlt, h2]⟩
    · rw [hnil] at hj
      cases hj

theorem Between.places_apart (h : Between m fs m') (hm : Inv m origin) (hf : f < m.numFunctions)
    (hd : IsAnalysed m addr (m.functions f).basicBlocks entry d) (hs : Places m' s phis)
    (hhas : ∀ b v, (b, v) ∈ s.bbHasVarPhi ↔
      PhiBlock d (Stores m (m.functions f).basicBlocks v) b) : Apart m f m' s.module where
  blocks b _ hne := by
    have hnil : phis b = [] := by
      rw [List.eq_nil_iff_forall_not_mem]
      intro p hp
      obtain ⟨-, -, v, -, hv⟩ := hs.phi b p hp
      exact hne ((hm.mem_blocks hf).mp (phis_mem hd ((hhas b v).mp hv))).2
    rw [hs.blocks b, hnil]
    rfl
  instrs i hi _ := hs.instrs i (.inl (h.mem _ i (Module.present_instruction.mp hi)).1)

theorem Stores.alloca (hm : Inv m origin) (hf : f < m.numFunctions)
    (h : Stores m (m.functions f).basicBlocks v b) :
    ∃ j, v = .instruction j ∧ (m.instrs j).isAlloca ∧ j < m.numInstrs ∧ m.functionOf j = f := by
  obtain ⟨hb, i, hi, hv⟩ := h
  obtain ⟨hlt, hp⟩ := (hm.mem_blocks hf).mp hb
  obtain ⟨hi, hpi⟩ := hm.instr_mem b hlt i hi
  obtain ⟨⟨j, rfl, hj, hji, hanc⟩, -⟩ := hm.storedVar hi hv
  rw [hpi] at hanc
  exact ⟨j, rfl, hj, hji.trans hi, ((hm.ancestor_lt hanc hlt).2.2).trans hp⟩

theorem Between.laid (h : Between m fs m') (hm : Inv m origin) (hf : f < m.numFunctions)
    (hfs : ¬ fs f) (hd : IsAnalysed m addr (m.functions f).basicBlocks entry d)
    (hs : Places m' s phis) (hhas : ∀ b v, (b, v) ∈ s.bbHasVarPhi ↔
      PhiBlock d (Stores m (m.functions f).basicBlocks v) b) : Laid m d f s.module phis := by
  have hb := h.places hm hf hd hs hhas
  have hty : ∀ {v b}, PhiBlock d (Stores m (m.functions f).basicBlocks v) b →
      phiType m' v = phiType m v := by
    intro v b hph
    obtain ⟨c, hc⟩ := hph.exists_init
    obtain ⟨j, rfl, -, hj, -⟩ := hc.alloca hm hf
    rw [phiType, phiType, Module.getType, Module.getType, h.instrs j hj]
  refine ⟨fun b hbf => ?_, fun b i hi => (hb.mem b i hi).2, fun i hi hfi => ?_,
    fun i hi => hb.opId hi, fun b p hp => ?_, fun b v hph => ?_, hs.nodup, hs.unique⟩
  · obtain ⟨-, hp⟩ := (hm.mem_blocks hf).mp hbf
    rw [hs.blocks b, h.restBlocks b (.inl (by rwa [hp]))]
  · rw [hs.instrs i (.inl (hi.trans_le h.numInstrs))]
    exact h.restInstrs i hi (by rwa [hfi])
  · obtain ⟨h1, -, v, h3, h4⟩ := hs.phi b p hp
    have hph := (hhas b v).mp h4
    exact ⟨h.numInstrs.trans h1, v, by rw [h3, hty hph], hph⟩
  · obtain ⟨p, hp, hpi⟩ := hs.has b v ((hhas b v).mpr hph)
    exact ⟨p, hp, by rw [hpi, hty hph]⟩

end

section

variable (hl : Laid m d f m1 phis) (hm : Inv m origin) (hf : f < m.numFunctions)
  (hb : b ∈ (m.functions f).basicBlocks)
include hl

theorem Laid.mem_instrList (hb : b ∈ (m.functions f).basicBlocks) :
    i ∈ (m1.blocks b).instrList ↔ i ∈ phis b ∨ i ∈ (m.blocks b).instrList := by
  rw [hl.blocks b hb, List.mem_append]

theorem Laid.phiVar_phi (hp : p ∈ phis b) : ∃ v, phiVar m1 p = some v ∧
    m1.instrs p = ⟨.phi v, phiType m v, [], b⟩ ∧
    PhiBlock d (Stores m (m.functions f).basicBlocks v) b := by
  obtain ⟨-, v, hv, hph⟩ := hl.phi b p hp
  exact ⟨v, by simp [phiVar, hv], hv, hph⟩

theorem Laid.phi_not_old (hp : p ∈ phis b) :
    Mem2Reg.storedVar m1 p = none ∧ Mem2Reg.loadedVar m1 p = none := by
  obtain ⟨-, v, hv, -⟩ := hl.phi b p hp
  simp [Mem2Reg.storedVar, Mem2Reg.loadedVar, hv, Instruction.isStore, Instruction.isLoad]

include hm hf hb

/-- An instruction that the visitors have put into a block of the function. -/
theorem Laid.old (hi : i ∈ (m.blocks b).instrList) :
    i < m.numInstrs ∧ m1.instrs i = m.instrs i ∧ (m.instrs i).parent = b ∧ m.functionOf i = f := by
  obtain ⟨hlt, hp⟩ := (hm.mem_blocks hf).mp hb
  obtain ⟨hi, hpi⟩ := hm.instr_mem b hlt i hi
  have hfi : m.functionOf i = f := by rw [Module.functionOf, hpi, hp]
  exact ⟨hi, hl.instrs i hi hfi, hpi, hfi⟩

theorem Laid.storedVar (hi : i ∈ (m.blocks b).instrList) :
    Mem2Reg.storedVar m1 i = Mem2Reg.storedVar m i := by
  obtain ⟨h1, h2, -⟩ := hl.old hm hf hb hi
  exact storedVar_congr hm h1 h2 hl.opId

theorem Laid.loadedVar (hi : i ∈ (m.blocks b).instrList) :
    Mem2Reg.loadedVar m1 i = Mem2Reg.loadedVar m i := by
  obtain ⟨h1, h2, -⟩ := hl.old hm hf hb hi
  exact loadedVar_congr hm h1 h2 hl.opId

theorem Laid.phiVar_old (hi : i ∈ (m.blocks b).instrList) : phiVar m1 i = none := by
  obtain ⟨h1, h2, -⟩ := hl.old hm hf hb hi
  rw [phiVar, h2]
  cases ho : (m.instrs i).opId with
  | phi u => exact absurd ho ((hm.emits i h1).ne_phi u)
  | _ => rfl

/-- A block gives a variable a value when it stores to it or has a phi of it. -/
theorem Laid.def_iff : Def m1 v b ↔ Stores m (m.functions f).basicBlocks v b ∨
    PhiBlock d (Stores m (m.functions f).basicBlocks v) b := by
  constructor
  · rintro ⟨i, hi, hv⟩
    rcases (hl.mem_instrList hb).mp hi with hi | hi
    · obtain ⟨u, hu, -, hph⟩ := hl.phiVar_phi hi
      rw [(hl.phi_not_old hi).1, hu] at hv
      rcases hv with hv | hv
      · cases hv
      · cases hv
        exact .inr hph
    · rw [hl.storedVar hm hf hb hi, hl.phiVar_old hm hf hb hi] at hv
      rcases hv with hv | hv
      · exact .inl ⟨hb, i, hi, hv⟩
      · cases hv
  · rintro (⟨-, i, hi, hv⟩ | hph)
    · exact ⟨i, (hl.mem_instrList hb).mpr (.inr hi), .inl (by rw [hl.storedVar hm hf hb hi, hv])⟩
    · obtain ⟨p, hp, hpi⟩ := hl.has b v hph
      exact ⟨p, (hl.mem_instrList hb).mpr (.inl hp), .inr (by simp [phiVar, hpi])⟩

/-- The part of a block before an instruction of the visitors starts with the phis. -/
theorem Laid.split {is js : List Nat} (hs : (m1.blocks b).instrList = is ++ i :: js)
    (hi : i ∈ (m.blocks b).instrList) :
    ∃ is', is = phis b ++ is' ∧ (m.blocks b).instrList = is' ++ i :: js := by
  rw [hl.blocks b hb] at hs
  rcases List.append_eq_append_iff.mp hs with ⟨is', his, hlist⟩ | ⟨t, hphis, hlist⟩
  · exact ⟨is', his, hlist⟩
  · cases t with
    | nil => exact ⟨[], by simpa using hphis.symm, by simpa using hlist.symm⟩
    | cons k t =>
      cases hlist
      have h1 := (hl.phi b i (by rw [hphis]; simp)).1
      have h2 := (hl.old hm hf hb hi).1
      omega

end

section

variable {addr : Nat → Nat}

theorem mem_of_sorted {is js : List Nat} (hs : (is ++ i :: js).Pairwise (· < ·))
    (hj : j ∈ is ++ i :: js) (hji : j < i) : j ∈ is := by
  obtain ⟨-, hs, -⟩ := List.pairwise_append.mp hs
  rcases List.mem_append.mp hj with hj | hj
  · exact hj
  · rcases List.mem_cons.mp hj with rfl | hj
    · exact absurd hji (lt_irrefl _)
    · have := (List.pairwise_cons.mp hs).1 j hj
      omega

theorem Laid.arranged (hl : Laid m d f m1 phis) (hm : Inv m origin) (hf : f < m.numFunctions)
    (hh : (m.functions f).basicBlocks.head? = some entry)
    (hd : IsAnalysed m addr (m.functions f).basicBlocks entry d) :
    Arranged m1 d.idom (Graph.Reaches (Succ m) entry) := by
  have hcfg := hm.functionCfg hf hh
  have hmem : ∀ {b}, Graph.Reaches (Succ m) entry b →
      b ∈ (m.functions f).basicBlocks ∧ b < m.numBlocks := by
    intro b hb
    have hbf := hcfg.reaches_mem hb
    exact ⟨hbf, ((hm.mem_blocks hf).mp hbf).1⟩
  refine ⟨hl.parent, fun b hb => ?_, fun b hb s hs => ?_, fun b hb => ?_,
    fun b hb is i js hsplit v hv => ?_⟩
  · obtain ⟨hbf, hlt⟩ := hmem hb
    rw [hl.blocks b hbf, List.nodup_append]
    refine ⟨hl.nodup b, (hm.instr_sorted b hlt).imp fun h => h.ne, fun p hp i hi => ?_⟩
    have h1 := (hl.phi b p hp).1
    have h2 := (hm.instr_mem b hlt i hi).1
    omega
  · rw [hl.blocks b (hmem hb).1] at hs
    exact hb.tail hs
  · rw [hl.blocks b (hmem hb).1]
    exact hm.succ_nodup b (hmem hb).2
  · obtain ⟨hbf, hlt⟩ := hmem hb
    have hi : i ∈ (m.blocks b).instrList := by
      refine ((hl.mem_instrList hbf).mp (by rw [hsplit]; simp)).resolve_left fun hip => ?_
      rw [(hl.phi_not_old hip).1] at hv
      cases hv
    obtain ⟨hin, hins, hpi, -⟩ := hl.old hm hf hbf hi
    rw [hl.storedVar hm hf hbf hi] at hv
    obtain ⟨-, w, hops⟩ := hm.storedVar hin hv
    refine ⟨w, by simp [Instruction.getOperand, hins, hops], fun j hj hld => ?_⟩
    subst hj
    obtain ⟨hji, hanc⟩ := (hm.emits i hin).available (w := .instruction j) (by simp [hops]) j rfl
    rw [hpi] at hanc
    obtain ⟨hjb, -, hjp⟩ := hm.ancestor_lt hanc hlt
    have hjm := (hm.instr_parent j (hji.trans hin)).2
    have hjf : (m.instrs j).parent ∈ (m.functions f).basicBlocks :=
      (hm.mem_blocks hf).mpr ⟨hjb, hjp.trans ((hm.mem_blocks hf).mp hbf).2⟩
    obtain ⟨-, hinsj, -⟩ := hl.old hm hf hjf hjm
    rw [hinsj]
    by_cases hjb' : (m.instrs j).parent = b
    · rw [hjb'] at hjm
      obtain ⟨is', rfl, hlist⟩ := hl.split hm hf hbf hsplit hi
      have hsorted := hm.instr_sorted b hlt
      rw [hlist] at hjm hsorted
      exact .inl (List.mem_append_right _ (mem_of_sorted hsorted hjm hji))
    · exact .inr ⟨(hl.mem_instrList hjf).mpr (.inr hjm),
        (hd.idoms.ancestor b hb _).mpr (hm.dominates hf hh hanc), hjb'⟩

theorem Between.walkable (h : Between m fs m') : Walkable m'.Present m' where
  direct := h.direct
  live b i hi := Module.present_instruction.mpr ((h.mem b i hi).2.symm ▸ hi)
  parent b i hi := (h.mem b i hi).2

theorem Between.simulates (h : Between m fs m') (stack : VarValStack) :
    Simulates m'.Present m' (initial stack) ⟨m', stack⟩ where
  represents := by
    have hlive : ∀ w, (initial stack).Live m'.Present w ↔ m'.Present w := by
      intro w
      simp [Renaming.Live, initial]
    refine ⟨rfl, rfl, rfl, rfl, rfl, fun _ => rfl, fun g _ => ?_, fun b => ?_, fun _ => rfl,
      fun i _ => ?_, ?_⟩
    · simp [initial]
    · simp [initial, Renaming.instrList]
    · simp [initial, Renaming.operands, pairOperands, Module.operands]
    · exact h.uses.congr fun w _ => (hlive w).symm
  shaped := ⟨fun v hv => absurd rfl hv, fun i hi => absurd rfl hi⟩
  stack := rfl

theorem walked_initial {idom : Nat → Option Nat} {S : Nat → Prop} {keys : Value → Prop}
    {stack : VarValStack} (hkeys : ∀ v, (stack v).isSome ↔ keys v)
    (hnil : ∀ v, (stack v).getD [] = []) : Walked m1 idom S entry keys (initial stack) := by
  refine ⟨⟨fun _ _ _ _ => Iff.rfl, fun v x hx => ?_, by simp [initial]⟩, by simp [initial],
    by simpa [initial] using hkeys, by simp [initial], by simp [initial], by simp [initial],
    by simp [initial], by simp [initial], by simp [initial], by simp [initial]⟩
  rw [show (initial stack).stack = stack from rfl, hnil v] at hx
  cases hx

end

end Mem2Reg

end Cminusf
