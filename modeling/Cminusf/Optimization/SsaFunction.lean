import Cminusf.Optimization.Ssa

/-! Functions in SSA form, with a check for them that can be run. -/

namespace Graph

variable {α : Type} {E : α → α → Prop} {r d v : α}

/-- A set that no edge leaves but into `d` holds all that is reached around `d`. -/
theorem Avoids.mem_of_closed {s : List α} (hr : r ≠ d → r ∈ s)
    (hs : ∀ a ∈ s, ∀ b, E a b → b ≠ d → b ∈ s) (h : Avoids E r d v) : v ∈ s := by
  induction h with
  | root h => exact hr h
  | step _ he hne ih => exact hs _ ih _ he hne

end Graph

namespace Cminusf

namespace Gvn

open Mem2Reg Dominators

/-- What a function in SSA form satisfies, with its use lists. -/
structure SsaFunction (m : Module) (f entry : Nat) : Prop where
  cfg : FunctionCfg m (m.functions f).basicBlocks entry
  parent : ∀ b ∈ (m.functions f).basicBlocks, ∀ i ∈ (m.blocks b).instrList, (m.instrs i).parent = b
  nodup : ∀ b ∈ (m.functions f).basicBlocks, (m.blocks b).instrList.Nodup
  uses : ∀ v use, use ∈ m.useList v → (m.operands use.val)[use.argNo]? = some v
  placed : ∀ v x k, ⟨.instruction x, k⟩ ∈ m.useList v →
    x ∈ (m.blocks (m.instrs x).parent).instrList
  apart : ∀ b, (m.blocks b).instrList ≠ [] → b ∉ (m.functions f).basicBlocks →
    ∀ q ∈ (m.blocks b).preBbs, q ∉ (m.functions f).basicBlocks
  dominates : ∀ b, Graph.Reaches (Succ m) entry b → ∀ is i js,
    (m.blocks b).instrList = is ++ i :: js → ¬ (m.instrs i).isPhi →
      ∀ v ∈ (m.instrs i).operands, DefinedBefore m entry b is v
  phiDominates : ∀ b ∈ (m.functions f).basicBlocks, ∀ i ∈ (m.blocks b).instrList,
    (m.instrs i).isPhi → ∀ k v c, (m.instrs i).operands[k]? = some v →
      (m.instrs i).operands[k + 1]? = some (.basicBlock c) → Graph.Reaches (Succ m) entry c →
        DefinedBefore m entry c (m.blocks c).instrList v

/-- The blocks reached around `d` in `n` rounds. -/
def around (m : Module) (entry d : Nat) : Nat → List Nat
  | 0 => if entry = d then [] else [entry]
  | n + 1 =>
    let s := around m entry d n
    (s ++ (s.flatMap fun b => (m.blocks b).succBbs).filter (· ≠ d)).dedup

/-- Whether every path to `b` passes `d` before. -/
def strictlyDominates (m : Module) (entry n d b : Nat) : Bool :=
  let s := around m entry d n
  d ≠ b && b ∉ s && (entry = d || entry ∈ s) &&
    s.all fun a => (m.blocks a).succBbs.all fun c => c = d || c ∈ s

/-- `DefinedBefore`, computed. -/
def definedBefore (m : Module) (entry n b : Nat) (is : List Nat) : Value → Bool
  | .instruction j => j ∈ is || strictlyDominates m entry n (m.instrs j).parent b
  | _ => true

def operandsDefined (m : Module) (entry n b : Nat) : List Nat → List Nat → Bool
  | _, [] => true
  | is, i :: js =>
    ((m.instrs i).isPhi || (m.instrs i).operands.all (definedBefore m entry n b is)) &&
      operandsDefined m entry n b (is ++ [i]) js

def pairDefined (m : Module) (entry n : Nat) : Value × Value → Bool
  | (v, .basicBlock c) => definedBefore m entry n c (m.blocks c).instrList v
  | _ => true

def isSsa (m : Module) (f entry n : Nat) : Bool :=
  (m.functions f).basicBlocks.all fun b =>
    decide (m.blocks b).instrList.Nodup && operandsDefined m entry n b [] (m.blocks b).instrList &&
      (m.blocks b).instrList.all fun i =>
        !(m.instrs i).isPhi ||
          ((m.instrs i).operands.zip (m.instrs i).operands.tail).all (pairDefined m entry n)

variable {m m' : Module} {f entry b d i j n fuel : Nat} {v w : Value} {is js js' : List Nat}

theorem strictlyDominates_of_strictlyDominates (h : strictlyDominates m entry n d b) :
    Graph.StrictlyDominates (Succ m) entry d b := by
  simp only [strictlyDominates, Bool.and_eq_true, Bool.or_eq_true, decide_eq_true_eq,
    List.all_eq_true] at h
  obtain ⟨⟨⟨hne, hb⟩, hentry⟩, hclosed⟩ := h
  refine ⟨fun ha => hb ?_, hne⟩
  apply ha.mem_of_closed
  · exact fun h => hentry.resolve_left h
  · exact fun a haS c hac hc => (hclosed a haS c hac).resolve_left hc

theorem definedBefore_of_definedBefore (h : definedBefore m entry n b is v) :
    DefinedBefore m entry b is v := by
  rintro j rfl
  simp only [definedBefore, Bool.or_eq_true, decide_eq_true_eq] at h
  exact h.imp_right strictlyDominates_of_strictlyDominates

theorem defined_of_operandsDefined (h : operandsDefined m entry n b is (js ++ i :: js'))
    (hphi : ¬ (m.instrs i).isPhi) (hv : v ∈ (m.instrs i).operands) :
    DefinedBefore m entry b (is ++ js) v := by
  induction js generalizing is with
  | nil =>
    simp only [List.nil_append, operandsDefined, Bool.and_eq_true, Bool.or_eq_true, List.all_eq_true] at h
    rw [List.append_nil]
    exact definedBefore_of_definedBefore (h.1.resolve_left hphi v hv)
  | cons j js ih =>
    simp only [List.cons_append, operandsDefined, Bool.and_eq_true] at h
    simpa using ih h.2

/-- What the pass returns is in SSA form if the definitions in the function pass the check. -/
theorem ssaFunction_of_isSsa {program : ASTProgram} {addr : Value → Nat}
    (h : buildModule program = some m) (haddr : Function.Injective addr)
    (hrun : run m addr fuel = .ok m') (hf : f < m.numFunctions)
    (hh : (m.functions f).basicBlocks.head? = some entry) (hcheck : isSsa m' f entry n) :
    SsaFunction m' f entry := by
  obtain ⟨origin, hm⟩ := CminusfBuilder.buildModule_inv h
  obtain ⟨hbet, -⟩ := describe hm haddr hrun
  have hcfg := hm.functionCfg hf hh
  have hfun : (m'.functions f).basicBlocks = (m.functions f).basicBlocks := by rw [hbet.functions]
  have hpre : ∀ b, (m'.blocks b).preBbs = (m.blocks b).preBbs := fun b => by rw [hbet.blocks b]
  have hcfg' : FunctionCfg m' (m'.functions f).basicBlocks entry := by
    rw [hfun]
    constructor
    · exact hh
    · rw [hbet.succ]
      exact hcfg.closed
    · rw [hbet.succ]
      intro b hb a
      rw [hpre]
      exact hcfg.pre b hb a
    · rw [hpre]
      exact hcfg.entry_pre
  simp only [isSsa, List.all_eq_true, Bool.and_eq_true, Bool.or_eq_true, decide_eq_true_eq,
    Bool.not_eq_true'] at hcheck
  constructor
  · exact hcfg'
  · exact fun b _ i hi => (hbet.mem b i hi).2
  · exact fun b hb => (hcheck b hb).1.1
  · exact fun v use hu => ((hbet.uses v use).mp hu).2
  · exact fun v x k hu => Module.present_instruction.mp ((hbet.uses v _).mp hu).1
  · intro b hne hb q hq hqf
    rw [hfun] at hb hqf
    rw [hpre] at hq
    have hlt : b < m.numBlocks := by
      by_contra hge
      rw [hbet.restBlocks b (.inr (Nat.le_of_not_lt hge)),
        hm.fresh_block b (Nat.le_of_not_lt hge)] at hne
      exact hne rfl
    obtain ⟨-, hqb⟩ := (hm.pre b hlt q).mp hq
    exact hb (hcfg.closed q hqf b hqb)
  · intro b hb is i js hl hphi v hv
    have hcheck := (hcheck b (hcfg'.reaches_mem hb)).1.2
    rw [hl] at hcheck
    exact defined_of_operandsDefined hcheck hphi hv
  · intro b hb i hi hphi k v c hk hk' _
    have hcheck := ((hcheck b hb).2 i hi).resolve_left (by simp [hphi])
    have hmem : (v, Value.basicBlock c) ∈ (m'.instrs i).operands.zip (m'.instrs i).operands.tail := by
      apply List.mem_of_getElem? (i := k)
      rw [List.getElem?_zip_eq_some, List.getElem?_tail]
      exact ⟨hk, hk'⟩
    exact definedBefore_of_definedBefore (hcheck _ hmem)

end Gvn

end Cminusf
