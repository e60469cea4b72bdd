import Cminusf.Builder.Cfg

/-! The control-flow graph of every module that the visitors build is well formed. -/

namespace Cminusf

namespace Builder

/-- The blocks to which the terminator of `b` may branch, as often as it names them. -/
def targets (m : Module) (b : Nat) : List Nat :=
  match m.getTerminator b with
  | some i => labels (m.instrs i).operands
  | none => []

/-- The terminators of a module and its two lists of edges agree. -/
structure WellFormedCfg (m : Module) : Prop where
  terminator : ∀ f < m.numFunctions, ∀ b ∈ (m.functions f).basicBlocks,
    ∃ is i, (m.blocks b).instrList = is ++ [i] ∧ (m.instrs i).isTerminator ∧
      ∀ j ∈ is, ¬ (m.instrs j).isTerminator
  succ : ∀ a < m.numBlocks, ∀ b < m.numBlocks,
    (m.blocks a).succBbs.count b = (targets m a).count b
  pre : ∀ a < m.numBlocks, ∀ b < m.numBlocks,
    (m.blocks b).preBbs.count a = (targets m a).count b
  entry : ∀ f < m.numFunctions, ∀ entry, (m.functions f).basicBlocks.head? = some entry →
    (m.blocks entry).preBbs = []
  pre_length : ∀ f < m.numFunctions, ∀ b ∈ (m.functions f).basicBlocks,
    (m.blocks b).preBbs.length ≤ 2

section

variable {m : Module} {origin : Nat → Option Nat} {a b i : Nat}

theorem getTerminator_eq_some (h : m.getTerminator b = some i) :
    (m.blocks b).instrList.getLast? = some i ∧ (m.instrs i).isTerminator := by
  unfold Module.getTerminator at h
  split at h
  · rename_i j hlast
    split at h
    · rename_i ht
      cases h
      exact ⟨hlast, ht⟩
    · cases h
  · cases h

/-- A terminated block has no terminator before its last instruction. -/
theorem Inv.instrList_eq (h : Inv m origin) (hb : b < m.numBlocks) (ht : m.getTerminator b = some i) :
    ∃ is, (m.blocks b).instrList = is ++ [i] ∧ (m.instrs i).isTerminator ∧
      ∀ j ∈ is, ¬ (m.instrs j).isTerminator := by
  obtain ⟨hlast, hterm⟩ := getTerminator_eq_some ht
  obtain ⟨is, his⟩ := List.getLast?_eq_some_iff.mp hlast
  refine ⟨is, his, hterm, fun j hj hjt => ?_⟩
  have hmem : j ∈ (m.blocks b).instrList := by
    rw [his]
    exact List.mem_append_left _ hj
  -- Another terminator would be the last instruction too, but the list has no duplicates.
  have hjlast := h.terminator b hb j hmem hjt
  obtain rfl : i = j := Option.some.inj (hlast.symm.trans hjlast)
  have hsorted := h.instr_sorted b hb
  rw [his, List.pairwise_append] at hsorted
  exact lt_irrefl _ (hsorted.2.2 i hj i (by simp))

theorem Inv.targets_nodup (h : Inv m origin) (hb : b < m.numBlocks) : (targets m b).Nodup := by
  unfold targets
  split
  · rename_i i ht
    have hmem := List.mem_of_getLast? (getTerminator_eq_some ht).1
    rcases (h.emits i (h.instr_mem b hb i hmem).1).labels_eq with hl | ⟨-, hl, -⟩
    · rw [hl]
      exact List.nodup_nil
    · exact hl
  · exact List.nodup_nil

/-- Only the terminator of a block names other blocks. -/
theorem Inv.mem_targets (h : Inv m origin) (ha : a < m.numBlocks) :
    b ∈ targets m a ↔ b ∈ (m.blocks a).succBbs := by
  rw [h.succ a ha b]
  constructor
  · intro hb
    unfold targets at hb
    split at hb
    · rename_i i ht
      exact ⟨i, List.mem_of_getLast? (getTerminator_eq_some ht).1, mem_labels.mp hb⟩
    · cases hb
  · rintro ⟨i, hi, hb⟩
    have hbr : (m.instrs i).isTerminator := by
      rcases (h.emits i (h.instr_mem a ha i hi).1).labels_eq with hl | ⟨hbr, -⟩
      · rw [← mem_labels, hl] at hb
        cases hb
      · simp [Instruction.isTerminator, Instruction.isBr, hbr]
    have ht : m.getTerminator a = some i := by
      simp [Module.getTerminator, h.terminator a ha i hi hbr, hbr]
    simpa [targets, ht] using hb

theorem Inv.wellFormedCfg (h : Inv m origin)
    (hclosed : ∀ b < m.numBlocks, (m.getTerminator b).isSome)
    (hpre : ∀ b < m.numBlocks, (m.blocks b).preBbs.length ≤ 2) : WellFormedCfg m := by
  have hcount : ∀ {l l' : List Nat} {x y : Nat}, l.Nodup → l'.Nodup → (x ∈ l ↔ y ∈ l') →
      l.count x = l'.count y := by
    intro l l' x y hl hl' hiff
    by_cases hx : x ∈ l
    · rw [List.count_eq_one_of_mem hl hx, List.count_eq_one_of_mem hl' (hiff.mp hx)]
    · rw [List.count_eq_zero_of_not_mem hx, List.count_eq_zero_of_not_mem (mt hiff.mpr hx)]
  constructor
  · intro f hf b hb
    have hlt := (h.block_mem f hf b hb).1
    obtain ⟨i, hi⟩ := Option.isSome_iff_exists.mp (hclosed b hlt)
    obtain ⟨is, his⟩ := h.instrList_eq hlt hi
    exact ⟨is, i, his⟩
  · intro a ha b _
    exact hcount (h.succ_nodup a ha) (h.targets_nodup ha) (h.mem_targets ha).symm
  · intro a ha b hb
    apply hcount (h.pre_nodup b hb) (h.targets_nodup ha)
    rw [h.pre b hb a, h.mem_targets ha]
    exact and_iff_right ha
  · intro f hf entry he
    exact (h.functionCfg hf he).entry_pre
  · intro f hf b hb
    exact hpre b (h.block_mem f hf b hb).1

end

theorem wellFormedCfg_of_buildModule {p : ASTProgram} {m : Module} (h : buildModule p = some m) :
    WellFormedCfg m := by
  obtain ⟨σ, s, hs, rfl⟩ := CminusfBuilder.buildModule_topLevel h
  exact hs.inv.wellFormedCfg hs.closed hs.pre

/-- `int a[2]; int main(void) { while (a[1]) { if (a[0]) return 1; else { } } return 0; }`. -/
def scanProgram : ASTProgram :=
  let at' (n : BitVec 32) : ASTExpression := .simple (.ofTerm (.ofFactor (.var (.subscript "a"
    (Dominators.literal n)))))
  ⟨[.var ⟨.int, "a", some 2⟩, .fun ⟨.int, "main", [], [],
    [.iteration (at' 1) (.compound [] [.selectionElse (at' 0)
      (.return (some (Dominators.literal 1))) (.compound [] [])]),
    .return (some (Dominators.literal 0))]⟩]⟩

theorem wellFormedCfg_scanProgram : ∃ m, buildModule scanProgram = some m ∧ WellFormedCfg m := by
  obtain ⟨m, hm, -⟩ := exists_buildModule scanProgram (fun _ => True) (by decide +kernel)
  exact ⟨m, hm, wellFormedCfg_of_buildModule hm⟩

end Builder

end Cminusf
