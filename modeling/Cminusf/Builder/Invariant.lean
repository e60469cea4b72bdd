import Cminusf.Builder.Sketch
import Mathlib.Data.List.Nodup

/-! Every step of the construction keeps the invariant of the sketch. -/

namespace Cminusf

namespace Builder

variable {m m' m'' : Module} {origin origin' : Nat → Option Nat} {b x : Nat} {ts : List Nat}
  {opId : OpID} {ty : Ty} {ops : List Value} {name : String}

/-- The lists of a block after edges from `b` to `ts` have been added. -/
structure Linked (m : Module) (b : Nat) (ts ss : List Nat) (m' : Module) : Prop where
  functions : m'.functions = m.functions
  numFunctions : m'.numFunctions = m.numFunctions
  globals : m'.globals = m.globals
  numGlobals : m'.numGlobals = m.numGlobals
  numBlocks : m'.numBlocks = m.numBlocks
  instrs : m'.instrs = m.instrs
  numInstrs : m'.numInstrs = m.numInstrs
  useList : m'.useList = m.useList
  parent : ∀ x, (m'.blocks x).parent = (m.blocks x).parent
  instrList : ∀ x, (m'.blocks x).instrList = (m.blocks x).instrList
  preBbs : ∀ x, (m'.blocks x).preBbs = (m.blocks x).preBbs ++ (ts.filter (· = x)).map fun _ => b
  succBbs : ∀ x, (m'.blocks x).succBbs = (m.blocks x).succBbs ++ if x = b then ss else []

theorem linked_pre (m : Module) (b : Nat) (ts : List Nat) :
    Linked m b ts [] (ts.foldl (fun m t => m.addPreBasicBlock t b) m) := by
  induction ts generalizing m with
  | nil => constructor <;> simp
  | cons t ts ih =>
    obtain ⟨h1, h2, h3, h4, h5, h6, h7, h8, h9, h10, h11, h12⟩ := ih (m.addPreBasicBlock t b)
    refine ⟨h1, h2, h3, h4, h5, h6, h7, h8, fun x => ?_, fun x => ?_, fun x => ?_, fun x => ?_⟩
    · rw [List.foldl_cons, h9]
      by_cases hx : x = t <;> simp [Module.addPreBasicBlock, Module.modifyBlock, hx]
    · rw [List.foldl_cons, h10]
      by_cases hx : x = t <;> simp [Module.addPreBasicBlock, Module.modifyBlock, hx]
    · rw [List.foldl_cons, h11]
      by_cases hx : x = t
      · simp [Module.addPreBasicBlock, Module.modifyBlock, hx]
      · simp [Module.addPreBasicBlock, Module.modifyBlock, hx, Ne.symm hx]
    · rw [List.foldl_cons, h12]
      by_cases hx : x = t <;> simp [Module.addPreBasicBlock, Module.modifyBlock, hx]

theorem linked_succ (m : Module) (b : Nat) (ss : List Nat) :
    Linked m b [] ss (ss.foldl (fun m t => m.addSuccBasicBlock b t) m) := by
  induction ss generalizing m with
  | nil => constructor <;> simp
  | cons s ss ih =>
    obtain ⟨h1, h2, h3, h4, h5, h6, h7, h8, h9, h10, h11, h12⟩ := ih (m.addSuccBasicBlock b s)
    refine ⟨h1, h2, h3, h4, h5, h6, h7, h8, fun x => ?_, fun x => ?_, fun x => ?_, fun x => ?_⟩
    · rw [List.foldl_cons, h9]
      by_cases hx : x = b <;> simp [Module.addSuccBasicBlock, Module.modifyBlock, hx]
    · rw [List.foldl_cons, h10]
      by_cases hx : x = b <;> simp [Module.addSuccBasicBlock, Module.modifyBlock, hx]
    · rw [List.foldl_cons, h11]
      by_cases hx : x = b <;> simp [Module.addSuccBasicBlock, Module.modifyBlock, hx]
    · rw [List.foldl_cons, h12]
      by_cases hx : x = b <;> simp [Module.addSuccBasicBlock, Module.modifyBlock, hx]

theorem linked_link (m : Module) (b : Nat) (ts : List Nat) :
    Linked m b ts ts.reverse (link m b ts) := by
  have h := linked_pre m b ts
  have h' := linked_succ (ts.foldl (fun m t => m.addPreBasicBlock t b) m) b ts.reverse
  refine ⟨h'.1.trans h.1, h'.2.trans h.2, h'.3.trans h.3, h'.4.trans h.4, h'.5.trans h.5,
    h'.6.trans h.6, h'.7.trans h.7, h'.8.trans h.8, fun x => ?_, fun x => ?_, fun x => ?_,
    fun x => ?_⟩
  · rw [← h.parent]
    exact h'.parent x
  · rw [← h.instrList]
    exact h'.instrList x
  · rw [link, h'.preBbs x, h.preBbs x]
    simp
  · rw [link, h'.succBbs x, h.succBbs x]
    simp

/-- A module in which `b` ends in a new instruction, with the edges it makes. -/
structure Emitted (m : Module) (b : Nat) (opId : OpID) (ty : Ty) (ops : List Value)
    (m' : Module) : Prop where
  functions : m'.functions = m.functions
  numFunctions : m'.numFunctions = m.numFunctions
  globals : m'.globals = m.globals
  numGlobals : m'.numGlobals = m.numGlobals
  numBlocks : m'.numBlocks = m.numBlocks
  instrs : m'.instrs = Function.update m.instrs m.numInstrs ⟨opId, ty, ops, b⟩
  numInstrs : m'.numInstrs = m.numInstrs + 1
  useList : ∀ v use, use ∈ m'.useList v ↔
    use ∈ m.useList v ∨ use.val = .instruction m.numInstrs ∧ ops[use.argNo]? = some v
  parent : ∀ x, (m'.blocks x).parent = (m.blocks x).parent
  instrList : ∀ x, (m'.blocks x).instrList =
    (m.blocks x).instrList ++ if x = b then [m.numInstrs] else []
  preBbs : ∀ x, (m'.blocks x).preBbs =
    (m.blocks x).preBbs ++ ((labels ops).filter (· = x)).map fun _ => b
  succBbs : ∀ x, (m'.blocks x).succBbs =
    (m.blocks x).succBbs ++ if x = b then (labels ops).reverse else []

theorem emitted (m : Module) (b : Nat) (opId : OpID) (ty : Ty) (ops : List Value) :
    Emitted m b opId ty ops ((link m b (labels ops)).createInstruction opId ty ops b) := by
  have h := linked_link m b (labels ops)
  refine ⟨?_, ?_, ?_, ?_, ?_, ?_, ?_, fun v use => ?_, fun x => ?_, fun x => ?_, fun x => ?_,
    fun x => ?_⟩
  · simp [h.functions]
  · simp [h.numFunctions]
  · simp [h.globals]
  · simp [h.numGlobals]
  · simp [h.numBlocks]
  · simp [h.instrs, h.numInstrs]
  · simp [h.numInstrs]
  · rw [Module.mem_createInstruction_useList, h.useList, h.numInstrs]
  · rw [← h.parent, Module.createInstruction_blocks]
    by_cases hx : x = b <;> simp [hx]
  · rw [← h.instrList, Module.createInstruction_blocks, h.numInstrs]
    by_cases hx : x = b <;> simp [hx]
  · rw [← h.preBbs, Module.createInstruction_blocks]
    by_cases hx : x = b <;> simp [hx]
  · rw [← h.succBbs, Module.createInstruction_blocks]
    by_cases hx : x = b <;> simp [hx]

theorem ValueAt.ne_basicBlock {n t : Nat} {v : Value} (h : ValueAt m origin n b v) :
    v ≠ .basicBlock t := by
  rintro rfl
  exact h

theorem AddressAt.ne_basicBlock {n t : Nat} {v : Value} (h : AddressAt m origin n b v) :
    v ≠ .basicBlock t := by
  rintro rfl
  exact h

theorem labels_values {n : Nat} (h : ∀ v ∈ ops, ValueAt m origin n b v) : labels ops = [] := by
  rw [List.eq_nil_iff_forall_not_mem]
  intro t ht
  exact (h _ (mem_labels.mp ht)).ne_basicBlock rfl

/-- The edges that an instruction makes. -/
theorem Emits.labels_eq {n : Nat} (h : Emits m origin n b opId ty ops) :
    labels ops = [] ∨ opId = .br ∧ (labels ops).Nodup ∧ ∀ t ∈ labels ops, TargetAt m origin b t := by
  have hcons : ∀ v ops, (∀ t, v ≠ .basicBlock t) → labels (v :: ops) = labels ops := by
    intro v ops hv
    cases v <;> first | rfl | exact absurd rfl (hv _)
  have hval : ∀ {v ops}, ValueAt m origin n b v → labels (v :: ops) = labels ops :=
    fun hv => hcons _ _ fun _ => hv.ne_basicBlock
  have haddr : ∀ {v ops}, AddressAt m origin n b v → labels (v :: ops) = labels ops :=
    fun hv => hcons _ _ fun _ => hv.ne_basicBlock
  cases h with
  | binary hx hy => exact .inl ((hval hx).trans (hval hy))
  | cmp hx hy => exact .inl ((hval hx).trans (hval hy))
  | fcmp hx hy => exact .inl ((hval hx).trans (hval hy))
  | zext hx => exact .inl (hval hx)
  | fptosi hx => exact .inl (hval hx)
  | sitofp hx => exact .inl (hval hx)
  | alloca => exact .inl rfl
  | load hp _ => exact .inl (haddr hp)
  | store hv hp => exact .inl ((hval hv).trans (haddr hp))
  | storeArg _ hp => exact .inl ((hcons _ _ (by simp)).trans (haddr hp))
  | gep hp hi =>
    refine .inl (Eq.trans ?_ (labels_values hi))
    exact hp.elim haddr hval
  | call _ _ ha => exact .inl ((hcons _ _ (by simp)).trans (labels_values ha))
  | retVoid => exact .inl rfl
  | ret hx => exact .inl (hval hx)
  | br ht =>
    refine .inr ⟨rfl, List.nodup_singleton _, fun t h => ?_⟩
    rw [List.mem_singleton.mp h]
    exact ht
  | @condBr _ t f hx ht hf hne =>
    have hl : labels [_, .basicBlock t, .basicBlock f] = [t, f] := hval hx
    refine .inr ⟨rfl, by rw [hl]; simp [hne], fun x h => ?_⟩
    rw [hl] at h
    rcases List.mem_cons.mp h with rfl | h
    · exact ht
    · rw [List.mem_singleton.mp h]
      exact hf

theorem Inv.not_terminator (h : Inv m origin) (hb : b < m.numBlocks)
    (hopen : m.getTerminator b = none) : ∀ i ∈ (m.blocks b).instrList, ¬ (m.instrs i).isTerminator := by
  intro i hi ht
  have hlast := h.terminator b hb i hi ht
  simp [Module.getTerminator, hlast, ht] at hopen

theorem Inv.succ_nil (h : Inv m origin) (hb : b < m.numBlocks)
    (hopen : m.getTerminator b = none) : (m.blocks b).succBbs = [] := by
  rw [List.eq_nil_iff_forall_not_mem]
  intro t ht
  obtain ⟨i, hi, hti⟩ := (h.succ b hb t).mp ht
  rcases (h.emits i (h.instr_mem b hb i hi).1).labels_eq with hl | ⟨hbr, -⟩
  · rw [← mem_labels, hl] at hti
    cases hti
  · exact h.not_terminator hb hopen i hi (by simp [Instruction.isTerminator, Instruction.isBr, hbr])

theorem Inv.targetAt {t : Nat} (h : Inv m origin) (hb : b < m.numBlocks)
    (ht : t ∈ (m.blocks b).succBbs) : TargetAt m origin b t := by
  obtain ⟨i, hi, hti⟩ := (h.succ b hb t).mp ht
  obtain ⟨hlt, hp⟩ := h.instr_mem b hb i hi
  rcases (h.emits i hlt).labels_eq with hl | ⟨-, -, hl⟩
  · rw [← mem_labels, hl] at hti
    cases hti
  · exact hp ▸ hl t (mem_labels.mpr hti)

theorem Emitted.keeps (h : Emitted m b opId ty ops m') : Ext m origin m' origin where
  numFunctions := h.numFunctions.ge
  numGlobals := h.numGlobals.ge
  numBlocks := h.numBlocks.ge
  numInstrs := by rw [h.numInstrs]; omega
  instrs i hi := by rw [h.instrs, Function.update_of_ne (by omega)]
  globals g _ := by rw [h.globals]
  returnType f _ := by rw [h.functions]
  paramTypes f _ := by rw [h.functions]
  parent x _ := h.parent x
  origin _ _ := rfl

section

variable {i : Nat}

theorem Emits.labels_nodup {n : Nat} (he : Emits m origin n b opId ty ops) :
    (labels ops).Nodup := by
  rcases he.labels_eq with hl | ⟨-, hl, -⟩
  · rw [hl]
    exact List.nodup_nil
  · exact hl

theorem Emitted.new (h : Emitted m b opId ty ops m') :
    m'.instrs m.numInstrs = ⟨opId, ty, ops, b⟩ := by
  rw [h.instrs, Function.update_self]

theorem Emitted.old (h : Emitted m b opId ty ops m') (hi : i < m.numInstrs) :
    m'.instrs i = m.instrs i := by
  rw [h.instrs, Function.update_of_ne hi.ne]

theorem Emitted.instr_cases (h : Emitted m b opId ty ops m') (hi : i < m'.numInstrs) :
    i < m.numInstrs ∨ i = m.numInstrs := by
  rw [h.numInstrs] at hi
  omega

theorem Emitted.mem_instrList (h : Emitted m b opId ty ops m') (x i : Nat) :
    i ∈ (m'.blocks x).instrList ↔ i ∈ (m.blocks x).instrList ∨ i = m.numInstrs ∧ x = b := by
  rw [h.instrList]
  by_cases hx : x = b <;> simp [hx]

theorem Emitted.mem_succBbs (h : Emitted m b opId ty ops m') (x y : Nat) :
    y ∈ (m'.blocks x).succBbs ↔ y ∈ (m.blocks x).succBbs ∨ y ∈ labels ops ∧ x = b := by
  rw [h.succBbs]
  by_cases hx : x = b <;> simp [hx]

theorem Emitted.mem_preBbs (h : Emitted m b opId ty ops m') (x y : Nat) :
    y ∈ (m'.blocks x).preBbs ↔ y ∈ (m.blocks x).preBbs ∨ x ∈ labels ops ∧ y = b := by
  rw [h.preBbs]
  simp only [List.mem_append, List.mem_map, List.mem_filter, decide_eq_true_eq]
  refine or_congr_right ⟨?_, ?_⟩
  · rintro ⟨t, ⟨ht, rfl⟩, rfl⟩
    exact ⟨ht, rfl⟩
  · rintro ⟨hx, rfl⟩
    exact ⟨x, ⟨hx, rfl⟩, rfl⟩

/-- An instruction of a block is an old one of it, with the operands it had, or the new one. -/
theorem Emitted.mem_cases (h : Emitted m b opId ty ops m') (hm : Inv m origin)
    (hx : x < m.numBlocks) (hi : i ∈ (m'.blocks x).instrList) :
    (i ∈ (m.blocks x).instrList ∧ i < m.numInstrs ∧ m'.instrs i = m.instrs i) ∨
      (i = m.numInstrs ∧ x = b) := by
  rcases (h.mem_instrList x i).mp hi with hi | hnew
  · have hlt := (hm.instr_mem x hx i hi).1
    exact .inl ⟨hi, hlt, h.old hlt⟩
  · exact .inr hnew

theorem Emitted.inv_succ (h : Emitted m b opId ty ops m') (hm : Inv m origin)
    (hx : x < m.numBlocks) (y : Nat) : y ∈ (m'.blocks x).succBbs ↔
      ∃ i ∈ (m'.blocks x).instrList, .basicBlock y ∈ (m'.instrs i).operands := by
  rw [h.mem_succBbs, hm.succ x hx]
  constructor
  · rintro (⟨i, hi, hy⟩ | ⟨hy, rfl⟩)
    · refine ⟨i, (h.mem_instrList x i).mpr (.inl hi), ?_⟩
      rwa [h.old (hm.instr_mem x hx i hi).1]
    · refine ⟨m.numInstrs, (h.mem_instrList x _).mpr (.inr ⟨rfl, rfl⟩), ?_⟩
      rw [h.new]
      exact mem_labels.mp hy
  · rintro ⟨i, hi, hy⟩
    rcases h.mem_cases hm hx hi with ⟨hi, -, hold⟩ | ⟨rfl, rfl⟩
    · rw [hold] at hy
      exact .inl ⟨i, hi, hy⟩
    · rw [h.new] at hy
      exact .inr ⟨mem_labels.mpr hy, rfl⟩

theorem Emitted.inv_pre (h : Emitted m b opId ty ops m') (hm : Inv m origin)
    (hb : b < m.numBlocks) (hx : x < m.numBlocks) (y : Nat) : y ∈ (m'.blocks x).preBbs ↔
      y < m.numBlocks ∧ x ∈ (m'.blocks y).succBbs := by
  rw [h.mem_preBbs, h.mem_succBbs, hm.pre x hx]
  constructor
  · rintro (⟨hy, hxy⟩ | ⟨hxl, rfl⟩)
    · exact ⟨hy, .inl hxy⟩
    · exact ⟨hb, .inr ⟨hxl, rfl⟩⟩
  · rintro ⟨hy, hxy | ⟨hxl, rfl⟩⟩
    · exact .inl ⟨hy, hxy⟩
    · exact .inr ⟨hxl, rfl⟩

/-- A block without successors is no predecessor yet of the blocks it now goes to. -/
theorem Emitted.inv_pre_nodup (h : Emitted m b opId ty ops m') (hm : Inv m origin)
    (hlabels : (labels ops).Nodup) (hnil : (m.blocks b).succBbs = []) (hx : x < m.numBlocks) :
    (m'.blocks x).preBbs.Nodup := by
  rw [h.preBbs]
  refine List.nodup_append.mpr ⟨hm.pre_nodup x hx, ?_, ?_⟩
  · refine List.Nodup.map_on ?_ (hlabels.filter _)
    intro s hs t ht _
    simp only [List.mem_filter, decide_eq_true_eq] at hs ht
    rw [hs.2, ht.2]
  · rintro y hy z hz rfl
    simp only [List.mem_map] at hz
    obtain ⟨-, -, rfl⟩ := hz
    have hsucc := ((hm.pre x hx _).mp hy).2
    rw [hnil] at hsucc
    cases hsucc

theorem Emitted.inv_instr_mem (h : Emitted m b opId ty ops m') (hm : Inv m origin)
    (hx : x < m.numBlocks) (hi : i ∈ (m'.blocks x).instrList) :
    i < m'.numInstrs ∧ (m'.instrs i).parent = x := by
  rw [h.numInstrs]
  rcases h.mem_cases hm hx hi with ⟨hi, hlt, hold⟩ | ⟨rfl, rfl⟩
  · exact ⟨by omega, by rw [hold, (hm.instr_mem x hx i hi).2]⟩
  · exact ⟨by omega, by rw [h.new]⟩

theorem Emitted.inv_instr_parent (h : Emitted m b opId ty ops m') (hm : Inv m origin)
    (hb : b < m.numBlocks) (hi : i < m'.numInstrs) : (m'.instrs i).parent < m'.numBlocks ∧
      i ∈ (m'.blocks (m'.instrs i).parent).instrList := by
  rw [h.numBlocks]
  rcases h.instr_cases hi with hi | rfl
  · obtain ⟨h1, h2⟩ := hm.instr_parent i hi
    rw [h.old hi]
    exact ⟨h1, (h.mem_instrList _ i).mpr (.inl h2)⟩
  · rw [h.new]
    exact ⟨hb, (h.mem_instrList b _).mpr (.inr ⟨rfl, rfl⟩)⟩

theorem Emitted.inv_instr_sorted (h : Emitted m b opId ty ops m') (hm : Inv m origin)
    (hx : x < m.numBlocks) : (m'.blocks x).instrList.Pairwise (· < ·) := by
  rw [h.instrList]
  by_cases hxb : x = b
  · subst hxb
    simp only [if_true, List.pairwise_append, hm.instr_sorted x hx, List.pairwise_singleton,
      true_and, List.mem_singleton]
    rintro i hi _ rfl
    exact (hm.instr_mem x hx i hi).1
  · simpa [hxb] using hm.instr_sorted x hx

theorem Emitted.inv_terminator (h : Emitted m b opId ty ops m') (hm : Inv m origin)
    (hb : b < m.numBlocks) (hopen : m.getTerminator b = none) (hx : x < m.numBlocks)
    (hi : i ∈ (m'.blocks x).instrList) (ht : (m'.instrs i).isTerminator) :
    (m'.blocks x).instrList.getLast? = some i := by
  rw [h.instrList]
  rcases h.mem_cases hm hx hi with ⟨hi, -, hold⟩ | ⟨rfl, rfl⟩
  · rw [hold] at ht
    by_cases hxb : x = b
    · subst hxb
      exact absurd ht (hm.not_terminator hb hopen i hi)
    · simpa [hxb] using hm.terminator x hx i hi ht
  · simp

theorem Emitted.inv_useList (h : Emitted m b opId ty ops m') (hm : Inv m origin) (v : Value)
    (use : Use) : use ∈ m'.useList v ↔ (m'.operands use.val)[use.argNo]? = some v := by
  rw [h.useList, hm.useList]
  obtain ⟨w, k⟩ := use
  cases w with
  | instruction i =>
    by_cases hin : i = m.numInstrs
    · subst hin
      simp [Module.operands, h.new, hm.fresh_instr]
    · simp [Module.operands, h.instrs, hin]
  | globalVariable g => simp [Module.operands, h.globals]
  | _ => simp [Module.operands]

end

theorem Emitted.inv (h : Emitted m b opId ty ops m') (hm : Inv m origin) (hb : b < m.numBlocks)
    (hopen : m.getTerminator b = none) (he : Emits m origin m.numInstrs b opId ty ops) :
    Inv m' origin where
  block_mem f hf x hx := by
    rw [h.functions] at hx
    rw [h.numBlocks, h.parent]
    exact hm.block_mem f (h.numFunctions ▸ hf) x hx
  block_parent x hx := by
    rw [h.numBlocks] at hx
    rw [h.functions, h.numFunctions, h.parent]
    exact hm.block_parent x hx
  block_nodup f hf := by
    rw [h.functions]
    exact hm.block_nodup f (h.numFunctions ▸ hf)
  origin_lt x c hc := by
    rw [h.numBlocks, h.parent, h.parent]
    exact hm.origin_lt x c hc
  origin_none x hx := by
    rw [h.numBlocks] at hx
    rw [h.functions, h.parent]
    exact hm.origin_none x hx
  succ x hx y := h.inv_succ hm (h.numBlocks ▸ hx) y
  succ_nodup x hx := by
    rw [h.numBlocks] at hx
    rw [h.succBbs]
    by_cases hxb : x = b
    · subst hxb
      simpa [hm.succ_nil hb hopen] using List.nodup_reverse.mpr he.labels_nodup
    · simpa [hxb] using hm.succ_nodup x hx
  pre x hx y := by
    rw [h.numBlocks] at hx ⊢
    exact h.inv_pre hm hb hx y
  pre_nodup x hx :=
    h.inv_pre_nodup hm he.labels_nodup (hm.succ_nil hb hopen) (h.numBlocks ▸ hx)
  instr_mem x hx i hi := h.inv_instr_mem hm (h.numBlocks ▸ hx) hi
  instr_parent i hi := h.inv_instr_parent hm hb hi
  instr_sorted x hx := h.inv_instr_sorted hm (h.numBlocks ▸ hx)
  terminator x hx i hi ht := h.inv_terminator hm hb hopen (h.numBlocks ▸ hx) hi ht
  emits i hi := by
    have hext : Ext m origin m' origin := h.keeps
    rcases h.instr_cases hi with hi | rfl
    · rw [h.old hi]
      exact hext.emits hm (hm.instr_parent i hi).1 hi.le (hm.emits i hi)
    · rw [h.new]
      exact hext.emits hm hb le_rfl he
  useList v use := h.inv_useList hm v use
  fresh_instr i hi := by
    rw [h.numInstrs] at hi
    rw [h.instrs, Function.update_of_ne (by omega)]
    exact hm.fresh_instr i (by omega)
  fresh_global g hg := by
    rw [h.numGlobals] at hg
    rw [h.globals]
    exact hm.fresh_global g hg
  fresh_block x hx := by
    rw [h.numBlocks] at hx
    have hxb : x ≠ b := by omega
    simp [h.instrList, hxb, hm.fresh_block x hx]
  global_init := by
    rw [h.globals]
    exact hm.global_init

section

variable {f : Nat}

theorem createBasicBlock_blocks (x : Nat) : (m.createBasicBlock name f).blocks x =
    if x = m.numBlocks then ⟨(if name.isEmpty then "" else "label_") ++ name, f, [], [], []⟩
    else m.blocks x := by
  by_cases hx : x = m.numBlocks <;> simp [Module.createBasicBlock, hx]

theorem createBasicBlock_basicBlocks (g : Nat) :
    ((m.createBasicBlock name f).functions g).basicBlocks =
      (m.functions g).basicBlocks ++ if g = f then [m.numBlocks] else [] := by
  by_cases hg : g = f <;> simp [Module.createBasicBlock, hg]

theorem createBasicBlock_types (g : Nat) :
    ((m.createBasicBlock name f).functions g).returnType = (m.functions g).returnType ∧
      ((m.createBasicBlock name f).functions g).paramTypes = (m.functions g).paramTypes := by
  by_cases hg : g = f <;> simp [Module.createBasicBlock, hg]

theorem createBasicBlock_ext (m : Module) (origin : Nat → Option Nat) (name : String) (f : Nat)
    (o : Option Nat) :
    Ext m origin (m.createBasicBlock name f) (Function.update origin m.numBlocks o) where
  numFunctions := le_rfl
  numGlobals := le_rfl
  numBlocks := Nat.le_succ _
  numInstrs := le_rfl
  instrs _ _ := rfl
  globals _ _ := rfl
  returnType g _ := (createBasicBlock_types g).1
  paramTypes g _ := (createBasicBlock_types g).2
  parent x hx := by rw [createBasicBlock_blocks, if_neg hx.ne]
  origin x hx := Function.update_of_ne hx.ne _ _

/-- A new block, with the origin that makes it the entry of its function or not. -/
theorem createBasicBlock_old (hx : x < m.numBlocks) :
    (m.createBasicBlock name f).blocks x = m.blocks x := by
  rw [createBasicBlock_blocks, if_neg hx.ne]

theorem createBasicBlock_new : (m.createBasicBlock name f).blocks m.numBlocks =
    ⟨(if name.isEmpty then "" else "label_") ++ name, f, [], [], []⟩ := by
  rw [createBasicBlock_blocks, if_pos rfl]

theorem createBasicBlock_block_mem {g : Nat} (hm : Inv m origin) (hg : g < m.numFunctions)
    (hx : x ∈ ((m.createBasicBlock name f).functions g).basicBlocks) :
    x < m.numBlocks + 1 ∧ ((m.createBasicBlock name f).blocks x).parent = g := by
  rw [createBasicBlock_basicBlocks, List.mem_append] at hx
  rcases hx with hx | hx
  · obtain ⟨h1, h2⟩ := hm.block_mem g hg x hx
    exact ⟨by omega, by rw [createBasicBlock_old h1, h2]⟩
  · split at hx
    · rename_i hgf
      rw [List.mem_singleton.mp hx, createBasicBlock_new]
      exact ⟨by omega, hgf.symm⟩
    · cases hx

theorem createBasicBlock_block_nodup {g : Nat} (hm : Inv m origin) (hg : g < m.numFunctions) :
    ((m.createBasicBlock name f).functions g).basicBlocks.Nodup := by
  rw [createBasicBlock_basicBlocks]
  refine List.nodup_append.mpr ⟨hm.block_nodup g hg, by split <;> simp, ?_⟩
  intro x hx y hy
  have hlt := (hm.block_mem g hg x hx).1
  split at hy
  · rw [List.mem_singleton.mp hy]
    omega
  · cases hy

theorem createBasicBlock_origin_lt {o : Option Nat} {c : Nat} (hm : Inv m origin)
    (hsome : ∀ c, o = some c → c < m.numBlocks ∧ (m.blocks c).parent = f)
    (hc : Function.update origin m.numBlocks o x = some c) : c < x ∧ x < m.numBlocks + 1 ∧
      ((m.createBasicBlock name f).blocks c).parent =
        ((m.createBasicBlock name f).blocks x).parent := by
  by_cases hx : x = m.numBlocks
  · subst hx
    rw [Function.update_self] at hc
    obtain ⟨h1, h2⟩ := hsome c hc
    exact ⟨h1, by omega, by rw [createBasicBlock_old h1, createBasicBlock_new, h2]⟩
  · rw [Function.update_of_ne hx] at hc
    obtain ⟨h1, h2, h3⟩ := hm.origin_lt x c hc
    refine ⟨h1, by omega, ?_⟩
    rw [createBasicBlock_old (h1.trans h2), createBasicBlock_old h2, h3]

/-- The new block heads its function's list when the list was empty. -/
theorem createBasicBlock_head_new (hm : Inv m origin) (hf : f < m.numFunctions) :
    ((m.createBasicBlock name f).functions f).basicBlocks.head? = some m.numBlocks ↔
      (m.functions f).basicBlocks = [] := by
  rw [createBasicBlock_basicBlocks, if_pos rfl]
  constructor
  · intro hh
    by_contra hne
    obtain ⟨e, he⟩ := Option.isSome_iff_exists.mp (List.isSome_head?.mpr hne)
    rw [List.head?_append, he] at hh
    have hlt := (hm.block_mem f hf e (List.mem_of_mem_head? he)).1
    have heq := Option.some.inj hh
    omega
  · intro he
    simp [he]

theorem createBasicBlock_head_old (hm : Inv m origin) (hx : x < m.numBlocks) :
    ((m.createBasicBlock name f).functions (m.blocks x).parent).basicBlocks.head? =
      (m.functions (m.blocks x).parent).basicBlocks.head? := by
  have hne : (m.functions (m.blocks x).parent).basicBlocks ≠ [] :=
    List.ne_nil_of_mem (hm.block_parent x hx).2
  obtain ⟨e, he⟩ := Option.isSome_iff_exists.mp (List.isSome_head?.mpr hne)
  rw [createBasicBlock_basicBlocks, List.head?_append, he]
  rfl

/-- A property of the blocks holds of the old ones and of the empty new one. -/
theorem createBasicBlock_blockwise {P : BasicBlock → Prop}
    (hold : ∀ x < m.numBlocks, P (m.blocks x))
    (hnew : ∀ name, P ⟨name, f, [], [], []⟩) (hx : x < (m.createBasicBlock name f).numBlocks) :
    P ((m.createBasicBlock name f).blocks x) := by
  rcases Nat.lt_succ_iff_lt_or_eq.mp hx with hx | rfl
  · rw [createBasicBlock_old hx]
    exact hold x hx
  · rw [createBasicBlock_new]
    exact hnew _

theorem createBasicBlock_pre (hm : Inv m origin)
    (hx : x < (m.createBasicBlock name f).numBlocks) (y : Nat) :
    y ∈ ((m.createBasicBlock name f).blocks x).preBbs ↔
      y < m.numBlocks + 1 ∧ x ∈ ((m.createBasicBlock name f).blocks y).succBbs := by
  rcases Nat.lt_succ_iff_lt_or_eq.mp hx with hx | rfl
  · rw [createBasicBlock_old hx, hm.pre x hx]
    constructor
    · rintro ⟨hy, hxy⟩
      exact ⟨by omega, by rwa [createBasicBlock_old hy]⟩
    · rintro ⟨hy, hxy⟩
      rcases Nat.lt_succ_iff_lt_or_eq.mp hy with hy | rfl
      · rw [createBasicBlock_old hy] at hxy
        exact ⟨hy, hxy⟩
      · rw [createBasicBlock_new] at hxy
        cases hxy
  · rw [createBasicBlock_new]
    simp only [List.not_mem_nil, false_iff, not_and]
    intro hy hxy
    rcases Nat.lt_succ_iff_lt_or_eq.mp hy with hy | rfl
    · rw [createBasicBlock_old hy] at hxy
      have hlt := (hm.targetAt hy hxy).1
      omega
    · rw [createBasicBlock_new] at hxy
      cases hxy

theorem createBasicBlock_inv {o : Option Nat} (hm : Inv m origin) (hf : f < m.numFunctions)
    (hsome : ∀ c, o = some c → c < m.numBlocks ∧ (m.blocks c).parent = f)
    (hnone : o = none ↔ (m.functions f).basicBlocks = []) :
    Inv (m.createBasicBlock name f) (Function.update origin m.numBlocks o) where
  block_mem _ hg _ hx := createBasicBlock_block_mem hm hg hx
  block_parent x hx := by
    rcases Nat.lt_succ_iff_lt_or_eq.mp hx with hx | rfl
    · rw [createBasicBlock_old hx, createBasicBlock_basicBlocks, List.mem_append]
      exact ⟨(hm.block_parent x hx).1, .inl (hm.block_parent x hx).2⟩
    · rw [createBasicBlock_new, createBasicBlock_basicBlocks]
      exact ⟨hf, by simp⟩
  block_nodup _ hg := createBasicBlock_block_nodup hm hg
  origin_lt _ _ hc := createBasicBlock_origin_lt hm hsome hc
  origin_none x hx := by
    rcases Nat.lt_succ_iff_lt_or_eq.mp hx with hx | rfl
    · rw [createBasicBlock_old hx, Function.update_of_ne hx.ne, createBasicBlock_head_old hm hx]
      exact hm.origin_none x hx
    · rw [createBasicBlock_new, Function.update_self, hnone, createBasicBlock_head_new hm hf]
  succ x hx y := by
    rcases Nat.lt_succ_iff_lt_or_eq.mp hx with hx | rfl
    · rw [createBasicBlock_old hx]
      exact hm.succ x hx y
    · simp [createBasicBlock_new]
  succ_nodup _ hx :=
    createBasicBlock_blockwise (P := fun B => B.succBbs.Nodup) hm.succ_nodup (fun _ => by simp) hx
  pre _ hx y := createBasicBlock_pre hm hx y
  pre_nodup _ hx :=
    createBasicBlock_blockwise (P := fun B => B.preBbs.Nodup) hm.pre_nodup (fun _ => by simp) hx
  instr_mem x hx i hi := by
    rcases Nat.lt_succ_iff_lt_or_eq.mp hx with hx | rfl
    · rw [createBasicBlock_old hx] at hi
      exact hm.instr_mem x hx i hi
    · rw [createBasicBlock_new] at hi
      cases hi
  instr_parent i hi := by
    obtain ⟨h1, h2⟩ := hm.instr_parent i hi
    refine ⟨h1.trans (Nat.lt_succ_self _), ?_⟩
    change i ∈ ((m.createBasicBlock name f).blocks (m.instrs i).parent).instrList
    rwa [createBasicBlock_old h1]
  instr_sorted _ hx := createBasicBlock_blockwise
    (P := fun B => B.instrList.Pairwise (· < ·)) hm.instr_sorted (fun _ => by simp) hx
  terminator x hx i hi ht := by
    rcases Nat.lt_succ_iff_lt_or_eq.mp hx with hx | rfl
    · rw [createBasicBlock_old hx] at hi ⊢
      exact hm.terminator x hx i hi ht
    · rw [createBasicBlock_new] at hi
      cases hi
  emits i hi := (createBasicBlock_ext m origin name f o).emits hm (hm.instr_parent i hi).1 hi.le
    (hm.emits i hi)
  useList v use := by
    rw [show (m.createBasicBlock name f).useList = m.useList from rfl, hm.useList]
    cases use.val <;> rfl
  fresh_instr := hm.fresh_instr
  fresh_global := hm.fresh_global
  fresh_block x hx := by
    have hlt : m.numBlocks + 1 ≤ x := hx
    rw [createBasicBlock_blocks, if_neg (by omega)]
    exact hm.fresh_block x (by omega)
  global_init := hm.global_init

theorem createFunction_ext (m : Module) (origin : Nat → Option Nat) (name : String) (retTy : Ty) (paramTypes : List Ty) :
    Ext m origin (m.createFunction name retTy paramTypes) origin where
  numFunctions := Nat.le_succ _
  numGlobals := le_rfl
  numBlocks := le_rfl
  numInstrs := le_rfl
  instrs _ _ := rfl
  globals _ _ := rfl
  returnType g hg := by simp [Module.createFunction, hg.ne]
  paramTypes g hg := by simp [Module.createFunction, hg.ne]
  parent _ _ := rfl
  origin _ _ := rfl

theorem createFunction_inv (hm : Inv m origin) (retTy : Ty) (paramTypes : List Ty) :
    Inv (m.createFunction name retTy paramTypes) origin := by
  have hext := createFunction_ext m origin name retTy paramTypes
  have hold : ∀ g, g < m.numFunctions →
      (m.createFunction name retTy paramTypes).functions g = m.functions g :=
    fun g hg => Function.update_of_ne hg.ne _ _
  have hnew : ((m.createFunction name retTy paramTypes).functions m.numFunctions).basicBlocks = [] := by
    simp [Module.createFunction]
  exact
    { hm with
      block_mem := fun g hg x hx => by
        rcases Nat.lt_succ_iff_lt_or_eq.mp hg with hg | rfl
        · rw [hold g hg] at hx
          exact hm.block_mem g hg x hx
        · rw [hnew] at hx
          cases hx
      block_parent := fun x hx => by
        obtain ⟨h1, h2⟩ := hm.block_parent x hx
        refine ⟨h1.trans (Nat.lt_succ_self _), ?_⟩
        rw [hold]
        · exact h2
        · exact h1
      block_nodup := fun g hg => by
        rcases Nat.lt_succ_iff_lt_or_eq.mp hg with hg | rfl
        · rw [hold g hg]
          exact hm.block_nodup g hg
        · rw [hnew]
          exact List.nodup_nil
      origin_none := fun x hx => by
        rw [hold]
        · exact hm.origin_none x hx
        · exact (hm.block_parent x hx).1
      emits := fun i hi => hext.emits hm (hm.instr_parent i hi).1 hi.le (hm.emits i hi)
      useList := fun v use => by
        rw [show (m.createFunction name retTy paramTypes).useList = m.useList from rfl, hm.useList]
        cases use.val <;> rfl }

theorem createGlobalVariable_ext (m : Module) (origin : Nat → Option Nat) (name : String) (ty : Ty)
    (init : Value) :
    Ext m origin (m.createGlobalVariable name ty init) origin where
  numFunctions := le_rfl
  numGlobals := Nat.le_succ _
  numBlocks := le_rfl
  numInstrs := le_rfl
  instrs _ _ := rfl
  globals g hg := by simp [Module.createGlobalVariable, Module.addUse, hg.ne]
  returnType _ _ := rfl
  paramTypes _ _ := rfl
  parent _ _ := rfl
  origin _ _ := rfl

theorem createGlobalVariable_useList (hm : Inv m origin) (init v : Value) (use : Use) :
    use ∈ (m.createGlobalVariable name ty init).useList v ↔
      ((m.createGlobalVariable name ty init).operands use.val)[use.argNo]? = some v := by
  obtain ⟨w, k⟩ := use
  have hold : w ≠ .globalVariable m.numGlobals →
      (m.createGlobalVariable name ty init).operands w = m.operands w := by
    intro hw
    cases w with
    | globalVariable g =>
      have hg : g ≠ m.numGlobals := fun he => hw (he ▸ rfl)
      simp [Module.createGlobalVariable, Module.addUse, Module.operands, hg]
    | _ => rfl
  have huse : (⟨w, k⟩ : Use) ∈ (m.createGlobalVariable name ty init).useList v ↔
      ⟨w, k⟩ ∈ m.useList v ∨ v = init ∧ w = .globalVariable m.numGlobals ∧ k = 0 := by
    by_cases hv : v = init <;> simp [Module.createGlobalVariable, Module.addUse, hv]
  rw [huse, hm.useList]
  by_cases hw : w = .globalVariable m.numGlobals
  · subst hw
    have hops : m.operands (.globalVariable m.numGlobals) = [] := hm.fresh_global _ le_rfl
    have hnew : (m.createGlobalVariable name ty init).operands (.globalVariable m.numGlobals) =
        [init] := by
      simp [Module.createGlobalVariable, Module.addUse, Module.operands]
    rw [hnew, hops]
    cases k <;> simp [eq_comm]
  · rw [hold hw]
    simp [hw]

theorem createGlobalVariable_inv (hm : Inv m origin) {init : Value} (hinit : init.isConstant) :
    Inv (m.createGlobalVariable name ty init) origin :=
  { hm with
    emits := fun i hi => (createGlobalVariable_ext m origin name ty init).emits hm
      (hm.instr_parent i hi).1 hi.le (hm.emits i hi)
    useList := createGlobalVariable_useList hm init
    fresh_global := fun g hg => by
      have hlt : m.numGlobals + 1 ≤ g := hg
      have hne : g ≠ m.numGlobals := by omega
      have hops := hm.fresh_global g (by omega)
      simpa [Module.createGlobalVariable, Module.addUse, hne] using hops
    global_init := fun g v hv => by
      by_cases hg : g = m.numGlobals
      · subst hg
        simp only [Module.createGlobalVariable, Module.addUse, Function.update_self,
          List.mem_singleton] at hv
        exact hv ▸ hinit
      · simp only [Module.createGlobalVariable, Module.addUse, Function.update_of_ne hg] at hv
        exact hm.global_init g v hv }

/-- Every step keeps the invariant and the objects that exist. -/
theorem Step.inv {s s' : Site} (h : Step s s') (hm : Inv s.module s.origin) :
    Inv s'.module s'.origin ∧ Ext s.module s.origin s'.module s'.origin := by
  cases h with
  | @emit m origin f b opId ty ops hb _ hopen he =>
    have hem := emitted m b opId ty ops
    exact ⟨hem.inv hm hb hopen he, hem.keeps⟩
  | @block m origin f b name hb hf =>
    have hfn : f < m.numFunctions := hf ▸ (hm.block_parent b hb).1
    have hbs : (m.functions f).basicBlocks ≠ [] :=
      List.ne_nil_of_mem (hf ▸ (hm.block_parent b hb).2)
    refine ⟨createBasicBlock_inv hm hfn ?_ (by simp [hbs]), createBasicBlock_ext _ _ _ _ _⟩
    intro c hc
    cases hc
    exact ⟨hb, hf⟩
  | move _ _ => exact ⟨hm, .refl _ _⟩
  | @function m origin f b name retTy paramTypes =>
    refine ⟨createBasicBlock_inv (createFunction_inv hm retTy paramTypes) (Nat.lt_succ_self _)
      (by simp) (by simp [Module.createFunction]), ?_⟩
    exact (createFunction_ext m origin name retTy paramTypes).trans (createBasicBlock_ext _ _ _ _ _)
  | @global m origin f b name ty =>
    exact ⟨createGlobalVariable_inv hm rfl, createGlobalVariable_ext _ _ _ _ _⟩

theorem steps_inv {s s' : Site} (h : Relation.ReflTransGen Step s s') (hm : Inv s.module s.origin) :
    Inv s'.module s'.origin ∧ Ext s.module s.origin s'.module s'.origin := by
  induction h with
  | refl => exact ⟨hm, .refl _ _⟩
  | tail _ h ih =>
    obtain ⟨hi, he⟩ := ih
    exact ⟨(h.inv hi).1, he.trans (h.inv hi).2⟩

end

end Builder

end Cminusf
