import Cminusf.LightIR.Update

/-! Operations on operands. The use lists are exact for the users that are still
live when each use that they record is an operand, and each operand is recorded. -/

namespace Cminusf

/-- The objects that have operands. -/
def Value.isUser : Value → Bool
  | .instruction _ | .globalVariable _ => true
  | _ => false

namespace Module

variable {m m' m'' : Module} {u v w new : Value} {ops : List Value} {b i j k : Nat} {use : Use}

/-- Two modules that differ in their operands and use lists only. -/
structure Rewires (m m' : Module) : Prop where
  functions : m'.functions = m.functions
  numFunctions : m'.numFunctions = m.numFunctions
  numGlobals : m'.numGlobals = m.numGlobals
  blocks : m'.blocks = m.blocks
  numBlocks : m'.numBlocks = m.numBlocks
  numInstrs : m'.numInstrs = m.numInstrs
  instrs : ∀ i, m'.instrs i = { m.instrs i with operands := m'.operands (.instruction i) }
  globals : ∀ g, m'.globals g = { m.globals g with operands := m'.operands (.globalVariable g) }

theorem Rewires.refl (m : Module) : Rewires m m :=
  ⟨rfl, rfl, rfl, rfl, rfl, rfl, fun _ => rfl, fun _ => rfl⟩

theorem Rewires.trans (h : Rewires m m') (h' : Rewires m' m'') : Rewires m m'' where
  functions := h'.functions.trans h.functions
  numFunctions := h'.numFunctions.trans h.numFunctions
  numGlobals := h'.numGlobals.trans h.numGlobals
  blocks := h'.blocks.trans h.blocks
  numBlocks := h'.numBlocks.trans h.numBlocks
  numInstrs := h'.numInstrs.trans h.numInstrs
  instrs i := by rw [h'.instrs i, h.instrs i]
  globals g := by rw [h'.globals g, h.globals g]

theorem operands_of_not_isUser (hu : ¬ u.isUser) : m.operands u = [] := by
  cases u <;> simp_all [operands, Value.isUser]

@[simp] theorem operands_addUse : (m.addUse v u k).operands w = m.operands w := by
  cases w <;> rfl

theorem setOperands_rewires : Rewires m (m.setOperands u ops) := by
  cases u with
  | instruction j =>
    refine ⟨rfl, rfl, rfl, rfl, rfl, rfl, fun i => ?_, fun _ => rfl⟩
    by_cases hi : i = j
    · subst hi
      simp [setOperands, operands]
    · simp [setOperands, operands, hi]
  | globalVariable g =>
    refine ⟨rfl, rfl, rfl, rfl, rfl, rfl, fun _ => rfl, fun i => ?_⟩
    by_cases hi : i = g
    · subst hi
      simp [setOperands, operands]
    · simp [setOperands, operands, hi]
  | _ => exact .refl m

theorem addUse_rewires : Rewires m (m.addUse v u k) :=
  ⟨rfl, rfl, rfl, rfl, rfl, rfl, fun _ => rfl, fun _ => rfl⟩

theorem operands_setOperands_self (hu : u.isUser) : (m.setOperands u ops).operands u = ops := by
  cases u <;> simp_all [operands, setOperands, Value.isUser]

theorem operands_setOperands_of_ne (hne : w ≠ u) :
    (m.setOperands u ops).operands w = m.operands w := by
  cases u with
  | instruction j =>
    cases w with
    | instruction i =>
      have hi : i ≠ j := fun h => hne (h ▸ rfl)
      simp [operands, setOperands, hi]
    | _ => rfl
  | globalVariable g =>
    cases w with
    | globalVariable i =>
      have hi : i ≠ g := fun h => hne (h ▸ rfl)
      simp [operands, setOperands, hi]
    | _ => rfl
  | _ => rfl

@[simp] theorem useList_setOperands : (m.setOperands u ops).useList = m.useList := by
  cases u <;> rfl

theorem mem_useList_addUse :
    use ∈ (m.addUse v u k).useList w ↔ use ∈ m.useList w ∨ w = v ∧ use = ⟨u, k⟩ := by
  by_cases hw : w = v
  · subst hw
    simp [addUse]
  · simp [addUse, hw]

theorem setOperand_rewires : Rewires m (m.setOperand u k v) :=
  setOperands_rewires.trans addUse_rewires

theorem getElem?_operands_setOperand :
    ((m.setOperand u k v).operands w)[j]? =
      if w = u ∧ j = k ∧ j < (m.operands w).length then some v else (m.operands w)[j]? := by
  by_cases hu : u.isUser
  · by_cases hw : w = u
    · subst hw
      simp only [setOperand, operands_addUse, operands_setOperands_self hu, List.getElem?_set, true_and]
      by_cases hj : k = j
      · subst hj
        by_cases hlt : k < (m.operands w).length
        · simp [hlt]
        · simp [hlt]
      · simp [hj, Ne.symm hj]
    · simp [setOperand, operands_setOperands_of_ne hw, hw]
  · have h : (m.setOperand u k v).operands w = m.operands w := by
      by_cases hw : w = u
      · subst hw
        rw [operands_of_not_isUser hu, operands_of_not_isUser hu]
      · simp [setOperand, operands_setOperands_of_ne hw]
    rw [h, if_neg]
    rintro ⟨rfl, -, hlt⟩
    simp [operands_of_not_isUser hu] at hlt

theorem length_operands_setOperand :
    ((m.setOperand u k v).operands w).length = (m.operands w).length := by
  by_cases hw : w = u
  · subst hw
    by_cases hu : w.isUser
    · simp [setOperand, operands_setOperands_self hu]
    · simp [operands_of_not_isUser hu]
  · simp [setOperand, operands_setOperands_of_ne hw]

/-- The loop of `replace_all_use_with`. -/
theorem foldl_setOperand (m : Module) (new : Value) (uses : List Use) :
    let m' := uses.foldl (fun m use => m.setOperand use.val use.argNo new) m
    Rewires m m' ∧
      (∀ w j, (m'.operands w)[j]? =
        if ⟨w, j⟩ ∈ uses ∧ j < (m.operands w).length then some new else (m.operands w)[j]?) ∧
      ∀ w use, use ∈ m'.useList w ↔ use ∈ m.useList w ∨ w = new ∧ use ∈ uses := by
  induction uses generalizing m with
  | nil => simp [Rewires.refl]
  | cons a uses ih =>
    obtain ⟨h1, h2, h3⟩ := ih (m.setOperand a.val a.argNo new)
    refine ⟨setOperand_rewires.trans h1, fun w j => ?_, fun w use => ?_⟩
    · rw [List.foldl_cons, h2, getElem?_operands_setOperand, length_operands_setOperand]
      by_cases hmem : (⟨w, j⟩ : Use) ∈ uses
      · simp [hmem]
        grind
      · obtain ⟨x, y⟩ := a
        simp only [hmem, false_and, if_false, List.mem_cons, or_false, Use.mk.injEq]
        congr 1
        simp only [and_assoc]
    · rw [List.foldl_cons, h3]
      simp only [setOperand, mem_useList_addUse, useList_setOperands, List.mem_cons]
      tauto

/-- The use lists record the operands of the users for which `live` holds. -/
def UsesOf (live : Value → Prop) (m : Module) : Prop :=
  ∀ v use, use ∈ m.useList v ↔ live use.val ∧ (m.operands use.val)[use.argNo]? = some v

theorem replaceAllUseWith_rewires (m : Module) (v new : Value) :
    Rewires m (m.replaceAllUseWith v new) := by
  obtain ⟨h, -⟩ := foldl_setOperand m new (m.useList v)
  exact ⟨h.1, h.2, h.3, h.4, h.5, h.6, h.7, h.8⟩

variable {live : Value → Prop}

theorem operands_replaceAllUseWith (hm : m.UsesOf live) (v new : Value) (hw : live w) :
    (m.replaceAllUseWith v new).operands w =
      (m.operands w).map fun x => if x = v then new else x := by
  obtain ⟨-, h, -⟩ := foldl_setOperand m new (m.useList v)
  have he : (m.replaceAllUseWith v new).operands w = ((m.useList v).foldl
      (fun m use => m.setOperand use.val use.argNo new) m).operands w := by
    cases w <;> rfl
  rw [he]
  refine List.ext_getElem? fun j => ?_
  rw [h, List.getElem?_map]
  simp only [hm v, hw, true_and]
  cases hj : (m.operands w)[j]? with
  | none => simp
  | some x =>
    have hlt : j < (m.operands w).length := (List.getElem?_eq_some_iff.mp hj).1
    by_cases hx : x = v
    · simp [hx, hlt]
    · simp [hx]

theorem usesOf_replaceAllUseWith (hm : m.UsesOf live) (hne : new ≠ v) :
    (m.replaceAllUseWith v new).UsesOf live := by
  intro x use
  obtain ⟨-, -, h⟩ := foldl_setOperand m new (m.useList v)
  by_cases hl : live use.val
  · have ho := operands_replaceAllUseWith hm v new hl
    rw [ho, List.getElem?_map]
    by_cases hx : x = v
    · subst hx
      simp only [replaceAllUseWith, Function.update_self, List.not_mem_nil, false_iff, not_and]
      rintro - hj
      cases hop : (m.operands use.val)[use.argNo]? with
      | none => simp [hop] at hj
      | some y =>
        by_cases hy : y = x
        · simp [hop, hy, hne] at hj
        · simp [hop, hy] at hj
    · simp only [replaceAllUseWith, Function.update_of_ne hx, h, hm x, hm v, hl, true_and]
      cases hop : (m.operands use.val)[use.argNo]? with
      | none => simp
      | some y =>
        by_cases hy : y = v
        · subst hy
          simp only [Option.some.injEq, Ne.symm hx, false_or, and_true, Option.map_some, if_true]
          exact eq_comm
        · simp [hy]
  · have hno : ∀ y, use ∉ m.useList y := fun y hy => hl ((hm y use).mp hy).1
    by_cases hx : x = v
    · simp [replaceAllUseWith, hx, hl]
    · simp [replaceAllUseWith, Function.update_of_ne hx, h, hno, hl]

theorem addOperand_rewires : Rewires m (m.addOperand u v) :=
  setOperands_rewires.trans addUse_rewires

theorem operands_addOperand_self (hu : u.isUser) :
    (m.addOperand u v).operands u = m.operands u ++ [v] := by
  simp [addOperand, operands_setOperands_self hu]

theorem operands_addOperand_of_ne (hne : w ≠ u) : (m.addOperand u v).operands w = m.operands w := by
  simp [addOperand, operands_setOperands_of_ne hne]

theorem usesOf_addOperand (hm : m.UsesOf live) (hu : u.isUser) (hl : live u) :
    (m.addOperand u v).UsesOf live := by
  intro x ⟨w, j⟩
  simp only [addOperand, mem_useList_addUse, useList_setOperands, operands_addUse, hm x, Use.mk.injEq]
  by_cases hw : w = u
  · subst hw
    rw [operands_setOperands_self hu, List.getElem?_append]
    by_cases hj : j < (m.operands w).length
    · have hne : j ≠ (m.operands w).length := by omega
      simp [hj, hne]
    · by_cases he : j = (m.operands w).length
      · simp [he, hl, eq_comm]
      · have : j - (m.operands w).length ≠ 0 := by omega
        simp [hj, he, this]
  · simp [operands_setOperands_of_ne hw, hw]

theorem mem_foldl_removeUse (ops : List Value) :
    use ∈ (ops.foldl (fun m op => m.removeUse op u) m).useList v ↔
      use ∈ m.useList v ∧ (v ∈ ops → use.val ≠ u) := by
  induction ops generalizing m with
  | nil => simp
  | cons op ops ih =>
    rw [List.foldl_cons, ih]
    by_cases hv : v = op
    · subst hv
      simp [removeUse]
      tauto
    · simp [removeUse, hv]

theorem foldl_removeUse_rewires (ops : List Value) :
    Rewires m (ops.foldl (fun m op => m.removeUse op u) m) ∧
      ∀ w, (ops.foldl (fun m op => m.removeUse op u) m).operands w = m.operands w := by
  induction ops generalizing m with
  | nil => exact ⟨.refl m, fun _ => rfl⟩
  | cons op ops ih =>
    obtain ⟨h, ho⟩ := ih (m := m.removeUse op u)
    have hr : Rewires m (m.removeUse op u) :=
      ⟨rfl, rfl, rfl, rfl, rfl, rfl, fun _ => rfl, fun _ => rfl⟩
    refine ⟨hr.trans h, fun w => (ho w).trans ?_⟩
    cases w <;> rfl

/-- What `erase_instr` leaves. -/
structure Erases (m m' : Module) (b i : Nat) : Prop where
  functions : m'.functions = m.functions
  numFunctions : m'.numFunctions = m.numFunctions
  numGlobals : m'.numGlobals = m.numGlobals
  globals : m'.globals = m.globals
  blocks : m'.blocks = Function.update m.blocks b
    { m.blocks b with instrList := (m.blocks b).instrList.filter (· ≠ i) }
  numBlocks : m'.numBlocks = m.numBlocks
  numInstrs : m'.numInstrs = m.numInstrs
  instrs : m'.instrs = m.instrs

theorem eraseInstr_erases : Erases m (m.eraseInstr b i) b i := by
  obtain ⟨h, ho⟩ := foldl_removeUse_rewires (m := m) (u := .instruction i)
    (m.operands (.instruction i))
  refine ⟨h.1, h.2, h.3, funext fun g => ?_, ?_, h.5, h.6, funext fun j => ?_⟩
  · exact (h.globals g).trans (by rw [ho]; rfl)
  · change Function.update _ b _ = _
    rw [show (m.removeUseOfOps (.instruction i)).blocks = m.blocks from h.blocks]
  · exact (h.instrs j).trans (by rw [ho]; rfl)

theorem Erases.operands {m' : Module} (h : Erases m m' b i) (w : Value) :
    m'.operands w = m.operands w := by
  cases w with
  | instruction j => simp [Module.operands, h.instrs]
  | globalVariable g => simp [Module.operands, h.globals]
  | _ => rfl

theorem usesOf_eraseInstr (hm : m.UsesOf live) :
    (m.eraseInstr b i).UsesOf fun w => live w ∧ w ≠ .instruction i := by
  intro v use
  rw [(eraseInstr_erases (m := m)).operands]
  change use ∈ (m.removeUseOfOps (.instruction i)).useList v ↔ _
  rw [removeUseOfOps, mem_foldl_removeUse, hm v use]
  constructor
  · rintro ⟨⟨hl, ho⟩, hne⟩
    refine ⟨⟨hl, fun he => hne ?_ he⟩, ho⟩
    rw [← he]
    exact List.mem_of_getElem? ho
  · rintro ⟨⟨hl, hne⟩, ho⟩
    exact ⟨⟨hl, ho⟩, fun _ => hne⟩

end Module

end Cminusf
