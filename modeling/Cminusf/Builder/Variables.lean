import Cminusf.Builder.Cfg
import Cminusf.Optimization.Renaming

/-! The variables of a module that the visitors build: what loads and stores address,
and where stored values and other operands are computed. -/

namespace Cminusf

namespace Builder

variable {m : Module} {origin : Nat → Option Nat} {b i j n : Nat} {v w val ptr : Value} {ty : Ty}
  {ops : List Value} {opId : OpID}

/-- A value that a use in `b` may refer to. -/
def Available (m : Module) (origin : Nat → Option Nat) (n b : Nat) (w : Value) : Prop :=
  ∀ j, w = .instruction j → j < n ∧ Graph.Ancestor origin (m.instrs j).parent b

theorem ValueAt.available (h : ValueAt m origin n b w) : Available m origin n b w := by
  rintro j rfl
  exact ⟨h.1, h.2.1⟩

theorem AddressAt.available (h : AddressAt m origin n b w) : Available m origin n b w := by
  rintro j rfl
  exact ⟨h.1, h.2.1⟩

theorem ValueAt.kind (h : ValueAt m origin n b (.instruction j)) :
    ¬ Mem2Reg.isScalarAlloca m j ∧ ¬ (m.instrs j).isStore := by
  obtain ⟨-, -, hy⟩ := h
  cases ho : (m.instrs j).opId <;>
    simp [Mem2Reg.isScalarAlloca, Instruction.isStore, ho, yieldsValue] at hy ⊢

theorem Emits.available (h : Emits m origin n b opId ty ops) (hw : w ∈ ops) :
    Available m origin n b w := by
  have hnone : ∀ {u : Value}, (∀ j, u ≠ .instruction j) → Available m origin n b u :=
    fun hu j hj => absurd hj (hu j)
  cases h with
  | binary hx hy | cmp hx hy | fcmp hx hy =>
    rcases List.mem_pair.mp hw with rfl | rfl
    · exact hx.available
    · exact hy.available
  | zext hx | fptosi hx | sitofp hx | ret hx =>
    rw [List.mem_singleton.mp hw]
    exact hx.available
  | alloca | retVoid => cases hw
  | load hp _ =>
    rw [List.mem_singleton.mp hw]
    exact hp.available
  | store hv hp =>
    rcases List.mem_pair.mp hw with rfl | rfl
    · exact hv.available
    · exact hp.available
  | storeArg _ hp =>
    rcases List.mem_pair.mp hw with rfl | rfl
    · exact hnone (by simp)
    · exact hp.available
  | gep hp hi =>
    rcases List.mem_cons.mp hw with rfl | hw
    · exact hp.elim (·.available) (·.available)
    · exact (hi w hw).available
  | call _ _ ha =>
    rcases List.mem_cons.mp hw with rfl | hw
    · exact hnone (by simp)
    · exact (ha w hw).available
  | br _ =>
    rw [List.mem_singleton.mp hw]
    exact hnone (by simp)
  | condBr hx _ _ _ =>
    simp only [List.mem_cons, List.not_mem_nil, or_false] at hw
    rcases hw with rfl | rfl | rfl
    · exact hx.available
    · exact hnone (by simp)
    · exact hnone (by simp)

theorem Emits.ne_phi (h : Emits m origin n b opId ty ops) (v : Value) : opId ≠ .phi v := by
  rintro rfl
  cases h

theorem Emits.load_operands (h : Emits m origin n b .load ty ops) :
    ∃ ptr, ops = [ptr] ∧ AddressAt m origin n b ptr ∧ m.getType ptr = .pointer ty := by
  cases h with
  | load hp ht => exact ⟨_, rfl, hp, ht⟩

theorem Emits.store_operands (h : Emits m origin n b .store ty ops) :
    ∃ val ptr, ops = [val, ptr] ∧ AddressAt m origin n b ptr ∧
      (ValueAt m origin n b val ∨ ∃ k < (m.functions (m.blocks b).parent).paramTypes.length,
        val = .argument (m.blocks b).parent k) := by
  cases h with
  | store hv hp => exact ⟨_, _, rfl, hp, .inl hv⟩
  | storeArg hk hp => exact ⟨_, _, rfl, hp, .inr ⟨_, hk, rfl⟩⟩

/-- A local address is an `alloca`. -/
theorem AddressAt.alloca (h : AddressAt m origin n b v) (hl : Mem2Reg.isLocal m v) :
    ∃ j, v = .instruction j ∧ (m.instrs j).isAlloca ∧ j < n ∧
      Graph.Ancestor origin (m.instrs j).parent b := by
  cases v with
  | instruction j =>
    obtain ⟨h1, h2, h3⟩ := h
    refine ⟨j, rfl, h3.resolve_right fun hg => ?_, h1, h2⟩
    simp [Mem2Reg.isLocal, Module.isGepInstr, hg] at hl
  | globalVariable g => simp [Mem2Reg.isLocal, Value.isGlobalVariable] at hl
  | _ => exact h.elim

theorem Inv.emits_of_opId (h : Inv m origin) (hi : i < m.numInstrs) (ho : (m.instrs i).opId = opId) :
    Emits m origin i (m.instrs i).parent opId (m.instrs i).type (m.instrs i).operands :=
  ho ▸ h.emits i hi

theorem opId_of_isLoad {i : Instruction} (h : i.isLoad) : i.opId = .load := by
  unfold Instruction.isLoad at h
  cases ho : i.opId <;> simp [ho] at h ⊢

theorem opId_of_isStore {i : Instruction} (h : i.isStore) : i.opId = .store := by
  unfold Instruction.isStore at h
  cases ho : i.opId <;> simp [ho] at h ⊢

theorem Inv.loadedVar (h : Inv m origin) (hi : i < m.numInstrs)
    (hv : Mem2Reg.loadedVar m i = some v) :
    ∃ j, v = .instruction j ∧ (m.instrs j).isAlloca ∧ j < i ∧
      Graph.Ancestor origin (m.instrs j).parent (m.instrs i).parent := by
  have hl := Renaming.isLoad_of_loadedVar hv
  obtain ⟨ptr, hops, hp, -⟩ := (h.emits_of_opId hi (opId_of_isLoad hl)).load_operands
  simp only [Mem2Reg.loadedVar, hl, if_true, Instruction.getOperand, hops, List.getElem?_cons_zero] at hv
  obtain ⟨rfl, hloc⟩ := Option.filter_eq_some_iff.mp hv |>.imp Option.some.inj id
  exact hp.alloca hloc

theorem Inv.storedVar (h : Inv m origin) (hi : i < m.numInstrs)
    (hv : Mem2Reg.storedVar m i = some v) :
    (∃ j, v = .instruction j ∧ (m.instrs j).isAlloca ∧ j < i ∧
      Graph.Ancestor origin (m.instrs j).parent (m.instrs i).parent) ∧
    ∃ w, (m.instrs i).operands = [w, v] := by
  have hl := Renaming.isStore_of_storedVar hv
  obtain ⟨val, ptr, hops, hp, -⟩ := (h.emits_of_opId hi (opId_of_isStore hl)).store_operands
  simp only [Mem2Reg.storedVar, hl, if_true, Instruction.getOperand, hops] at hv
  obtain ⟨rfl, hloc⟩ := Option.filter_eq_some_iff.mp hv |>.imp Option.some.inj id
  exact ⟨hp.alloca hloc, val, hops⟩

theorem Inv.directAddress (h : Inv m origin) (hi : i < m.numInstrs) : DirectAddress m i := by
  have haddr : ∀ {ptr : Value} {n b : Nat}, AddressAt m origin n b ptr → ∀ j, ptr = .instruction j →
      ¬ (m.instrs j).isLoad := by
    rintro ptr n b hp j rfl hl
    obtain ⟨-, -, ha⟩ := hp
    simp [Instruction.isAlloca, Instruction.isGep, opId_of_isLoad hl] at ha
  rintro v j (⟨hl, hv⟩ | ⟨hl, hv⟩) hj
  · obtain ⟨ptr, hops, hp, -⟩ := (h.emits_of_opId hi (opId_of_isLoad hl)).load_operands
    simp only [Instruction.getOperand, hops, List.getElem?_cons_zero, Option.some.injEq] at hv
    exact haddr hp j (hv.trans hj)
  · obtain ⟨val, ptr, hops, hp, -⟩ := (h.emits_of_opId hi (opId_of_isStore hl)).store_operands
    simp only [Instruction.getOperand, hops, List.getElem?_cons_succ, List.getElem?_cons_zero,
      Option.some.injEq] at hv
    exact haddr hp j (hv.trans hj)

/-- The operands of an instruction are computed in its function. -/
theorem Inv.operand_parent (h : Inv m origin) (hi : i < m.numInstrs)
    (hj : .instruction j ∈ (m.instrs i).operands) :
    j < i ∧ (m.instrs j).parent < m.numBlocks ∧
      (m.blocks (m.instrs j).parent).parent = (m.blocks (m.instrs i).parent).parent := by
  obtain ⟨hlt, ha⟩ := (h.emits i hi).available hj j rfl
  obtain ⟨h1, -, h3⟩ := h.ancestor_lt ha (h.instr_parent i hi).1
  exact ⟨hlt, h1, h3⟩

/-- The address of a load, a store or a `getelementptr`. -/
def AddressOf (opId : OpID) (ops : List Value) (w : Value) : Prop :=
  opId = .load ∧ ops[0]? = some w ∨ opId = .store ∧ ops[1]? = some w ∨
    (∃ ty, opId = .getelementptr ty) ∧ ops[0]? = some w

theorem Emits.operand_kind (h : Emits m origin n b opId ty ops) (hw : w ∈ ops) :
    ValueAt m origin n b w ∨ AddressAt m origin n b w ∧ AddressOf opId ops w ∨
      ∀ j, w ≠ .instruction j := by
  cases h with
  | binary hx hy | cmp hx hy | fcmp hx hy =>
    rcases List.mem_pair.mp hw with rfl | rfl
    · exact .inl hx
    · exact .inl hy
  | zext hx | fptosi hx | sitofp hx | ret hx =>
    rw [List.mem_singleton.mp hw]
    exact .inl hx
  | alloca | retVoid => cases hw
  | load hp _ =>
    rw [List.mem_singleton.mp hw]
    exact .inr (.inl ⟨hp, .inl ⟨rfl, rfl⟩⟩)
  | store hv hp =>
    rcases List.mem_pair.mp hw with rfl | rfl
    · exact .inl hv
    · exact .inr (.inl ⟨hp, .inr (.inl ⟨rfl, rfl⟩)⟩)
  | storeArg _ hp =>
    rcases List.mem_pair.mp hw with rfl | rfl
    · exact .inr (.inr (by simp))
    · exact .inr (.inl ⟨hp, .inr (.inl ⟨rfl, rfl⟩)⟩)
  | gep hp hi =>
    rcases List.mem_cons.mp hw with rfl | hw
    · rcases hp with hp | hp
      · exact .inr (.inl ⟨hp, .inr (.inr ⟨⟨_, rfl⟩, rfl⟩)⟩)
      · exact .inl hp
    · exact .inl (hi w hw)
  | call _ _ ha =>
    rcases List.mem_cons.mp hw with rfl | hw
    · exact .inr (.inr (by simp))
    · exact .inl (ha w hw)
  | br _ =>
    rw [List.mem_singleton.mp hw]
    exact .inr (.inr (by simp))
  | condBr hx _ _ _ =>
    simp only [List.mem_cons, List.not_mem_nil, or_false] at hw
    rcases hw with rfl | rfl | rfl
    · exact .inl hx
    · exact .inr (.inr (by simp))
    · exact .inr (.inr (by simp))

/-- A stored value is computed by an instruction, a constant or an argument. -/
theorem Inv.stored_value (h : Inv m origin) (hi : i < m.numInstrs)
    (hv : Mem2Reg.storedVar m i = some v) :
    ∃ w, (m.instrs i).operands = [w, v] ∧
      (ValueAt m origin i (m.instrs i).parent w ∨
        ∃ k < (m.functions (m.blocks (m.instrs i).parent).parent).paramTypes.length,
          w = .argument (m.blocks (m.instrs i).parent).parent k) := by
  have hl := Renaming.isStore_of_storedVar hv
  obtain ⟨val, ptr, hops, -, hval⟩ := (h.emits_of_opId hi (opId_of_isStore hl)).store_operands
  obtain ⟨-, w, hw⟩ := h.storedVar hi hv
  rw [hops] at hw
  cases hw
  exact ⟨val, hops, hval⟩

end Builder

end Cminusf
