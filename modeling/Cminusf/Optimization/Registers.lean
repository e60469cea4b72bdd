import Cminusf.Optimization.ReachingValue
import Cminusf.Optimization.Thinned

/-! The variables that `Mem2Reg` keeps in values, in a run of the program and of the one that the
pass returns: where the first has the value of a variable in memory, the second has it in the
instruction that the variable's value is at that place. -/

namespace Cminusf

namespace Mem2Reg

open Renaming Builder Machine DeadCode

/-- The `alloca` of a variable that is a scalar, or that is assigned as a whole. -/
def IsRegister (m : Module) (j : Nat) : Prop :=
  (m.instrs j).isAlloca ∧ (isScalarAlloca m j ∨ ∃ f < m.numFunctions, ∃ i ∈ instructions m f,
    storedVar m i = some (.instruction j))

/-- No variable that is subscripted is a scalar, or is assigned as a whole. -/
def Unsubscripted (m : Module) : Prop :=
  ∀ f < m.numFunctions, ∀ i ∈ instructions m f, (m.instrs i).isGep → ∀ j,
    (m.instrs i).getOperand 0 = some (.instruction j) → ¬ IsRegister m j

instance (m : Module) (j : Nat) : Decidable (IsRegister m j) := by
  unfold IsRegister
  infer_instance

instance (m : Module) : Decidable (Unsubscripted m) :=
  decidable_of_iff (∀ f < m.numFunctions, ∀ i ∈ instructions m f, (m.instrs i).isGep →
    ((m.instrs i).getOperand 0).all fun
      | .instruction j => !decide (IsRegister m j)
      | _ => true) <| by
    refine forall₄_congr fun f _ i _ => forall_congr' fun _ => ?_
    cases hop : (m.instrs i).getOperand 0 with
    | none => simp
    | some v => cases v <;> simp

/-- The variable is in memory in both programs. -/
def InMemory (m : Module) : Object → Prop
  | .globalVariable _ => True
  | .slot _ j _ => j < m.numInstrs ∧ ¬ IsRegister m j

/-- The word does not point to a variable that becomes a value. -/
def Safe (m : Module) (x : Word) : Prop := ∀ a, x = .pointer a → InMemory m a.object

/-- The worlds of the two programs. -/
structure Agree (m : Module) (w w' : World) : Prop where
  memory : ∀ a : Address, InMemory m a.object → w'.memory a = w.memory a
  input : w'.input = w.input
  events : w'.events = w.events
  safe : ∀ a x, w.memory a = some x → Safe m x

/-- The two frames of a call when the instructions `is` of the block have been executed. -/
structure Tracks (m : Module) (entry : Nat) (m1 : Module) (phis : Nat → List Nat) (r : Renaming)
    (m' : Module) (is : List Nat) (depth : Nat) (w : World) (frame frame' : Frame) : Prop where
  func : frame'.func = frame.func
  block : frame'.block = frame.block
  args : frame'.args = frame.args
  reached : Graph.Reaches (Dominators.Succ m) entry frame.block
  split : (m.blocks frame.block).instrList = is ++ frame.rest
  rest : frame'.rest = frame.rest.filter (· ∈ (m'.blocks frame.block).instrList)
  count : ∀ i < m.numInstrs, m'.Present (.instruction i) → frame'.count i = frame.count i
  env : ∀ i < m.numInstrs, m'.Present (.instruction i) → frame'.env i = frame.env i
  /-- A load that is gone has the value that has replaced it. -/
  load : ∀ c ∈ (m.functions frame.func).basicBlocks, ∀ j ∈ (m.blocks c).instrList,
    r.sub (.instruction j) ≠ .instruction j →
    DefinedBefore m' entry frame.block (phis frame.block ++ is) (.instruction j) →
    frame.env j = frame'.value (r.sub (.instruction j))
  /-- The address of a variable is that of its last `alloca`. -/
  slot : ∀ j x, IsRegister m j → frame.env j = some x →
    ∃ n, frame.count j = n + 1 ∧ x = .pointer ⟨.slot depth j n, 0⟩
  /-- What is in memory is the value of the variable. -/
  value : ∀ j n x, IsRegister m j → frame.env j = some (.pointer ⟨.slot depth j n, 0⟩) →
    w.memory ⟨.slot depth j n, 0⟩ = some x →
    ∃ y, valueAfter m1 phis r frame.block is (.instruction j) = some y ∧ frame'.value y = some x
  fresh : ∀ j n k, IsRegister m j → frame.count j ≤ n → w.memory ⟨.slot depth j n, k⟩ = none
  argsSafe : ∀ x ∈ frame.args, Safe m x
  envSafe : ∀ i x, ¬ IsRegister m i → frame.env i = some x → Safe m x
  converted : ∀ i < m.numInstrs, ∀ x, Converted m (.instruction i) → frame'.env i = some x →
    ∃ n, x = .number n

/-- A program that the pass has rewritten. -/
structure Rewrites (m : Module) (origin : Nat → Option Nat) (addr : Nat → Nat) (d : Dominators)
    (fuel : Nat) (m' : Module) : Prop where
  inv : Inv m origin
  between : Between m (· < m.numFunctions) m'
  described : ∀ f < m.numFunctions, ∀ entry, (m.functions f).basicBlocks.head? = some entry →
    ∃ m1 phis r, Described m origin addr d f entry fuel m1 phis r m'
  fits : StoresFit m
  unsubscripted : Unsubscripted m

variable {m m' m1 : Module} {ops : FloatOps} {f i j k p t entry fuel depth : Nat} {v u y : Value}
  {origin : Nat → Option Nat} {d : Dominators} {phis : Nat → List Nat} {r : Renaming}
  {addr : Nat → Nat} {is : List Nat} {frame frame' : Frame} {w w' : World} {x : Word}
  {act : Machine.Action} {a : Address} {words : List Word} {rest : List Nat}

theorem safe_number (n : Datum) : Safe m (.number n) := fun a ha => by cases ha

theorem safe_pointer (ha : InMemory m a.object) : Safe m (.pointer a) := by
  rintro b hb
  cases hb
  exact ha

theorem isAlloca_of_isRegister (h : IsRegister m j) : ∃ ty, (m.instrs j).opId = .alloca ty :=
  FuncInfo.isAlloca_iff.mp h.1

section

variable (hw : Rewrites m origin addr d fuel m')
  (h : Described m origin addr d f entry fuel m1 phis r m')
include hw h

/-- The address of a variable is the address of a load or a store only. -/
theorem register_operand (hi : i ∈ instructions m f) (hj : IsRegister m j)
    (hop : .instruction j ∈ (m.instrs i).operands) :
    loadedVar m i = some (.instruction j) ∨ storedVar m i = some (.instruction j) := by
  obtain ⟨b, hb, hib⟩ := mem_instructions.mp hi
  obtain ⟨hin, -, -, -⟩ := h.laid.old h.inv h.lt hb hib
  obtain ⟨ty, hty⟩ := isAlloca_of_isRegister hj
  have hloc : isLocal m (.instruction j) := by
    simp [isLocal, Value.isGlobalVariable, Module.isGepInstr, Instruction.isGep, hty]
  rcases (h.inv.emits i hin).operand_kind hop with hv | ⟨-, ho | ho | ho⟩ | hv
  · obtain ⟨-, -, hy⟩ := hv
    rw [hty] at hy
    cases hy
  · left
    simp [loadedVar, Instruction.isLoad, ho.1, Instruction.getOperand, ho.2, hloc]
  · right
    simp [storedVar, Instruction.isStore, ho.1, Instruction.getOperand, ho.2, hloc]
  · obtain ⟨⟨ty, ho⟩, h0⟩ := ho
    exact absurd hj (hw.unsubscripted f h.lt i hi (by simp [Instruction.isGep, ho]) j h0)
  · exact absurd rfl (hv j)

omit hw in
theorem register_of_store (hi : i ∈ instructions m f) (hv : storedVar m i = some v) :
    ∃ j x, v = .instruction j ∧ IsRegister m j ∧ (m.instrs i).operands = [x, v] ∧
      ∀ k, x = .instruction k → ¬ IsRegister m k := by
  obtain ⟨b, hb, hib⟩ := mem_instructions.mp hi
  obtain ⟨hin, -, -, -⟩ := h.laid.old h.inv h.lt hb hib
  obtain ⟨⟨j, rfl, hj, -⟩, -⟩ := h.inv.storedVar hin hv
  obtain ⟨x, hops, hx⟩ := h.inv.stored_value hin hv
  refine ⟨j, x, rfl, ⟨hj, .inr ⟨f, h.lt, i, hi, hv⟩⟩, hops, fun k hk hreg => ?_⟩
  subst hk
  obtain ⟨ty, hty⟩ := isAlloca_of_isRegister hreg
  rcases hx with hv | ⟨n, -, he⟩
  · obtain ⟨-, -, hy⟩ := hv
    rw [hty] at hy
    cases hy
  · cases he

omit hw in
/-- A variable that has a value is stored to. -/
theorem register_of_value {b : Nat} {js : List Nat}
    (hb : Graph.Reaches (Dominators.Succ m) entry b)
    (hlist : (m.blocks b).instrList = is ++ i :: js) (hv : loadedVar m i = some v)
    (hsub : r.sub (.instruction i) ≠ .instruction i) : ∃ j, v = .instruction j ∧ IsRegister m j := by
  have hbf := h.cfg.reaches_mem hb
  have hib : i ∈ (m.blocks b).instrList := by
    rw [hlist]
    simp
  obtain ⟨hin, -, -, -⟩ := h.laid.old h.inv h.lt hbf hib
  have hld := (h.laid.loadedVar h.inv h.lt hbf hib).trans hv
  have hne := mt (h.sub_load_iff hb (h.split_laid hbf hlist) hld).mpr hsub
  rw [h.vals_eq_nil_iff hb (h.split_laid hbf hlist), not_and_or] at hne
  obtain ⟨j, rfl, hj, -⟩ := h.inv.loadedVar hin hv
  refine ⟨j, rfl, hj, .inr ⟨f, h.lt, ?_⟩⟩
  rcases hne with hne | hne
  · push Not at hne
    obtain ⟨k, hk, hkv⟩ := hne
    have hk1 : k ∈ (m1.blocks b).instrList := by
      rw [h.split_laid hbf hlist]
      exact List.mem_append_left _ hk
    have hkb := h.mem_of_storedVar hbf hk1 hkv
    exact ⟨k, mem_instructions.mpr ⟨b, hbf, hkb⟩,
      (h.laid.storedVar h.inv h.lt hbf hkb).symm.trans hkv⟩
  · push Not at hne
    obtain ⟨c, ⟨hc, k, hk, hkv⟩, -⟩ := hne
    exact ⟨k, mem_instructions.mpr ⟨c, hc, hk⟩, hkv⟩

end

section

variable (hw : Rewrites m origin addr d fuel m')
  (h : Described m origin addr d frame.func entry fuel m1 phis r m')
  (T : Tracks m entry m1 phis r m' is depth w frame frame')
include h T

theorem Tracks.mem_blocks : frame.block ∈ (m.functions frame.func).basicBlocks :=
  h.cfg.reaches_mem T.reached

omit h in
theorem Tracks.mem (hrest : frame.rest = i :: rest) : i ∈ (m.blocks frame.block).instrList := by
  rw [T.split, hrest]
  simp

theorem Tracks.mem_instructions (hrest : frame.rest = i :: rest) :
    i ∈ instructions m frame.func :=
  DeadCode.mem_instructions.mpr ⟨_, T.mem_blocks h, T.mem hrest⟩

theorem Tracks.lt (hrest : frame.rest = i :: rest) : i < m.numInstrs :=
  (h.laid.old h.inv h.lt (T.mem_blocks h) (T.mem hrest)).1

omit h in
theorem Tracks.split_cons (hrest : frame.rest = i :: rest) :
    (m.blocks frame.block).instrList = is ++ i :: rest := by rw [T.split, hrest]

/-- An operand has the same value in both programs. -/
theorem Tracks.value_eq (hrest : frame.rest = i :: rest) (hv : v ∈ (m.instrs i).operands)
    (hreg : ∀ j, v = .instruction j → ¬ IsRegister m j) :
    frame'.value (r.sub v) = frame.value v := by
  have hbf := T.mem_blocks h
  have hi := T.mem hrest
  have hlist := h.split_laid hbf (T.split_cons hrest)
  cases v with
  | instruction j =>
    obtain ⟨hji, hjb, hjm, -⟩ := h.operand_mem hbf hi hv
    have hjn := hji.trans (T.lt h hrest)
    by_cases hsub : r.sub (.instruction j) = .instruction j
    · have hsc : ¬ isScalarAlloca m j := by
        intro hsc
        refine hreg j rfl ⟨?_, .inl hsc⟩
        cases ho : (m.instrs j).opId <;> simp_all [isScalarAlloca, Instruction.isAlloca]
      have hpres := h.present_operand hbf hi hv (by rintro k hk; cases hk; exact hsc)
      rw [hsub] at hpres ⊢
      exact T.env j hjn hpres
    · exact (T.load _ hjb j hjm hsub (h.definedBefore_operand T.reached hlist hi hv)).symm
  | argument g n =>
    rw [h.promoted.shaped.sub_eq (by simp)]
    simp only [Frame.value, T.func, T.args]
  | _ =>
    rw [h.promoted.shaped.sub_eq (by simp)]
    rfl

omit h in
theorem Tracks.value_safe (hreg : ∀ j, v = .instruction j → ¬ IsRegister m j)
    (hx : frame.value v = some x) : Safe m x := by
  cases v with
  | instruction j => exact T.envSafe j x (hreg j rfl) hx
  | argument g n =>
    simp only [Frame.value] at hx
    split at hx
    · exact T.argsSafe x (List.mem_of_getElem? hx)
    · cases hx
  | globalVariable g =>
    cases hx
    exact safe_pointer trivial
  | _ =>
    simp only [Frame.value] at hx
    obtain ⟨n, -, rfl⟩ := Option.map_eq_some_iff.mp hx
    exact safe_number n

end

/-- What the two programs do at the instruction `i`, which remains. -/
inductive Same (m : Module) (i : Nat) (w w' : World) : Machine.Action → Machine.Action → Prop where
  | yields {x : Option Word} {w₁ w₁' : World} : Agree m w₁ w₁' →
      (∀ a : Address, ¬ InMemory m a.object → w₁.memory a = w.memory a) →
      (¬ IsRegister m i → ∀ y, x = some y → Safe m y) →
      Same m i w w' (.yields x w₁) (.yields x w₁')
  | calls {g : Nat} {args : List Word} : (∀ y ∈ args, Safe m y) →
      Same m i w w' (.calls g args) (.calls g args)
  | jumps {t : Nat} : Same m i w w' (.jumps t) (.jumps t)
  | returns {x : Option Word} : (∀ y, x = some y → Safe m y) →
      Same m i w w' (.returns x) (.returns x)
  | exits {w₁ w₁' : World} : w₁'.events = w₁.events → Same m i w w' (.exits w₁) (.exits w₁')

theorem Agree.yields (hw : Agree m w w') {x : Option Word} (hx : ∀ y, x = some y → Safe m y) :
    Same m i w w' (.yields x w) (.yields x w') := .yields hw (fun _ _ => rfl) fun _ => hx

theorem Agree.emit (h : Agree m w w') (e : Event) : Agree m (w.emit e) (w'.emit e) :=
  ⟨h.memory, h.input, by simp [World.emit, h.events], h.safe⟩

theorem Agree.external {name : String} {args : List Word} (hw : Agree m w w')
    (hact : external name args w = some act) :
    ∃ act', external name args w' = some act' ∧ Same m i w w' act act' := by
  unfold Machine.external at hact ⊢
  rw [hw.input]
  split at hact
  · rename_i hname
    rw [if_pos hname]
    cases hin : w.input with
    | nil =>
      rw [hin] at hact
      cases hact
    | cons n ns =>
      rw [hin] at hact
      cases hact
      refine ⟨_, rfl, .yields ?_ (fun _ _ => rfl) fun _ => ?_⟩
      · exact ⟨hw.memory, rfl, by simp [World.emit, hw.events], hw.safe⟩
      · rintro y hy
        cases hy
        exact safe_number _
  · rename_i hname
    rw [if_neg hname]
    split at hact
    · rename_i hexc
      cases hact
      refine ⟨_, if_pos hexc, .exits ?_⟩
      simp [World.emit, hw.events]
    · rename_i hexc
      rw [if_neg hexc]
      split at hact
      · split at hact
        · cases hact
          exact ⟨_, if_pos ‹_›, .yields (hw.emit _) (fun _ _ => rfl) (by simp)⟩
        · cases hact
      · split at hact
        · cases hact
          exact ⟨_, if_pos ‹_›, .yields (hw.emit _) (fun _ _ => rfl) (by simp)⟩
        · cases hact
      · cases hact

/-- The two programs see the same variables there. -/
theorem valid_iff (hb : Between m (· < m.numFunctions) m') (ha : InMemory m a.object) :
    a.Valid m' depth ↔ a.Valid m depth := by
  have hwords : a.object.words m' = a.object.words m := by
    cases ho : a.object with
    | globalVariable g => simp only [Object.words, hb.globals]
    | slot e j n =>
      rw [ho] at ha
      rw [Object.words, Object.words, hb.instrs j ha.1]
  rw [Address.Valid, Address.Valid, hwords]

theorem Agree.read (hw : Agree m w w') (hb : Between m (· < m.numFunctions) m')
    (ha : InMemory m a.object) : w'.read m' depth a = w.read m depth a := by
  simp only [World.read, valid_iff hb ha, hw.memory a ha]

theorem Agree.write (hw : Agree m w w') (hb : Between m (· < m.numFunctions) m')
    (ha : InMemory m a.object) (hx : Safe m x) {w₁ : World} (hwr : w.write m depth a x = some w₁) :
    ∃ w₁', w'.write m' depth a x = some w₁' ∧ Agree m w₁ w₁' ∧
      ∀ b : Address, ¬ InMemory m b.object → w₁.memory b = w.memory b := by
  simp only [World.write, valid_iff hb ha] at hwr ⊢
  split at hwr
  · rename_i hvalid
    cases hwr
    refine ⟨_, if_pos hvalid, ⟨fun b hb => ?_, hw.input, hw.events, fun b y hy => ?_⟩,
      fun b hb => ?_⟩
    · by_cases hba : b = a
      · subst hba
        simp
      · simp only [Function.update_of_ne hba]
        exact hw.memory b hb
    · by_cases hba : b = a
      · subst hba
        simp only [Function.update_self, Option.some.injEq] at hy
        exact hy ▸ hx
      · simp only [Function.update_of_ne hba] at hy
        exact hw.safe b y hy
    · have hba : b ≠ a := by
        rintro rfl
        exact hb ha
      simp only [Function.update_of_ne hba]
  · cases hwr

/-- What an instruction does with words that do not point to the variables that become values. -/
theorem Agree.compute {ins ins' : Instruction} (hw : Agree m w w')
    (hb : Between m (· < m.numFunctions) m') (hop : ins'.opId = ins.opId)
    (hwords : ∀ x ∈ words, Safe m x)
    (htype : ∀ ty a idxs, ins.opId = .getelementptr ty → words = .pointer a :: idxs →
      (ins'.operands.head?.bind fun v => (m'.getType v).pointerElementType) =
        ins.operands.head?.bind fun v => (m.getType v).pointerElementType)
    (hact : compute ops m depth w ins words = some act) :
    ∃ act', compute ops m' depth w' ins' words = some act' ∧ Same m i w w' act act' := by
  unfold Machine.compute at hact ⊢
  rw [hop]
  split at hact
  · rename_i hop
    obtain ⟨x, hx, rfl⟩ := Option.map_eq_some_iff.mp hact
    have ha := hwords _ List.mem_cons_self _ rfl
    refine ⟨.yields (some x) w', ?_, hw.yields ?_⟩
    · simp only [hw.read hb ha, hx, Option.map_some]
    · rintro y hy
      cases hy
      have hx := hx
      rw [World.read] at hx
      split at hx
      · exact hw.safe _ _ hx
      · cases hx
  · rename_i hop
    obtain ⟨w₁, hx, rfl⟩ := Option.map_eq_some_iff.mp hact
    have ha := hwords _ (List.mem_cons_of_mem _ List.mem_cons_self) _ rfl
    obtain ⟨w₁', hwr, hag, hmem⟩ := hw.write hb ha (hwords _ List.mem_cons_self) hx
    exact ⟨.yields none w₁', by simp only [hwr, Option.map_some], .yields hag hmem (by simp)⟩
  · rename_i ty a idxs hop
    obtain ⟨ty', hty, hact⟩ := Option.bind_eq_some_iff.mp hact
    obtain ⟨ns, hns, hact⟩ := Option.bind_eq_some_iff.mp hact
    obtain ⟨n, hn, hact⟩ := Option.bind_eq_some_iff.mp hact
    cases hact
    have ha := hwords _ List.mem_cons_self _ rfl
    refine ⟨.yields (some (.pointer ⟨a.object, a.offset + n⟩)) w', ?_, hw.yields ?_⟩
    · rw [htype ty a idxs hop rfl, hty]
      simp only [Option.bind_eq_bind, Option.bind_some, hns, hn]
    · rintro y hy
      cases hy
      exact safe_pointer ha
  · rename_i hop
    cases hact
    exact ⟨_, rfl, .returns (by simp)⟩
  · rename_i x hop
    cases hact
    refine ⟨_, rfl, .returns ?_⟩
    rintro y hy
    cases hy
    exact hwords _ List.mem_cons_self
  · obtain ⟨ds, hds, hact⟩ := Option.bind_eq_some_iff.mp hact
    obtain ⟨n, hn, rfl⟩ := Option.map_eq_some_iff.mp hact
    refine ⟨.yields (some (.number n)) w', ?_, hw.yields ?_⟩
    · simp only [Option.bind_eq_bind, hds, Option.bind_some, hn, Option.map_some]
    · rintro y hy
      cases hy
      exact safe_number n

section

variable (hw : Rewrites m origin addr d fuel m')
  (h : Described m origin addr d frame.func entry fuel m1 phis r m')
  (T : Tracks m entry m1 phis r m' is depth w frame frame')
include h T

theorem Tracks.kept_iff (hrest : frame.rest = i :: rest) : i ∈ (m'.blocks frame.block).instrList ↔
    ¬ isScalarAlloca m i ∧ storedVar m i = none ∧
      (loadedVar m i = none ∨ r.sub (.instruction i) = .instruction i) :=
  h.kept_iff T.reached (T.mem hrest)

theorem Tracks.sub_kept (hrest : frame.rest = i :: rest)
    (hk : i ∈ (m'.blocks frame.block).instrList) : r.sub (.instruction i) = .instruction i := by
  obtain ⟨-, -, hl⟩ := (T.kept_iff h hrest).mp hk
  by_contra hsub
  obtain ⟨-, is', js', v, -, hv, -⟩ := h.replaced_mem_vals (T.mem_blocks h) (T.mem hrest) hsub
  rw [h.laid.loadedVar h.inv h.lt (T.mem_blocks h) (T.mem hrest)] at hv
  rw [hv] at hl
  exact hl.elim (Option.some_ne_none _) hsub

/-- The value of a variable is there when the next instruction is executed. -/
theorem Tracks.usable (hrest : frame.rest = i :: rest) {v : Value}
    (hy : valueAfter m1 phis r frame.block is v = some y) :
    Usable m' entry frame.block (phis frame.block ++ is) y ∧ y ≠ .instruction i := by
  have hlist := T.split_cons hrest
  have hu := h.usable_value T.reached hlist hy
  exact ⟨hu, h.ne_of_usable T.reached hlist hu⟩

include hw in
/-- What remains does not use the address of a variable that becomes a value. -/
theorem Tracks.kept_operand (hrest : frame.rest = i :: rest)
    (hk : i ∈ (m'.blocks frame.block).instrList)
    (hact : Machine.action ops m depth frame w i = some act) (hj : .instruction j ∈ (m.instrs i).operands) :
    ¬ IsRegister m j := by
  intro hreg
  obtain ⟨-, hst, -⟩ := (T.kept_iff h hrest).mp hk
  rcases register_operand hw h (T.mem_instructions h hrest) hreg hj with hv | hv
  · -- the load has found a value in memory, which would have replaced it
    have hload := opId_of_isLoad (isLoad_of_loadedVar hv)
    obtain ⟨ptr, hops, -, -⟩ := (h.inv.emits_of_opId (T.lt h hrest) hload).load_operands
    rw [hops, List.mem_singleton] at hj
    subst hj
    obtain ⟨a, x, ha, hread, -⟩ := action_load hload hops hact
    obtain ⟨n, -, he⟩ := T.slot j _ hreg ha
    cases he
    rw [World.read] at hread
    split at hread
    · obtain ⟨y, hy, -⟩ := T.value j n x hreg ha hread
      obtain ⟨-, hne⟩ := T.usable h hrest hy
      have hsub := (h.sub_load T.reached (T.split_cons hrest) hv).1 y hy
      rw [T.sub_kept h hrest hk] at hsub
      exact hne hsub.symm
    · cases hread
  · rw [hst] at hv
    cases hv

end

section

variable (hw : Rewrites m origin addr d fuel m')
  (h : Described m origin addr d frame.func entry fuel m1 phis r m')
  (T : Tracks m entry m1 phis r m' is depth w frame frame')
include hw h T

/-- An instruction that remains does the same in both programs. -/
theorem Tracks.action (hag : Agree m w w') (hrest : frame.rest = i :: rest)
    (hk : i ∈ (m'.blocks frame.block).instrList)
    (hact : Machine.action ops m depth frame w i = some act) :
    ∃ act', Machine.action ops m' depth frame' w' i = some act' ∧ Same m i w w' act act' := by
  have hbf := T.mem_blocks h
  have hi := T.mem hrest
  have hlt := T.lt h hrest
  have hreg : ∀ j, .instruction j ∈ (m.instrs i).operands → ¬ IsRegister m j :=
    fun j hj => T.kept_operand hw h hrest hk hact hj
  have hvalue : ∀ v ∈ (m.instrs i).operands, frame'.value (r.sub v) = frame.value v :=
    fun v hv => T.value_eq h hrest hv fun j hj => hreg j (hj ▸ hv)
  have hsafe : ∀ vs words, (∀ v ∈ vs, v ∈ (m.instrs i).operands) →
      List.mapM frame.value vs = some words → ∀ x ∈ words, Safe m x := by
    intro vs words hvs hwords x hx
    obtain ⟨v, hv, hvx⟩ := mem_of_mapM hwords hx
    exact T.value_safe (fun j hj => hreg j (hj ▸ hvs v hv)) hvx
  have hmap : ∀ vs, (∀ v ∈ vs, v ∈ (m.instrs i).operands) →
      List.mapM frame'.value (vs.map r.sub) = List.mapM frame.value vs := by
    intro vs hvs
    rw [List.mapM_map]
    exact mapM_congr_value fun v hv => hvalue v (hvs v hv)
  have hop : (m'.instrs i).opId = (m.instrs i).opId := by rw [hw.between.instrs i hlt]
  have hops := h.operands_old hbf hi hk
  have hsub : ∀ v, (∀ j, v ≠ .instruction j) → r.sub v = v :=
    fun v hv => h.promoted.shaped.sub_eq fun j hj => absurd hj (hv j)
  rcases action_cases hact with ⟨ty, ho, rfl⟩ | ⟨g, operands, args, ho, ho', hargs, hact⟩ |
    ⟨t, ho, ho', rfl⟩ | ⟨c, t, e, b, ho, ho', hc, rfl⟩ | ⟨ho, words, hwords, hact⟩
  · have hcount := T.count i hlt (h.present_of_mem hk)
    refine ⟨.yields (some (.pointer ⟨.slot depth i (frame.count i), 0⟩)) w', ?_,
      .yields hag (fun _ _ => rfl) fun hni y hy => ?_⟩
    · simp only [Machine.action, hop, ho, hcount]
    · cases hy
      exact safe_pointer ⟨hlt, hni⟩
  · have hin : ∀ v ∈ operands, v ∈ (m.instrs i).operands := by
      rw [ho']
      exact fun v hv => List.mem_cons_of_mem _ hv
    rw [ho', List.map_cons, hsub _ (by simp)] at hops
    simp only [Machine.action, hop, ho, hops, hmap operands hin, hargs, Option.bind_eq_bind,
      Option.bind_some, hw.between.functions]
    split at hact
    · rename_i hdecl
      rw [if_pos hdecl]
      exact hag.external hact
    · rename_i hdecl
      cases hact
      exact ⟨_, if_neg hdecl, .calls (hsafe operands args hin hargs)⟩
  · rw [ho', List.map_cons, hsub _ (by simp), List.map_nil] at hops
    exact ⟨.jumps t, by simp only [Machine.action, hop, ho, hops], .jumps⟩
  · have hc' := (hvalue c (by simp [ho'])).trans hc
    simp only [ho', List.map_cons, hsub (.basicBlock t) (by simp),
      hsub (.basicBlock e) (by simp), List.map_nil] at hops
    exact ⟨.jumps (if b then t else e), by simp only [Machine.action, hop, ho, hops, hc'], .jumps⟩
  · rw [action_of_computes (hop ▸ ho), hops, hmap _ fun _ hv => hv, hwords, Option.bind_some]
    refine hag.compute hw.between hop (hsafe _ words (fun _ hv => hv) hwords) ?_ hact
    rintro ty a idxs - rfl
    generalize hvs : (m.instrs i).operands = vs at hwords
    cases mapM_eq_some_iff.mp hwords with
    | @cons p _ vs _ hp _ =>
      have hpm : p ∈ (m.instrs i).operands := by simp [hvs]
      rw [hops, hvs, List.map_cons, List.head?_cons, List.head?_cons, Option.bind_some,
        Option.bind_some]
      rcases h.type_operand hw.fits hbf hi hpm with hty | ⟨hconv, hold⟩
      · rw [hty]
      · -- what a conversion has made is a number
        obtain ⟨j, ty', hj, hcop⟩ := hconv
        have henv : frame'.env j = some (.pointer a) := by
          have := (hvalue p hpm).trans hp
          rwa [hj] at this
        obtain ⟨n, hn⟩ := T.converted j (hold j hj) _ ⟨j, ty', rfl, hcop⟩ henv
        cases hn

end

end Mem2Reg

end Cminusf
