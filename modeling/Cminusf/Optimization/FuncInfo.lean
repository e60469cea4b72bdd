import Cminusf.Optimization.MarkSweep

/-! `FuncInfo`: the functions without side effects. What the analysis reports impure is what reaches
an impure function over calls. -/

namespace Cminusf

/-- `worklist` and `is_pure`. -/
structure FuncInfo where
  worklist : List Nat
  isPure : Nat → Option Bool

namespace FuncInfo

open DeadCode

/-- `is_pure.at(func)`, which throws where nothing is recorded. -/
def isPureFunction (s : FuncInfo) (func : Nat) : Option Bool := s.isPure func

/-- `is_pure[func] = pure`. -/
def set (s : FuncInfo) (func : Nat) (pure : Bool) : FuncInfo :=
  { s with isPure := Function.update s.isPure func (some pure) }

def getFirstAddr (m : Module) : Nat → Value → Exec Value
  | 0, _ => throw .outOfFuel
  | fuel + 1, .instruction inst =>
    match (m.instrs inst).opId with
    | .alloca _ | .load => return .instruction inst
    | .getelementptr _ =>
      match (m.instrs inst).getOperand 0 with
      | some op => getFirstAddr m fuel op
      | none => throw .undefinedBehaviour
    | _ =>
      match (m.instrs inst).operands.find? fun op => (m.getType op).isPointer with
      | some op => getFirstAddr m fuel op
      | none => return .instruction inst
  | _ + 1, val => return val

/-- The test of `is_local_load` and `is_local_store`. -/
def isLocal (m : Module) (fuel : Nat) : Option Value → Exec Bool
  | none => throw .undefinedBehaviour
  | some val => do
    match ← getFirstAddr m fuel val with
    | .instruction addr => return (m.instrs addr).isAlloca
    | _ => return false

def isLocalLoad (m : Module) (fuel inst : Nat) : Exec Bool :=
  isLocal m fuel ((m.instrs inst).getOperand 0)

/-- `get_lval` of a store is its operand 1. -/
def isLocalStore (m : Module) (fuel inst : Nat) : Exec Bool :=
  isLocal m fuel ((m.instrs inst).getOperand 1)

def isSideEffectInst (m : Module) (fuel inst : Nat) : Exec Bool := do
  if (m.instrs inst).isStore then return !(← isLocalStore m fuel inst)
  else if (m.instrs inst).isLoad then return !(← isLocalLoad m fuel inst)
  else return false

/-- The loop of `trivial_mark` over the instructions, which stops at the first side effect. -/
def anySideEffect (m : Module) (fuel : Nat) : List Nat → Exec Bool
  | [] => return false
  | inst :: insts => do
    if ← isSideEffectInst m fuel inst then return true else anySideEffect m fuel insts

def trivialMark (m : Module) (fuel : Nat) (s : FuncInfo) (func : Nat) : Exec FuncInfo := do
  let F := m.functions func
  if F.isDeclaration || F.name == "main" then return s.set func false
  else if F.paramTypes.any fun argType => !argType.isInteger && !argType.isFloat then
    return s.set func false
  else if ← anySideEffect m fuel (instructions m func) then return s.set func false
  else return s.set func true

/-- One round of the first loop of `run`. -/
def markFunction (m : Module) (fuel : Nat) (s : FuncInfo) (func : Nat) : Exec FuncInfo := do
  let s ← trivialMark m fuel s func
  if (s.isPure func).getD false then return s
  else return { s with worklist := s.worklist ++ [func] }

/-- `is_pure[func] = false; worklist.push_back(func)`. -/
def taint (s : FuncInfo) (func : Nat) : FuncInfo :=
  { s.set func false with worklist := s.worklist ++ [func] }

/-- One round of the loop of `process`; `is_pure[func]` makes an entry where there is none. -/
def processUse (m : Module) (s : FuncInfo) (use : Use) : FuncInfo :=
  match use.val with
  | .instruction inst =>
    let func := m.functionOf inst
    if (s.isPure func).getD false then s.taint func else s.set func false
  | _ => s

def process (m : Module) (s : FuncInfo) (func : Nat) : FuncInfo :=
  (m.useList (.function func)).foldl (processUse m) s

/-- The loop of `run` over `worklist`. -/
def loop (m : Module) : Nat → FuncInfo → Exec FuncInfo
  | _, ⟨[], isPure⟩ => return ⟨[], isPure⟩
  | 0, ⟨_ :: _, _⟩ => throw .outOfFuel
  | fuel + 1, ⟨now :: worklist, isPure⟩ => loop m fuel (process m ⟨worklist, isPure⟩ now)

/-- `run`, with what an earlier run has left in `is_pure`. -/
def run (m : Module) (fuel : Nat) (isPure : Nat → Option Bool) : Exec FuncInfo := do
  let s ← (List.range m.numFunctions).foldlM (markFunction m fuel) ⟨[], isPure⟩
  loop m fuel s

/-- The base address of a value: that of the array of a `getelementptr`, else of the first operand
that is a pointer, up to an `alloca`, a `load` or a value that no instruction computes. -/
inductive Base (m : Module) : Value → Value → Prop where
  | value {v : Value} : (∀ i, v ≠ .instruction i) → Base m v v
  | alloca {i : Nat} : (m.instrs i).isAlloca → Base m (.instruction i) (.instruction i)
  | load {i : Nat} : (m.instrs i).isLoad → Base m (.instruction i) (.instruction i)
  | gep {i : Nat} {v w : Value} : (m.instrs i).isGep → (m.instrs i).getOperand 0 = some v →
      Base m v w → Base m (.instruction i) w
  | operand {i : Nat} {v w : Value} :
      ¬ (m.instrs i).isAlloca → ¬ (m.instrs i).isLoad → ¬ (m.instrs i).isGep →
      ((m.instrs i).operands.find? fun op => (m.getType op).isPointer) = some v → Base m v w →
      Base m (.instruction i) w
  | other {i : Nat} : ¬ (m.instrs i).isAlloca → ¬ (m.instrs i).isLoad → ¬ (m.instrs i).isGep →
      ((m.instrs i).operands.find? fun op => (m.getType op).isPointer) = none →
      Base m (.instruction i) (.instruction i)

/-- The instruction reads or writes the address. -/
def Accesses (m : Module) (i : Nat) (v : Value) : Prop :=
  (m.instrs i).isLoad ∧ (m.instrs i).getOperand 0 = some v ∨
    (m.instrs i).isStore ∧ (m.instrs i).getOperand 1 = some v

/-- A load or store whose base address is no local `alloca`. -/
def SideEffect (m : Module) (i : Nat) : Prop :=
  ∃ v w, Accesses m i v ∧ Base m v w ∧ ∀ j, w = .instruction j → ¬ (m.instrs j).isAlloca

/-- The functions that are impure by themselves. -/
def ImpureItself (m : Module) (f : Nat) : Prop :=
  (m.functions f).isDeclaration ∨ (m.functions f).name = "main" ∨
    (∃ ty ∈ (m.functions f).paramTypes, ¬ ty.isInteger ∧ ¬ ty.isFloat) ∨
    ∃ i ∈ instructions m f, SideEffect m i

/-- `f` has a call of `g`. -/
def Calls (m : Module) (f g : Nat) : Prop :=
  f < m.numFunctions ∧ ∃ i ∈ instructions m f, (m.instrs i).isCall ∧
    (m.instrs i).getOperand 0 = some (.function g)

/-- A chain of calls leads from `f` to a function that is impure by itself. -/
def Impure (m : Module) (f : Nat) : Prop :=
  ∃ g, Relation.ReflTransGen (Calls m) f g ∧ ImpureItself m g

/-- The use lists of the functions hold the operands of the instructions, and functions of the
module are used only in calls, as the first operand. -/
structure Consistent (m : Module) : Prop extends Parented m where
  useList : ∀ g < m.numFunctions, ∀ use, use ∈ m.useList (.function g) ↔
    ∃ f < m.numFunctions, ∃ i ∈ instructions m f, use.val = .instruction i ∧
      (m.instrs i).operands[use.argNo]? = some (.function g)
  calls : ∀ f < m.numFunctions, ∀ i ∈ instructions m f, ∀ n g,
    (m.instrs i).operands[n]? = some (.function g) →
      (m.instrs i).isCall ∧ n = 0 ∧ g < m.numFunctions

variable {m : Module} {f g i j n fuel func : Nat} {s s' t : FuncInfo} {v w w' : Value}
  {isPure : Nat → Option Bool} {fs insts : List Nat} {uses : List Use}

theorem isAlloca_iff : (m.instrs i).isAlloca ↔ ∃ ty, (m.instrs i).opId = .alloca ty := by
  unfold Instruction.isAlloca
  cases (m.instrs i).opId <;> simp

theorem isLoad_iff : (m.instrs i).isLoad ↔ (m.instrs i).opId = .load := by
  unfold Instruction.isLoad
  cases (m.instrs i).opId <;> simp

theorem isStore_iff : (m.instrs i).isStore ↔ (m.instrs i).opId = .store := by
  unfold Instruction.isStore
  cases (m.instrs i).opId <;> simp

theorem isGep_iff : (m.instrs i).isGep ↔ ∃ ty, (m.instrs i).opId = .getelementptr ty := by
  unfold Instruction.isGep
  cases (m.instrs i).opId <;> simp

theorem getFirstAddr_self (h : (m.instrs i).isAlloca ∨ (m.instrs i).isLoad) :
    getFirstAddr m (fuel + 1) (.instruction i) = .ok (.instruction i) := by
  rw [isAlloca_iff, isLoad_iff] at h
  rcases h with ⟨ty, h⟩ | h
  · rw [getFirstAddr, h]
    rfl
  · rw [getFirstAddr, h]
    rfl

theorem getFirstAddr_gep (h : (m.instrs i).isGep) : getFirstAddr m (fuel + 1) (.instruction i) =
    ((m.instrs i).getOperand 0).elim (.error .undefinedBehaviour) (getFirstAddr m fuel) := by
  obtain ⟨ty, h⟩ := isGep_iff.mp h
  rw [getFirstAddr, h]
  cases (m.instrs i).getOperand 0 with
  | none => rfl
  | some op => rfl

theorem getFirstAddr_operand (ha : ¬ (m.instrs i).isAlloca) (hl : ¬ (m.instrs i).isLoad)
    (hg : ¬ (m.instrs i).isGep) : getFirstAddr m (fuel + 1) (.instruction i) =
    ((m.instrs i).operands.find? fun op => (m.getType op).isPointer).elim (.ok (.instruction i))
      (getFirstAddr m fuel) := by
  rw [isAlloca_iff] at ha
  rw [isLoad_iff] at hl
  rw [isGep_iff] at hg
  rw [getFirstAddr]
  cases hop : (m.instrs i).opId with
  | alloca ty => exact absurd ⟨ty, hop⟩ ha
  | load => exact absurd hop hl
  | getelementptr ty => exact absurd ⟨ty, hop⟩ hg
  | _ =>
    cases (m.instrs i).operands.find? fun op => (m.getType op).isPointer with
    | none => rfl
    | some op => rfl

theorem getFirstAddr_value (h : ∀ i, v ≠ .instruction i) :
    getFirstAddr m (fuel + 1) v = .ok v := by
  cases v with
  | instruction i => exact absurd rfl (h i)
  | _ => rfl

theorem base_of_getFirstAddr (h : getFirstAddr m fuel v = .ok w) : Base m v w := by
  induction fuel generalizing v with
  | zero => cases h
  | succ fuel ih =>
    by_cases hv : ∀ i, v ≠ .instruction i
    · rw [getFirstAddr_value hv] at h
      cases h
      exact .value hv
    · simp only [not_forall, not_not] at hv
      obtain ⟨i, rfl⟩ := hv
      by_cases ha : (m.instrs i).isAlloca
      · rw [getFirstAddr_self (.inl ha)] at h
        cases h
        exact .alloca ha
      by_cases hl : (m.instrs i).isLoad
      · rw [getFirstAddr_self (.inr hl)] at h
        cases h
        exact .load hl
      by_cases hg : (m.instrs i).isGep
      · rw [getFirstAddr_gep hg] at h
        cases ho : (m.instrs i).getOperand 0 with
        | none =>
          rw [ho] at h
          cases h
        | some op =>
          rw [ho] at h
          exact .gep hg ho (ih h)
      · rw [getFirstAddr_operand ha hl hg] at h
        cases ho : (m.instrs i).operands.find? fun op => (m.getType op).isPointer with
        | none =>
          rw [ho] at h
          cases h
          exact .other ha hl hg ho
        | some op =>
          rw [ho] at h
          exact .operand ha hl hg ho (ih h)

theorem getFirstAddr_of_base (h : Base m v w) :
    ∃ bound, ∀ fuel ≥ bound, getFirstAddr m fuel v = .ok w := by
  have hstep : ∀ {v v' w : Value}, (∀ fuel, getFirstAddr m (fuel + 1) v = getFirstAddr m fuel v') →
      (∃ bound, ∀ fuel ≥ bound, getFirstAddr m fuel v' = .ok w) →
      ∃ bound, ∀ fuel ≥ bound, getFirstAddr m fuel v = .ok w := by
    intro v v' w hv ⟨bound, hbound⟩
    refine ⟨bound + 1, fun fuel hfuel => ?_⟩
    obtain ⟨fuel, rfl⟩ : ∃ k, fuel = k + 1 := ⟨fuel - 1, by omega⟩
    rw [hv]
    exact hbound fuel (by omega)
  have hstop : ∀ {v w : Value}, (∀ fuel, getFirstAddr m (fuel + 1) v = .ok w) →
      ∃ bound, ∀ fuel ≥ bound, getFirstAddr m fuel v = .ok w := by
    intro v w hv
    refine ⟨1, fun fuel hfuel => ?_⟩
    obtain ⟨fuel, rfl⟩ : ∃ k, fuel = k + 1 := ⟨fuel - 1, by omega⟩
    exact hv fuel
  induction h with
  | value hv => exact hstop fun _ => getFirstAddr_value hv
  | alloca ha => exact hstop fun _ => getFirstAddr_self (.inl ha)
  | load hl => exact hstop fun _ => getFirstAddr_self (.inr hl)
  | gep hg ho _ ih => exact hstep (fun _ => by rw [getFirstAddr_gep hg, ho]; rfl) ih
  | operand ha hl hg ho _ ih =>
    exact hstep (fun _ => by rw [getFirstAddr_operand ha hl hg, ho]; rfl) ih
  | other ha hl hg ho => exact hstop fun _ => by rw [getFirstAddr_operand ha hl hg, ho]; rfl

theorem Base.unique (h : Base m v w) (h' : Base m v w') : w = w' := by
  obtain ⟨bound, hb⟩ := getFirstAddr_of_base h
  obtain ⟨bound', hb'⟩ := getFirstAddr_of_base h'
  have hw := hb (max bound bound') (le_max_left _ _)
  rw [hb' (max bound bound') (le_max_right _ _)] at hw
  cases hw
  rfl

/-- The address that an instruction reads or writes. -/
theorem Accesses.unique (h : Accesses m i v) (h' : Accesses m i w) : v = w := by
  unfold Accesses at h h'
  rw [isLoad_iff, isStore_iff] at h h'
  rcases h with ⟨hop, h⟩ | ⟨hop, h⟩
  · simp only [hop, h, true_and, Option.some.injEq, reduceCtorEq, false_and, or_false] at h'
    exact h'
  · simp only [hop, h, true_and, Option.some.injEq, reduceCtorEq, false_and, false_or] at h'
    exact h'

theorem isLocal_spec {found : Bool} (h : isLocal m fuel (some v) = .ok found) :
    ∃ w, Base m v w ∧ (found ↔ ∃ j, w = .instruction j ∧ (m.instrs j).isAlloca) := by
  obtain ⟨w, hw, h⟩ := Exec.bind_eq_ok.mp h
  refine ⟨w, base_of_getFirstAddr hw, ?_⟩
  cases w with
  | instruction j =>
    cases h
    simp
  | _ =>
    cases h
    simp

theorem sideEffect_of_isLocal {found : Bool} (ha : Accesses m i v)
    (h : isLocal m fuel (some v) = .ok found) : !found ↔ SideEffect m i := by
  obtain ⟨w, hw, hfound⟩ := isLocal_spec h
  constructor
  · intro hno
    refine ⟨v, w, ha, hw, fun j hj hal => ?_⟩
    rw [hfound.mpr ⟨j, hj, hal⟩] at hno
    cases hno
  · intro ⟨v', w', ha', hw', hno⟩
    cases ha.unique ha'
    cases hw.unique hw'
    cases hf : found with
    | false => rfl
    | true =>
      obtain ⟨j, hj, hal⟩ := hfound.mp hf
      exact absurd hal (hno j hj)

theorem isSideEffectInst_spec {effect : Bool} (h : isSideEffectInst m fuel i = .ok effect) :
    effect ↔ SideEffect m i := by
  have haccess : ∀ {o : Option Value}, (∀ v, o = some v → Accesses m i v) →
      (do return !(← isLocal m fuel o)) = Except.ok effect → (effect ↔ SideEffect m i) := by
    intro o ho h
    obtain ⟨found, hloc, h⟩ := Exec.bind_eq_ok.mp h
    cases h
    cases o with
    | none => cases hloc
    | some v => exact sideEffect_of_isLocal (ho v rfl) hloc
  rw [isSideEffectInst] at h
  by_cases hs : (m.instrs i).isStore
  · rw [if_pos hs] at h
    exact haccess (fun v hv => .inr ⟨hs, hv⟩) h
  by_cases hl : (m.instrs i).isLoad
  · rw [if_neg hs, if_pos hl] at h
    exact haccess (fun v hv => .inl ⟨hl, hv⟩) h
  · rw [if_neg hs, if_neg hl] at h
    cases h
    simp [SideEffect, Accesses, hs, hl]

theorem anySideEffect_spec {effect : Bool} (h : anySideEffect m fuel insts = .ok effect) :
    effect ↔ ∃ i ∈ insts, SideEffect m i := by
  induction insts with
  | nil =>
    cases h
    simp
  | cons i insts ih =>
    obtain ⟨first, hfirst, h⟩ := Exec.bind_eq_ok.mp h
    have hi := isSideEffectInst_spec hfirst
    cases first with
    | true =>
      cases h
      simp [← hi]
    | false => simp [← hi, ih h]

/-- `trivial_mark` records whether the function is impure by itself. -/
theorem trivialMark_spec (h : trivialMark m fuel s f = .ok s') :
    ∃ pure, s' = s.set f pure ∧ (pure = false ↔ ImpureItself m f) := by
  simp only [trivialMark, Bool.or_eq_true, beq_iff_eq] at h
  split at h
  · rename_i hd
    cases h
    refine ⟨false, rfl, iff_of_true rfl ?_⟩
    exact hd.imp_right .inl
  rename_i hd
  split at h
  · rename_i hp
    cases h
    refine ⟨false, rfl, iff_of_true rfl (.inr (.inr (.inl ?_)))⟩
    simpa using hp
  rename_i hp
  obtain ⟨effect, heffect, h⟩ := Exec.bind_eq_ok.mp h
  have hspec := anySideEffect_spec heffect
  refine ⟨!effect, by cases effect <;> cases h <;> rfl, ?_⟩
  have hp' : ¬ ∃ ty ∈ (m.functions f).paramTypes, ¬ ty.isInteger ∧ ¬ ty.isFloat := by
    simpa using hp
  rw [ImpureItself, ← or_assoc, or_iff_right hd, or_iff_right hp', ← hspec]
  simp

/-- The functions `fs` are marked. -/
structure Marked (m : Module) (fs : List Nat) (s : FuncInfo) : Prop where
  isPure : ∀ f ∈ fs, ∃ pure, s.isPure f = some pure ∧ (pure = false ↔ ImpureItself m f)
  worklist : ∀ f, f ∈ s.worklist ↔ f ∈ fs ∧ ImpureItself m f

theorem markFunction_spec (h : Marked m fs s) (hrun : markFunction m fuel s f = .ok s') :
    Marked m (fs ++ [f]) s' := by
  obtain ⟨t, ht, hrun⟩ := Exec.bind_eq_ok.mp hrun
  obtain ⟨pure, rfl, hpure⟩ := trivialMark_spec ht
  have hself : (s.set f pure).isPure f = some pure := by simp [set]
  have hisPure : ∀ g ∈ fs ++ [f], ∃ p, (s.set f pure).isPure g = some p ∧
      (p = false ↔ ImpureItself m g) := by
    intro g hg
    by_cases hgf : g = f
    · subst hgf
      exact ⟨pure, hself, hpure⟩
    · have hg' : g ∈ fs := by simpa [hgf] using hg
      simpa [set, hgf] using h.isPure g hg'
  rw [hself] at hrun
  cases pure with
  | true =>
    cases hrun
    refine ⟨hisPure, fun g => ?_⟩
    have hno : ¬ ImpureItself m f := by simpa using hpure
    have hg := h.worklist g
    simp only [set, List.mem_append, List.mem_singleton]
    constructor
    · intro hw
      exact ⟨.inl (hg.mp hw).1, (hg.mp hw).2⟩
    · rintro ⟨hfs | rfl, hi⟩
      · exact hg.mpr ⟨hfs, hi⟩
      · exact absurd hi hno
  | false =>
    cases hrun
    refine ⟨hisPure, fun g => ?_⟩
    have hf : ImpureItself m f := by simpa using hpure
    have hg := h.worklist g
    simp only [set, List.mem_append, List.mem_singleton]
    constructor
    · rintro (hw | rfl)
      · exact ⟨.inl (hg.mp hw).1, (hg.mp hw).2⟩
      · exact ⟨.inr rfl, hf⟩
    · rintro ⟨hfs | rfl, hi⟩
      · exact .inl (hg.mpr ⟨hfs, hi⟩)
      · exact .inr rfl

theorem markFunctions_spec {done : List Nat} (h : Marked m done s)
    (hrun : fs.foldlM (markFunction m fuel) s = .ok s') : Marked m (done ++ fs) s' := by
  induction fs generalizing done s with
  | nil =>
    cases hrun
    simpa using h
  | cons f fs ih =>
    rw [List.foldlM_cons] at hrun
    obtain ⟨t, ht, hrun⟩ := Exec.bind_eq_ok.mp hrun
    simpa using ih (markFunction_spec h ht) hrun

/-- What holds at every round of the loops of `run`, but for the callers of `now`. -/
structure Tracks (m : Module) (now : List Nat) (s : FuncInfo) : Prop where
  total : ∀ f < m.numFunctions, ∃ pure, s.isPure f = some pure
  sound : ∀ f < m.numFunctions, s.isPure f = some false → Impure m f
  itself : ∀ f < m.numFunctions, ImpureItself m f → s.isPure f = some false
  work : ∀ g ∈ s.worklist, g < m.numFunctions ∧ s.isPure g = some false
  passed : ∀ g < m.numFunctions, s.isPure g = some false → g ∉ now ++ s.worklist →
    ∀ f, Calls m f g → s.isPure f = some false

theorem Marked.tracks (h : Marked m (List.range m.numFunctions) s) : Tracks m [] s where
  total f hf := by
    obtain ⟨pure, hp, -⟩ := h.isPure f (List.mem_range.mpr hf)
    exact ⟨pure, hp⟩
  sound f hf hp := by
    obtain ⟨pure, hp', hpure⟩ := h.isPure f (List.mem_range.mpr hf)
    rw [hp] at hp'
    cases hp'
    exact ⟨f, .refl, hpure.mp rfl⟩
  itself f hf hi := by
    obtain ⟨pure, hp, hpure⟩ := h.isPure f (List.mem_range.mpr hf)
    rw [hp, hpure.mpr hi]
  work g hg := by
    obtain ⟨hg, hi⟩ := (h.worklist g).mp hg
    obtain ⟨pure, hp, hpure⟩ := h.isPure g hg
    exact ⟨List.mem_range.mp hg, by rw [hp, hpure.mpr hi]⟩
  passed g hg hp hno := by
    obtain ⟨pure, hp', hpure⟩ := h.isPure g (List.mem_range.mpr hg)
    rw [hp] at hp'
    cases hp'
    exact absurd ((h.worklist g).mpr ⟨List.mem_range.mpr hg, hpure.mp rfl⟩) hno

theorem isPure_taint : (s.taint f).isPure g = some false ↔ g = f ∨ s.isPure g = some false := by
  by_cases h : g = f
  · subst h
    simp [taint, set]
  · simp [taint, set, h]

theorem set_eq_self (h : s.isPure f = some false) : s.set f false = s := by
  rw [set, ← h, Function.update_eq_self]

theorem Tracks.taint {now : List Nat} (h : Tracks m now s) (hf : f < m.numFunctions)
    (hi : Impure m f) : Tracks m now (s.taint f) where
  total g hg := by
    by_cases hgf : g = f
    · exact ⟨false, isPure_taint.mpr (.inl hgf)⟩
    · simpa [FuncInfo.taint, set, hgf] using h.total g hg
  sound g hg hp := by
    rcases isPure_taint.mp hp with rfl | hp
    · exact hi
    · exact h.sound g hg hp
  itself g hg hi := isPure_taint.mpr (.inr (h.itself g hg hi))
  work g hg := by
    rcases List.mem_append.mp hg with hg | hg
    · exact ⟨(h.work g hg).1, isPure_taint.mpr (.inr (h.work g hg).2)⟩
    · obtain rfl := List.mem_singleton.mp hg
      exact ⟨hf, isPure_taint.mpr (.inl rfl)⟩
  passed g hg hp hno k hk := by
    have hne : g ≠ f := fun he => hno (by simp [FuncInfo.taint, he])
    have hp := (isPure_taint.mp hp).resolve_left hne
    apply isPure_taint.mpr (.inr (h.passed g hg hp (fun hmem => hno ?_) k hk))
    rw [FuncInfo.taint, ← List.append_assoc]
    exact List.mem_append_left _ hmem

/-- A use of `g` is a call in a function of the module. -/
theorem Consistent.calls_of_use {use : Use} (h : Consistent m) (hg : g < m.numFunctions)
    (hu : use ∈ m.useList (.function g)) : ∃ i, use.val = .instruction i ∧
      m.functionOf i < m.numFunctions ∧ Calls m (m.functionOf i) g := by
  obtain ⟨f, hf, i, hi, hval, hop⟩ := (h.useList g hg use).mp hu
  obtain ⟨hcall, hzero, -⟩ := h.calls f hf i hi _ g hop
  rw [hzero] at hop
  have hfun := h.functionOf hf hi
  refine ⟨i, hval, by rwa [hfun], ?_⟩
  rw [hfun]
  exact ⟨hf, i, hi, hcall, hop⟩

theorem Consistent.use_of_calls (h : Consistent m) (hc : Calls m f g) : g < m.numFunctions ∧
    ∃ use ∈ m.useList (.function g), ∃ i, use.val = .instruction i ∧ m.functionOf i = f := by
  obtain ⟨hf, i, hi, -, hop⟩ := hc
  obtain ⟨-, -, hg⟩ := h.calls f hf i hi 0 g hop
  exact ⟨hg, ⟨.instruction i, 0⟩, (h.useList g hg _).mpr ⟨f, hf, i, hi, rfl, hop⟩, i, rfl,
    h.functionOf hf hi⟩

/-- A use of an impure function makes the caller impure, unless it is already. -/
theorem processUse_spec {now : List Nat} {use : Use} (h : Tracks m now s)
    (hval : use.val = .instruction i) (hf : m.functionOf i < m.numFunctions)
    (hi : Impure m (m.functionOf i)) : Tracks m now (processUse m s use) ∧
      (∀ g, s.isPure g = some false → (processUse m s use).isPure g = some false) ∧
      (processUse m s use).isPure (m.functionOf i) = some false := by
  rw [processUse, hval]
  obtain ⟨pure, hp⟩ := h.total _ hf
  simp only [hp, Option.getD_some]
  cases pure with
  | true =>
    rw [if_pos rfl]
    exact ⟨h.taint hf hi, fun g hg => isPure_taint.mpr (.inr hg), isPure_taint.mpr (.inl rfl)⟩
  | false =>
    rw [if_neg Bool.false_ne_true, set_eq_self hp]
    exact ⟨h, fun _ hg => hg, hp⟩

theorem processUses_spec {now : List Nat} (hm : Consistent m) (hg : g < m.numFunctions)
    (hi : Impure m g) (h : Tracks m now s) (huses : ∀ use ∈ uses, use ∈ m.useList (.function g)) :
    Tracks m now (uses.foldl (processUse m) s) ∧
      (∀ f, s.isPure f = some false → (uses.foldl (processUse m) s).isPure f = some false) ∧
      ∀ use ∈ uses, ∀ i, use.val = .instruction i →
        (uses.foldl (processUse m) s).isPure (m.functionOf i) = some false := by
  induction uses generalizing s with
  | nil => exact ⟨h, fun _ hf => hf, by simp⟩
  | cons use uses ih =>
    obtain ⟨i, hval, hf, hcalls⟩ := hm.calls_of_use hg (huses use List.mem_cons_self)
    obtain ⟨k, hk, hitself⟩ := hi
    obtain ⟨ht, hmono, hfalse⟩ := processUse_spec h hval hf ⟨k, hk.head hcalls, hitself⟩
    obtain ⟨hs', hmono', hrest⟩ := ih ht fun u hu => huses u (List.mem_cons_of_mem _ hu)
    refine ⟨hs', fun f hf => hmono' f (hmono f hf), fun u hu j hj => ?_⟩
    rcases List.mem_cons.mp hu with rfl | hu
    · rw [hval] at hj
      cases hj
      exact hmono' _ hfalse
    · exact hrest u hu j hj

theorem process_spec (hm : Consistent m) (h : Tracks m [g] s) (hg : g < m.numFunctions)
    (hp : s.isPure g = some false) : Tracks m [] (process m s g) := by
  obtain ⟨hs', -, hcallers⟩ := processUses_spec hm hg (h.sound g hg hp) h fun _ hu => hu
  refine ⟨hs'.total, hs'.sound, hs'.itself, hs'.work, fun k hk hpk hno f hf => ?_⟩
  by_cases hkg : k = g
  · subst hkg
    obtain ⟨-, use, hu, i, hval, rfl⟩ := hm.use_of_calls hf
    exact hcallers use hu i hval
  · have hno' : k ∉ [g] ++ (process m s g).worklist := by simpa [hkg] using hno
    exact hs'.passed k hk hpk hno' f hf

theorem loop_spec (hm : Consistent m) (h : Tracks m [] s) (hrun : loop m fuel s = .ok s') :
    Tracks m [] s' ∧ s'.worklist = [] := by
  induction fuel generalizing s with
  | zero =>
    obtain ⟨worklist, isPure⟩ := s
    cases worklist with
    | nil =>
      cases hrun
      exact ⟨h, rfl⟩
    | cons now worklist => cases hrun
  | succ fuel ih =>
    obtain ⟨worklist, isPure⟩ := s
    cases worklist with
    | nil =>
      cases hrun
      exact ⟨h, rfl⟩
    | cons now worklist =>
      obtain ⟨hnow, hp⟩ := h.work now List.mem_cons_self
      have hpop : Tracks m [now] ⟨worklist, isPure⟩ :=
        ⟨h.total, h.sound, h.itself, fun g hg => h.work g (List.mem_cons_of_mem _ hg), h.passed⟩
      exact ih (process_spec hm hpop hnow hp) hrun

/-- When the work list is empty, the callers of what is impure are. -/
theorem Tracks.isPure_iff (h : Tracks m [] s) (hm : Consistent m) (hw : s.worklist = [])
    (hf : f < m.numFunctions) : s.isPure f = some false ↔ Impure m f := by
  refine ⟨h.sound f hf, ?_⟩
  intro ⟨g, hfg, hi⟩
  induction hfg using Relation.ReflTransGen.head_induction_on with
  | refl => exact h.itself g hf hi
  | head hcall _ ih =>
    obtain ⟨hlt, -⟩ := hm.use_of_calls hcall
    exact h.passed _ hlt (ih hlt) (by simp [hw]) _ hcall

/-- The functions of the module that are still taken for pure. -/
def numPure (m : Module) (s : FuncInfo) : Nat :=
  (List.range m.numFunctions).countP fun f => (s.isPure f).getD false

theorem numPure_taint_lt (hf : f < m.numFunctions) (hp : (s.isPure f).getD false) :
    numPure m (s.taint f) < numPure m s := by
  apply countP_lt _ (List.mem_range.mpr hf) hp (by simp [taint, set])
  intro j hj
  by_cases hjf : j = f
  · subst hjf
    simp [taint, set] at hj
  · simpa [taint, set, hjf] using hj

theorem processUse_potential {use : Use} (hval : use.val = .instruction i)
    (hf : m.functionOf i < m.numFunctions) (hw : ∀ g ∈ s.worklist, g < m.numFunctions) :
    (processUse m s use).worklist.length + numPure m (processUse m s use) ≤
      s.worklist.length + numPure m s ∧
    ∀ g ∈ (processUse m s use).worklist, g < m.numFunctions := by
  rw [processUse, hval]
  by_cases hp : (s.isPure (m.functionOf i)).getD false
  · simp only [hp, if_true]
    have hlt := numPure_taint_lt hf hp
    have hlen : (s.taint (m.functionOf i)).worklist.length = s.worklist.length + 1 := by
      simp [taint]
    refine ⟨by omega, fun g hg => ?_⟩
    rcases List.mem_append.mp hg with hg | hg
    · exact hw g hg
    · rwa [List.mem_singleton.mp hg]
  · simp only [hp, if_false, Bool.false_eq_true]
    refine ⟨Nat.add_le_add_left ?_ _, hw⟩
    apply List.countP_mono_left
    intro j _ hj
    by_cases hjf : j = m.functionOf i
    · subst hjf
      simp [set] at hj
    · simpa [set, hjf] using hj

theorem process_potential (hm : Consistent m) (hg : g < m.numFunctions)
    (hw : ∀ k ∈ s.worklist, k < m.numFunctions) :
    (process m s g).worklist.length + numPure m (process m s g) ≤
      s.worklist.length + numPure m s ∧ ∀ k ∈ (process m s g).worklist, k < m.numFunctions := by
  have key : ∀ uses : List Use, (∀ use ∈ uses, use ∈ m.useList (.function g)) → ∀ s : FuncInfo,
      (∀ k ∈ s.worklist, k < m.numFunctions) →
      (uses.foldl (processUse m) s).worklist.length + numPure m (uses.foldl (processUse m) s) ≤
        s.worklist.length + numPure m s ∧
      ∀ k ∈ (uses.foldl (processUse m) s).worklist, k < m.numFunctions := by
    intro uses huses
    induction uses with
    | nil => exact fun s hw => ⟨Nat.le_refl _, hw⟩
    | cons use uses ih =>
      intro s hw
      obtain ⟨i, hval, hf, -⟩ := hm.calls_of_use hg (huses use List.mem_cons_self)
      obtain ⟨hle, hw'⟩ := processUse_potential hval hf hw
      obtain ⟨hle', hw''⟩ := ih (fun u hu => huses u (List.mem_cons_of_mem _ hu)) _ hw'
      exact ⟨hle'.trans hle, hw''⟩
  exact key _ (fun _ hu => hu) s hw

/-- Each round takes one function from the work list, and each is pushed at most once. -/
theorem loop_returns (hm : Consistent m) (hw : ∀ g ∈ s.worklist, g < m.numFunctions) :
    ∃ s', ∀ fuel ≥ s.worklist.length + numPure m s, loop m fuel s = .ok s' := by
  generalize hn : s.worklist.length + numPure m s = n
  induction n using Nat.strong_induction_on generalizing s with
  | _ n ih =>
    obtain ⟨worklist, isPure⟩ := s
    cases worklist with
    | nil =>
      refine ⟨⟨[], isPure⟩, fun fuel _ => ?_⟩
      cases fuel <;> rfl
    | cons now worklist =>
      have hnow := hw now List.mem_cons_self
      have hpop : numPure m ⟨now :: worklist, isPure⟩ = numPure m ⟨worklist, isPure⟩ := rfl
      have hrest : ∀ g ∈ worklist, g < m.numFunctions :=
        fun g hg => hw g (List.mem_cons_of_mem _ hg)
      obtain ⟨hle, hw'⟩ := process_potential (s := ⟨worklist, isPure⟩) hm hnow hrest
      simp only [List.length_cons] at hn hle
      obtain ⟨s', hs'⟩ := ih _ (by omega) hw' rfl
      refine ⟨s', fun fuel hfuel => ?_⟩
      obtain ⟨k, rfl⟩ : ∃ k, fuel = k + 1 := ⟨fuel - 1, by omega⟩
      exact hs' k (by omega)

/-- Every address that is read or written has a base address. -/
def Based (m : Module) : Prop :=
  ∀ f < m.numFunctions, ∀ i ∈ instructions m f, (m.instrs i).isLoad ∨ (m.instrs i).isStore →
    ∃ v w, Accesses m i v ∧ Base m v w

theorem isLocal_returns (h : Base m v w) :
    ∃ found bound, ∀ fuel ≥ bound, isLocal m fuel (some v) = .ok found := by
  obtain ⟨bound, hb⟩ := getFirstAddr_of_base h
  cases w with
  | instruction j =>
    exact ⟨(m.instrs j).isAlloca, bound, fun fuel hfuel => by rw [isLocal, hb fuel hfuel]; rfl⟩
  | _ => exact ⟨false, bound, fun fuel hfuel => by rw [isLocal, hb fuel hfuel]; rfl⟩

theorem isSideEffectInst_returns
    (h : (m.instrs i).isLoad ∨ (m.instrs i).isStore → ∃ v w, Accesses m i v ∧ Base m v w) :
    ∃ effect bound, ∀ fuel ≥ bound, isSideEffectInst m fuel i = .ok effect := by
  by_cases hs : (m.instrs i).isStore
  · obtain ⟨v, w, ha, hw⟩ := h (.inr hs)
    obtain ⟨found, bound, hb⟩ := isLocal_returns hw
    have hl : ¬ (m.instrs i).isLoad := by
      rw [isLoad_iff, isStore_iff.mp hs]
      simp
    have hop : (m.instrs i).getOperand 1 = some v := by simpa [Accesses, hs, hl] using ha
    refine ⟨!found, bound, fun fuel hfuel => ?_⟩
    rw [isSideEffectInst, if_pos hs, isLocalStore, hop, hb fuel hfuel]
    rfl
  by_cases hl : (m.instrs i).isLoad
  · obtain ⟨v, w, ha, hw⟩ := h (.inl hl)
    obtain ⟨found, bound, hb⟩ := isLocal_returns hw
    have hop : (m.instrs i).getOperand 0 = some v := by simpa [Accesses, hs, hl] using ha
    refine ⟨!found, bound, fun fuel hfuel => ?_⟩
    rw [isSideEffectInst, if_neg hs, if_pos hl, isLocalLoad, hop, hb fuel hfuel]
    rfl
  · exact ⟨false, 0, fun fuel _ => by rw [isSideEffectInst, if_neg hs, if_neg hl]; rfl⟩

theorem anySideEffect_returns (h : ∀ i ∈ insts, (m.instrs i).isLoad ∨ (m.instrs i).isStore →
      ∃ v w, Accesses m i v ∧ Base m v w) :
    ∃ effect bound, ∀ fuel ≥ bound, anySideEffect m fuel insts = .ok effect := by
  induction insts with
  | nil => exact ⟨false, 0, fun _ _ => rfl⟩
  | cons i insts ih =>
    obtain ⟨first, bound, hb⟩ := isSideEffectInst_returns (h i List.mem_cons_self)
    obtain ⟨effect, bound', hb'⟩ := ih fun j hj => h j (List.mem_cons_of_mem _ hj)
    refine ⟨first || effect, max bound bound', fun fuel hfuel => ?_⟩
    rw [anySideEffect, hb fuel ((le_max_left _ _).trans hfuel)]
    cases first with
    | true => rfl
    | false => exact hb' fuel ((le_max_right _ _).trans hfuel)

theorem trivialMark_returns (h : Based m) (hf : f < m.numFunctions) :
    ∃ s' bound, ∀ fuel ≥ bound, trivialMark m fuel s f = .ok s' := by
  obtain ⟨effect, bound, hb⟩ := anySideEffect_returns (h f hf)
  simp only [trivialMark]
  split
  · exact ⟨_, bound, fun _ _ => rfl⟩
  split
  · exact ⟨_, bound, fun _ _ => rfl⟩
  · refine ⟨s.set f !effect, bound, fun fuel hfuel => ?_⟩
    rw [hb fuel hfuel]
    cases effect <;> rfl

theorem markFunction_returns (h : Based m) (hf : f < m.numFunctions) :
    ∃ s' bound, ∀ fuel ≥ bound, markFunction m fuel s f = .ok s' := by
  obtain ⟨t, bound, hb⟩ := trivialMark_returns (s := s) h hf
  refine ⟨if (t.isPure f).getD false then t else { t with worklist := t.worklist ++ [f] }, bound,
    fun fuel hfuel => ?_⟩
  rw [markFunction, hb fuel hfuel]
  by_cases hp : (t.isPure f).getD false
  · rw [if_pos hp]
    exact if_pos hp
  · rw [if_neg hp]
    exact if_neg hp

theorem markFunctions_returns (h : Based m) (hfs : ∀ f ∈ fs, f < m.numFunctions) :
    ∃ s' bound, ∀ fuel ≥ bound, fs.foldlM (markFunction m fuel) s = .ok s' := by
  induction fs generalizing s with
  | nil => exact ⟨s, 0, fun _ _ => rfl⟩
  | cons f fs ih =>
    obtain ⟨t, bound, hb⟩ := markFunction_returns (s := s) h (hfs f List.mem_cons_self)
    obtain ⟨s', bound', hb'⟩ := ih (s := t) fun g hg => hfs g (List.mem_cons_of_mem _ hg)
    refine ⟨s', max bound bound', fun fuel hfuel => ?_⟩
    rw [List.foldlM_cons, hb fuel ((le_max_left _ _).trans hfuel)]
    exact hb' fuel ((le_max_right _ _).trans hfuel)

theorem marked_range (h : (List.range m.numFunctions).foldlM (markFunction m fuel) ⟨[], isPure⟩ =
    .ok s) : Marked m (List.range m.numFunctions) s := by
  have hnil : Marked m [] ⟨[], isPure⟩ := ⟨by simp, by simp⟩
  exact markFunctions_spec hnil h

theorem run_returns (hm : Consistent m) (h : Based m) (isPure : Nat → Option Bool) :
    ∃ s bound, ∀ fuel ≥ bound, run m fuel isPure = .ok s := by
  obtain ⟨t, bound, hb⟩ := markFunctions_returns (s := ⟨[], isPure⟩) h
    fun (f : Nat) (hf : f ∈ List.range m.numFunctions) => List.mem_range.mp hf
  have ht := (marked_range (hb bound (Nat.le_refl _))).tracks
  obtain ⟨s, hs⟩ := loop_returns hm fun g hg => (ht.work g hg).1
  refine ⟨s, max bound (t.worklist.length + numPure m t), fun fuel hfuel => ?_⟩
  rw [run, hb fuel ((le_max_left _ _).trans hfuel)]
  exact hs fuel ((le_max_right _ _).trans hfuel)

theorem run_spec (hm : Consistent m) (hrun : run m fuel isPure = .ok s) :
    Tracks m [] s ∧ s.worklist = [] := by
  obtain ⟨t, ht, hrun⟩ := Exec.bind_eq_ok.mp hrun
  exact loop_spec hm (marked_range ht).tracks hrun

/-- Whatever an earlier run has recorded, the functions reported impure are those that reach an
impure one over calls; and the loop over the work list always ends. -/
theorem isPureFunction_iff (hm : Consistent m) :
    (∀ isPure fuel s, run m fuel isPure = .ok s → ∀ f < m.numFunctions,
      (s.isPureFunction f = some false ↔ Impure m f) ∧
      (s.isPureFunction f = some true ↔ ¬ Impure m f)) ∧
    (∀ s : FuncInfo, (∀ g ∈ s.worklist, g < m.numFunctions) →
      ∃ s' bound, ∀ fuel ≥ bound, loop m fuel s = .ok s') ∧
    (Based m → ∀ isPure, ∃ s bound, ∀ fuel ≥ bound, run m fuel isPure = .ok s) := by
  refine ⟨fun isPure fuel s hrun f hf => ?_, fun s hw => ?_, run_returns hm⟩
  · obtain ⟨ht, hw⟩ := run_spec hm hrun
    have hiff := ht.isPure_iff hm hw hf
    refine ⟨hiff, ?_⟩
    rw [← hiff, isPureFunction]
    obtain ⟨pure, hp⟩ := ht.total f hf
    cases pure <;> simp [hp]
  · obtain ⟨s', hs'⟩ := loop_returns hm hw
    exact ⟨s', _, hs'⟩

theorem function_of_operand {origin : Nat → Option Nat} {b : Nat} {opId : OpID} {ty : Ty}
    {ops : List Value} (h : Builder.Emits m origin n b opId ty ops)
    (hg : ops[j]? = some (.function g)) : opId = .call ∧ j = 0 ∧ g < m.numFunctions := by
  have hval : ¬ Builder.ValueAt m origin n b (.function g) := fun hv => hv
  have haddr : ¬ Builder.AddressAt m origin n b (.function g) := fun hv => hv
  have hmem := List.mem_of_getElem? hg
  cases h
  case call args hlt _ hargs =>
    cases j with
    | zero =>
      cases hg
      exact ⟨rfl, rfl, hlt⟩
    | succ j => exact absurd (hargs _ (List.mem_of_getElem? (l := args) hg)) hval
  case gep hx hidxs =>
    rcases List.mem_cons.mp hmem with rfl | hmem
    · exact absurd hx (not_or.mpr ⟨haddr, hval⟩)
    · exact absurd (hidxs _ hmem) hval
  all_goals
    simp only [List.mem_cons, List.not_mem_nil, or_false, reduceCtorEq, false_or] at hmem
  case binary hx hy | cmp hx hy | fcmp hx hy =>
    rcases hmem with rfl | rfl
    · exact absurd hx hval
    · exact absurd hy hval
  case zext hx | fptosi hx | sitofp hx | ret hx =>
    subst hmem
    exact absurd hx hval
  case load hx _ =>
    subst hmem
    exact absurd hx haddr
  case store hx hy =>
    rcases hmem with rfl | rfl
    · exact absurd hx hval
    · exact absurd hy haddr
  case storeArg _ hy =>
    subst hmem
    exact absurd hy haddr
  case condBr hx _ _ _ =>
    subst hmem
    exact absurd hx hval

/-- In what the visitors build, the use lists of the functions are consistent. -/
theorem consistent_of_buildModule {program : ASTProgram} (h : buildModule program = some m) :
    Consistent m := by
  have hclosed := closed_of_buildModule h
  obtain ⟨origin, hm⟩ := CminusfBuilder.buildModule_inv h
  have hlt : ∀ f < m.numFunctions, ∀ i ∈ instructions m f, i < m.numInstrs := by
    intro f hf i hi
    obtain ⟨b, hb, hi⟩ := mem_instructions.mp hi
    exact (hm.instr_mem b (hm.block_mem f hf b hb).1 i hi).1
  refine ⟨hclosed.toParented, fun g hg use => ?_, fun f hf i hi n g hop => ?_⟩
  · rw [hm.useList]
    constructor
    · intro hop
      cases hu : use.val with
      | instruction i =>
        rw [hu] at hop
        have hi : i < m.numInstrs := by
          by_contra hi
          rw [Module.operands, hm.fresh_instr i (not_lt.mp hi)] at hop
          cases hop
        obtain ⟨hb, hib⟩ := hm.instr_parent i hi
        obtain ⟨hf, hbf⟩ := hm.block_parent _ hb
        exact ⟨_, hf, i, mem_instructions.mpr ⟨_, hbf, hib⟩, rfl, hop⟩
      | globalVariable g =>
        rw [hu] at hop
        have := hm.global_init g _ (List.mem_of_getElem? hop)
        simp [Value.isConstant] at this
      | _ =>
        rw [hu] at hop
        cases hop
    · rintro ⟨f, hf, i, hi, hu, hop⟩
      rw [hu]
      exact hop
  · obtain ⟨hcall, hn, hg⟩ := function_of_operand (hm.emits i (hlt f hf i hi)) hop
    exact ⟨by rw [Instruction.isCall, hcall], hn, hg⟩

theorem operand_of_gep {origin : Nat → Option Nat} {b : Nat} {ty elementTy : Ty} {ops : List Value}
    (h : Builder.Emits m origin n b (.getelementptr elementTy) ty ops) :
    ∃ v ∈ ops, ops[0]? = some v := by
  cases h with
  | gep => exact ⟨_, List.mem_cons_self, rfl⟩

theorem operand_of_load {origin : Nat → Option Nat} {b : Nat} {ty : Ty} {ops : List Value}
    (h : Builder.Emits m origin n b .load ty ops) : ∃ v ∈ ops, ops[0]? = some v := by
  cases h with
  | load => exact ⟨_, List.mem_cons_self, rfl⟩

theorem operand_of_store {origin : Nat → Option Nat} {b : Nat} {ty : Ty} {ops : List Value}
    (h : Builder.Emits m origin n b .store ty ops) : ∃ v ∈ ops, ops[1]? = some v := by
  cases h with
  | store => exact ⟨_, List.mem_cons_of_mem _ List.mem_cons_self, rfl⟩
  | storeArg => exact ⟨_, List.mem_cons_of_mem _ List.mem_cons_self, rfl⟩

/-- The operands of an instruction come before it, so the search for a base address ends. -/
theorem exists_base {origin : Nat → Option Nat} (hm : Builder.Inv m origin) (i : Nat)
    (hi : i < m.numInstrs) :
    (∃ w, Base m (.instruction i) w) ∧ ∀ v ∈ (m.instrs i).operands, ∃ w, Base m v w := by
  induction i using Nat.strong_induction_on with
  | _ i ih =>
    have hop : ∀ v ∈ (m.instrs i).operands, ∃ w, Base m v w := by
      intro v hv
      cases v with
      | instruction j =>
        have hji := (ancestor_of_operand (hm.emits i hi) hv).1
        exact (ih j hji (hji.trans hi)).1
      | _ => exact ⟨_, .value (by simp)⟩
    refine ⟨?_, hop⟩
    by_cases ha : (m.instrs i).isAlloca
    · exact ⟨_, .alloca ha⟩
    by_cases hl : (m.instrs i).isLoad
    · exact ⟨_, .load hl⟩
    by_cases hg : (m.instrs i).isGep
    · obtain ⟨ty, hopId⟩ := isGep_iff.mp hg
      have hemits := hm.emits i hi
      rw [hopId] at hemits
      obtain ⟨v, hv, hzero⟩ := operand_of_gep hemits
      obtain ⟨w, hw⟩ := hop v hv
      exact ⟨w, .gep hg hzero hw⟩
    · cases ho : (m.instrs i).operands.find? fun op => (m.getType op).isPointer with
      | none => exact ⟨_, .other ha hl hg ho⟩
      | some v =>
        obtain ⟨w, hw⟩ := hop v (List.mem_of_find?_eq_some ho)
        exact ⟨w, .operand ha hl hg ho hw⟩

theorem based_of_buildModule {program : ASTProgram} (h : buildModule program = some m) :
    Based m := by
  obtain ⟨origin, hm⟩ := CminusfBuilder.buildModule_inv h
  intro f hf i hi haccess
  obtain ⟨b, hb, hib⟩ := mem_instructions.mp hi
  have hlt := (hm.instr_mem b (hm.block_mem f hf b hb).1 i hib).1
  have hemits := hm.emits i hlt
  have hbase := (exists_base hm i hlt).2
  rcases haccess with hl | hs
  · rw [isLoad_iff.mp hl] at hemits
    obtain ⟨v, hv, hop⟩ := operand_of_load hemits
    obtain ⟨w, hw⟩ := hbase v hv
    exact ⟨v, w, .inl ⟨hl, hop⟩, hw⟩
  · rw [isStore_iff.mp hs] at hemits
    obtain ⟨v, hv, hop⟩ := operand_of_store hemits
    obtain ⟨w, hw⟩ := hbase v hv
    exact ⟨v, w, .inr ⟨hs, hop⟩, hw⟩

theorem isPureFunction_iff_maybeProgram : ∃ m, buildModule Mem2Reg.maybeProgram = some m ∧
    Based m ∧
    (∀ isPure fuel s, run m fuel isPure = .ok s → ∀ f < m.numFunctions,
      (s.isPureFunction f = some false ↔ Impure m f) ∧
      (s.isPureFunction f = some true ↔ ¬ Impure m f)) ∧
    (∀ s : FuncInfo, (∀ g ∈ s.worklist, g < m.numFunctions) →
      ∃ s' bound, ∀ fuel ≥ bound, loop m fuel s = .ok s') ∧
    (Based m → ∀ isPure, ∃ s bound, ∀ fuel ≥ bound, run m fuel isPure = .ok s) := by
  obtain ⟨m, hm, -⟩ := Mem2Reg.maybeProgram_module
  exact ⟨m, hm, based_of_buildModule hm, isPureFunction_iff (consistent_of_buildModule hm)⟩

end FuncInfo

end Cminusf
