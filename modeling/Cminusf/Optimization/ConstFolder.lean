import Cminusf.Optimization.Execution

/-! `ConstFolder` against the instructions that the printer emits. The bit patterns of floats are
ordered, but for those that are no numbers. -/

namespace Cminusf

structure Floats where
  add : BitVec 32 → BitVec 32 → BitVec 32
  sub : BitVec 32 → BitVec 32 → BitVec 32
  mul : BitVec 32 → BitVec 32 → BitVec 32
  div : BitVec 32 → BitVec 32 → BitVec 32
  isNaN : BitVec 32 → Bool
  order : BitVec 32 → BitVec 32 → Ordering
  ofInt : BitVec 32 → BitVec 32
  toInt : BitVec 32 → Option (BitVec 32)

namespace Floats

def unordered (F : Floats) (a b : BitVec 32) : Bool := F.isNaN a || F.isNaN b

/-- The comparisons of C++. -/
def cmp (F : Floats) : CmpOp → BitVec 32 → BitVec 32 → Bool
  | .eq, a, b => !F.unordered a b && (F.order a b).isEq
  | .ne, a, b => F.unordered a b || (F.order a b).isNe
  | .gt, a, b => !F.unordered a b && (F.order a b).isGT
  | .ge, a, b => !F.unordered a b && (F.order a b).isGE
  | .lt, a, b => !F.unordered a b && (F.order a b).isLT
  | .le, a, b => !F.unordered a b && (F.order a b).isLE

/-- The arithmetic of C++. -/
def cxx (F : Floats) : FloatOps :=
  ⟨F.add, F.sub, F.mul, F.div, F.isNaN, F.cmp, F.ofInt, F.toInt⟩

/-- The predicates of `fcmp`. -/
def fcmp (F : Floats) : String → BitVec 32 → BitVec 32 → Option Bool
  | "ueq", a, b => some (F.unordered a b || (F.order a b).isEq)
  | "une", a, b => some (F.unordered a b || (F.order a b).isNe)
  | "ugt", a, b => some (F.unordered a b || (F.order a b).isGT)
  | "uge", a, b => some (F.unordered a b || (F.order a b).isGE)
  | "ult", a, b => some (F.unordered a b || (F.order a b).isLT)
  | "ule", a, b => some (F.unordered a b || (F.order a b).isLE)
  | _, _, _ => none

end Floats

/-- The predicates of `icmp`. -/
def icmp : String → BitVec 32 → BitVec 32 → Option Bool
  | "eq", a, b => some (a == b)
  | "ne", a, b => some (a != b)
  | "sgt", a, b => some (b.slt a)
  | "sge", a, b => some (b.sle a)
  | "slt", a, b => some (a.slt b)
  | "sle", a, b => some (a.sle b)
  | _, _, _ => none

def printCmpType : CmpOp → String
  | .ge => "sge"
  | .gt => "sgt"
  | .le => "sle"
  | .lt => "slt"
  | .eq => "eq"
  | .ne => "ne"

def printFcmpType : CmpOp → String
  | .ge => "uge"
  | .gt => "ugt"
  | .le => "ule"
  | .lt => "ult"
  | .eq => "ueq"
  | .ne => "une"

theorem icmp_printCmpType (op : CmpOp) (a b : BitVec 32) :
    icmp (printCmpType op) a b = some (op.compute a b) := by
  cases op <;> rfl

/-- Every predicate but `une` differs from C++ on what is no number. -/
theorem fcmp_printFcmpType (F : Floats) (op : CmpOp) (a b : BitVec 32) :
    F.fcmp (printFcmpType op) a b = some (F.cmp op a b) ↔ (op = .ne ∨ F.unordered a b = false) := by
  cases hu : F.unordered a b with
  | false => cases op <;> simp [Floats.fcmp, printFcmpType, Floats.cmp, hu]
  | true => cases op <;> simp [Floats.fcmp, printFcmpType, Floats.cmp, hu]

/-- What an instruction yields at run time. -/
def OpID.yields (F : Floats) : OpID → List Datum → Option Datum
  | .cmp op, [.int a, .int b] => (icmp (printCmpType op) a b).map .bool
  | .fcmp op, [.float a, .float b] => (F.fcmp (printFcmpType op) a b).map .bool
  | opId, ds => opId.eval F.cxx ds

/-- The operand types of the instructions that are folded. -/
def OpID.operandTypes : OpID → Option (List Ty)
  | .binary .add | .binary .sub | .binary .mul | .binary .sdiv | .cmp _ => some [.int32, .int32]
  | .binary .fadd | .binary .fsub | .binary .fmul | .binary .fdiv | .fcmp _ =>
    some [.float, .float]
  | .zext _ => some [.int1]
  | .fptosi _ => some [.float]
  | .sitofp _ => some [.int32]
  | _ => none

namespace Value

/-- The type of a constant. Floats are taken by their patterns, also those that are no numbers:
which object a constant is does not matter to `compute`. -/
def constantType : Value → Option Ty
  | .constInt _ => some .int32
  | .constBool _ => some .int1
  | .constFP _ => some .float
  | .constZero ty => some ty
  | _ => none

def isConstantZero : Value → Bool
  | .constZero _ => true
  | _ => false

/-- What a constant is at run time. -/
def constantDatum : Value → Option Datum
  | .constZero .int32 => some (.int 0)
  | .constZero .int1 => some (.bool false)
  | .constZero .float => some (.float 0)
  | v => v.datum

variable {v : Value}

theorem constantType_int32 :
    v.constantType = some .int32 ↔ (∃ n, v = .constInt n) ∨ v = .constZero .int32 := by
  cases v <;> simp [constantType]

theorem constantType_int1 :
    v.constantType = some .int1 ↔ (∃ b, v = .constBool b) ∨ v = .constZero .int1 := by
  cases v <;> simp [constantType]

theorem constantType_float :
    v.constantType = some .float ↔ (∃ x, v = .constFP x) ∨ v = .constZero .float := by
  cases v <;> simp [constantType]

end Value

namespace ConstFolder

open Gvn

/-- `ConstantFP::get`: `cached` are the floats of the constants that exist, and a key that is equal
to the value is found. -/
def constantFP (F : Floats) (cached : List (BitVec 32)) (x : BitVec 32) : BitVec 32 :=
  (cached.find? fun y => F.cmp .eq y x).getD x

def interned (F : Floats) (cached : List (BitVec 32)) : Value → Value
  | .constFP x => .constFP (constantFP F cached x)
  | v => v

/-- `ConstFolder::compute` on the operands of an instruction. -/
def fold (F : Floats) (cached : List (BitVec 32)) (opId : OpID) (cs : List Value) :
    Exec (Option Value) := do
  let c ← match opId, cs with
    | .zext _, [value1] => computeCast F.cxx .constFP .zext (some value1)
    | .fptosi _, [value1] => computeCast F.cxx .constFP .fptosi (some value1)
    | .sitofp _, [value1] => computeCast F.cxx .constFP .sitofp (some value1)
    | opId, [value1, value2] => compute F.cxx .constFP opId (some value1) (some value2)
    | _, _ => return none
  return c.map (interned F cached)

def runtime (F : Floats) (opId : OpID) (cs : List Value) : Option Datum := do
  opId.yields F (← cs.mapM Value.constantDatum)

/-- Nothing undefined is computed, and the constant is what the instruction yields. -/
def Agrees (F : Floats) (cached : List (BitVec 32)) (opId : OpID) (cs : List Value) : Prop :=
  ∃ c d, fold F cached opId cs = .ok (some c) ∧ c.constantDatum = some d ∧
    runtime F opId cs = some d

/-- The operands on which C++ has a result that is the instruction's. -/
def Foldable (F : Floats) (cached : List (BitVec 32)) : OpID → List Value → Prop
  | .binary .add, [.constInt a, .constInt b] => a.saddOverflow b = false
  | .binary .sub, [.constInt a, .constInt b] => a.ssubOverflow b = false
  | .binary .mul, [.constInt a, .constInt b] => a.smulOverflow b = false
  | .binary .sdiv, [.constInt a, .constInt b] => ¬ (b = 0 ∨ a = BitVec.intMin 32 ∧ b = -1)
  | .binary .fadd, [.constFP a, .constFP b] => constantFP F cached (F.add a b) = F.add a b
  | .binary .fsub, [.constFP a, .constFP b] => constantFP F cached (F.sub a b) = F.sub a b
  | .binary .fmul, [.constFP a, .constFP b] => constantFP F cached (F.mul a b) = F.mul a b
  | .binary .fdiv, [.constFP a, .constFP b] => constantFP F cached (F.div a b) = F.div a b
  | .fcmp op, [.constFP a, .constFP b] => op = .ne ∨ F.unordered a b = false
  | .fptosi _, [.constFP x] => (F.toInt x).isSome
  | .sitofp _, [.constInt n] => constantFP F cached (F.ofInt n) = F.ofInt n
  | _, cs => ∀ c ∈ cs, c.isConstantZero = false

variable {F : Floats} {cached : List (BitVec 32)} {opId : OpID} {cs : List Value} {c : Value}
  {d : Datum} {fault : Fault}

theorem agrees_of_ok (h : fold F cached opId cs = .ok (some c)) (hc : c.constantDatum = some d) :
    Agrees F cached opId cs ↔ runtime F opId cs = some d := by
  constructor
  · intro ⟨c', d', h', hc', hd⟩
    rw [h] at h'
    cases h'
    rw [hc] at hc'
    cases hc'
    exact hd
  · exact fun hd => ⟨c, d, h, hc, hd⟩

theorem not_agrees_of_error (h : fold F cached opId cs = .error fault) :
    ¬ Agrees F cached opId cs := by
  intro ⟨c, d, h', _⟩
  rw [h] at h'
  cases h'

/-- The arithmetic on integers, with the operands on which it is undefined. -/
theorem agrees_int {op : BinaryOp} {a b n : BitVec 32} {undefined : Prop} [Decidable undefined]
    (hfold : fold F cached (.binary op) [.constInt a, .constInt b] =
      if undefined then .error .undefinedBehaviour else .ok (some (.constInt n)))
    (hrun : ¬ undefined → op.eval F.cxx (.int a) (.int b) = some (.int n)) :
    Agrees F cached (.binary op) [.constInt a, .constInt b] ↔ ¬ undefined := by
  by_cases h : undefined
  · rw [if_pos h] at hfold
    exact iff_of_false (not_agrees_of_error hfold) (not_not.mpr h)
  · rw [if_neg h] at hfold
    exact iff_of_true ((agrees_of_ok hfold rfl).mpr (hrun h)) h

/-- The arithmetic on floats, whose result is looked up. -/
theorem agrees_float {r : BitVec 32}
    (hfold : fold F cached opId cs = .ok (some (.constFP (constantFP F cached r))))
    (hrun : runtime F opId cs = some (.float r)) :
    Agrees F cached opId cs ↔ constantFP F cached r = r := by
  rw [agrees_of_ok hfold rfl, hrun, Option.some.injEq, Datum.float.injEq, eq_comm]

theorem int_operands (h : cs.map Value.constantType = [.int32, .int32].map some) :
    (∃ a b, cs = [.constInt a, .constInt b]) ∨ (∃ c, cs = [.constZero .int32, c]) ∨
      ∃ a, cs = [.constInt a, .constZero .int32] := by
  obtain ⟨c₁, cs, rfl, h₁, h⟩ := List.map_eq_cons_iff.mp h
  obtain ⟨c₂, cs, rfl, h₂, h⟩ := List.map_eq_cons_iff.mp h
  obtain rfl := List.map_eq_nil_iff.mp h
  rcases Value.constantType_int32.mp h₁ with ⟨a, rfl⟩ | rfl
  · rcases Value.constantType_int32.mp h₂ with ⟨b, rfl⟩ | rfl
    · exact .inl ⟨a, b, rfl⟩
    · exact .inr (.inr ⟨a, rfl⟩)
  · exact .inr (.inl ⟨c₂, rfl⟩)

theorem float_operands (h : cs.map Value.constantType = [.float, .float].map some) :
    (∃ a b, cs = [.constFP a, .constFP b]) ∨ (∃ c, cs = [.constZero .float, c]) ∨
      ∃ a, cs = [.constFP a, .constZero .float] := by
  obtain ⟨c₁, cs, rfl, h₁, h⟩ := List.map_eq_cons_iff.mp h
  obtain ⟨c₂, cs, rfl, h₂, h⟩ := List.map_eq_cons_iff.mp h
  obtain rfl := List.map_eq_nil_iff.mp h
  rcases Value.constantType_float.mp h₁ with ⟨a, rfl⟩ | rfl
  · rcases Value.constantType_float.mp h₂ with ⟨b, rfl⟩ | rfl
    · exact .inl ⟨a, b, rfl⟩
    · exact .inr (.inr ⟨a, rfl⟩)
  · exact .inr (.inl ⟨c₂, rfl⟩)

/-- A `ConstantZero` is not what `compute` casts it to. -/
theorem agrees_iff_of_error (h : fold F cached opId cs = .error fault)
    (hno : ¬ Foldable F cached opId cs) : Agrees F cached opId cs ↔ Foldable F cached opId cs :=
  iff_of_false (not_agrees_of_error h) hno

theorem fold_checked {op : BinaryOp} {a b n : BitVec 32} {overflow : Bool}
    (h : compute F.cxx .constFP (.binary op) (some (.constInt a)) (some (.constInt b)) =
      (checked overflow n).map some) :
    fold F cached (.binary op) [.constInt a, .constInt b] =
      if overflow = true then .error .undefinedBehaviour else .ok (some (.constInt n)) := by
  have hfold : fold F cached (.binary op) [.constInt a, .constInt b] =
      (compute F.cxx .constFP (.binary op) (some (.constInt a)) (some (.constInt b))).map
        (Option.map (interned F cached)) := rfl
  rw [hfold, h]
  cases overflow <;> rfl

theorem agrees_iff_foldable_binary {op : BinaryOp} {tys : List Ty}
    (hop : (OpID.binary op).operandTypes = some tys)
    (hcs : cs.map Value.constantType = tys.map some) :
    Agrees F cached (.binary op) cs ↔ Foldable F cached (.binary op) cs := by
  cases op with
  | add | sub | mul =>
    cases hop
    rcases int_operands hcs with ⟨a, b, rfl⟩ | ⟨c, rfl⟩ | ⟨a, rfl⟩
    · rw [agrees_int (fold_checked rfl) fun _ => rfl]
      simp [Foldable]
    · exact agrees_iff_of_error rfl (by simp [Foldable, Value.isConstantZero])
    · exact agrees_iff_of_error rfl (by simp [Foldable, Value.isConstantZero])
  | sdiv =>
    cases hop
    rcases int_operands hcs with ⟨a, b, rfl⟩ | ⟨c, rfl⟩ | ⟨a, rfl⟩
    · have hfold : fold F cached (.binary .sdiv) [.constInt a, .constInt b] =
          if b = 0 ∨ a = BitVec.intMin 32 ∧ b = -1 then .error .undefinedBehaviour
          else .ok (some (.constInt (a.sdiv b))) := by
        simp only [fold, compute, getConstIntValue, pure_bind]
        split <;> rfl
      exact agrees_int hfold fun hno => if_neg hno
    · exact agrees_iff_of_error rfl (by simp [Foldable, Value.isConstantZero])
    · exact agrees_iff_of_error rfl (by simp [Foldable, Value.isConstantZero])
  | fadd | fsub | fmul | fdiv =>
    cases hop
    rcases float_operands hcs with ⟨a, b, rfl⟩ | ⟨c, rfl⟩ | ⟨a, rfl⟩
    · exact agrees_float rfl rfl
    · exact agrees_iff_of_error rfl (by simp [Foldable, Value.isConstantZero])
    · exact agrees_iff_of_error rfl (by simp [Foldable, Value.isConstantZero])

theorem one_operand {ty : Ty} (h : cs.map Value.constantType = [ty].map some) :
    ∃ c, cs = [c] ∧ c.constantType = some ty := by
  obtain ⟨c, cs, rfl, hc, h⟩ := List.map_eq_cons_iff.mp h
  obtain rfl := List.map_eq_nil_iff.mp h
  exact ⟨c, rfl, hc⟩

/-- On constant operands of its types, `compute` does nothing undefined and returns what the
instruction yields just when they are foldable. -/
theorem agrees_iff_foldable {tys : List Ty} (hop : opId.operandTypes = some tys)
    (hcs : cs.map Value.constantType = tys.map some) :
    Agrees F cached opId cs ↔ Foldable F cached opId cs := by
  cases opId with
  | binary op => exact agrees_iff_foldable_binary hop hcs
  | cmp op =>
    cases hop
    rcases int_operands hcs with ⟨a, b, rfl⟩ | ⟨c, rfl⟩ | ⟨a, rfl⟩
    · have hrun : runtime F (.cmp op) [.constInt a, .constInt b] = some (.bool (op.compute a b)) :=
        congrArg (Option.map Datum.bool) (icmp_printCmpType op a b)
      exact iff_of_true ((agrees_of_ok rfl rfl).mpr hrun) (by simp [Foldable, Value.isConstantZero])
    · exact agrees_iff_of_error rfl (by simp [Foldable, Value.isConstantZero])
    · exact agrees_iff_of_error rfl (by simp [Foldable, Value.isConstantZero])
  | fcmp op =>
    cases hop
    rcases float_operands hcs with ⟨a, b, rfl⟩ | ⟨c, rfl⟩ | ⟨a, rfl⟩
    · have hrun : runtime F (.fcmp op) [.constFP a, .constFP b] =
          (F.fcmp (printFcmpType op) a b).map .bool := rfl
      have hiff : runtime F (.fcmp op) [.constFP a, .constFP b] = some (.bool (F.cmp op a b)) ↔
          op = .ne ∨ F.unordered a b = false := by
        rw [hrun, ← fcmp_printFcmpType]
        simp
      exact (agrees_of_ok rfl rfl).trans hiff
    · exact agrees_iff_of_error rfl (by simp [Foldable, Value.isConstantZero])
    · exact agrees_iff_of_error rfl (by simp [Foldable, Value.isConstantZero])
  | zext ty =>
    cases hop
    obtain ⟨c, rfl, hc⟩ := one_operand hcs
    rcases Value.constantType_int1.mp hc with ⟨b, rfl⟩ | rfl
    · exact iff_of_true ((agrees_of_ok rfl rfl).mpr rfl) (by simp [Foldable, Value.isConstantZero])
    · exact agrees_iff_of_error rfl (by simp [Foldable, Value.isConstantZero])
  | fptosi ty =>
    cases hop
    obtain ⟨c, rfl, hc⟩ := one_operand hcs
    rcases Value.constantType_float.mp hc with ⟨x, rfl⟩ | rfl
    · have hcast : F.cxx.toInt x = F.toInt x := rfl
      cases hx : F.toInt x with
      | none =>
        have hfold : fold F cached (.fptosi ty) [.constFP x] = .error .undefinedBehaviour := by
          simp only [fold, computeCast, getConstFpValue, pure_bind, hcast, hx]
          rfl
        exact agrees_iff_of_error hfold (by simp [Foldable, hx])
      | some n =>
        have hfold : fold F cached (.fptosi ty) [.constFP x] = .ok (some (.constInt n)) := by
          simp only [fold, computeCast, getConstFpValue, pure_bind, hcast, hx]
          rfl
        have hrun : runtime F (.fptosi ty) [.constFP x] = some (.int n) :=
          congrArg (Option.map Datum.int) hx
        exact iff_of_true ((agrees_of_ok hfold rfl).mpr hrun) (by simp [Foldable, hx])
    · exact agrees_iff_of_error rfl (by simp [Foldable, Value.isConstantZero])
  | sitofp ty =>
    cases hop
    obtain ⟨c, rfl, hc⟩ := one_operand hcs
    rcases Value.constantType_int32.mp hc with ⟨n, rfl⟩ | rfl
    · exact agrees_float rfl rfl
    · exact agrees_iff_of_error rfl (by simp [Foldable, Value.isConstantZero])
  | _ => cases hop

/-- The place of a float among those that are numbers. -/
def key (x : BitVec 32) : Int :=
  if x.msb then -(x.toNat % 2 ^ 31 : Nat) else x.toNat

/-- Bit patterns of single precision, of which only the comparison is defined. -/
def bitPatterns : Floats where
  add a _ := a
  sub a _ := a
  mul a _ := a
  div a _ := a
  isNaN x := 0x7f800000 < x.toNat % 2 ^ 31
  order x y := compare (key x) (key y)
  ofInt n := n
  toInt _ := none

theorem agrees_iff_foldable_add : Agrees bitPatterns [] (.binary .add) [.constInt 1, .constInt 2] ↔
    Foldable bitPatterns [] (.binary .add) [.constInt 1, .constInt 2] :=
  agrees_iff_foldable rfl rfl

/-- `1 / 0`, also where it is not executed. -/
theorem not_agrees_sdiv : ¬ ∀ (F : Floats) (cached : List (BitVec 32)) (opId : OpID) (tys : List Ty)
    (cs : List Value), opId.operandTypes = some tys → cs.map Value.constantType = tys.map some →
    Agrees F cached opId cs := by
  intro h
  have hagrees :=
    h bitPatterns [] (.binary .sdiv) [.int32, .int32] [.constInt 1, .constInt 0] rfl rfl
  exact not_agrees_of_error rfl hagrees

end ConstFolder

end Cminusf
