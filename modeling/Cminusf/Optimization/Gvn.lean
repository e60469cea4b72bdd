import Cminusf.Exec
import Cminusf.LightIR.Module
import Mathlib.Data.List.MinMax

/-! `GVN`: value expressions, partitions into congruence classes and the iteration over the
blocks. A null `shared_ptr` to an expression is an expression of its own, and `func_info_`
is given by its verdicts. -/

namespace Cminusf

/-- Arithmetic on floats, which are given by their bit patterns, with the comparisons of C++. -/
structure FloatOps where
  add : BitVec 32 → BitVec 32 → BitVec 32
  sub : BitVec 32 → BitVec 32 → BitVec 32
  mul : BitVec 32 → BitVec 32 → BitVec 32
  div : BitVec 32 → BitVec 32 → BitVec 32
  isNaN : BitVec 32 → Bool
  cmp : CmpOp → BitVec 32 → BitVec 32 → Bool
  ofInt : BitVec 32 → BitVec 32
  toInt : BitVec 32 → Option (BitVec 32)

/-- The comparison of two signed integers. -/
def CmpOp.compute : CmpOp → BitVec 32 → BitVec 32 → Bool
  | .eq, a, b => a == b
  | .ne, a, b => a != b
  | .gt, a, b => b.slt a
  | .ge, a, b => b.sle a
  | .lt, a, b => a.slt b
  | .le, a, b => a.sle b

namespace Gvn

inductive CastOp where
  | zext | fptosi | sitofp
deriving DecidableEq

inductive Expression where
  | null
  | constant (c : Option Value)
  | bin (op : BinaryOp) (lhs rhs : Expression)
  | phi (lhs rhs : Expression)
  | cmp (op : CmpOp) (lhs rhs : Value)
  | fcmp (op : CmpOp) (lhs rhs : Value)
  | call (func : List Value)
  | gep (ptr : List Value)
  | typeConverse (exp : Expression) (op : CastOp)
  | other (id : Nat)
  | global (gv : Nat)
  | args (f argNo : Nat)
deriving DecidableEq

/-- `operator==`, which dereferences both sides. -/
def Expression.equiv : Expression → Expression → Exec Bool
  | .null, _ => throw .undefinedBehaviour
  | _, .null => throw .undefinedBehaviour
  | .constant c, .constant c' => return c = c'
  | .bin op l r, .bin op' l' r' => do
    if op = op' then
      if ← l.equiv l' then r.equiv r' else return false
    else return false
  | .phi l r, .phi l' r' => do
    if ← l.equiv l' then r.equiv r' else return false
  | .typeConverse e op, .typeConverse e' op' => do
    if ← e.equiv e' then return op = op' else return false
  | e, e' => return e = e'

structure CongruenceClass where
  index : Nat
  leader : Option Value
  valueExpr : Expression
  valuePhi : Option (Expression × Expression)
  members : List Value
deriving DecidableEq

/-- `CongruenceClass::operator==`. -/
def CongruenceClass.equal (cc other : CongruenceClass) : Bool :=
  cc.members.length == other.members.length && cc.members.all (· ∈ other.members) &&
    other.members.all (· ∈ cc.members)

/-- The classes in the order of their indices. -/
abbrev Partition := List CongruenceClass

/-- `std::set::insert`. -/
def Partition.insert (cc : CongruenceClass) : Partition → Partition
  | [] => [cc]
  | c :: p =>
    if cc.index < c.index then cc :: c :: p
    else if c.index < cc.index then c :: Partition.insert cc p
    else c :: p

/-- `operator==` on partitions. -/
def Partition.equal (p1 p2 : Partition) : Bool :=
  p1.length == p2.length && (p1.zip p2).all fun cc => cc.1.equal cc.2

/-- The leader of a new class whose value expression is taken over. -/
def keptLeader (addr : Value → Nat) (ve : Expression) (members : List Value) : Option Value :=
  match ve with
  | .constant c => c
  | _ => members.argmin addr

def intersect (addr : Value → Nat) (next : Nat) (ci cj : CongruenceClass) :
    Option CongruenceClass × Nat :=
  let interMem := ci.members.filter (· ∈ cj.members)
  if ci.equal cj then (some ci, next)
  else if interMem.isEmpty then (none, next)
  else if ci.leader = cj.leader then
    (some ⟨next, keptLeader addr ci.valueExpr interMem, ci.valueExpr, ci.valuePhi, interMem⟩, next + 1)
  else
    (some ⟨next, interMem.argmin addr, .phi ci.valueExpr cj.valueExpr,
      some (ci.valueExpr, cj.valueExpr), interMem⟩, next + 1)

/-- The loops of `join` over the pairs that are left. -/
def joinPairs (addr : Value → Nat) (p1 p2 : Partition) :
    List (CongruenceClass × CongruenceClass) → Partition → Nat → Partition × Nat
  | [], p, next => (p, next)
  | (cc1, cc2) :: pairs, p, next =>
    if cc1.index = 0 then (p2, next)
    else if cc2.index = 0 then (p1, next)
    else
      match intersect addr next cc1 cc2 with
      | (some cc, next) => joinPairs addr p1 p2 pairs (p.insert cc) next
      | (none, next) => joinPairs addr p1 p2 pairs p next

def join (addr : Value → Nat) (next : Nat) (p1 p2 : Partition) : Partition × Nat :=
  joinPairs addr p1 p2 (p1.flatMap fun cc1 => p2.map fun cc2 => (cc1, cc2)) [] next

/-- `value_phi_` as an expression. -/
def phiOf : Option (Expression × Expression) → Expression
  | none => .null
  | some (l, r) => .phi l r

def getVE : Partition → Value → Expression
  | [], _ => .null
  | c :: p, v =>
    if v ∈ c.members then
      if c.valueExpr ≠ .null then c.valueExpr else phiOf c.valuePhi
    else getVE p v

def getVN : Partition → Expression → Exec Bool
  | [], _ => return false
  | c :: p, ve => do
    if c.valueExpr ≠ .null then
      if ← c.valueExpr.equiv ve then return true
    getVN p ve

/-- What the analysis reads: the module, the arithmetic, the verdicts of `func_info_`, the zero
that `cached_float` has, and the number for the constants that are made and are no numbers. -/
structure Context where
  module : Module
  ops : FloatOps
  isPure : Nat → Bool
  zero : BitVec 32
  made : Nat

/-- The context of the call with a number. -/
def Context.forCall (ctx : Context) (call : Nat) : Context := { ctx with made := call }

@[simp] theorem Context.forCall_module (ctx : Context) (call : Nat) :
    (ctx.forCall call).module = ctx.module := rfl

/-- `ConstantFP::get`. The two zeros are equal as keys, so both find the one that was asked for
first. -/
def Context.constantFP (ctx : Context) (x : BitVec 32) : Value :=
  if ctx.ops.isNaN x then .constNaN x ctx.made
  else if ctx.ops.cmp .eq x ctx.zero then .constFP ctx.zero
  else .constFP x

/-- `dynamic_cast<Constant *>`. -/
def toConstant (v : Value) : Option Value := if v.isConstant then some v else none

def getConstIntValue : Option Value → Exec (BitVec 32)
  | some (.constInt n) => return n
  | some (.constBool b) => return if b then 1 else 0
  | _ => throw .undefinedBehaviour

def getConstFpValue : Option Value → Exec (BitVec 32)
  | some (.constFP x) | some (.constNaN x _) => return x
  | _ => throw .undefinedBehaviour

/-- A sum, a difference or a product that `int` cannot hold is undefined. -/
def checked (overflow : Bool) (n : BitVec 32) : Exec Value :=
  if overflow then throw .undefinedBehaviour else return .constInt n

theorem checked_eq_ok {overflow : Bool} {n : BitVec 32} {c : Value} :
    checked overflow n = .ok c ↔ overflow = false ∧ c = .constInt n := by
  cases overflow with
  | false => exact ⟨fun h => ⟨rfl, by cases h; rfl⟩, fun h => by rw [h.2]; rfl⟩
  | true => exact ⟨fun h => (by cases h), fun h => (by cases h.1)⟩

/-- `ConstFolder::compute` with two constants; `get` is `ConstantFP::get`. -/
def compute (ops : FloatOps) (get : BitVec 32 → Value) (opId : OpID)
    (value1 value2 : Option Value) : Exec (Option Value) :=
  let int (f : BitVec 32 → BitVec 32 → Exec Value) := do
    return some (← f (← getConstIntValue value1) (← getConstIntValue value2))
  let fp (f : BitVec 32 → BitVec 32 → Value) := do
    return some (f (← getConstFpValue value1) (← getConstFpValue value2))
  match opId with
  | .binary .add => int fun a b => checked (a.saddOverflow b) (a + b)
  | .binary .sub => int fun a b => checked (a.ssubOverflow b) (a - b)
  | .binary .mul => int fun a b => checked (a.smulOverflow b) (a * b)
  | .binary .sdiv => int fun a b =>
    if b = 0 ∨ a = BitVec.intMin 32 ∧ b = -1 then throw .undefinedBehaviour
    else return .constInt (a.sdiv b)
  | .binary .fadd => fp fun a b => get (ops.add a b)
  | .binary .fsub => fp fun a b => get (ops.sub a b)
  | .binary .fmul => fp fun a b => get (ops.mul a b)
  | .binary .fdiv => fp fun a b => get (ops.div a b)
  | .cmp op => int fun a b => return .constBool (op.compute a b)
  | .fcmp op => fp fun a b => .constBool (ops.cmp op a b)
  | _ => return none

/-- `ConstFolder::compute` with one constant. -/
def computeCast (ops : FloatOps) (get : BitVec 32 → Value) (op : CastOp) (value1 : Option Value) :
    Exec (Option Value) :=
  match op with
  | .sitofp => return some (get (ops.ofInt (← getConstIntValue value1)))
  | .fptosi => do
    match ops.toInt (← getConstFpValue value1) with
    | some n => return some (.constInt n)
    | none => throw .undefinedBehaviour
  | .zext => return some (.constInt (← getConstIntValue value1))

/-- `get_operand`, out of range undefined. -/
def getOperand (m : Module) (instr n : Nat) : Exec Value :=
  match (m.instrs instr).getOperand n with
  | some v => return v
  | none => throw .undefinedBehaviour

/-- `BIN_TYPE`; on a binary instruction with two operands that are not in the partition it
ends without a value. -/
def binType (ctx : Context) (instr : Nat) (pin : Partition) : Exec Expression := do
  let opId := (ctx.module.instrs instr).opId
  let lhs ← getOperand ctx.module instr 0
  let rhs ← getOperand ctx.module instr 1
  if lhs.isConstant && rhs.isConstant then
    return .constant (← compute ctx.ops ctx.constantFP opId (some lhs) (some rhs))
  match opId, getVE pin lhs, getVE pin rhs with
  | .binary _, .null, .null => throw .undefinedBehaviour
  | .binary _, .null, .constant c =>
    return .constant (← compute ctx.ops ctx.constantFP opId (toConstant lhs) c)
  | .binary op, .null, re => return .bin op (.constant (toConstant lhs)) re
  | .binary _, .constant c, .null =>
    return .constant (← compute ctx.ops ctx.constantFP opId c (toConstant rhs))
  | .binary op, le, .null => return .bin op le (.constant (toConstant rhs))
  | .binary _, .constant c, .constant c' =>
    return .constant (← compute ctx.ops ctx.constantFP opId c c')
  | .binary op, le, re => return .bin op le re
  | .cmp op, _, _ => return .cmp op lhs rhs
  | .fcmp op, _, _ => return .fcmp op lhs rhs
  | _, _, _ => throw .undefinedBehaviour

/-- The conversions in `valueExpr`. -/
def castExpr (ctx : Context) (instr : Nat) (op : CastOp) (pin : Partition) : Exec Expression := do
  let op1 ← getOperand ctx.module instr 0
  if op1.isConstant then return .constant (← computeCast ctx.ops ctx.constantFP op (some op1))
  match getVE pin op1 with
  | .constant c => return .constant (← computeCast ctx.ops ctx.constantFP op c)
  | le => return .typeConverse le op

/-- A phi in `valueExpr`, as a copy at the end of `bb`; `null` if it has no operand for `bb`. -/
def copyExpr (ctx : Context) (instr : Nat) (pin : Partition) (bb : Nat) : Exec Expression := do
  let lhs ← getOperand ctx.module instr 0
  let rhs ← getOperand ctx.module instr 2
  let labelL ← getOperand ctx.module instr 1
  let labelR ← getOperand ctx.module instr 3
  let copy (v : Value) : Expression := match getVE pin v with
    | .null => .constant (toConstant v)
    | e => e
  if labelL = .basicBlock bb then return copy lhs
  else if labelR = .basicBlock bb then return copy rhs
  else return .null

/-- `valueExpr`, with `next_otherExpression_number`. -/
def valueExpr (ctx : Context) (next instr : Nat) (pin : Partition) (bb : Nat) :
    Exec (Expression × Nat) := do
  let ins := ctx.module.instrs instr
  match ins.opId with
  | .binary _ | .cmp _ | .fcmp _ => return (← binType ctx instr pin, next)
  | .call =>
    match ← getOperand ctx.module instr 0 with
    | .function f =>
      if (ctx.module.functions f).returnType.isVoid then return (.null, next)
      else if ctx.isPure f then return (.call ins.operands, next)
      else return (.other next, next + 1)
    | _ => throw .undefinedBehaviour
  | .zext _ => return (← castExpr ctx instr .zext pin, next)
  | .fptosi _ => return (← castExpr ctx instr .fptosi pin, next)
  | .sitofp _ => return (← castExpr ctx instr .sitofp pin, next)
  | .getelementptr _ => return (.gep ins.operands, next)
  | .br | .ret | .store => return (.null, next)
  | .phi _ =>
    match ← copyExpr ctx instr pin bb with
    | .null => return (.other next, next + 1)
    | e => return (e, next)
  | .alloca _ | .load => return (.other next, next + 1)

/-- The constant of a `ConstantExpression`. -/
def constantOf : Expression → Option Value
  | .constant c => c
  | _ => none

/-- One edge of `valuePhiFunc`; `nested` is its call on the parts. -/
def phiEdge (ctx : Context) (instr : Nat) (op : BinaryOp) (v1 v2 : Expression) (pout : Partition)
    (nested : Exec (Option (Expression × Expression))) : Exec Expression := do
  match constantOf v1, constantOf v2 with
  | some c1, some c2 =>
    let opId := (ctx.module.instrs instr).opId
    return .constant (← compute ctx.ops ctx.constantFP opId (some c1) (some c2))
  | _, _ =>
    if ← getVN pout (.bin op v1 v2) then return .bin op v1 v2
    else return phiOf (← nested)

/-- `valuePhiFunc` on the value expression `lhs op rhs`. -/
def valuePhiFunc (ctx : Context) (pout : Nat → Partition) (instr : Nat) (op : BinaryOp) :
    Expression → Expression → Nat → Exec (Option (Expression × Expression))
  | .phi i1 j1, .phi i2 j2, bb =>
    match (ctx.module.blocks bb).preBbs.head?, (ctx.module.blocks bb).preBbs.getLast? with
    | some front, some back => do
      let vi ← phiEdge ctx instr op i1 i2 (pout front)
        (valuePhiFunc ctx pout instr op i1 i2 front)
      let vj ← phiEdge ctx instr op j1 j2 (pout back)
        (valuePhiFunc ctx pout instr op j1 j2 back)
      if vi ≠ .null ∧ vj ≠ .null then return some (vi, vj) else return none
    | _, _ => throw .undefinedBehaviour
  | _, _, _ => return none

/-- The fields of `GVN`, and the number of the next call of `transferFunction`. -/
structure GVN where
  nextOther : Nat
  nextValue : Nat
  nextCall : Nat
  pin : Nat → Partition
  pout : Nat → Partition

/-- The removal of `x` from its class, and of the class when nothing is left of it. -/
def eraseMember (x : Value) : Partition → Partition
  | [] => []
  | c :: p =>
    if x ∈ c.members then
      if (c.members.erase x).isEmpty then p else { c with members := c.members.erase x } :: p
    else c :: eraseMember x p

def insertMember (x : Value) (members : List Value) : List Value :=
  if x ∈ members then members else members ++ [x]

/-- Whether a class has the value expression or the value φ-function. -/
def inClass (ve : Expression) (vp : Option (Expression × Expression)) (cc : CongruenceClass) :
    Exec Bool := do
  if cc.valueExpr ≠ .null then
    if ← ve.equiv cc.valueExpr then return true
  if vp ≠ none ∧ cc.valuePhi ≠ none then (phiOf vp).equiv (phiOf cc.valuePhi)
  else return false

/-- The insertion of `x` into the first class that fits, if there is one. -/
def joinClass (x : Value) (ve : Expression) (vp : Option (Expression × Expression)) :
    Partition → Exec (Option Partition)
  | [] => return none
  | c :: p => do
    if ← inClass ve vp c then return some ({ c with members := insertMember x c.members } :: p)
    else return (← joinClass x ve vp p).map (c :: ·)

/-- The end of `transferFunction`, with the value expression of `x`. -/
def assign (ctx : Context) (g : GVN) (x : Nat) (ve : Expression) (pout : Partition) (bb : Nat) :
    Exec (Partition × GVN) := do
  let vp ← match ve with
    | .bin op lhs rhs => valuePhiFunc ctx g.pout x op lhs rhs bb
    | _ => pure none
  if ve = .null then return (pout, g)
  match ← joinClass (.instruction x) ve vp pout with
  | some p => return (p, g)
  | none =>
    let leader := match ve with
      | .constant c => c
      | _ => some (.instruction x)
    return (pout.insert ⟨g.nextValue, leader, ve, vp, [.instruction x]⟩,
      { g with nextValue := g.nextValue + 1 })

/-- The constants that one call makes and that are no numbers are not compared with each other,
so they share a number. -/
def transferFunction (ctx : Context) (g : GVN) (x : Nat) (pin : Partition) (bb : Nat) :
    Exec (Partition × GVN) := do
  let (ve, next) ← valueExpr (ctx.forCall g.nextCall) g.nextOther x pin bb
  assign (ctx.forCall g.nextCall) { g with nextOther := next, nextCall := g.nextCall + 1 } x ve
    (eraseMember (.instruction x) pin) bb

/-- `transferFunction` on one instruction after the other. -/
def transferAll (ctx : Context) (bb : Nat) (xs : List Nat) (s : Partition × GVN) :
    Exec (Partition × GVN) :=
  xs.foldlM (fun s x => transferFunction ctx s.2 x s.1 bb) s

/-- The phis of a block. -/
def phis (m : Module) (b : Nat) : List Nat := (m.blocks b).instrList.filter fun i => (m.instrs i).isPhi

/-- The phis of all successors of a block, one successor after the other. -/
def succPhis (m : Module) (b : Nat) : List Nat := (m.blocks b).succBbs.flatMap (phis m)

/-- The instructions of a block without its phis. -/
def body (m : Module) (b : Nat) : List Nat :=
  (m.blocks b).instrList.filter fun i => !(m.instrs i).isPhi

/-- The loop over the predecessors in `detectEquivalences`. -/
def enterBlock (addr : Value → Nat) (m : Module) (bb : Nat) (g : GVN) : GVN :=
  match (m.blocks bb).preBbs with
  | [] => g
  | p :: ps =>
    ps.foldl (fun g' q =>
      let (pinR, next) := join addr g'.nextValue (g.pout p) (g'.pout q)
      { g' with nextValue := next, pin := Function.update g'.pin bb pinR })
      { g with pin := Function.update g.pin bb (g.pout p) }

/-- The body of the loop over the blocks in `detectEquivalences`, with `changed`. -/
def visitBlock (ctx : Context) (addr : Value → Nat) (g : GVN) (bb : Nat) : Exec (Bool × GVN) := do
  let g := enterBlock addr ctx.module bb g
  let (poutBb, g) ← transferAll ctx bb (body ctx.module bb) (g.pin bb, g)
  let (poutBb, g) ← transferAll ctx bb (succPhis ctx.module bb) (poutBb, g)
  return (!poutBb.equal (g.pout bb), { g with pout := Function.update g.pout bb poutBb })

/-- One pass over the blocks other than the entry; the last block decides on `changed`. -/
def pass (ctx : Context) (addr : Value → Nat) (blocks : List Nat) (s : Bool × GVN) :
    Exec (Bool × GVN) :=
  blocks.foldlM (fun s bb => visitBlock ctx addr s.2 bb) s

/-- The do-while loop. -/
def iterate (ctx : Context) (addr : Value → Nat) (blocks : List Nat) : Nat → Bool × GVN →
    Exec GVN
  | 0, _ => throw .outOfFuel
  | fuel + 1, s => do
    let s ← pass ctx addr blocks s
    if s.1 then iterate ctx addr blocks fuel s else return s.2

def top : CongruenceClass := ⟨0, none, .null, none, []⟩

/-- `initial_gv`. -/
def initialGv (m : Module) (s : Partition × GVN) : Partition × GVN :=
  (List.range m.numGlobals).foldl (fun s gv =>
    (s.1.insert ⟨s.2.nextValue, some (.globalVariable gv), .global gv, none, [.globalVariable gv]⟩,
      { s.2 with nextValue := s.2.nextValue + 1 })) s

/-- `initial_args`. -/
def initialArgs (m : Module) (f : Nat) (s : Partition × GVN) : Partition × GVN :=
  (List.range (m.functions f).paramTypes.length).foldl (fun s n =>
    (s.1.insert ⟨s.2.nextValue, some (.argument f n), .args f n, none, [.argument f n]⟩,
      { s.2 with nextValue := s.2.nextValue + 1 })) s

/-- `initPerFunction` and `initial`. -/
def initial (ctx : Context) (f entry nextOther : Nat) : Exec GVN := do
  let m := ctx.module
  let g : GVN := ⟨nextOther, 1, ctx.made, fun _ => [],
    fun b => if b ∈ (m.functions f).basicBlocks then [top] else []⟩
  let s ← transferAll ctx entry (m.blocks entry).instrList (initialArgs m f (initialGv m ([], g)))
  let (poutEntry, g) ← transferAll ctx entry (succPhis m entry) s
  return { g with pout := Function.update g.pout entry poutEntry }

/-- `detectEquivalences` on a function with an entry block. -/
def detectEquivalences (ctx : Context) (addr : Value → Nat) (f nextOther fuel : Nat) : Exec GVN :=
  match (ctx.module.functions f).basicBlocks with
  | [] => throw .undefinedBehaviour
  | entry :: blocks => do
    let g ← initial ctx f entry nextOther
    iterate ctx addr (blocks.filter (· ≠ entry)) fuel (false, g)

end Gvn

end Cminusf
