import Cminusf.Flow.Execution
import Cminusf.Optimization.Gvn
import Cminusf.Optimization.Ssa

/-! Executions of a function in SSA form. Arithmetic is defined, and what addresses, memory
and calls yield is left open. -/

namespace Cminusf

inductive Datum where
  | int (n : BitVec 32)
  | bool (b : Bool)
  | float (x : BitVec 32)
  | address (a : Nat)
deriving DecidableEq

/-- The value of a constant. -/
def Value.datum : Value → Option Datum
  | .constInt n => some (.int n)
  | .constBool b => some (.bool b)
  | .constFP x | .constNaN x _ => some (.float x)
  | _ => none

/-- A division has no result when it is undefined. -/
def BinaryOp.eval (ops : FloatOps) : BinaryOp → Datum → Datum → Option Datum
  | .add, .int a, .int b => some (.int (a + b))
  | .sub, .int a, .int b => some (.int (a - b))
  | .mul, .int a, .int b => some (.int (a * b))
  | .sdiv, .int a, .int b =>
    if b = 0 ∨ a = BitVec.intMin 32 ∧ b = -1 then none else some (.int (a.sdiv b))
  | .fadd, .float a, .float b => some (.float (ops.add a b))
  | .fsub, .float a, .float b => some (.float (ops.sub a b))
  | .fmul, .float a, .float b => some (.float (ops.mul a b))
  | .fdiv, .float a, .float b => some (.float (ops.div a b))
  | _, _, _ => none

def CmpOp.eval (op : CmpOp) : Datum → Datum → Option Datum
  | .int a, .int b => some (.bool (op.compute a b))
  | _, _ => none

/-- The printer emits the unordered predicates, which hold of what is no number. -/
def CmpOp.evalFloat (ops : FloatOps) (op : CmpOp) : Datum → Datum → Option Datum
  | .float a, .float b => some (.bool (ops.isNaN a || ops.isNaN b || ops.cmp op a b))
  | _, _ => none

def Gvn.CastOp.eval (ops : FloatOps) : CastOp → Datum → Option Datum
  | .zext, .bool b => some (.int (if b then 1 else 0))
  | .fptosi, .float x => (ops.toInt x).map .int
  | .sitofp, .int n => some (.float (ops.ofInt n))
  | _, _ => none

/-- The instructions whose results depend on their operands only. -/
def OpID.isArithmetic : OpID → Bool
  | .binary _ | .cmp _ | .fcmp _ | .zext _ | .fptosi _ | .sitofp _ => true
  | _ => false

def OpID.eval (ops : FloatOps) : OpID → List Datum → Option Datum
  | .binary op, [a, b] => op.eval ops a b
  | .cmp op, [a, b] => op.eval a b
  | .fcmp op, [a, b] => op.evalFloat ops a b
  | .zext _, [a] => Gvn.CastOp.eval ops .zext a
  | .fptosi _, [a] => Gvn.CastOp.eval ops .fptosi a
  | .sitofp _, [a] => Gvn.CastOp.eval ops .sitofp a
  | _, _ => none

namespace Execution

open Flow Mem2Reg Dominators

/-- The values of a running function, with `S` for its memory. -/
abbrev State (S : Type) := Flow.State Value Nat Datum S

/-- What an instruction that is not arithmetic can yield from the values of its operands. -/
abbrev Effect (S : Type) := Nat → List Datum → S → Datum → S → Prop

/-- The value that a phi has for the predecessor `b`. -/
def incoming (m : Module) (v : Value) (b : Nat) : Option Value :=
  match v with
  | .instruction x => ((pairUp (m.instrs x).operands).find? (·.2 = .basicBlock b)).map Prod.fst
  | _ => none

def program (m : Module) : Program Value Nat where
  body b := (Gvn.body m b).map .instruction
  phis b := (Gvn.phis m b).map .instruction
  source := incoming m

/-- The instructions of a list without the phis, as values. -/
def steps (m : Module) (is : List Nat) : List Value :=
  (is.filter fun i => !(m.instrs i).isPhi).map .instruction

/-- The targets of a branch. -/
def Taken {S : Type} (m : Module) (b : Nat) (s : State S) (t : Nat) : Prop :=
  ∃ i, m.getTerminator b = some i ∧
    match (m.instrs i).operands with
    | [.basicBlock t'] => t = t'
    | [c, .basicBlock t₁, .basicBlock t₂] =>
      s.env c = .bool true ∧ t = t₁ ∨ s.env c = .bool false ∧ t = t₂
    | _ => False

/-- The value of an instruction other than a phi. -/
def Computes {S : Type} (ops : FloatOps) (m : Module) (E : Effect S) (x : Nat) (s : State S)
    (d : Datum) (rest : S) : Prop :=
  let ds := (m.instrs x).operands.map s.env
  if (m.instrs x).opId.isArithmetic then (m.instrs x).opId.eval ops ds = some d ∧ rest = s.rest
  else ¬ (m.instrs x).isPhi ∧ E x ds s.rest d rest

/-- Runs from the block `entry`. -/
def semantics {S : Type} (ops : FloatOps) (m : Module) (E : Effect S) (entry : Nat) :
    Semantics Value Nat Datum S where
  start b s := b = entry ∧ (∀ v d, v.datum = some d → s.env v = d) ∧ ∀ k, s.last k = none
  compute v s d rest := ∃ x, v = .instruction x ∧ Computes ops m E x s d rest
  branch b s t := Succ m b t ∧ Taken m b s t

variable {S : Type} {ops : FloatOps} {m : Module} {E : Effect S} {entry b : Nat} {s s' : State S}
  {v : Value} {d : Datum} {vs : List Value} {is js : List Nat}

theorem steps_append : steps m (is ++ js) = steps m is ++ steps m js := by simp [steps]

theorem not_mem_steps (h : ∀ j ∈ js, v ≠ .instruction j) : v ∉ steps m js := by
  intro hv
  obtain ⟨j, hj, rfl⟩ := List.mem_map.mp hv
  exact h j (List.mem_of_mem_filter hj) rfl

abbrev At (ops : FloatOps) (m : Module) (E : Effect S) (entry : Nat) : Nat → State S → Prop :=
  Flow.At (program m) (semantics ops m E entry)

theorem At.reaches (h : At ops m E entry b s) : Graph.Reaches (Succ m) entry b := by
  induction h with
  | start h => rw [h.1]
  | edge _ _ hbr ih => exact ih.tail hbr.1

theorem env_eq_of_executes {vs : List Value} (h : Flow.Executes (semantics ops m E entry) vs s s')
    (hv : ∀ j, v ≠ .instruction j) : s'.env v = s.env v := by
  induction h with
  | nil => rfl
  | cons hx _ ih =>
    obtain ⟨x, rfl, -⟩ := hx
    exact ih.trans (Function.update_of_ne (hv x) _ _)

/-- A constant has its value in every state. -/
theorem At.constant (h : At ops m E entry b s) (hv : v.datum = some d) : s.env v = d := by
  have hne : ∀ j, v ≠ .instruction j := by
    rintro j rfl
    cases hv
  induction h with
  | start h => exact h.2.1 v d hv
  | @edge b t s s' _ hrun _ ih =>
    have hphi : v ∉ (program m).phis t := by
      intro hmem
      obtain ⟨j, -, rfl⟩ := List.mem_map.mp hmem
      exact hne j rfl
    exact (if_neg hphi).trans ((env_eq_of_executes hrun hne).trans ih)

/-- A block that has not been entered has been avoided. -/
theorem At.avoids {k : Nat} (h : At ops m E entry b s) (hne : entry ≠ k) (hk : s.last k = none) :
    Graph.Avoids (Succ m) entry k b := by
  induction h with
  | start h =>
    rw [h.1]
    exact .root hne
  | @edge b t s s' _ hrun hbr ih =>
    have htk : t ≠ k := by
      rintro rfl
      simp [Program.enter] at hk
    have hk' : s.last k = none := by
      rw [← Flow.Executes.last_eq hrun]
      simpa [Program.enter, Ne.symm htk] using hk
    exact .step (ih hk') hbr.1 htk

/-- What an instruction yields when what is not arithmetic is chosen. -/
def chosen (ops : FloatOps) (m : Module) (choose : Nat → Datum) (x : Nat) (s : State Unit) :
    Option Datum :=
  if (m.instrs x).opId.isArithmetic then
    (m.instrs x).opId.eval ops ((m.instrs x).operands.map s.env)
  else if (m.instrs x).isPhi then none
  else some (choose x)

def execute (ops : FloatOps) (m : Module) (choose : Nat → Datum) :
    List Nat → State Unit → Option (State Unit)
  | [], s => some s
  | x :: xs, s => do
    let d ← chosen ops m choose x s
    execute ops m choose xs ⟨Function.update s.env (.instruction x) d, s.last, s.rest⟩

/-- Whether the branch at the end of `b` goes to `t`. -/
def takes (m : Module) (b : Nat) (s : State Unit) (t : Nat) : Bool :=
  t ∈ (m.blocks b).succBbs && match m.getTerminator b with
  | some i =>
    match (m.instrs i).operands with
    | [.basicBlock t'] => t = t'
    | [c, .basicBlock t₁, .basicBlock t₂] =>
      s.env c = .bool true && t = t₁ || s.env c = .bool false && t = t₂
    | _ => false
  | none => false

/-- The run through the blocks of a path. -/
def walk (ops : FloatOps) (m : Module) (choose : Nat → Datum) :
    Nat → List Nat → State Unit → Option (State Unit)
  | _, [], s => some s
  | b, t :: path, s => do
    let s' ← execute ops m choose (Gvn.body m b) s
    if takes m b s' t then walk ops m choose t path ((program m).enter b t s') else none

def initialState : State Unit := ⟨fun v => v.datum.getD (.int 0), fun _ => none, ()⟩

/-- Instructions that are not arithmetic yield anything. -/
def anyEffect : Effect Unit := fun _ _ _ _ _ => True

theorem executes_of_execute {choose : Nat → Datum} {xs : List Nat} {s s' : State Unit}
    (h : execute ops m choose xs s = some s') :
    Flow.Executes (semantics ops m anyEffect entry) (xs.map .instruction) s s' := by
  induction xs generalizing s with
  | nil =>
    cases h
    exact .nil
  | cons x xs ih =>
    obtain ⟨d, hd, h⟩ := Option.bind_eq_some_iff.mp h
    refine .cons ⟨x, rfl, ?_⟩ (ih h)
    unfold chosen at hd
    unfold Computes
    split at hd
    · rename_i harith
      rw [if_pos harith]
      exact ⟨hd, rfl⟩
    · rename_i harith
      split at hd
      · cases hd
      · rename_i hphi
        rw [if_neg harith]
        exact ⟨hphi, trivial⟩

theorem taken_of_takes {s : State Unit} {t : Nat} (h : takes m b s t) :
    Succ m b t ∧ Taken m b s t := by
  simp only [takes, Bool.and_eq_true, decide_eq_true_eq] at h
  obtain ⟨hs, h⟩ := h
  refine ⟨hs, ?_⟩
  cases hi : m.getTerminator b with
  | none =>
    rw [hi] at h
    cases h
  | some i =>
    simp only [hi] at h
    refine ⟨i, hi, ?_⟩
    split at h
    · simpa using h
    · simpa using h
    · cases h

theorem at_of_walk {choose : Nat → Datum} {path : List Nat} {s s' : State Unit}
    (hs : At ops m anyEffect entry b s) (h : walk ops m choose b path s = some s') :
    At ops m anyEffect entry ((b :: path).getLast (by simp)) s' := by
  induction path generalizing b s with
  | nil =>
    cases h
    exact hs
  | cons t path ih =>
    obtain ⟨s₁, h₁, h⟩ := Option.bind_eq_some_iff.mp h
    split at h
    · rename_i htakes
      have ht := taken_of_takes htakes
      rw [List.getLast_cons (by simp)]
      exact ih (.edge hs (executes_of_execute h₁) ht) h
    · cases h

theorem at_initialState : At ops m anyEffect entry entry initialState := by
  apply Flow.At.start
  refine ⟨rfl, fun v d hv => ?_, fun _ => rfl⟩
  simp [initialState, hv]

end Execution

end Cminusf
