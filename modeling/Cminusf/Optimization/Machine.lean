import Cminusf.Optimization.Execution
import Mathlib.Logic.Relation

/-! What a module of LightIR does: the calls on the stack, the memory and the functions of the
library. A step that the machine does not have is undefined behaviour. -/

namespace Cminusf

/-- The number of words in an object of the type. -/
def Ty.words : Ty → Nat
  | .array t n => n * t.words
  | _ => 1

/-- The word that a `zeroinitializer` of the type consists of. -/
def Ty.zero : Ty → Option Datum
  | .int32 => some (.int 0)
  | .int1 => some (.bool false)
  | .float => some (.float 0)
  | .array t _ => t.zero
  | _ => none

namespace Machine

open Execution

/-- A variable in memory: a global one, or what the `alloca` `i` has given when it was executed for
the `n`-th time in the frame with `depth` frames below it. -/
inductive Object where
  | globalVariable (g : Nat)
  | slot (depth i n : Nat)
deriving DecidableEq

structure Address where
  object : Object
  offset : Int
deriving DecidableEq

inductive Word where
  | number (d : Datum)
  | pointer (a : Address)
deriving DecidableEq

def Word.datum : Word → Option Datum
  | number d => some d
  | pointer _ => none

/-- What the functions of the library do. -/
inductive Event where
  | input (n : BitVec 32)
  | output (n : BitVec 32)
  | outputFloat (x : BitVec 32)
  | negIdxExcept
deriving DecidableEq

structure World where
  memory : Address → Option Word
  input : List (BitVec 32)
  events : List Event

/-- A call: the values of its instructions, how often each has been executed, and the instructions
left in the block. -/
structure Frame where
  func : Nat
  block : Nat
  args : List Word
  env : Nat → Option Word
  count : Nat → Nat
  rest : List Nat

inductive State where
  | running (frame : Frame) (callers : List Frame) (world : World)
  | returned (value : Option Word) (world : World)
  | exited (world : World)

/-- The variable is in the frame with `depth` frames below it, or in one above it. -/
def Object.Above (depth : Nat) : Object → Prop
  | globalVariable _ => False
  | slot d _ _ => depth ≤ d

instance (depth : Nat) (o : Object) : Decidable (o.Above depth) := by
  unfold Object.Above
  split <;> infer_instance

def Object.words (m : Module) : Object → Nat
  | globalVariable g => (m.globals g).valueType.words
  | slot _ i _ =>
    match (m.instrs i).opId with
    | .alloca ty => ty.words
    | _ => 0

/-- The address is in the bounds of a variable that has not been left. -/
def Address.Valid (m : Module) (depth : Nat) (a : Address) : Prop :=
  0 ≤ a.offset ∧ a.offset < a.object.words m ∧ ¬ a.object.Above (depth + 1)

instance (m : Module) (depth : Nat) (a : Address) : Decidable (a.Valid m depth) := by
  unfold Address.Valid
  infer_instance

namespace World

def read (m : Module) (depth : Nat) (w : World) (a : Address) : Option Word :=
  if a.Valid m depth then w.memory a else none

def write (m : Module) (depth : Nat) (w : World) (a : Address) (v : Word) : Option World :=
  if a.Valid m depth then some { w with memory := Function.update w.memory a (some v) } else none

/-- The variables of the frame that is left are gone. -/
def leave (depth : Nat) (w : World) : World :=
  { w with memory := fun a => if a.object.Above depth then none else w.memory a }

def emit (w : World) (e : Event) : World := { w with events := w.events ++ [e] }

end World

def Frame.value (frame : Frame) : Value → Option Word
  | .instruction i => frame.env i
  | .argument f n => if f = frame.func then frame.args[n]? else none
  | .globalVariable g => some (.pointer ⟨.globalVariable g, 0⟩)
  | v => v.datum.map .number

/-- The offset that the indices behind the first one of a `getelementptr` give. -/
def innerOffset : Ty → List Int → Option Int
  | _, [] => some 0
  | .array t _, n :: ns => (innerOffset t ns).map (n * t.words + ·)
  | _, _ :: _ => none

/-- The offset that the indices of a `getelementptr` give. -/
def offset (ty : Ty) : List Int → Option Int
  | [] => some 0
  | n :: ns => (innerOffset ty ns).map (n * ty.words + ·)

def Word.index : Word → Option Int
  | number (.int n) => some n.toInt
  | _ => none

/-- What an instruction does: it yields its value, if it has one, calls a function of the module,
goes to a block, or ends the call or the program. -/
inductive Action where
  | yields (value : Option Word) (world : World)
  | calls (func : Nat) (args : List Word)
  | jumps (block : Nat)
  | returns (value : Option Word)
  | exits (world : World)

/-- The functions of the library. -/
def external (name : String) (args : List Word) (w : World) : Option Action :=
  if name = "input" ∧ args = [] then
    match w.input with
    | [] => none
    | n :: ns => some (.yields (some (.number (.int n))) ({ w with input := ns }.emit (.input n)))
  else if name = "neg_idx_except" ∧ args = [] then some (.exits (w.emit .negIdxExcept))
  else
    match args with
    | [.number (.int n)] =>
      if name = "output" then some (.yields none (w.emit (.output n))) else none
    | [.number (.float x)] =>
      if name = "outputFloat" then some (.yields none (w.emit (.outputFloat x))) else none
    | _ => none

/-- The instructions that use the values of their operands only. -/
def compute (ops : FloatOps) (m : Module) (depth : Nat) (w : World) (ins : Instruction)
    (words : List Word) : Option Action :=
  match ins.opId, words with
  | .load, [.pointer a] => (w.read m depth a).map fun v => .yields (some v) w
  | .store, [v, .pointer a] => (w.write m depth a v).map (.yields none)
  | .getelementptr _, .pointer a :: idxs => do
    let ty ← ins.operands.head?.bind fun v => (m.getType v).pointerElementType
    let n ← offset ty (← idxs.mapM Word.index)
    some (.yields (some (.pointer ⟨a.object, a.offset + n⟩)) w)
  | .ret, [] => some (.returns none)
  | .ret, [v] => some (.returns (some v))
  | op, words => do
    let ds ← words.mapM Word.datum
    (op.eval ops ds).map fun d => .yields (some (.number d)) w

def action (ops : FloatOps) (m : Module) (depth : Nat) (frame : Frame) (w : World) (i : Nat) :
    Option Action :=
  match (m.instrs i).opId, (m.instrs i).operands with
  | .alloca _, _ => some (.yields (some (.pointer ⟨.slot depth i (frame.count i), 0⟩)) w)
  | .call, .function g :: operands => do
    let args ← operands.mapM frame.value
    if (m.functions g).isDeclaration then external (m.functions g).name args w
    else some (.calls g args)
  | .br, [.basicBlock t] => some (.jumps t)
  | .br, [c, .basicBlock t, .basicBlock e] =>
    match frame.value c with
    | some (.number (.bool b)) => some (.jumps (if b then t else e))
    | _ => none
  | .call, _ | .br, _ | .phi _, _ => none
  | _, operands => (operands.mapM frame.value).bind (compute ops m depth w (m.instrs i))

/-- The instruction `i` has been executed. -/
def Frame.next (frame : Frame) (i : Nat) (rest : List Nat) (v : Option Word) : Frame :=
  { frame with
    env := Function.update frame.env i v
    count := Function.update frame.count i (frame.count i + 1)
    rest := rest }

/-- The call for which the frame has waited has ended. -/
def Frame.finish (frame : Frame) (v : Option Word) : Option Frame :=
  match frame.rest with
  | i :: rest => some (frame.next i rest v)
  | [] => none

/-- The branch to `t`, on which its phis are copied at once. -/
def Frame.jump (m : Module) (frame : Frame) (t : Nat) : Frame :=
  { frame with
    block := t
    env := fun i => if i ∈ Gvn.phis m t then
      (incoming m (.instruction i) frame.block).bind frame.value else frame.env i
    rest := Gvn.body m t }

/-- The frame of a call. -/
def invoke (m : Module) (func : Nat) (args : List Word) : Option Frame :=
  (m.functions func).basicBlocks.head?.map fun b =>
    ⟨func, b, args, fun _ => none, fun _ => 0, Gvn.body m b⟩

/-- The return from the call above `callers`. -/
def resume (callers : List Frame) (v : Option Word) (w : World) : Option State :=
  match callers with
  | [] => some (.returned v (w.leave 0))
  | caller :: callers =>
    (caller.finish v).map fun caller => .running caller callers (w.leave (callers.length + 1))

def perform (m : Module) (frame : Frame) (callers : List Frame) (w : World) (i : Nat)
    (rest : List Nat) : Action → Option State
  | .yields v w' => some (.running (frame.next i rest v) callers w')
  | .calls g args => (invoke m g args).map fun callee => .running callee (frame :: callers) w
  | .jumps t =>
    if t ∈ (m.functions frame.func).basicBlocks then some (.running (frame.jump m t) callers w)
    else none
  | .returns v => resume callers v w
  | .exits w' => some (.exited w')

def step (ops : FloatOps) (m : Module) : State → Option State
  | .running frame callers w =>
    match frame.rest with
    | i :: rest =>
      (action ops m callers.length frame w i).bind (perform m frame callers w i rest)
    | [] => none
  | .returned _ _ | .exited _ => none

abbrev Reaches (ops : FloatOps) (m : Module) : State → State → Prop :=
  Relation.ReflTransGen fun s s' => step ops m s = some s'

/-- What is in a global variable at the start. -/
def initial (g : GlobalVariable) : Option Word :=
  match g.operands with
  | [.constZero ty] => ty.zero.map .number
  | [v] => v.datum.map .number
  | _ => none

/-- The global variables as they are initialised, and no others. -/
def start (m : Module) (input : List (BitVec 32)) : World where
  memory a :=
    match a.object with
    | .globalVariable g => if g < m.numGlobals then initial (m.globals g) else none
    | .slot _ _ _ => none
  input := input
  events := []

def State.world : State → World
  | running _ _ w | returned _ w | exited w => w

/-- How a program ends: its calls of the library, and its result unless it exits. -/
inductive Outcome where
  | returned (value : Option Word) (events : List Event)
  | exited (events : List Event)
deriving DecidableEq

def State.outcome : State → Option Outcome
  | running _ _ _ => none
  | returned v w => some (.returned v w.events)
  | exited w => some (.exited w.events)

/-- The program ends without undefined behaviour. -/
def Ends (ops : FloatOps) (m : Module) (input : List (BitVec 32)) (o : Outcome) : Prop :=
  ∃ f < m.numFunctions, (m.functions f).name = "main" ∧ ∃ frame s, invoke m f [] = some frame ∧
    Reaches ops m (.running frame [] (start m input)) s ∧ s.outcome = some o

/-- The program makes these calls of the library, and possibly others after them. -/
def MakesCalls (ops : FloatOps) (m : Module) (input : List (BitVec 32)) (es : List Event) : Prop :=
  ∃ f < m.numFunctions, (m.functions f).name = "main" ∧ ∃ frame s, invoke m f [] = some frame ∧
    Reaches ops m (.running frame [] (start m input)) s ∧ s.world.events = es

/-- The program has no undefined behaviour. -/
def Defined (ops : FloatOps) (m : Module) (input : List (BitVec 32)) : Prop :=
  ∀ f < m.numFunctions, (m.functions f).name = "main" → ∀ frame s, invoke m f [] = some frame →
    Reaches ops m (.running frame [] (start m input)) s → step ops m s = none → s.outcome ≠ none

/-- At most `fuel` steps. -/
def run (ops : FloatOps) (m : Module) : Nat → State → State
  | 0, s => s
  | fuel + 1, s => (step ops m s).elim s (run ops m fuel)

theorem reaches_run (ops : FloatOps) (m : Module) (fuel : Nat) (s : State) :
    Reaches ops m s (run ops m fuel s) := by
  induction fuel generalizing s with
  | zero => exact .refl
  | succ fuel ih =>
    rw [run]
    cases hs : step ops m s with
    | none => exact .refl
    | some s' => exact .head hs (ih s')

theorem step_of_outcome {ops : FloatOps} {m : Module} {s : State} {o : Outcome}
    (h : s.outcome = some o) : step ops m s = none := by
  cases s with
  | running => cases h
  | returned => rfl
  | exited => rfl

theorem eq_of_stuck {ops : FloatOps} {m : Module} {s s' : State} (h : step ops m s = none)
    (hs : Reaches ops m s s') : s' = s := by
  rcases hs.cases_head with rfl | ⟨u, hu, -⟩
  · rfl
  · rw [h] at hu
    cases hu

/-- A program stops in one state at most. -/
theorem stuck_unique {ops : FloatOps} {m : Module} {s t t' : State} (ht : Reaches ops m s t)
    (hstop : step ops m t = none) (ht' : Reaches ops m s t') (hstop' : step ops m t' = none) :
    t = t' := by
  have hdet : Relator.RightUnique fun s s' => step ops m s = some s' := by
    intro a b c hab hac
    exact Option.some.inj (hab.symm.trans hac)
  rcases Relation.ReflTransGen.total_of_right_unique hdet ht ht' with hr | hr
  · exact (eq_of_stuck hstop hr).symm
  · exact eq_of_stuck hstop' hr

/-- A program has one way to end from a state. -/
theorem outcome_unique {ops : FloatOps} {m : Module} {s t t' : State} {o o' : Outcome}
    (ht : Reaches ops m s t) (ho : t.outcome = some o) (ht' : Reaches ops m s t')
    (ho' : t'.outcome = some o') : o = o' := by
  obtain rfl := stuck_unique ht (step_of_outcome ho) ht' (step_of_outcome ho')
  exact Option.some.inj (ho.symm.trans ho')

/-- Whether the program ends after at most `fuel` steps. -/
def endsWithin (ops : FloatOps) (m : Module) (input : List (BitVec 32)) (fuel : Nat) : Bool :=
  (List.range m.numFunctions).all fun f => (m.functions f).name != "main" ||
    (invoke m f []).all fun frame =>
      (run ops m fuel (.running frame [] (start m input))).outcome.isSome

theorem defined_of_endsWithin {ops : FloatOps} {m : Module} {input : List (BitVec 32)} {fuel : Nat}
    (h : endsWithin ops m input fuel) : Defined ops m input := by
  intro f hf hname frame s hframe hs hstop
  simp only [endsWithin, List.all_eq_true, List.mem_range, Bool.or_eq_true, bne_iff_ne] at h
  have hend := (h f hf).resolve_left (not_not.mpr hname)
  rw [hframe, Option.all_some] at hend
  obtain ⟨o, ho⟩ := Option.isSome_iff_exists.mp hend
  rw [stuck_unique hs hstop (reaches_run ops m fuel _) (step_of_outcome ho), ho]
  exact Option.some_ne_none o

/-- What the kinds of instructions do. -/
inductive Performs (m : Module) (depth : Nat) (w : World) (i : Nat) : Action → Prop where
  | value {v : Option Word} : (m.instrs i).opId ≠ .store → (m.instrs i).opId ≠ .br →
      (m.instrs i).opId ≠ .ret → Performs m depth w i (.yields v w)
  | store {a : Address} {x : Word} {w' : World} : (m.instrs i).opId = .store →
      w.write m depth a x = some w' → Performs m depth w i (.yields none w')
  | library {g : Nat} {operands : List Value} {args : List Word} {act : Action} :
      (m.instrs i).opId = .call → (m.instrs i).operands = .function g :: operands →
      (m.functions g).isDeclaration → external (m.functions g).name args w = some act →
      Performs m depth w i act
  | call {g : Nat} {operands : List Value} {args : List Word} :
      (m.instrs i).opId = .call → (m.instrs i).operands = .function g :: operands →
      Performs m depth w i (.calls g args)
  | branch {t : Nat} : (m.instrs i).opId = .br → Performs m depth w i (.jumps t)
  | ret {v : Option Word} : (m.instrs i).opId = .ret → Performs m depth w i (.returns v)

theorem performs_of_compute {ops : FloatOps} {m : Module} {depth i : Nat} {w : World}
    {words : List Word} {act : Action}
    (hbr : (m.instrs i).opId ≠ .br)
    (h : compute ops m depth w (m.instrs i) words = some act) : Performs m depth w i act := by
  unfold compute at h
  split at h
  · rename_i hop
    obtain ⟨v, -, rfl⟩ := Option.map_eq_some_iff.mp h
    exact .value (by simp [hop]) hbr (by simp [hop])
  · rename_i hop
    obtain ⟨w', hw, rfl⟩ := Option.map_eq_some_iff.mp h
    exact .store hop hw
  · rename_i hop
    obtain ⟨ty, -, h⟩ := Option.bind_eq_some_iff.mp h
    obtain ⟨idxs, -, h⟩ := Option.bind_eq_some_iff.mp h
    obtain ⟨n, -, h⟩ := Option.bind_eq_some_iff.mp h
    cases h
    exact .value (by simp [hop]) hbr (by simp [hop])
  · rename_i hop
    cases h
    exact .ret hop
  · rename_i hop
    cases h
    exact .ret hop
  · obtain ⟨ds, -, h⟩ := Option.bind_eq_some_iff.mp h
    obtain ⟨d, hd, rfl⟩ := Option.map_eq_some_iff.mp h
    refine .value (fun hop => ?_) hbr (fun hop => ?_)
    all_goals
      rw [hop] at hd
      cases hd

/-- Nothing else is done by an instruction. -/
theorem performs_of_action {ops : FloatOps} {m : Module} {depth i : Nat} {frame : Frame} {w : World}
    {act : Action} (h : action ops m depth frame w i = some act) : Performs m depth w i act := by
  unfold action at h
  split at h
  · rename_i hop
    cases h
    exact .value (by simp [hop]) (by simp [hop]) (by simp [hop])
  · rename_i hop hops
    obtain ⟨args, -, h⟩ := Option.bind_eq_some_iff.mp h
    split at h
    · rename_i hdecl
      exact .library hop hops hdecl h
    · cases h
      exact .call hop hops
  · rename_i hop _
    cases h
    exact .branch hop
  · rename_i hop _
    split at h
    · cases h
      exact .branch hop
    · cases h
  · cases h
  · cases h
  · cases h
  · have hbr : (m.instrs i).opId ≠ .br := by assumption
    obtain ⟨words, -, h⟩ := Option.bind_eq_some_iff.mp h
    exact performs_of_compute hbr h

theorem external_ne_calls {name : String} {args args' : List Word} {w : World} {g : Nat} :
    external name args' w ≠ some (.calls g args) := by
  intro h
  unfold external at h
  split at h
  · split at h <;> cases h
  · split at h
    · cases h
    · split at h
      · split at h <;> cases h
      · split at h <;> cases h
      · cases h

section

variable {ops : FloatOps} {m : Module} {depth i t g : Nat} {frame : Frame} {w : World} {x : Word}
  {act : Action} {u v : Value} {words args : List Word}

theorem mapM_eq_some_iff {α β : Type} {f : α → Option β} {as : List α} {bs : List β} :
    as.mapM f = some bs ↔ List.Forall₂ (fun a b => f a = some b) as bs := by
  induction as generalizing bs with
  | nil => cases bs <;> simp
  | cons a as ih =>
    cases bs with
    | nil => simp [List.mapM_cons, Option.bind_eq_some_iff]
    | cons b bs => simp [List.mapM_cons, Option.bind_eq_some_iff, ih]

/-- The instructions for which `action` looks at more than the values of the operands. -/
def IsSpecial : OpID → Prop
  | .alloca _ | .call | .br | .phi _ => True
  | _ => False

theorem action_of_computes (hop : ¬ IsSpecial (m.instrs i).opId) :
    action ops m depth frame w i =
      ((m.instrs i).operands.mapM frame.value).bind (compute ops m depth w (m.instrs i)) := by
  unfold action
  split
  all_goals first | rfl | simp [*, IsSpecial] at hop

/-- What an instruction has found when it does something. -/
theorem action_cases (hact : action ops m depth frame w i = some act) :
    (∃ ty, (m.instrs i).opId = .alloca ty ∧
      act = .yields (some (.pointer ⟨.slot depth i (frame.count i), 0⟩)) w) ∨
    (∃ g operands args, (m.instrs i).opId = .call ∧
      (m.instrs i).operands = .function g :: operands ∧ operands.mapM frame.value = some args ∧
      (if (m.functions g).isDeclaration then external (m.functions g).name args w
        else some (.calls g args)) = some act) ∨
    (∃ t, (m.instrs i).opId = .br ∧ (m.instrs i).operands = [.basicBlock t] ∧ act = .jumps t) ∨
    (∃ c t e b, (m.instrs i).opId = .br ∧
      (m.instrs i).operands = [c, .basicBlock t, .basicBlock e] ∧
      frame.value c = some (.number (.bool b)) ∧ act = .jumps (if b then t else e)) ∨
    ¬ IsSpecial (m.instrs i).opId ∧ ∃ words, (m.instrs i).operands.mapM frame.value = some words ∧
      compute ops m depth w (m.instrs i) words = some act := by
  unfold action at hact
  split at hact
  · cases hact
    exact .inl ⟨_, ‹_›, rfl⟩
  · obtain ⟨args, hargs, hact⟩ := Option.bind_eq_some_iff.mp hact
    exact .inr (.inl ⟨_, _, args, ‹_›, ‹_›, hargs, hact⟩)
  · cases hact
    exact .inr (.inr (.inl ⟨_, ‹_›, ‹_›, rfl⟩))
  · split at hact
    · cases hact
      exact .inr (.inr (.inr (.inl ⟨_, _, _, _, ‹_›, ‹_›, ‹_›, rfl⟩)))
    · cases hact
  · cases hact
  · cases hact
  · cases hact
  · rename_i h1 h2 h3 h4 _ _ _
    obtain ⟨words, hwords, hact⟩ := Option.bind_eq_some_iff.mp hact
    refine .inr (.inr (.inr (.inr ⟨fun hop => ?_, words, hwords, hact⟩)))
    cases ho : (m.instrs i).opId with
    | alloca ty => exact h1 ty ho
    | call => exact h2 ho
    | br => exact h3 ho
    | phi v => exact h4 v ho
    | _ => simp only [ho, IsSpecial] at hop

theorem mem_of_mapM {f : Value → Option Word} {vs : List Value} (h : vs.mapM f = some words)
    (hx : x ∈ words) : ∃ v ∈ vs, f v = some x := by
  have hall := mapM_eq_some_iff.mp h
  clear h
  induction hall with
  | nil => cases hx
  | @cons v y vs words hv _ ih =>
    rcases List.mem_cons.mp hx with rfl | hx
    · exact ⟨v, List.mem_cons_self, hv⟩
    · obtain ⟨u, hu, hux⟩ := ih hx
      exact ⟨u, List.mem_cons_of_mem _ hu, hux⟩

theorem action_load (hop : (m.instrs i).opId = .load) (hops : (m.instrs i).operands = [v])
    (hact : action ops m depth frame w i = some act) :
    ∃ a x, frame.value v = some (.pointer a) ∧ w.read m depth a = some x ∧
      act = .yields (some x) w := by
  rw [action_of_computes (by simp [hop, IsSpecial]), hops] at hact
  obtain ⟨words, hwords, hact⟩ := Option.bind_eq_some_iff.mp hact
  cases mapM_eq_some_iff.mp hwords with
  | @cons _ y _ _ hy hnil =>
    cases hnil
    cases y with
    | number n => simp [compute, hop, OpID.eval] at hact
    | pointer a =>
      simp only [compute, hop] at hact
      obtain ⟨x, hx, rfl⟩ := Option.map_eq_some_iff.mp hact
      exact ⟨a, x, hy, hx, rfl⟩

theorem action_store (hop : (m.instrs i).opId = .store) (hops : (m.instrs i).operands = [u, v])
    (hact : action ops m depth frame w i = some act) :
    ∃ x a w₁, frame.value u = some x ∧ frame.value v = some (.pointer a) ∧
      w.write m depth a x = some w₁ ∧ act = .yields none w₁ := by
  rw [action_of_computes (by simp [hop, IsSpecial]), hops] at hact
  obtain ⟨words, hwords, hact⟩ := Option.bind_eq_some_iff.mp hact
  cases mapM_eq_some_iff.mp hwords with
  | @cons _ x _ _ hx hall =>
    cases hall with
    | @cons _ y _ _ hy hnil =>
      cases hnil
      cases y with
      | number n => simp [compute, hop, OpID.eval] at hact
      | pointer a =>
        simp only [compute, hop] at hact
        obtain ⟨w₁, hw₁, rfl⟩ := Option.map_eq_some_iff.mp hact
        exact ⟨x, a, w₁, hx, hy, hw₁, rfl⟩

theorem external_cases {name : String} (h : external name args w = some act) :
    (∃ x w₁, act = .yields x w₁) ∨ ∃ w₁, act = .exits w₁ := by
  unfold external at h
  split at h
  · split at h
    · cases h
    · cases h
      exact .inl ⟨_, _, rfl⟩
  · split at h
    · cases h
      exact .inr ⟨_, rfl⟩
    · split at h
      · split at h
        · cases h
          exact .inl ⟨_, _, rfl⟩
        · cases h
      · split at h
        · cases h
          exact .inl ⟨_, _, rfl⟩
        · cases h
      · cases h

theorem action_jumps (hact : action ops m depth frame w i = some (.jumps t)) :
    (m.instrs i).opId = .br ∧ .basicBlock t ∈ (m.instrs i).operands := by
  rcases action_cases hact with ⟨ty, -, he⟩ | ⟨g, operands, args, -, -, -, he⟩ |
    ⟨t, hop, hops, he⟩ | ⟨c, t, e, b, hop, hops, -, he⟩ | ⟨hop, words, -, he⟩
  · cases he
  · split at he
    · rcases external_cases he with ⟨x, w₁, he⟩ | ⟨w₁, he⟩ <;> cases he
    · cases he
  · cases he
    exact ⟨hop, by simp [hops]⟩
  · cases he
    refine ⟨hop, ?_⟩
    rw [hops]
    split <;> simp
  · have hbr : (m.instrs i).opId ≠ .br := fun ho => hop (by simp [ho, IsSpecial])
    cases performs_of_compute hbr he with
    | branch ho => exact absurd ho hbr
    | library ho => exact absurd (by simp [ho, IsSpecial]) hop

theorem action_calls (hact : action ops m depth frame w i = some (.calls g args)) :
    (m.instrs i).opId = .call ∧ ∃ operands, (m.instrs i).operands = .function g :: operands := by
  generalize hc : Action.calls g args = act at hact
  cases performs_of_action hact with
  | library _ _ _ hext => exact absurd (hc ▸ hext) external_ne_calls
  | call hop hops =>
    cases hc
    exact ⟨hop, _, hops⟩
  | _ => cases hc

end

end Machine

end Cminusf
