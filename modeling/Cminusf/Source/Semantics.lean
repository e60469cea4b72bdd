import Cminusf.Ast
import Cminusf.Optimization.Machine

/-! What a program of cminus-f means, as a program of its own and not as the code made of it. An
assignment evaluates its right-hand side before the subscript of its target, which is the order of
the visitors and not that of the manual. A comparison with what is no number has no value. -/

namespace Cminusf

namespace Source

/-- A number, or the array at the location `l`, as it is passed to a function. -/
inductive Val where
  | int (n : BitVec 32)
  | float (x : BitVec 32)
  | array (ty : CminusType) (l : Nat)
deriving DecidableEq

/-- The variables by their locations, each with its elements; an element that has not been assigned
has no value. -/
structure Store where
  cells : Nat → List (Option Val)
  next : Nat
  input : List (BitVec 32)
  events : List Machine.Event

/-- Why an evaluation does not go on. -/
inductive Stop where
  | returned (v : Option Val)
  | exited
  | outOfFuel
  | undefined
deriving DecidableEq

abbrev Eval := ExceptT Stop (StateM Store)

inductive Callee where
  | input | output | outputFloat | negIdxExcept
  | user (k : Nat)
deriving DecidableEq

/-- What a name stands for: a variable at a location, or a function. -/
inductive Binding where
  | scalar (ty : CminusType) (l : Nat)
  | array (ty : CminusType) (l : Nat)
  | arrayParam (ty : CminusType) (l : Nat)
  | function (f : Callee)
deriving DecidableEq

/-- The scopes from the innermost one outwards. -/
abbrev Env := List (List (String × Binding))

def Env.find (Γ : Env) (id : String) : Option Binding := Γ.findSome? (·.lookup id)

/-- A scope has one declaration of a name at most. -/
def Env.declare (id : String) (b : Binding) : Env → Option Env
  | [] => none
  | top :: rest => if (top.lookup id).isSome then none else some (((id, b) :: top) :: rest)

/-! ### Numbers -/

/-- The conversion to a type. -/
def Val.convert (ops : FloatOps) : CminusType → Val → Option Val
  | .int, .int n => some (.int n)
  | .int, .float x => (ops.toInt x).map .int
  | .float, .int n => some (.float (ops.ofInt n))
  | .float, .float x => some (.float x)
  | _, _ => none

/-- The value that a parameter gets: an array must have elements of its type. -/
def Val.pass (ops : FloatOps) (param : CminusType × Bool) (v : Val) : Option Val :=
  if param.2 then
    match v with
    | .array ty l => if ty = param.1 then some (.array ty l) else none
    | _ => none
  else v.convert ops param.1

def Val.index (ops : FloatOps) : Val → Option (BitVec 32)
  | .int n => some n
  | .float x => ops.toInt x
  | .array _ _ => none

/-- A comparison with what is no number has no value. -/
def compareFloats (ops : FloatOps) (op : CmpOp) (a b : BitVec 32) : Option Bool :=
  if ops.isNaN a || ops.isNaN b then none else some (ops.cmp op a b)

def Val.truth (ops : FloatOps) : Val → Option Bool
  | .int n => some (n != 0)
  | .float x => compareFloats ops .ne x 0
  | .array _ _ => none

/-- An operation on two integers, or on two floats when one of the operands is a float. -/
def arithmetic (ops : FloatOps) (onInt onFloat : BitVec 32 → BitVec 32 → Option Val) :
    Val → Val → Option Val
  | .int a, .int b => onInt a b
  | .int a, .float b => onFloat (ops.ofInt a) b
  | .float a, .int b => onFloat a (ops.ofInt b)
  | .float a, .float b => onFloat a b
  | _, _ => none

def additive (ops : FloatOps) : AddOp → Val → Val → Option Val
  | .plus => arithmetic ops (fun a b => some (.int (a + b))) fun a b => some (.float (ops.add a b))
  | .minus => arithmetic ops (fun a b => some (.int (a - b))) fun a b => some (.float (ops.sub a b))

/-- A division by zero, and one whose result does not fit, have no value. -/
def multiplicative (ops : FloatOps) : MulOp → Val → Val → Option Val
  | .mul => arithmetic ops (fun a b => some (.int (a * b))) fun a b => some (.float (ops.mul a b))
  | .div => arithmetic ops
      (fun a b => if b = 0 ∨ a = BitVec.intMin 32 ∧ b = -1 then none else some (.int (a.sdiv b)))
      fun a b => some (.float (ops.div a b))

def comparison : RelOp → CmpOp
  | .le => .le
  | .lt => .lt
  | .gt => .gt
  | .ge => .ge
  | .eq => .eq
  | .neq => .ne

def ofBool (b : Bool) : Val := .int (if b then 1 else 0)

def relation (ops : FloatOps) (op : RelOp) : Val → Val → Option Val :=
  arithmetic ops (fun a b => some (ofBool ((comparison op).compute a b)))
    fun a b => (compareFloats ops (comparison op) a b).map ofBool

/-! ### The store -/

def undefined {α : Type} : Eval α := fun s => (.error .undefined, s)

def defined {α : Type} : Option α → Eval α
  | some a => pure a
  | none => undefined

def value (x : Eval (Option Val)) : Eval Val := do defined (← x)

def read (l i : Nat) : Eval Val := fun s =>
  match ((s.cells l)[i]?).join with
  | some v => (.ok v, s)
  | none => (.error .undefined, s)

def write (l i : Nat) (v : Val) : Eval Unit := fun s =>
  if i < (s.cells l).length then
    (.ok (), { s with cells := Function.update s.cells l ((s.cells l).set i (some v)) })
  else (.error .undefined, s)

/-- A new variable. -/
def allocate (cells : List (Option Val)) : Eval Nat := fun s =>
  (.ok s.next, { s with cells := Function.update s.cells s.next cells, next := s.next + 1 })

def Store.emit (s : Store) (e : Machine.Event) : Store := { s with events := s.events ++ [e] }

def negIdxExcept {α : Type} : Eval α := fun s => (.error .exited, s.emit .negIdxExcept)

/-- The functions of the library. -/
def libraryCall : Callee → List Val → Eval (Option Val)
  | .input, [] => fun s =>
    match s.input with
    | [] => (.error .undefined, s)
    | n :: ns => (.ok (some (.int n)), { s with input := ns }.emit (.input n))
  | .output, [.int n] => fun s => (.ok none, s.emit (.output n))
  | .outputFloat, [.float x] => fun s => (.ok none, s.emit (.outputFloat x))
  | .negIdxExcept, [] => negIdxExcept
  | _, _ => undefined

/-! ### Expressions -/

structure Context where
  ops : FloatOps
  params : Callee → List (CminusType × Bool)
  call : Callee → List Val → Eval (Option Val)

/-- The element of an array. -/
def element (b : Option Binding) (i : Nat) : Eval (CminusType × Nat × Nat) :=
  match b with
  | some (.array ty l) => pure (ty, l, i)
  | some (.arrayParam _ l) => do
    match ← read l 0 with
    | .array ty l => pure (ty, l, i)
    | _ => undefined
  | _ => undefined

/-- The element with the subscript `x`. -/
def subscript (c : Context) (b : Option Binding) (x : Eval (Option Val)) :
    Eval (CminusType × Nat × Nat) := do
  let v ← value x
  let n ← defined (v.index c.ops)
  if n.slt 0 then negIdxExcept else element b n.toNat

mutual

def evalExpression (c : Context) (Γ : Env) : ASTExpression → Eval (Option Val)
  | .assign var e => do
    let v ← value (evalExpression c Γ e)
    let (ty, l, i) ← locate c Γ var
    let v ← defined (v.convert c.ops ty)
    write l i v
    return some v
  | .simple l => evalAdditive c Γ l
  | .relation l op r => do
    let a ← value (evalAdditive c Γ l)
    let b ← value (evalAdditive c Γ r)
    return some (← defined (relation c.ops op a b))

def evalAdditive (c : Context) (Γ : Env) : ASTAdditiveExpression → Eval (Option Val)
  | .ofTerm term => evalTerm c Γ term
  | .additive l op r => do
    let a ← value (evalAdditive c Γ l)
    let b ← value (evalTerm c Γ r)
    return some (← defined (additive c.ops op a b))

def evalTerm (c : Context) (Γ : Env) : ASTTerm → Eval (Option Val)
  | .ofFactor factor => evalFactor c Γ factor
  | .multiplicative l op r => do
    let a ← value (evalTerm c Γ l)
    let b ← value (evalFactor c Γ r)
    return some (← defined (multiplicative c.ops op a b))

def evalFactor (c : Context) (Γ : Env) : ASTFactor → Eval (Option Val)
  | .num (.int n) => return some (.int n)
  | .num (.float x) => return some (.float x)
  | .var var => evalVar c Γ var
  | .call id args =>
    match Γ.find id with
    | some (.function f) => do
      let vs ← evalArgs c Γ args (c.params f)
      c.call f vs
    | _ => undefined
  | .expression e => evalExpression c Γ e

/-- The value of a variable; that of an array is the array. -/
def evalVar (c : Context) (Γ : Env) : ASTVar → Eval (Option Val)
  | .scalar id =>
    match Γ.find id with
    | some (.scalar _ l) | some (.arrayParam _ l) => do return some (← read l 0)
    | some (.array ty l) => return some (.array ty l)
    | _ => undefined
  | .subscript id e => do
    let (_, l, i) ← subscript c (Γ.find id) (evalExpression c Γ e)
    return some (← read l i)

/-- The place of a variable, with its type. -/
def locate (c : Context) (Γ : Env) : ASTVar → Eval (CminusType × Nat × Nat)
  | .scalar id =>
    match Γ.find id with
    | some (.scalar ty l) => pure (ty, l, 0)
    | _ => undefined
  | .subscript id e => subscript c (Γ.find id) (evalExpression c Γ e)

def evalArgs (c : Context) (Γ : Env) :
    List ASTExpression → List (CminusType × Bool) → Eval (List Val)
  | [], [] => return []
  | arg :: args, param :: params => do
    let v ← value (evalExpression c Γ arg)
    let v ← defined (v.pass c.ops param)
    let vs ← evalArgs c Γ args params
    return v :: vs
  | _, _ => undefined

end

/-! ### Statements -/

/-- The variable that a declaration makes, `none` for one of type `void`. -/
def binding (decl : ASTVarDeclaration) (l : Nat) : Option Binding :=
  if decl.type = .void then none
  else match decl.num with
    | none => some (.scalar decl.type l)
    | some _ => some (.array decl.type l)

def size (decl : ASTVarDeclaration) : Nat := decl.num.elim 1 BitVec.toNat

def declareVars : List ASTVarDeclaration → Env → Eval Env
  | [], Γ => pure Γ
  | decl :: decls, Γ => do
    let l ← allocate (List.replicate (size decl) none)
    let b ← defined (binding decl l)
    declareVars decls (← defined (Γ.declare decl.id b))

def condition (c : Context) (Γ : Env) (e : ASTExpression) : Eval Bool := do
  let v ← value (evalExpression c Γ e)
  defined (v.truth c.ops)

/-- A loop, which is out of fuel when it is not left after so many rounds. -/
def iterate (test : Eval Bool) (body : Eval Unit) : Nat → Eval Unit
  | 0 => fun s => (.error .outOfFuel, s)
  | fuel + 1 => do
    if ← test then
      body
      iterate test body fuel

mutual

def execStatement (c : Context) (fuel : Nat) (ret : CminusType) : ASTStatement → Env → Eval Unit
  | .compound decls stmts, Γ => do
    let Γ ← declareVars decls ([] :: Γ)
    execStatements c fuel ret stmts Γ
  | .expressionStmt none, _ => return
  | .expressionStmt (some e), Γ => discard (evalExpression c Γ e)
  | .selection e ifStatement, Γ => do
    if ← condition c Γ e then execStatement c fuel ret ifStatement Γ
  | .selectionElse e ifStatement elseStatement, Γ => do
    if ← condition c Γ e then execStatement c fuel ret ifStatement Γ
    else execStatement c fuel ret elseStatement Γ
  | .iteration e statement, Γ =>
    iterate (condition c Γ e) (execStatement c fuel ret statement Γ) fuel
  | .return none, _ => throw (.returned none)
  | .return (some e), Γ => do
    let v ← value (evalExpression c Γ e)
    let v ← defined (v.convert c.ops ret)
    throw (.returned (some v))

def execStatements (c : Context) (fuel : Nat) (ret : CminusType) :
    List ASTStatement → Env → Eval Unit
  | [], _ => return
  | stmt :: stmts, Γ => do
    execStatement c fuel ret stmt Γ
    execStatements c fuel ret stmts Γ

end

/-! ### Programs -/

def paramBinding (param : ASTParam) (l : Nat) : Binding :=
  if param.isarray then .arrayParam param.type l else .scalar param.type l

def declareParams : List ASTParam → List Val → Env → Eval Env
  | [], [], Γ => pure Γ
  | param :: params, v :: vs, Γ => do
    let l ← allocate [some v]
    declareParams params vs (← defined (Γ.declare param.id (paramBinding param l)))
  | _, _, _ => undefined

def zero : CminusType → Option Val
  | .int => some (.int 0)
  | .float => some (.float 0)
  | .void => none

/-- The value of a call: a function that ends without a `return` has the default value. -/
def answer (ret : CminusType) (x : Eval Unit) : Eval (Option Val) := fun s =>
  match x s with
  | (.ok (), s) => (.ok (zero ret), s)
  | (.error (.returned v), s) => (.ok v, s)
  | (.error e, s) => (.error e, s)

/-- The declarations of a program: the global scope, the functions, each with the scope in which it
is declared, and the global variables as they are at the start. -/
structure Globals where
  env : Env
  bodies : List (ASTFunDeclaration × Env)
  cells : List (List (Option Val))

namespace Globals

def library : Globals :=
  ⟨[[("neg_idx_except", .function .negIdxExcept), ("outputFloat", .function .outputFloat),
    ("output", .function .output), ("input", .function .input)]], [], []⟩

def declare (g : Globals) : ASTDeclaration → Option Globals
  | .var decl => do
    let b ← binding decl g.cells.length
    let env ← g.env.declare decl.id b
    return { g with env, cells := g.cells ++ [List.replicate (size decl) (zero decl.type)] }
  | .fun decl => do
    let env ← g.env.declare decl.id (.function (.user g.bodies.length))
    return { g with env, bodies := g.bodies ++ [(decl, env)] }

def ofProgram (program : ASTProgram) : Option Globals :=
  program.declarations.foldlM declare library

def params (g : Globals) : Callee → List (CminusType × Bool)
  | .input | .negIdxExcept => []
  | .output => [(.int, false)]
  | .outputFloat => [(.float, false)]
  | .user k => (g.bodies[k]?).elim [] fun body => body.1.params.map fun p => (p.type, p.isarray)

def start (g : Globals) (input : List (BitVec 32)) : Store :=
  ⟨fun l => g.cells.getD l [], g.cells.length, input, []⟩

end Globals

def callFunction (ops : FloatOps) (g : Globals) : Nat → Callee → List Val → Eval (Option Val)
  | 0, .user _, _ => fun s => (.error .outOfFuel, s)
  | fuel + 1, .user k, vs =>
    match g.bodies[k]? with
    | none => undefined
    | some (decl, Γ) => answer decl.type do
      let Γ ← declareParams decl.params vs ([] :: Γ)
      let Γ ← declareVars decl.localDeclarations Γ
      execStatements ⟨ops, g.params, callFunction ops g fuel⟩ fuel decl.type decl.statementList Γ
  | _, f, vs => libraryCall f vs

/-- The call of `main`. -/
def run (ops : FloatOps) (program : ASTProgram) (input : List (BitVec 32)) (fuel : Nat) :
    Except Stop (Option Val) × Store :=
  match Globals.ofProgram program with
  | none => (.error .undefined, Globals.library.start input)
  | some g =>
    match g.env.find "main" with
    | some (.function (.user k)) => callFunction ops g fuel (.user k) [] (g.start input)
    | _ => (.error .undefined, g.start input)

/-- How a program ends: its calls of the library, and its result unless it exits. -/
inductive Outcome where
  | returned (value : Option Val) (events : List Machine.Event)
  | exited (events : List Machine.Event)
deriving DecidableEq

def outcome : Except Stop (Option Val) × Store → Option Outcome
  | (.ok v, s) => some (.returned v s.events)
  | (.error .exited, s) => some (.exited s.events)
  | _ => none

def Ends (ops : FloatOps) (program : ASTProgram) (input : List (BitVec 32)) (o : Outcome) : Prop :=
  ∃ fuel, outcome (run ops program input fuel) = some o

/-- The program makes these calls of the library, and possibly others after them. -/
def MakesCalls (ops : FloatOps) (program : ASTProgram) (input : List (BitVec 32))
    (es : List Machine.Event) : Prop :=
  ∃ fuel, (run ops program input fuel).1 ≠ .error .undefined ∧
    es <+: (run ops program input fuel).2.events

/-- The program has no undefined behaviour. -/
def Defined (ops : FloatOps) (program : ASTProgram) (input : List (BitVec 32)) : Prop :=
  ∀ fuel, (run ops program input fuel).1 ≠ .error .undefined

end Source

end Cminusf
