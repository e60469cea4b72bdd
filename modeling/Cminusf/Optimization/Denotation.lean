import Cminusf.Optimization.Execution
import Cminusf.Optimization.Regular
import Cminusf.Optimization.SsaFunction

/-! What value expressions denote in a state of an execution. A phi expression denotes one of its
sides by the edge over which its join block was last entered, and does not say which block
that is. -/

namespace Cminusf

namespace Gvn

open Execution Mem2Reg Dominators

/-- Value expressions in which each phi has its join block. -/
inductive Labelled where
  | null
  | constant (c : Option Value)
  | bin (op : BinaryOp) (lhs rhs : Labelled)
  | phi (join : Nat) (lhs rhs : Labelled)
  | cmp (op : CmpOp) (lhs rhs : Value)
  | fcmp (op : CmpOp) (lhs rhs : Value)
  | call (func : List Value)
  | gep (ptr : List Value)
  | typeConverse (exp : Labelled) (op : CastOp)
  | other (id : Nat)
  | global (gv : Nat)
  | args (f argNo : Nat)

namespace Labelled

/-- The value expression. -/
def erase : Labelled → Expression
  | null => .null
  | constant c => .constant c
  | bin op l r => .bin op l.erase r.erase
  | phi _ l r => .phi l.erase r.erase
  | cmp op l r => .cmp op l r
  | fcmp op l r => .fcmp op l r
  | call func => .call func
  | gep ptr => .gep ptr
  | typeConverse e op => .typeConverse e.erase op
  | other id => .other id
  | global gv => .global gv
  | args f n => .args f n

/-- The phis in an expression, each with its join block. -/
def joins : Labelled → List (Nat × Expression × Expression)
  | bin _ l r => l.joins ++ r.joins
  | phi k l r => (k, l.erase, r.erase) :: (l.joins ++ r.joins)
  | typeConverse e _ => e.joins
  | _ => []

end Labelled

/-- What is not arithmetic and depends on the operands only, and the instruction whose value an
unknown expression stands for. -/
structure Meaning where
  call : List Value → List Datum → Datum
  gep : List Value → List Datum → Datum
  other : Nat → Value

variable {S : Type}

/-- The block was last entered from its first predecessor. -/
def FromFirst (m : Module) (s : State S) (k : Nat) : Prop :=
  s.last k ≠ none ∧ s.last k = (m.blocks k).preBbs.head?

/-- The block was last entered from its last predecessor, which is not its first. -/
def FromSecond (m : Module) (s : State S) (k : Nat) : Prop :=
  s.last k ≠ none ∧ s.last k ≠ (m.blocks k).preBbs.head? ∧
    s.last k = (m.blocks k).preBbs.getLast?

instance {m : Module} {s : State S} {k : Nat} : Decidable (FromFirst m s k) :=
  inferInstanceAs (Decidable (_ ∧ _))

instance {m : Module} {s : State S} {k : Nat} : Decidable (FromSecond m s k) :=
  inferInstanceAs (Decidable (_ ∧ _))

def denote (ops : FloatOps) (m : Module) (M : Meaning) (s : State S) : Labelled → Option Datum
  | .null => none
  | .constant c => c.map s.env
  | .bin op l r => do op.eval ops (← denote ops m M s l) (← denote ops m M s r)
  | .phi k l r =>
    if FromFirst m s k then denote ops m M s l
    else if FromSecond m s k then denote ops m M s r
    else none
  | .cmp op l r => op.eval (s.env l) (s.env r)
  | .fcmp op l r => op.evalFloat ops (s.env l) (s.env r)
  | .call func => some (M.call func (func.map s.env))
  | .gep ptr => some (M.gep ptr (ptr.map s.env))
  | .typeConverse e op => (denote ops m M s e).bind (op.eval ops)
  | .other id => some (s.env (M.other id))
  | .global gv => some (s.env (.globalVariable gv))
  | .args f n => some (s.env (.argument f n))

/-- What `x` yields in `bb`; a phi of a successor is copied. -/
def Yields (ops : FloatOps) (m : Module) (E : Effect S) (bb x : Nat) (s : State S) (d : Datum) :
    Prop :=
  if (m.instrs x).isPhi then ∃ v, incoming m (.instruction x) bb = some v ∧ d = s.env v
  else ∃ rest, Computes ops m E x s d rest

/-- Calls of pure functions and addresses depend on the operands only. -/
structure ByOperands (ctx : Context) (E : Effect S) (M : Meaning) : Prop where
  call : ∀ x f, (ctx.module.instrs x).opId = .call →
    (ctx.module.instrs x).operands[0]? = some (.function f) → ctx.isPure f →
      ∀ ds mem d mem', E x ds mem d mem' → d = M.call (ctx.module.instrs x).operands ds
  gep : ∀ x ty, (ctx.module.instrs x).opId = .getelementptr ty →
    ∀ ds mem d mem', E x ds mem d mem' → d = M.gep (ctx.module.instrs x).operands ds

/-- The expression that `getVE` finds in a class. -/
def CongruenceClass.expr (cc : CongruenceClass) : Expression :=
  if cc.valueExpr ≠ .null then cc.valueExpr else phiOf cc.valuePhi

/-- The members of each class have the value that its expression denotes, with the join
blocks of `label`. -/
structure Sound (ops : FloatOps) (m : Module) (M : Meaning) (label : CongruenceClass → Labelled)
    (p : Partition) (s : State S) : Prop where
  erase : ∀ cc ∈ p, cc.members ≠ [] → (label cc).erase = cc.expr
  value : ∀ cc ∈ p, ∀ v ∈ cc.members, denote ops m M s (label cc) = some (s.env v)

/-- Phis with equal sides are joined at the same block. -/
def SameJoins (js : List (Nat × Expression × Expression)) : Prop :=
  ∀ k k' l r, (k, l, r) ∈ js → (k', l, r) ∈ js → k = k'

/-- The phis in the expressions that `valueExpr` reads for an instruction. -/
def joinsRead (m : Module) (label : CongruenceClass → Labelled) (p : Partition) (x bb : Nat) :
    List (Nat × Expression × Expression) :=
  ((looksUp m x bb).filterMap fun v => p.find? (v ∈ ·.members)).flatMap fun cc => (label cc).joins

/-- The constants that `valueExpr` computes with. -/
def folded (m : Module) (p : Partition) (x : Nat) : Option (List Value) :=
  let vs := (m.instrs x).operands
  if vs.all (·.isConstant) then some vs
  else match (m.instrs x).opId with
    | .cmp _ | .fcmp _ => none
    | _ => vs.mapM fun v => constantOf (copied p v)

/-- `ConstantFP::get` has the float itself, and not the other zero. -/
def Context.Has (ctx : Context) (x : BitVec 32) : Prop :=
  ctx.ops.isNaN x = false → ctx.ops.cmp .eq x ctx.zero → x = ctx.zero

/-- On these values `ConstFolder` gives what the instruction yields. -/
def Context.Exact (ctx : Context) : OpID → List Datum → Prop
  | .binary op, [a, b] => ∀ r, op.eval ctx.ops a b = some (.float r) → ctx.Has r
  | .fcmp op, [.float a, .float b] => ctx.ops.isNaN a || ctx.ops.isNaN b → ctx.ops.cmp op a b
  | .sitofp _, [.int n] => ctx.Has (ctx.ops.ofInt n)
  | _, _ => True

/-- A sum of integers is no float. -/
theorem exact_add {ctx : Context} {ds : List Datum} : ctx.Exact (.binary .add) ds := by
  unfold Context.Exact
  split
  · rename_i op a b he
    cases he
    intro r hr
    cases a <;> cases b <;> simp [BinaryOp.eval] at hr
  all_goals trivial

/-- What is folded for the instruction is what it yields. -/
def FoldsExactly (ctx : Context) (p : Partition) (x : Nat) : Prop :=
  ∀ cs ds, folded ctx.module p x = some cs → cs.map Value.datum = ds.map some →
    ctx.Exact (ctx.module.instrs x).opId ds

variable {ctx : Context} {m : Module} {E : Effect S} {M : Meaning} {ops : FloatOps} {p : Partition}
  {label : CongruenceClass → Labelled} {s : State S} {bb x y n n' : Nat} {v w : Value} {d d' : Datum}
  {e e' : Expression} {js : List (Nat × Expression × Expression)} {L L' : Labelled}

/-- With the same joins an expression has one labelling. -/
theorem Labelled.eq_of_erase_eq (hjs : SameJoins js) (hL : L.joins ⊆ js) (hL' : L'.joins ⊆ js)
    (h : L.erase = L'.erase) : L = L' := by
  induction L generalizing L' with
  | bin op l r ihl ihr =>
    cases L' <;> simp only [erase, reduceCtorEq, Expression.bin.injEq] at h
    obtain ⟨rfl, hl, hr⟩ := h
    rw [joins, List.append_subset] at hL hL'
    rw [ihl hL.1 hL'.1 hl, ihr hL.2 hL'.2 hr]
  | phi k l r ihl ihr =>
    cases L' <;> simp only [erase, reduceCtorEq, Expression.phi.injEq] at h
    rename_i k' l' r'
    obtain ⟨hl, hr⟩ := h
    rw [joins, List.cons_subset, List.append_subset] at hL hL'
    rw [← hl, ← hr] at hL'
    rw [hjs k k' _ _ hL.1 hL'.1, ihl hL.2.1 hL'.2.1 hl, ihr hL.2.2 hL'.2.2 hr]
  | typeConverse e op ih =>
    cases L' <;> simp only [erase, reduceCtorEq, Expression.typeConverse.injEq] at h
    obtain ⟨he, rfl⟩ := h
    rw [joins] at hL hL'
    rw [ih hL hL' he]
  | _ => cases L' <;> simp_all [erase]

theorem Expression.eq_of_equiv (h : e.equiv e' = .ok true) : e = e' := by
  induction e generalizing e' with
  | null => cases h
  | bin op l r ihl ihr =>
    cases e' with
    | bin op' l' r' =>
      by_cases hop : op = op'
      · simp only [equiv, hop, if_true] at h
        obtain ⟨b, hb, h⟩ := Exec.bind_eq_ok.mp h
        cases b
        · cases h
        · rw [hop, ihl hb, ihr h]
      · simp [equiv, hop, pure, Except.pure] at h
    | null => cases h
    | _ => simp [equiv, pure, Except.pure] at h
  | phi l r ihl ihr =>
    cases e' with
    | phi l' r' =>
      obtain ⟨b, hb, h⟩ := Exec.bind_eq_ok.mp h
      cases b
      · cases h
      · rw [ihl hb, ihr h]
    | null => cases h
    | _ => simp [equiv, pure, Except.pure] at h
  | typeConverse e op ih =>
    cases e' with
    | typeConverse d op' =>
      obtain ⟨b, hb, h⟩ := Exec.bind_eq_ok.mp h
      cases b
      · cases h
      · have hop : op = op' := by simpa [pure, Except.pure] using h
        rw [ih hb, hop]
    | null => cases h
    | _ => simp [equiv, pure, Except.pure] at h
  | _ => cases e' <;> simp_all [equiv, pure, Except.pure]

theorem datum_of_int {n : BitVec 32} (h : getConstIntValue (some v) = .ok n) :
    v.datum = some (.int n) ∨ ∃ b, v.datum = some (.bool b) := by
  cases v with
  | constInt k =>
    cases h
    exact .inl rfl
  | constBool b => exact .inr ⟨b, rfl⟩
  | _ => cases h

theorem datum_of_fp {x : BitVec 32} (h : getConstFpValue (some v) = .ok x) :
    v.datum = some (.float x) := by
  cases v with
  | constFP k =>
    cases h
    rfl
  | constNaN k made =>
    cases h
    rfl
  | _ => cases h

/-- The constant for a float has the float or the zero of the other sign. -/
theorem datum_constantFP (ctx : Context) (x : BitVec 32) :
    ∃ y, (ctx.constantFP x).datum = some (.float y) ∧ (y = x ↔ ctx.Has x) := by
  unfold Context.constantFP Context.Has
  split
  · rename_i hnan
    exact ⟨x, rfl, by simp [hnan]⟩
  · rename_i hnan
    split
    · rename_i hzero
      refine ⟨ctx.zero, rfl, ?_⟩
      simp only [hnan, hzero, true_imp_iff]
      exact eq_comm
    · rename_i hzero
      exact ⟨x, rfl, by simp [hzero]⟩

theorem Context.Has.datum {x : BitVec 32} (h : ctx.Has x) :
    (ctx.constantFP x).datum = some (.float x) := by
  obtain ⟨y, hy, hiff⟩ := datum_constantFP ctx x
  rw [hy, hiff.mpr h]

section Folding

variable {a b : Value} {r : Option Value} {env : Value → Datum}
  (henv : ∀ v d, v.datum = some d → env v = d)
include henv

/-- Folding of integers agrees with an operation that has a result for integers only. -/
theorem fold_int {f : BitVec 32 → BitVec 32 → Exec Value} {g : Datum → Datum → Option Datum}
    (hint : ∀ x y c d, f x y = .ok c → g (.int x) (.int y) = some d → c.datum = some d)
    (hleft : ∀ x d, g (.bool x) d = none) (hright : ∀ x d, g d (.bool x) = none)
    (h : (do return some (← f (← getConstIntValue (some a)) (← getConstIntValue (some b)))) =
      Except.ok r) (he : g (env a) (env b) = some d) : ∃ c, r = some c ∧ env c = d := by
  obtain ⟨x, hx, h⟩ := Exec.bind_eq_ok.mp h
  obtain ⟨y, hy, h⟩ := Exec.bind_eq_ok.mp h
  obtain ⟨c, hc, h⟩ := Exec.bind_eq_ok.mp h
  cases h
  refine ⟨c, rfl, henv c d ?_⟩
  rcases datum_of_int hx with hx | ⟨i, hx⟩
  · rcases datum_of_int hy with hy | ⟨j, hy⟩
    · rw [henv _ _ hx, henv _ _ hy] at he
      exact hint x y c d hc he
    · rw [henv _ _ hy, hright] at he
      cases he
  · rw [henv _ _ hx, hleft] at he
    cases he

theorem fold_fp {f : BitVec 32 → BitVec 32 → Value} {g : Datum → Datum → Option Datum}
    (hfp : ∀ x y d, a.datum = some (.float x) → b.datum = some (.float y) →
      g (.float x) (.float y) = some d → (f x y).datum = some d)
    (h : (do return some (f (← getConstFpValue (some a)) (← getConstFpValue (some b)))) =
      Except.ok r) (he : g (env a) (env b) = some d) : ∃ c, r = some c ∧ env c = d := by
  obtain ⟨x, hx, h⟩ := Exec.bind_eq_ok.mp h
  obtain ⟨y, hy, h⟩ := Exec.bind_eq_ok.mp h
  cases h
  have hx := datum_of_fp hx
  have hy := datum_of_fp hy
  rw [henv _ _ hx, henv _ _ hy] at he
  exact ⟨_, rfl, henv _ d (hfp x y d hx hy he)⟩

/-- Where it is exact, the arithmetic of `ConstFolder` is that of the program. -/
theorem compute_eval {opId : OpID}
    (h : compute ctx.ops ctx.constantFP opId (some a) (some b) = .ok r)
    (hexact : ∀ da db, a.datum = some da → b.datum = some db → ctx.Exact opId [da, db])
    (he : opId.eval ctx.ops [env a, env b] = some d) : ∃ c, r = some c ∧ env c = d := by
  have hret : ∀ {x : Value} {c d}, (Pure.pure x : Exec Value) = .ok c → x.datum = some d →
      c.datum = some d := by
    intro x c d hc hd
    cases hc
    exact hd
  cases opId with
  | binary op =>
    have he : op.eval ctx.ops (env a) (env b) = some d := he
    have hhas : ∀ x y z, a.datum = some (.float x) → b.datum = some (.float y) →
        op.eval ctx.ops (.float x) (.float y) = some (.float z) →
          (ctx.constantFP z).datum = some (.float z) :=
      fun x y z hx hy hz => (hexact _ _ hx hy z hz).datum
    cases op with
    | sdiv =>
      refine fold_int henv ?_ (by simp [BinaryOp.eval]) (by simp [BinaryOp.eval]) h he
      intro x y c d hc hd
      simp only [BinaryOp.eval] at hd
      split at hc
      · cases hc
      · rename_i hno
        rw [if_neg hno] at hd
        exact hret hc hd
    | fadd | fsub | fmul | fdiv =>
      refine fold_fp henv (fun x y d hx hy hd => ?_) h he
      cases hd
      exact hhas x y _ hx hy rfl
    | _ =>
      refine fold_int henv (fun x y c d hc hd => ?_) (by simp [BinaryOp.eval])
        (by simp [BinaryOp.eval]) h he
      obtain ⟨-, rfl⟩ := checked_eq_ok.mp hc
      exact hd
  | cmp op =>
    have he : op.eval (env a) (env b) = some d := he
    exact fold_int henv (fun _ _ _ _ hc hd => hret hc hd) (by simp [CmpOp.eval])
      (by simp [CmpOp.eval]) h he
  | fcmp op =>
    have he : op.evalFloat ctx.ops (env a) (env b) = some d := he
    refine fold_fp henv (fun x y d hx hy hd => ?_) h he
    cases hd
    -- The folder has no unordered comparison.
    have hno : ctx.ops.isNaN x || ctx.ops.isNaN y → ctx.ops.cmp op x y := hexact _ _ hx hy
    cases hnan : ctx.ops.isNaN x || ctx.ops.isNaN y with
    | true => simp [Value.datum, hno hnan]
    | false => rfl
  | _ => cases he

theorem computeCast_eval {op : CastOp} (h : computeCast ctx.ops ctx.constantFP op (some a) = .ok r)
    (hexact : op = .sitofp → ∀ n, a.datum = some (.int n) → ctx.Has (ctx.ops.ofInt n))
    (he : op.eval ctx.ops (env a) = some d) : ∃ c, r = some c ∧ env c = d := by
  cases op with
  | zext =>
    obtain ⟨n, hn, h⟩ := Exec.bind_eq_ok.mp h
    cases h
    refine ⟨_, rfl, henv _ d ?_⟩
    cases a <;> simp only [getConstIntValue, pure, Except.pure, reduceCtorEq, Except.ok.injEq] at hn
    · rw [henv _ _ rfl] at he
      cases he
    · rw [henv _ _ rfl] at he
      rw [← hn]
      exact he
  | sitofp =>
    obtain ⟨n, hn, h⟩ := Exec.bind_eq_ok.mp h
    cases h
    refine ⟨_, rfl, henv _ d ?_⟩
    rcases datum_of_int hn with hn | ⟨i, hn⟩
    · rw [henv _ _ hn] at he
      cases he
      exact (hexact rfl n hn).datum
    · rw [henv _ _ hn] at he
      cases he
  | fptosi =>
    obtain ⟨x, hx, h⟩ := Exec.bind_eq_ok.mp h
    rw [henv _ _ (datum_of_fp hx)] at he
    obtain ⟨n, hn, hd⟩ := Option.map_eq_some_iff.mp he
    rw [hn] at h
    cases h
    exact ⟨_, rfl, henv _ d (congrArg some hd)⟩

end Folding

/-- The expression `e` has a labelling with phis of the partition only that denotes `d`. -/
def Denotes (ops : FloatOps) (m : Module) (M : Meaning) (js : List (Nat × Expression × Expression))
    (s : State S) (e : Expression) (d : Datum) : Prop :=
  ∃ L : Labelled, L.erase = e ∧ L.joins ⊆ js ∧ denote ops m M s L = some d

theorem Denotes.constant (v : Value) : Denotes ops m M js s (.constant (some v)) (s.env v) :=
  ⟨.constant (some v), rfl, by simp [Labelled.joins], rfl⟩

theorem Denotes.constant_iff {c : Option Value} :
    Denotes ops m M js s (.constant c) d ↔ ∃ v, c = some v ∧ s.env v = d := by
  constructor
  · rintro ⟨L, hL, -, hd⟩
    cases L <;> simp only [Labelled.erase, reduceCtorEq, Expression.constant.injEq] at hL
    subst hL
    obtain ⟨v, rfl, hv⟩ := Option.map_eq_some_iff.mp hd
    exact ⟨v, rfl, hv⟩
  · rintro ⟨v, rfl, rfl⟩
    exact .constant v

theorem Denotes.bin {op : BinaryOp} {a b : Datum} (he : Denotes ops m M js s e a)
    (he' : Denotes ops m M js s e' b) (hd : op.eval ops a b = some d) :
    Denotes ops m M js s (.bin op e e') d := by
  obtain ⟨L, rfl, hj, hL⟩ := he
  obtain ⟨L', rfl, hj', hL'⟩ := he'
  refine ⟨.bin op L L', rfl, List.append_subset.mpr ⟨hj, hj'⟩, ?_⟩
  simp [denote, hL, hL', hd]

theorem Denotes.typeConverse {op : CastOp} {a : Datum} (he : Denotes ops m M js s e a)
    (hd : op.eval ops a = some d) : Denotes ops m M js s (.typeConverse e op) d := by
  obtain ⟨L, rfl, hj, hL⟩ := he
  refine ⟨.typeConverse L op, rfl, hj, ?_⟩
  simp [denote, hL, hd]

theorem Denotes.leaf {L : Labelled} (hL : denote ops m M s L = some d) (hj : L.joins = []) :
    Denotes ops m M js s L.erase d := ⟨L, rfl, by simp [hj], hL⟩

/-- Equal expressions denote equal values when their phis are joined at the same blocks. -/
theorem Denotes.unique (hjs : SameJoins js) (h : Denotes ops m M js s e d)
    (h' : Denotes ops m M js s e d') : d = d' := by
  obtain ⟨L, hL, hj, hd⟩ := h
  obtain ⟨L', hL', hj', hd'⟩ := h'
  rw [Labelled.eq_of_erase_eq hjs hj hj' (hL.trans hL'.symm), hd'] at hd
  exact (Option.some.inj hd).symm

theorem getVE_eq_expr (hne : getVE p v ≠ .null) :
    ∃ cc ∈ p, v ∈ cc.members ∧ p.find? (v ∈ ·.members) = some cc ∧ getVE p v = cc.expr := by
  induction p with
  | nil => exact absurd rfl hne
  | cons c p ih =>
    unfold getVE at hne ⊢
    by_cases hv : v ∈ c.members
    · rw [if_pos hv]
      exact ⟨c, List.mem_cons_self, hv, by simp [hv], rfl⟩
    · rw [if_neg hv] at hne ⊢
      obtain ⟨cc, hcc, hmem, hfind, he⟩ := ih hne
      exact ⟨cc, List.mem_cons_of_mem c hcc, hmem, by simpa [hv] using hfind, he⟩

theorem Sound.denotes (h : Sound ops m M label p s)
    (hjs : ∀ cc, p.find? (v ∈ ·.members) = some cc → (label cc).joins ⊆ js)
    (hne : getVE p v ≠ .null) : Denotes ops m M js s (getVE p v) (s.env v) := by
  obtain ⟨cc, hcc, hv, hfind, he⟩ := getVE_eq_expr hne
  rw [he]
  exact ⟨label cc, h.erase cc hcc (List.ne_nil_of_mem hv), hjs cc hfind, h.value cc hcc v hv⟩

/-- An operand that is known: a constant, or the member of a class. -/
theorem Sound.operand (h : Sound ops m M label p s)
    (hjs : ∀ cc, p.find? (v ∈ ·.members) = some cc → (label cc).joins ⊆ js)
    (hk : v.isConstant ∨ getVE p v ≠ .null) : Denotes ops m M js s (copied p v) (s.env v) := by
  unfold copied
  split
  · rename_i hnull
    rw [toConstant, if_pos (hk.resolve_right fun hne => hne hnull)]
    exact .constant v
  · rename_i hne
    exact h.denotes hjs hne

/-- The operand that `GVN` reads for an edge is the one a run takes. -/
theorem incoming_of_operandFor (hlen : 4 ≤ (m.instrs x).operands.length)
    (h : operandFor m x bb = some v) : incoming m (.instruction x) bb = some v := by
  unfold operandFor at h
  simp only [incoming]
  generalize (m.instrs x).operands = vs at hlen h ⊢
  rcases vs with _ | ⟨lhs, _ | ⟨labelL, _ | ⟨rhs, _ | ⟨labelR, vs⟩⟩⟩⟩
  case cons.cons.cons.cons =>
    simp only [List.getElem?_cons_zero, List.getElem?_cons_succ, Option.some.injEq] at h
    simp only [pairUp, List.find?_cons]
    split at h
    · rename_i hfirst
      simp [hfirst, h]
    · rename_i hfirst
      split at h
      · rename_i hsecond
        simp [hfirst, hsecond, h]
      · cases h
  all_goals
    simp only [List.length_cons, List.length_nil] at hlen
    omega

/-- An operation on two values has two operands. -/
theorem eval_two {opId : OpID} {vs : List Value} {lhs rhs : Value}
    (h0 : vs[0]? = some lhs) (h1 : vs[1]? = some rhs)
    (h : opId.eval ops (vs.map s.env) = some d) : vs = [lhs, rhs] := by
  match vs, h0, h1 with
  | [a, b], h0, h1 =>
    cases h0
    cases h1
    rfl
  | a :: b :: c :: vs, _, _ => cases opId <;> cases h

/-- A conversion has one operand. -/
theorem eval_one {opId : OpID} {vs : List Value} {op : CastOp}
    (h : opId.eval ops (vs.map s.env) = some d)
    (hop : ∀ a, opId.eval ops [a] = op.eval ops a)
    (htwo : ∀ a b ds, opId.eval ops (a :: b :: ds) = none) :
    ∀ v, vs[0]? = some v → vs = [v] ∧ op.eval ops (s.env v) = some d := by
  intro v hv
  match vs, hv with
  | [a], hv =>
    cases hv
    rw [← hop]
    exact ⟨rfl, h⟩
  | a :: b :: vs, _ =>
    rw [List.map_cons, List.map_cons, htwo] at h
    cases h

theorem Yields.eval (h : Yields ops m E bb x s d) (ha : (m.instrs x).opId.isArithmetic) :
    (m.instrs x).opId.eval ops ((m.instrs x).operands.map s.env) = some d := by
  have hphi : ¬ (m.instrs x).isPhi := by
    unfold Instruction.isPhi
    revert ha
    cases (m.instrs x).opId <;> simp [OpID.isArithmetic]
  rw [Yields, if_neg hphi] at h
  obtain ⟨rest, h⟩ := h
  rw [Computes, if_pos ha] at h
  exact h.1

theorem Yields.effect (h : Yields ops m E bb x s d) (ha : ¬ (m.instrs x).opId.isArithmetic)
    (hphi : ¬ (m.instrs x).isPhi) : ∃ rest, E x ((m.instrs x).operands.map s.env) s.rest d rest := by
  rw [Yields, if_neg hphi] at h
  obtain ⟨rest, h⟩ := h
  rw [Computes, if_neg ha] at h
  exact ⟨rest, h.2⟩

/-- What `BIN_TYPE` returns for an operation: it folds two constants, or the constants that two
operands stand for, or it is the operation on what the operands stand for. -/
theorem binType_cases {op : BinaryOp} {lhs rhs : Value}
    (ho : (ctx.module.instrs x).opId = .binary op)
    (hlist : (ctx.module.instrs x).operands = [lhs, rhs]) (h : binType ctx x p = .ok e) :
    (∃ c c' r, folded ctx.module p x = some [c, c'] ∧
      (copied p lhs = .constant (some c) ∧ copied p rhs = .constant (some c') ∨
        c = lhs ∧ c' = rhs) ∧
      compute ctx.ops ctx.constantFP (.binary op) (some c) (some c') = .ok r ∧
      e = .constant r) ∨
    (copied p lhs = .constant none ∨ copied p rhs = .constant none) ∨
    e = .bin op (copied p lhs) (copied p rhs) := by
  have hfold : ∀ {c c' : Option Value}, (lhs.isConstant && rhs.isConstant) = false →
      copied p lhs = .constant c → copied p rhs = .constant c' →
      (do return .constant (← compute ctx.ops ctx.constantFP (.binary op) c c')) = Except.ok e →
      (∃ c c' r, folded ctx.module p x = some [c, c'] ∧
        (copied p lhs = .constant (some c) ∧ copied p rhs = .constant (some c') ∨
          c = lhs ∧ c' = rhs) ∧
        compute ctx.ops ctx.constantFP (.binary op) (some c) (some c') = .ok r ∧
        e = .constant r) ∨
      (copied p lhs = .constant none ∨ copied p rhs = .constant none) ∨
      e = .bin op (copied p lhs) (copied p rhs) := by
    intro c c' hno hc hc' h
    cases c with
    | none => exact .inr (.inl (.inl hc))
    | some c =>
      cases c' with
      | none => exact .inr (.inl (.inr hc'))
      | some c' =>
        obtain ⟨r, hr, h⟩ := Exec.bind_eq_ok.mp h
        cases h
        refine .inl ⟨c, c', r, ?_, .inl ⟨hc, hc'⟩, hr, rfl⟩
        simp [folded, hlist, hno, ho, hc, hc', constantOf]
  unfold binType at h
  obtain ⟨v, hl, h⟩ := Exec.bind_eq_ok.mp h
  obtain ⟨w, hr, h⟩ := Exec.bind_eq_ok.mp h
  have hl := getOperand_eq_ok hl
  have hr := getOperand_eq_ok hr
  rw [hlist] at hl hr
  cases hl
  cases hr
  simp only [ho] at h
  split at h
  · rename_i hconst
    obtain ⟨r, hc, h⟩ := Exec.bind_eq_ok.mp h
    cases h
    refine .inl ⟨lhs, rhs, r, ?_, .inr ⟨rfl, rfl⟩, hc, rfl⟩
    simp [folded, hlist, hconst]
  · rename_i hno
    have hno := Bool.eq_false_iff.mpr hno
    have hsame : ∀ {v}, getVE p v ≠ .null → copied p v = getVE p v := by
      intro v hne
      unfold copied
      split
      · rename_i hnull
        exact absurd hnull hne
      · rfl
    have hnull : ∀ {v}, getVE p v = .null → copied p v = .constant (toConstant v) := by
      intro v hnull
      rw [copied, hnull]
    split at h
    · cases h
    · rename_i hln hrc
      exact hfold hno (hnull hln) ((hsame (by simp [hrc])).trans hrc) h
    · rename_i ho hln hrn _
      cases h
      cases ho
      rw [hnull hln, hsame hrn]
      exact .inr (.inr rfl)
    · rename_i hlc hrn
      exact hfold hno ((hsame (by simp [hlc])).trans hlc) (hnull hrn) h
    · rename_i ho hrn hln _
      cases h
      cases ho
      rw [hnull hrn, hsame hln]
      exact .inr (.inr rfl)
    · rename_i hlc hrc
      exact hfold hno ((hsame (by simp [hlc])).trans hlc) ((hsame (by simp [hrc])).trans hrc) h
    · rename_i ho hln hrn _ _ _ _
      cases h
      cases ho
      rw [hsame hln, hsame hrn]
      exact .inr (.inr rfl)
    · rename_i ho
      cases ho
    · rename_i ho
      cases ho
    · cases h

section Values

variable (hs : Sound ctx.ops ctx.module M label p s)
  (henv : ∀ v d, v.datum = some d → s.env v = d) (hk : Known ctx p x bb)
  (hjs : joinsRead ctx.module label p x bb ⊆ js)
include hs hk hjs

/-- What the operands stand for denotes their values. -/
theorem copied_denotes (hv : v ∈ looksUp ctx.module x bb) :
    Denotes ctx.ops ctx.module M js s (copied p v) (s.env v) := by
  apply hs.operand _ (hk v hv)
  intro cc hcc j hj
  apply hjs
  exact List.mem_flatMap.mpr ⟨cc, List.mem_filterMap.mpr ⟨v, hv, hcc⟩, hj⟩

include henv

theorem binType_denotes (hfold : FoldsExactly ctx p x)
    (hd : (ctx.module.instrs x).opId.eval ctx.ops ((ctx.module.instrs x).operands.map s.env) = some d)
    (h : binType ctx x p = .ok e) : Denotes ctx.ops ctx.module M js s e d := by
  obtain ⟨lhs, hl, h'⟩ := Exec.bind_eq_ok.mp h
  obtain ⟨rhs, hr, h'⟩ := Exec.bind_eq_ok.mp h'
  have hlist := eval_two (getOperand_eq_ok hl) (getOperand_eq_ok hr) hd
  rw [hlist] at hd
  have hcompute : ∀ {c c' r}, folded ctx.module p x = some [c, c'] → s.env c = s.env lhs →
      s.env c' = s.env rhs →
      compute ctx.ops ctx.constantFP (ctx.module.instrs x).opId (some c) (some c') = .ok r →
        Denotes ctx.ops ctx.module M js s (.constant r) d := by
    intro c c' r hcs hc hc' hr
    apply Denotes.constant_iff.mpr
    apply compute_eval henv hr
    · intro da db hda hdb
      exact hfold _ [da, db] hcs (by simp [hda, hdb])
    · rw [hc, hc']
      exact hd
  -- A comparison is of the two operands themselves.
  have hcmp : ∀ {t : Expression},
      (if lhs.isConstant && rhs.isConstant then do
        return .constant (← compute ctx.ops ctx.constantFP (ctx.module.instrs x).opId
          (some lhs) (some rhs))
      else return t) = Except.ok e → Denotes ctx.ops ctx.module M js s t d →
        Denotes ctx.ops ctx.module M js s e d := by
    intro t h hden
    split at h
    · rename_i hconst
      obtain ⟨r, hr, h⟩ := Exec.bind_eq_ok.mp h
      cases h
      exact hcompute (by simp [folded, hlist, hconst]) rfl rfl hr
    · cases h
      exact hden
  cases ho : (ctx.module.instrs x).opId with
  | binary op =>
    rw [ho] at hd hcompute
    have hlook : ∀ v ∈ [lhs, rhs], v ∈ looksUp ctx.module x bb := by
      intro v hv
      simpa [looksUp, ho, hlist] using hv
    have hl := copied_denotes hs hk hjs (hlook lhs (by simp))
    have hr := copied_denotes hs hk hjs (hlook rhs (by simp))
    rcases binType_cases ho hlist h with ⟨c, c', r, hcs, hcc, hr', rfl⟩ | (hnone | hnone) | rfl
    · rcases hcc with ⟨hc, hc'⟩ | ⟨rfl, rfl⟩
      · rw [hc] at hl
        rw [hc'] at hr
        obtain ⟨_, h₁, hl⟩ := Denotes.constant_iff.mp hl
        obtain ⟨_, h₂, hr⟩ := Denotes.constant_iff.mp hr
        cases h₁
        cases h₂
        exact hcompute hcs hl hr hr'
      · exact hcompute hcs rfl rfl hr'
    · rw [hnone] at hl
      obtain ⟨_, hno, -⟩ := Denotes.constant_iff.mp hl
      cases hno
    · rw [hnone] at hr
      obtain ⟨_, hno, -⟩ := Denotes.constant_iff.mp hr
      cases hno
    · exact .bin hl hr hd
  | cmp op =>
    rw [ho] at hd
    apply hcmp (t := .cmp op lhs rhs)
    · simpa only [ho] using h'
    · exact .leaf (L := .cmp op lhs rhs) hd rfl
  | fcmp op =>
    rw [ho] at hd
    apply hcmp (t := .fcmp op lhs rhs)
    · simpa only [ho] using h'
    · exact .leaf (L := .fcmp op lhs rhs) hd rfl
  | _ =>
    rw [ho] at hd
    cases hd

theorem castExpr_denotes {op : CastOp} (hx : ∀ v ∈ (ctx.module.instrs x).operands,
      v ∈ looksUp ctx.module x bb)
    (hfold : op = .sitofp → ∀ c n, folded ctx.module p x = some [c] → c.datum = some (.int n) →
      ctx.Has (ctx.ops.ofInt n))
    (hop : ∀ op, (ctx.module.instrs x).opId ≠ .cmp op ∧ (ctx.module.instrs x).opId ≠ .fcmp op)
    (hd : ∀ v, (ctx.module.instrs x).operands[0]? = some v →
      (ctx.module.instrs x).operands = [v] ∧ op.eval ctx.ops (s.env v) = some d)
    (h : castExpr ctx x op p = .ok e) : Denotes ctx.ops ctx.module M js s e d := by
  obtain ⟨v, hv, h⟩ := Exec.bind_eq_ok.mp h
  have hv := getOperand_eq_ok hv
  obtain ⟨hlist, hd⟩ := hd v hv
  have hcompute : ∀ {c r}, folded ctx.module p x = some [c] → s.env c = s.env v →
      computeCast ctx.ops ctx.constantFP op (some c) = .ok r →
        Denotes ctx.ops ctx.module M js s (.constant r) d := by
    intro c r hcs hc hr
    apply Denotes.constant_iff.mpr
    apply computeCast_eval henv hr
    · exact fun ho n hn => hfold ho c n hcs hn
    · rw [hc]
      exact hd
  have hin := hx v (List.mem_of_getElem? hv)
  split at h
  · rename_i hconst
    obtain ⟨r, hc, h⟩ := Exec.bind_eq_ok.mp h
    cases h
    exact hcompute (by simp [folded, hlist, hconst]) rfl hc
  · rename_i hconst
    have hne := (hk v hin).resolve_left (by simpa using hconst)
    have hden := copied_denotes hs hk hjs hin
    have hcopied : copied p v = getVE p v := by
      unfold copied
      split
      · rename_i hnull
        exact absurd hnull hne
      · rfl
    split at h
    · rename_i c hc
      obtain ⟨r, hr, h⟩ := Exec.bind_eq_ok.mp h
      cases h
      rw [hcopied, hc] at hden
      obtain ⟨a, rfl, ha⟩ := Denotes.constant_iff.mp hden
      refine hcompute ?_ ha hr
      have hcs : [v].mapM (fun v => constantOf (copied p v)) = some [a] := by
        simp [hcopied, hc, constantOf]
      simp only [folded, hlist]
      rw [if_neg (by simpa using hconst)]
      split
      · rename_i ho
        exact absurd ho (hop _).1
      · rename_i ho
        exact absurd ho (hop _).2
      · exact hcs
    · cases h
      rw [hcopied] at hden
      exact hden.typeConverse hd

omit henv in
/-- A copy denotes the operand of the phi. -/
theorem copyExpr_denotes (hphi : (ctx.module.instrs x).isPhi)
    (hv : incoming ctx.module (.instruction x) bb = some v) (h : copyExpr ctx x p bb = .ok e) :
    e = .null ∨ Denotes ctx.ops ctx.module M js s e (s.env v) := by
  obtain ⟨hlen, rfl⟩ := copyExpr_eq_ok.mp h
  cases ho : operandFor ctx.module x bb with
  | none => exact .inl rfl
  | some w =>
    obtain rfl := Option.some.inj ((incoming_of_operandFor hlen ho).symm.trans hv)
    exact .inr (copied_denotes hs hk hjs (by simp [looksUp_phi hphi, ho]))

/-- The expression of an instruction denotes what the instruction yields, unless it is none or
new. -/
theorem valueExpr_denotes {E : Effect S} (hE : ByOperands ctx E M) (hfold : FoldsExactly ctx p x)
    (hy : Yields ctx.ops ctx.module E bb x s d) (h : valueExpr ctx n x p bb = .ok (e, n')) :
    e = .null ∨ e = .other n ∧ n' = n + 1 ∨
      n' = n ∧ Denotes ctx.ops ctx.module M js s e d := by
  -- A conversion; only that of an integer makes a float.
  have hcast : ∀ {op : CastOp} {opId : OpID}, (ctx.module.instrs x).opId = opId →
      opId.isArithmetic = true → (∀ a, opId.eval ctx.ops [a] = op.eval ctx.ops a) →
      (∀ a b ds, opId.eval ctx.ops (a :: b :: ds) = none) →
      (∀ v ∈ (ctx.module.instrs x).operands, v ∈ looksUp ctx.module x bb) →
      (op = .sitofp → ∀ n, ctx.Exact opId [.int n] → ctx.Has (ctx.ops.ofInt n)) →
      (∀ op, opId ≠ .cmp op ∧ opId ≠ .fcmp op) →
      (do return (← castExpr ctx x op p, n) : Exec (Expression × Nat)) = .ok (e, n') →
      e = .null ∨ e = .other n ∧ n' = n + 1 ∨ n' = n ∧ Denotes ctx.ops ctx.module M js s e d := by
    intro op opId ho harith hone htwo hlook hexact hno h
    have hd := hy.eval (by rw [ho]; exact harith)
    rw [ho] at hd
    obtain ⟨e', he, h⟩ := Exec.bind_eq_ok.mp h
    cases h
    refine .inr (.inr ⟨rfl, ?_⟩)
    refine castExpr_denotes hs henv hk hjs hlook ?_ (ho ▸ hno) (eval_one hd hone htwo) he
    intro hop c k hcs hc
    have hx := hfold [c] [.int k] hcs (by simp [hc])
    rw [ho] at hx
    exact hexact hop k hx
  cases ho : (ctx.module.instrs x).opId with
  | phi v =>
    have hphi : (ctx.module.instrs x).isPhi := by simp [Instruction.isPhi, ho]
    rw [Yields, if_pos hphi] at hy
    obtain ⟨v, hv, rfl⟩ := hy
    simp only [valueExpr, ho] at h
    obtain ⟨e', he, h⟩ := Exec.bind_eq_ok.mp h
    split at h
    · cases h
      exact .inr (.inl ⟨rfl, rfl⟩)
    · rename_i hne
      cases h
      exact .inr (.inr ⟨rfl, (copyExpr_denotes hs hk hjs hphi hv he).resolve_left hne⟩)
  | binary op | cmp op | fcmp op =>
    have hd := hy.eval (by simp [ho, OpID.isArithmetic])
    simp only [valueExpr, ho] at h
    obtain ⟨e', he, h⟩ := Exec.bind_eq_ok.mp h
    cases h
    exact .inr (.inr ⟨rfl, binType_denotes hs henv hk hjs hfold hd he⟩)
  | zext ty =>
    simp only [valueExpr, ho] at h
    refine hcast ho rfl (fun _ => rfl) (fun _ _ _ => rfl) ?_ (by simp) (by simp) h
    simp [looksUp, ho]
  | fptosi ty =>
    simp only [valueExpr, ho] at h
    refine hcast ho rfl (fun _ => rfl) (fun _ _ _ => rfl) ?_ (by simp) (by simp) h
    simp [looksUp, ho]
  | sitofp ty =>
    simp only [valueExpr, ho] at h
    refine hcast ho rfl (fun _ => rfl) (fun _ _ _ => rfl) ?_ (fun _ _ hx => hx) (by simp) h
    simp [looksUp, ho]
  | call =>
    obtain ⟨rest, heff⟩ := hy.effect (by simp [ho, OpID.isArithmetic]) (by simp [Instruction.isPhi, ho])
    simp only [valueExpr, ho] at h
    obtain ⟨v, hv, h⟩ := Exec.bind_eq_ok.mp h
    split at h
    · rename_i f
      split at h
      · cases h
        exact .inl rfl
      · split at h
        · rename_i hpure
          cases h
          rw [hE.call x f ho (getOperand_eq_ok hv) hpure _ _ _ _ heff]
          exact .inr (.inr ⟨rfl, .leaf (L := .call _) rfl rfl⟩)
        · cases h
          exact .inr (.inl ⟨rfl, rfl⟩)
    · cases h
  | getelementptr ty =>
    obtain ⟨rest, heff⟩ := hy.effect (by simp [ho, OpID.isArithmetic]) (by simp [Instruction.isPhi, ho])
    simp only [valueExpr, ho] at h
    cases h
    rw [hE.gep x ty ho _ _ _ _ heff]
    exact .inr (.inr ⟨rfl, .leaf (L := .gep _) rfl rfl⟩)
  | ret | br | store =>
    simp only [valueExpr, ho] at h
    cases h
    exact .inl rfl
  | alloca | load =>
    simp only [valueExpr, ho] at h
    cases h
    exact .inr (.inl ⟨rfl, rfl⟩)

end Values

theorem binType_ne_other {ctx : Context} {k : Nat} : binType ctx x p ≠ .ok (.other k) := by
  intro h
  obtain ⟨lhs, -, h⟩ := Exec.bind_eq_ok.mp h
  obtain ⟨rhs, -, h⟩ := Exec.bind_eq_ok.mp h
  have hfold : ∀ {o a b}, (do return .constant (← compute ctx.ops ctx.constantFP o a b)) ≠
      Except.ok (Expression.other k) := by
    intro o a b h
    obtain ⟨r, -, h⟩ := Exec.bind_eq_ok.mp h
    cases h
  split at h
  · exact hfold h
  · split at h <;> first | exact hfold h | cases h

theorem castExpr_ne_other {ctx : Context} {op : CastOp} {k : Nat} :
    castExpr ctx x op p ≠ .ok (.other k) := by
  intro h
  obtain ⟨v, -, h⟩ := Exec.bind_eq_ok.mp h
  have hfold : ∀ {a}, (do return .constant (← computeCast ctx.ops ctx.constantFP op a)) ≠
      Except.ok (Expression.other k) := by
    intro a h
    obtain ⟨r, -, h⟩ := Exec.bind_eq_ok.mp h
    cases h
  split at h
  · exact hfold h
  · split at h
    · exact hfold h
    · cases h

theorem copyExpr_other {ctx : Context} {k : Nat} (h : copyExpr ctx x p bb = .ok (.other k)) :
    ∃ v, getVE p v = .other k := by
  obtain ⟨-, h⟩ := copyExpr_eq_ok.mp h
  cases ho : operandFor ctx.module x bb with
  | none =>
    rw [ho] at h
    cases h
  | some v =>
    rw [ho] at h
    simp only [Option.elim_some, copied] at h
    split at h
    · cases h
    · exact ⟨v, h⟩

/-- An unknown expression is new or that of a class. -/
theorem valueExpr_other {ctx : Context} {k : Nat} (h : valueExpr ctx n x p bb = .ok (.other k, n')) :
    k = n ∧ n' = n + 1 ∨ ∃ v, getVE p v = .other k := by
  unfold valueExpr at h
  dsimp only at h
  split at h
  any_goals
    obtain ⟨e, he, h⟩ := Exec.bind_eq_ok.mp h
    cases h
    first | exact absurd he binType_ne_other | exact absurd he castExpr_ne_other
  · obtain ⟨v, -, h⟩ := Exec.bind_eq_ok.mp h
    split at h
    · split at h
      · cases h
      · split at h
        · cases h
        · cases h
          exact .inl ⟨rfl, rfl⟩
    · cases h
  · cases h
  · cases h
  · cases h
  · cases h
  · obtain ⟨e, he, h⟩ := Exec.bind_eq_ok.mp h
    split at h
    · cases h
      exact .inl ⟨rfl, rfl⟩
    · cases h
      exact .inr (copyExpr_other he)
  · cases h
    exact .inl ⟨rfl, rfl⟩
  · cases h
    exact .inl ⟨rfl, rfl⟩

/-- A state in which an execution has executed the instructions `is` of `bb`. -/
def ReachesPoint (ops : FloatOps) (m : Module) (E : Effect S) (entry bb : Nat) (is : List Nat)
    (s : State S) : Prop :=
  ∃ s₀, At ops m E entry bb s₀ ∧ Flow.Executes (semantics ops m E entry) (steps m is) s₀ s

theorem ReachesPoint.constant {entry : Nat} {is : List Nat} (h : ReachesPoint ops m E entry bb is s) :
    ∀ v d, v.datum = some d → s.env v = d := by
  obtain ⟨s₀, h₀, hrun⟩ := h
  intro v d hv
  have hne : ∀ j, v ≠ .instruction j := by
    rintro j rfl
    cases hv
  rw [env_eq_of_executes hrun hne]
  exact Execution.At.constant h₀ hv

/-- Two instructions with equal expressions yield equal values, when the phis with equal sides
that are read for them are joined at one block, no operand is unknown, what is folded is exact,
and calls of pure functions depend on the arguments only. -/
theorem yields_eq_of_equiv {entry call call' : Nat} {is : List Nat} {n₁ n₂ : Nat}
    (hE : ByOperands ctx E M)
    (hsound : ∀ s, ReachesPoint ctx.ops ctx.module E entry bb is s →
      Sound ctx.ops ctx.module M label p s)
    (hjoins : SameJoins (joinsRead ctx.module label p x bb ++ joinsRead ctx.module label p y bb))
    (hknown : Known ctx p x bb) (hknown' : Known ctx p y bb) (hfold : FoldsExactly ctx p x)
    (hfold' : FoldsExactly ctx p y) (hfresh : ∀ v k, getVE p v = .other k → k < n)
    (hx : valueExpr (ctx.forCall call) n x p bb = .ok (e, n₁)) (hn : n₁ ≤ n')
    (hy : valueExpr (ctx.forCall call') n' y p bb = .ok (e', n₂)) (heq : e.equiv e' = .ok true) :
    ∀ s, ReachesPoint ctx.ops ctx.module E entry bb is s → ∀ d d',
      Yields ctx.ops ctx.module E bb x s d → Yields ctx.ops ctx.module E bb y s d' → d = d' := by
  intro s hs d d' hd hd'
  have hsame := Expression.eq_of_equiv heq
  subst hsame
  have hE' : ∀ k, ByOperands (ctx.forCall k) E M := fun k => ⟨hE.call, hE.gep⟩
  have hs' : ∀ k, Sound (ctx.forCall k).ops (ctx.forCall k).module M label p s :=
    fun _ => hsound s hs
  have hden := valueExpr_denotes (hs' call) hs.constant hknown
    (List.subset_append_left _ (joinsRead ctx.module label p y bb)) (hE' call) hfold hd hx
  have hden' := valueExpr_denotes (hs' call') hs.constant hknown'
    (List.subset_append_right (joinsRead ctx.module label p x bb) _) (hE' call') hfold' hd' hy
  rcases hden with rfl | ⟨rfl, hn₁⟩ | ⟨hn₁, hden⟩
  · cases heq
  · -- The number of a new expression is not in use.
    rcases valueExpr_other hy with ⟨hk, -⟩ | ⟨v, hv⟩
    · omega
    · have := hfresh v n hv
      omega
  · rcases hden' with rfl | ⟨rfl, hn₂⟩ | ⟨-, hden'⟩
    · cases heq
    · rcases valueExpr_other hx with ⟨hk, hn₁'⟩ | ⟨v, hv⟩
      · omega
      · have := hfresh v n' hv
        omega
    · exact hden.unique hjoins hden'

/-- A phi of two constants. -/
structure ConstantPhi (m : Module) (i k p₁ p₂ : Nat) (c₁ c₂ : Value) : Prop where
  mem : i ∈ phis m k
  operands : (m.instrs i).operands = [c₁, .basicBlock p₁, c₂, .basicBlock p₂]
  preBbs : (m.blocks k).preBbs = [p₁, p₂]
  ne : p₁ ≠ p₂
  left : c₁.datum ≠ none
  right : c₂.datum ≠ none

section Phis

variable {f entry b i k p₁ p₂ : Nat} {c₁ c₂ : Value} {is : List Nat} (hm : SsaFunction m f entry)
  (hk : k ∈ (m.functions f).basicBlocks) (h : ConstantPhi m i k p₁ p₂ c₁ c₂)
include hm hk h

/-- Where a phi of constants has got its value. -/
theorem ConstantPhi.value (hs : At ops m E entry b s) : s.last k = none ∨
    s.last k = some p₁ ∧ s.env (.instruction i) = s.env c₁ ∨
    s.last k = some p₂ ∧ s.env (.instruction i) = s.env c₂ := by
  have hphi : (m.instrs i).isPhi := by simpa using (List.mem_filter.mp h.mem).2
  have hmem := (List.mem_filter.mp h.mem).1
  have hc : ∀ c : Value, c.datum ≠ none → ∀ j, c ≠ .instruction j := by
    rintro c hc j rfl
    exact hc rfl
  induction hs with
  | start hs => exact .inl (hs.2.2 k)
  | @edge b t s s' hs hrun hbr ih =>
    have hb := hm.cfg.reaches_mem (Execution.At.reaches hs)
    have ht := hm.cfg.closed b hb t hbr.1
    have hi : s'.env (.instruction i) = s.env (.instruction i) := by
      apply hrun.env_eq
      intro hbody
      obtain ⟨j, hj, hij⟩ := List.mem_map.mp hbody
      cases hij
      simpa [hphi] using (List.mem_filter.mp hj).2
    have hconst : ∀ c : Value, c.datum ≠ none →
        ((program m).enter b t s').env c = s'.env c := by
      intro c hne
      refine if_neg fun hmem => ?_
      obtain ⟨j, -, hj⟩ := List.mem_map.mp hmem
      exact hc c hne j hj.symm
    by_cases htk : t = k
    · subst htk
      have hin : Value.instruction i ∈ (program m).phis t := List.mem_map_of_mem h.mem
      have henter : ∀ c, incoming m (.instruction i) b = some c →
          ((program m).enter b t s').env (.instruction i) = s'.env c := by
        intro c hc
        have hsource : (program m).source (.instruction i) b = some c := hc
        simp [Flow.Program.enter, hin, hsource]
      have hpre := (hm.cfg.pre t ht b).mpr ⟨hb, hbr.1⟩
      rw [h.preBbs] at hpre
      right
      rcases List.mem_pair.mp hpre with rfl | rfl
      · left
        refine ⟨by simp [Flow.Program.enter], ?_⟩
        rw [hconst c₁ h.left]
        exact henter c₁ (by simp [incoming, h.operands, pairUp])
      · right
        refine ⟨by simp [Flow.Program.enter], ?_⟩
        rw [hconst c₂ h.right]
        exact henter c₂ (by simp [incoming, h.operands, pairUp, h.ne])
    · have hnot : Value.instruction i ∉ (program m).phis t := by
        intro hin
        obtain ⟨j, hj, hij⟩ := List.mem_map.mp hin
        cases hij
        exact htk ((hm.parent t ht i (List.mem_filter.mp hj).1).symm.trans (hm.parent k hk i hmem))
      have hlast : ((program m).enter b t s').last k = s.last k := by
        simp [Flow.Program.enter, Ne.symm htk, hrun.last_eq]
      have henv : ((program m).enter b t s').env (.instruction i) = s.env (.instruction i) :=
        (if_neg hnot).trans hi
      have hsame : ∀ c : Value, c.datum ≠ none → ((program m).enter b t s').env c = s.env c :=
        fun c hne => (hconst c hne).trans (env_eq_of_executes hrun (hc c hne))
      rw [hlast, henv, hsame c₁ h.left, hsame c₂ h.right]
      exact ih

/-- After its block a phi of constants has the value of its expression. -/
theorem ConstantPhi.denote (hne : entry ≠ k) (hdom : Graph.Dominates (Succ m) entry k b)
    (hs : ReachesPoint ops m E entry b is s) :
    denote ops m M s (.phi k (.constant (some c₁)) (.constant (some c₂))) =
      some (s.env (.instruction i)) := by
  obtain ⟨s₀, h₀, hrun⟩ := hs
  have hphi : (m.instrs i).isPhi := by simpa using (List.mem_filter.mp h.mem).2
  have hi : s.env (.instruction i) = s₀.env (.instruction i) := by
    apply hrun.env_eq
    intro hbody
    obtain ⟨j, hj, hij⟩ := List.mem_map.mp hbody
    cases hij
    simpa [hphi] using (List.mem_filter.mp hj).2
  have hc : ∀ c : Value, c.datum ≠ none → s.env c = s₀.env c := by
    intro c hc
    apply env_eq_of_executes hrun
    rintro j rfl
    exact hc rfl
  have hentered : s₀.last k ≠ none := fun hnone => hdom (h₀.avoids hne hnone)
  have hlast := hrun.last_eq
  have hne' := h.ne
  simp only [Gvn.denote, FromFirst, FromSecond, h.preBbs, hlast, hi, Option.map_some, hc c₁ h.left,
    hc c₂ h.right]
  rcases h.value hm hk h₀ with hnone | ⟨hp, henv⟩ | ⟨hp, henv⟩
  · exact absurd hnone hentered
  · simp [hp, henv]
  · simp [hp, henv, Ne.symm hne']

end Phis

/-- Instructions that are not arithmetic yield 0. -/
def zeroEffect : Effect Unit := fun _ _ _ d _ => d = .int 0

def zeroMeaning : Meaning := ⟨fun _ _ => .int 0, fun _ _ => .int 0, .instruction⟩

/-- `int main(void) { int a; int b; int z; int w;
if (input()) { a = 1; z = 1; } else { a = 2; z = 3; }
if (input()) { b = 1; w = 1; } else { b = 2; w = 5; }
output(a + 7); output(b + 7); output(a + b); output(a + 7); return z + w; }`. -/
def joinProgram : ASTProgram :=
  let var (id : String) : ASTFactor := .var (.scalar id)
  let simple (t : ASTFactor) : ASTExpression := .simple (.ofTerm (.ofFactor t))
  let add (l r : ASTFactor) : ASTExpression :=
    .simple (.additive (.ofTerm (.ofFactor l)) .plus (.ofFactor r))
  let set (id : String) (n : BitVec 32) : ASTStatement :=
    .expressionStmt (some (.assign (.scalar id) (Dominators.literal n)))
  let output (e : ASTExpression) : ASTStatement :=
    .expressionStmt (some (simple (.call "output" [e])))
  ⟨[.fun ⟨.int, "main", [], ["a", "b", "z", "w"].map fun id => ⟨.int, id, none⟩,
    [.selectionElse (simple (.call "input" [])) (.compound [] [set "a" 1, set "z" 1])
      (.compound [] [set "a" 2, set "z" 3]),
    .selectionElse (simple (.call "input" [])) (.compound [] [set "b" 1, set "w" 1])
      (.compound [] [set "b" 2, set "w" 5]),
    output (add (var "a") (.num (.int 7))), output (add (var "b") (.num (.int 7))),
    output (add (var "a") (var "b")), output (add (var "a") (.num (.int 7))),
    .return (some (add (var "z") (var "w")))]⟩]⟩

/-- What the module of `joinProgram` looks like to the analysis. -/
def joinContext (m : Module) : Context := ⟨m, noFloats, fun _ => false, 0, 0⟩

/-- The phis of `a` and `b`, with the sums of the block after the second choice. -/
structure JoinModule (m : Module) : Prop where
  ssa : SsaFunction m 4 0
  mem : 2 ∈ (m.functions 4).basicBlocks ∧ 5 ∈ (m.functions 4).basicBlocks
  first : ConstantPhi m 39 2 1 3 (.constInt 1) (.constInt 2)
  second : ConstantPhi m 40 5 4 6 (.constInt 1) (.constInt 2)
  dominates : Graph.Dominates (Succ m) 0 2 5
  sums : ∀ i ∈ [(23, Value.instruction 39, Value.constInt 7), (26, .instruction 40, .constInt 7),
    (33, .instruction 39, .constInt 7), (30, .instruction 39, .instruction 40)],
      (m.instrs i.1).opId = .binary .add ∧ (m.instrs i.1).operands = [i.2.1, i.2.2]
  split : (m.blocks 5).instrList = [42, 40, 23, 24, 26, 27] ++ 30 :: [31, 33, 34, 37, 38]
  steps : steps m [42, 40, 23, 24, 26, 27] = [23, 24, 26, 27].map .instruction

/-- The first input is 1 and the second 0. -/
def oneZero (i : Nat) : Datum := if i = 4 then .int 1 else .int 0

/-- The phi of two constants that was joined at a block. -/
def constants (k : Nat) (n n' : BitVec 32) : Labelled :=
  .phi k (.constant (some (.constInt n))) (.constant (some (.constInt n')))

/-- The labels of the classes of `a` and `b`. -/
def joinLabel (cc : CongruenceClass) : Labelled :=
  if cc.members = [.instruction 39] then constants 2 1 2 else constants 5 1 2

/-- The classes of `a` and `b`. -/
def joinClasses (p : Partition) : Partition :=
  p.filter fun cc => cc.members = [.instruction 39] || cc.members = [.instruction 40]

/-- `JoinModule`, computed. -/
def joinModule (m : Module) : Bool :=
  isSsa m 4 0 10 && strictlyDominates m 0 10 2 5 &&
    decide (2 ∈ (m.functions 4).basicBlocks ∧ 5 ∈ (m.functions 4).basicBlocks) &&
    decide (39 ∈ phis m 2 ∧ 40 ∈ phis m 5) &&
    decide ((m.instrs 39).operands = [.constInt 1, .basicBlock 1, .constInt 2, .basicBlock 3] ∧
      (m.instrs 40).operands = [.constInt 1, .basicBlock 4, .constInt 2, .basicBlock 6]) &&
    decide ((m.blocks 2).preBbs = [1, 3] ∧ (m.blocks 5).preBbs = [4, 6]) &&
    [(23, Value.instruction 39, Value.constInt 7), (26, .instruction 40, .constInt 7),
      (33, .instruction 39, .constInt 7), (30, .instruction 39, .instruction 40)].all (fun i =>
        decide ((m.instrs i.1).opId = .binary .add ∧ (m.instrs i.1).operands = [i.2.1, i.2.2])) &&
    decide ((m.blocks 5).instrList = [42, 40, 23, 24, 26, 27] ++ 30 :: [31, 33, 34, 37, 38] ∧
      steps m [42, 40, 23, 24, 26, 27] = [23, 24, 26, 27].map .instruction)

/-- Whether the run with the inputs 1 and 0 gets to the block after the second choice, and to
the last sum, with these values. -/
def joinRun (m : Module) : Bool :=
  let holds (s : State Unit) : Bool :=
    s.env (.instruction 39) = .int 1 && s.env (.instruction 40) = .int 2
  (walk noFloats m oneZero 0 [1, 2, 6, 5] initialState).any fun s => holds s &&
    (execute noFloats m oneZero [23, 24, 26, 27] s).any holds

/-- What the analysis computes for the sums. -/
def joinValues (m : Module) (g : GVN) : Bool :=
  (joinClasses (g.pin 5)).all (fun cc => cc.valueExpr = (constants 5 1 2).erase) &&
    [39, 40].all (fun i => getVE (g.pout 5) (.instruction i) = (constants 5 1 2).erase) &&
    decide (getVE (joinClasses (g.pin 5)) (.instruction 39) = (constants 5 1 2).erase) &&
    [23, 26, 33].all (fun i => [g.pin 5, joinClasses (g.pin 5)].all fun p =>
      (valueExpr (joinContext m) g.nextOther i p 5).toOption =
        some (.bin .add (constants 5 1 2).erase (.constant (some (.constInt 7))), g.nextOther)) &&
    (valuePhiFunc (joinContext m) g.pout 30 .add (constants 2 1 2).erase
      (constants 5 1 2).erase 5).toOption =
        some (some (.constant (some (.constInt 2)), .constant (some (.constInt 4))))

theorem joinProgram_module : ∃ m, buildModule joinProgram = some m ∧
    ∃ m', run m Value.code 60 = .ok m' ∧ JoinModule m' ∧ joinRun m' ∧
      ∃ g, detectEquivalences (joinContext m') Value.code 4 1 40 = .ok g ∧ joinValues m' g := by
  obtain ⟨m, hm, h⟩ := exists_buildModule joinProgram
    (fun m => decide (4 < m.numFunctions ∧ (m.functions 4).basicBlocks.head? = some 0) &&
      (run m Value.code 60).toOption.any fun m' => joinModule m' && joinRun m' &&
        (detectEquivalences (joinContext m') Value.code 4 1 40).toOption.any (joinValues m'))
    (by decide +kernel)
  simp only [Bool.and_eq_true, decide_eq_true_eq] at h
  obtain ⟨⟨hlt, hhead⟩, h⟩ := h
  obtain ⟨m', hrun, h⟩ := (Option.any_eq_true _ _).mp h
  simp only [Bool.and_eq_true] at h
  obtain ⟨⟨hmodule, hjoin⟩, h⟩ := h
  obtain ⟨g, hg, hvalues⟩ := (Option.any_eq_true _ _).mp h
  have hrun := Exec.ok_of_toOption hrun
  simp only [joinModule, Bool.and_eq_true, decide_eq_true_eq, List.all_eq_true] at hmodule
  obtain ⟨⟨⟨⟨⟨⟨⟨hssa, hdom⟩, hmem⟩, hphis⟩, hops⟩, hpre⟩, hsums⟩, hsplit, hsteps⟩ := hmodule
  refine ⟨m, hm, m', hrun, ⟨?_, hmem, ?_, ?_, ?_, hsums, hsplit, hsteps⟩, hjoin, g,
    Exec.ok_of_toOption hg, hvalues⟩
  · exact ssaFunction_of_isSsa hm Value.code_injective hrun hlt hhead hssa
  · exact ⟨hphis.1, hops.1, hpre.1, by decide, by decide, by decide⟩
  · exact ⟨hphis.2, hops.2, hpre.2, by decide, by decide, by decide⟩
  · exact (strictlyDominates_of_strictlyDominates hdom).1

/-- A sum yields the sum of its operands. -/
theorem yields_add {i : Nat} {v w : Value} {a b : BitVec 32}
    (hi : (m.instrs i).opId = .binary .add ∧ (m.instrs i).operands = [v, w])
    (hv : s.env v = .int a) (hw : s.env w = .int b) :
    Yields ops m E bb i s (.int (a + b)) := by
  have hphi : ¬ (m.instrs i).isPhi := by simp [Instruction.isPhi, hi.1]
  rw [Yields, if_neg hphi]
  refine ⟨s.rest, ?_⟩
  simp only [Computes, hi.1, hi.2, OpID.isArithmetic, if_true, List.map_cons, List.map_nil, hv, hw]
  exact ⟨rfl, trivial⟩

namespace JoinModule

variable {is : List Nat} {s : State S} (h : JoinModule m)
include h

theorem denote_first (hs : ReachesPoint ops m E 0 5 is s) :
    denote ops m M s (constants 2 1 2) = some (s.env (.instruction 39)) :=
  h.first.denote h.ssa h.mem.1 (by decide) h.dominates hs

theorem denote_second (hs : ReachesPoint ops m E 0 5 is s) :
    denote ops m M s (constants 5 1 2) = some (s.env (.instruction 40)) :=
  h.second.denote h.ssa h.mem.2 (by decide) (Graph.dominates_refl _ _ _) hs

/-- The classes of `a` and `b` are sound in the block after the second choice. -/
theorem sound (hve : ∀ cc ∈ joinClasses p, cc.valueExpr = (constants 5 1 2).erase)
    (hs : ReachesPoint ops m E 0 5 is s) : Sound ops m M joinLabel (joinClasses p) s where
  erase cc hcc _ := by
    have herase : (joinLabel cc).erase = (constants 5 1 2).erase := by
      unfold joinLabel
      split <;> rfl
    rw [herase, CongruenceClass.expr, hve cc hcc]
    rfl
  value cc hcc v hv := by
    have hmem := (List.mem_filter.mp hcc).2
    simp only [Bool.or_eq_true, decide_eq_true_eq] at hmem
    rcases hmem with hmem | hmem
    · rw [hmem, List.mem_singleton] at hv
      rw [hv, joinLabel, if_pos hmem]
      exact h.denote_first hs
    · rw [hmem, List.mem_singleton] at hv
      rw [hv, joinLabel, if_neg (by simp [hmem])]
      exact h.denote_second hs

omit S in
/-- The run with the inputs 1 and 0. -/
theorem exists_run (hrun : joinRun m) : ∃ s s', At noFloats m anyEffect 0 5 s ∧
    Flow.Executes (semantics noFloats m anyEffect 0) (Execution.steps m [42, 40, 23, 24, 26, 27]) s s' ∧
    (s.env (.instruction 39) = .int 1 ∧ s.env (.instruction 40) = .int 2) ∧
    s'.env (.instruction 39) = .int 1 ∧ s'.env (.instruction 40) = .int 2 := by
  obtain ⟨s, hwalk, hs⟩ := (Option.any_eq_true _ _).mp hrun
  simp only [Bool.and_eq_true, decide_eq_true_eq] at hs
  obtain ⟨hs, hexec⟩ := hs
  obtain ⟨s', hexec, hs'⟩ := (Option.any_eq_true _ _).mp hexec
  simp only [Bool.and_eq_true, decide_eq_true_eq] at hs'
  refine ⟨s, s', at_of_walk at_initialState hwalk, ?_, hs, hs'⟩
  rw [h.steps]
  exact executes_of_execute hexec

end JoinModule

/-- The class of `a`, which was joined after the first choice, is all that is read for `a + 7`. -/
theorem joinsRead_joinLabel {j : Nat × Expression × Expression} {x : Nat}
    (hx : (m.instrs x).opId = .binary .add ∧
      (m.instrs x).operands = [.instruction 39, .constInt 7])
    (hj : j ∈ joinsRead m joinLabel (joinClasses p) x 5) : j.1 = 2 := by
  obtain ⟨cc, hcc, hj⟩ := List.mem_flatMap.mp hj
  obtain ⟨v, hv, hcc⟩ := List.mem_filterMap.mp hcc
  have hmem : v ∈ cc.members := by simpa using List.find?_some hcc
  have hclass := (List.mem_filter.mp (List.mem_of_find?_eq_some hcc)).2
  simp only [looksUp, hx.1, hx.2, List.mem_cons, List.not_mem_nil, or_false] at hv
  simp only [Bool.or_eq_true, decide_eq_true_eq] at hclass
  have hmembers : cc.members = [.instruction 39] := by
    rcases hclass with hclass | hclass
    · exact hclass
    · rw [hclass, List.mem_singleton] at hmem
      rcases hv with rfl | rfl <;> cases hmem
  rw [joinLabel, if_pos hmembers] at hj
  simp only [constants, Labelled.joins, List.append_nil, List.mem_singleton] at hj
  rw [hj]

/-- `a + 7` has one value wherever it is computed in the block after the second choice, although
the phi of `b` there has equal sides. -/
theorem yields_eq_of_equiv_joinProgram : ∃ m, buildModule joinProgram = some m ∧
    ∃ m', run m Value.code 60 = .ok m' ∧ ∀ s, ReachesPoint noFloats m' zeroEffect 0 5 [] s →
      ∀ d d', Yields noFloats m' zeroEffect 5 23 s d → Yields noFloats m' zeroEffect 5 33 s d' →
        d = d' := by
  obtain ⟨m, hm, m', hrun, hmodule, -, g, -, hvalues⟩ := joinProgram_module
  simp only [joinValues, Bool.and_eq_true, List.all_eq_true, decide_eq_true_eq] at hvalues
  obtain ⟨⟨⟨⟨hve, -⟩, hget⟩, hsums⟩, -⟩ := hvalues
  have hx := hmodule.sums (23, .instruction 39, .constInt 7) (by simp)
  have hy := hmodule.sums (33, .instruction 39, .constInt 7) (by simp)
  have hE : ByOperands (joinContext m') zeroEffect zeroMeaning :=
    ⟨fun _ _ _ _ hpure => (Bool.false_ne_true hpure).elim, fun _ _ _ _ _ _ _ heff => heff⟩
  have hjoins : SameJoins (joinsRead m' joinLabel (joinClasses (g.pin 5)) 23 5 ++
      joinsRead m' joinLabel (joinClasses (g.pin 5)) 33 5) := by
    have htwo : ∀ j ∈ joinsRead m' joinLabel (joinClasses (g.pin 5)) 23 5 ++
        joinsRead m' joinLabel (joinClasses (g.pin 5)) 33 5, j.1 = 2 := by
      intro j hj
      rcases List.mem_append.mp hj with hj | hj
      · exact joinsRead_joinLabel hx hj
      · exact joinsRead_joinLabel hy hj
    exact fun k k' l r hk hk' => (htwo _ hk).trans (htwo _ hk').symm
  have hknown : ∀ i, (m'.instrs i).opId = .binary .add ∧
      (m'.instrs i).operands = [.instruction 39, .constInt 7] →
        Known (joinContext m') (joinClasses (g.pin 5)) i 5 := by
    intro i hi v hv
    have hv : v ∈ looksUp m' i 5 := hv
    simp only [looksUp, hi.1, hi.2, List.mem_cons, List.not_mem_nil, or_false] at hv
    rcases hv with rfl | rfl
    · exact .inr (by simp [hget, constants, Labelled.erase])
    · exact .inl rfl
  have hfold : ∀ i, (m'.instrs i).opId = .binary .add →
      FoldsExactly (joinContext m') (joinClasses (g.pin 5)) i := by
    intro i hi cs ds _ _
    rw [show ((joinContext m').module.instrs i).opId = .binary .add from hi]
    exact exact_add
  have hfresh : ∀ v k, getVE (joinClasses (g.pin 5)) v = .other k → k < g.nextOther := by
    intro v k hk
    obtain ⟨cc, hcc, -, -, he⟩ := getVE_eq_expr (by rw [hk]; simp)
    rw [hk, CongruenceClass.expr, hve cc hcc] at he
    cases he
  have hvalue : ∀ i ∈ [23, 33], valueExpr ((joinContext m').forCall 0) g.nextOther i
      (joinClasses (g.pin 5)) 5 = .ok (.bin .add (constants 5 1 2).erase (.constant (some (.constInt 7))), g.nextOther) := by
    intro i hi
    refine Exec.ok_of_toOption (hsums i ?_ _ (by simp))
    rcases List.mem_pair.mp hi with rfl | rfl <;> simp
  exact ⟨m, hm, m', hrun, yields_eq_of_equiv hE
    (fun s hs => hmodule.sound hve hs) hjoins (hknown 23 hx) (hknown 33 hy) (hfold 23 hx.1)
    (hfold 33 hy.1) hfresh (hvalue 23 (by simp)) le_rfl (hvalue 33 (by simp)) rfl⟩

/-- In the block after the second choice the phis of `a` and `b` have equal expressions, so
`a + 7` and `b + 7` have, and `a` is 1 and `b` is 2 in some run. -/
theorem not_yields_eq_joinProgram : ∃ m, buildModule joinProgram = some m ∧
    ∃ m', run m Value.code 60 = .ok m' ∧
      ∃ g, detectEquivalences (joinContext m') Value.code 4 1 40 = .ok g ∧
        (∀ M s, ReachesPoint noFloats m' anyEffect 0 5 [] s →
          Sound noFloats m' M joinLabel (joinClasses (g.pin 5)) s) ∧
        (∃ e, Expression.equiv e e = .ok true ∧ ∀ i ∈ [23, 26],
          ∀ p ∈ [g.pin 5, joinClasses (g.pin 5)],
            valueExpr (joinContext m') g.nextOther i p 5 = .ok (e, g.nextOther)) ∧
        ∃ s d d', ReachesPoint noFloats m' anyEffect 0 5 [] s ∧
          Yields noFloats m' anyEffect 5 23 s d ∧ Yields noFloats m' anyEffect 5 26 s d' ∧
          d ≠ d' := by
  obtain ⟨m, hm, m', hrun, hmodule, hjoin, g, hg, hvalues⟩ := joinProgram_module
  simp only [joinValues, Bool.and_eq_true, List.all_eq_true, decide_eq_true_eq] at hvalues
  obtain ⟨⟨⟨⟨hve, -⟩, -⟩, hsums⟩, -⟩ := hvalues
  refine ⟨m, hm, m', hrun, g, hg, fun M s hs => hmodule.sound hve hs, ?_, ?_⟩
  · refine ⟨_, rfl, fun i hi p hp => Exec.ok_of_toOption (hsums i ?_ p hp)⟩
    rcases List.mem_pair.mp hi with rfl | rfl <;> simp
  · obtain ⟨s, -, hs, -, ⟨ha, hb⟩, -⟩ := hmodule.exists_run hjoin
    have hseven := Execution.At.constant hs (v := .constInt 7) rfl
    refine ⟨s, .int (1 + 7), .int (2 + 7), ⟨s, hs, .nil⟩, ?_, ?_, by decide⟩
    · exact yields_add (hmodule.sums (23, .instruction 39, .constInt 7) (by simp)) ha hseven
    · exact yields_add (hmodule.sums (26, .instruction 40, .constInt 7) (by simp)) hb hseven

end Gvn

end Cminusf
