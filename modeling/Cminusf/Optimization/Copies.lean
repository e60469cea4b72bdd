import Cminusf.Optimization.Addresses
import Cminusf.Optimization.Ssa

/-! The copies that `GVN` makes at the end of a block for the phis of its successors, and
the copies of one successor made at once. -/

namespace Cminusf

namespace Gvn

variable {ctx : Context} {g : GVN} {bb next x y : Nat} {p pin pout : Partition} {v : Value}
  {ve : Expression} {xs : List Nat}

/-- The value expressions of phis for `bb`, all read in one partition. -/
def readAll (ctx : Context) (bb : Nat) (pin : Partition) :
    List Nat → Nat → Exec (List (Nat × Expression) × Nat)
  | [], next => return ([], next)
  | x :: xs, next => do
    let (ve, next) ← valueExpr ctx next x pin bb
    let (copies, next) ← readAll ctx bb pin xs next
    return ((x, ve) :: copies, next)

/-- Moves `x` to the class of the value expression that has been read for it. -/
def assignOne (ctx : Context) (bb x : Nat) (ve : Expression) (s : Partition × GVN) :
    Exec (Partition × GVN) :=
  assign (ctx.forCall s.2.nextCall) { s.2 with nextCall := s.2.nextCall + 1 } x ve
    (eraseMember (.instruction x) s.1) bb

/-- Moves phis to the classes of the value expressions that have been read for them. -/
def assignAll (ctx : Context) (bb : Nat) (copies : List (Nat × Expression)) (s : Partition × GVN) :
    Exec (Partition × GVN) :=
  copies.foldlM (fun s copy => assignOne ctx bb copy.1 copy.2 s) s

/-- The assignment of all phis `xs` at once on the edge that leaves `bb`. -/
def copyAtOnce (ctx : Context) (bb : Nat) (xs : List Nat) (s : Partition × GVN) :
    Exec (Partition × GVN) := do
  let (copies, next) ← readAll ctx bb s.1 xs s.2.nextOther
  assignAll ctx bb copies (s.1, { s.2 with nextOther := next })

/-- The operand of a phi for the predecessor `bb`. -/
def operandFor (m : Module) (x bb : Nat) : Option Value :=
  if (m.instrs x).operands[1]? = some (.basicBlock bb) then (m.instrs x).operands[0]?
  else if (m.instrs x).operands[3]? = some (.basicBlock bb) then (m.instrs x).operands[2]?
  else none

theorem getVE_eraseMember (hv : v ≠ .instruction x) :
    getVE (eraseMember (.instruction x) p) v = getVE p v := by
  induction p with
  | nil => rfl
  | cons c p ih =>
    unfold eraseMember
    split
    · have hmem : v ∈ c.members.erase (.instruction x) ↔ v ∈ c.members :=
        List.mem_erase_of_ne hv
      split
      · rename_i hnil
        have hno : v ∉ c.members := by
          rw [← hmem, List.isEmpty_iff.mp hnil]
          exact List.not_mem_nil
        simp [getVE, hno]
      · simp only [getVE, hmem]
    · simp only [getVE, ih]

theorem getVE_insert {c : CongruenceClass} (hv : v ∉ c.members) :
    getVE (p.insert c) v = getVE p v := by
  induction p with
  | nil => simp [Partition.insert, getVE, hv]
  | cons c' p ih =>
    unfold Partition.insert
    split
    · simp [getVE, hv]
    · split
      · simp only [getVE, ih]
      · rfl

theorem getVE_joinClass {vp : Option (Expression × Expression)} {q : Partition}
    (hv : v ≠ .instruction x) (h : joinClass (.instruction x) ve vp p = .ok (some q)) :
    getVE q v = getVE p v := by
  induction p generalizing q with
  | nil => cases h
  | cons c p ih =>
    rw [joinClass] at h
    obtain ⟨b, -, h⟩ := Exec.bind_eq_ok.mp h
    split at h
    · cases h
      have hmem : v ∈ insertMember (.instruction x) c.members ↔ v ∈ c.members := by
        unfold insertMember
        split <;> simp [hv]
      simp only [getVE, hmem]
    · obtain ⟨o, ho, h⟩ := Exec.bind_eq_ok.mp h
      cases o with
      | none => cases h
      | some q' =>
        cases h
        simp only [getVE, ih ho]

/-- The value φ-function that an assignment looks for. -/
def valuePhiOf (ctx : Context) (g : GVN) (x : Nat) (bb : Nat) :
    Expression → Exec (Option (Expression × Expression))
  | .bin op lhs rhs => valuePhiFunc ctx g.pout x op lhs rhs bb
  | _ => return none

/-- The leader of the class that an assignment makes. -/
def leaderOf (x : Nat) : Expression → Option Value
  | .constant c => c
  | _ => some (.instruction x)

/-- An assignment with the value φ-function found: nothing, an insertion into a class, or a new
class. -/
def register (g : GVN) (x : Nat) (ve : Expression) (vp : Option (Expression × Expression))
    (pout : Partition) : Exec (Partition × GVN) := do
  if ve = .null then return (pout, g)
  match ← joinClass (.instruction x) ve vp pout with
  | some q => return (q, g)
  | none => return (pout.insert ⟨g.nextValue, leaderOf x ve, ve, vp, [.instruction x]⟩,
      { g with nextValue := g.nextValue + 1 })

theorem assign_eq : assign ctx g x ve pout bb =
    valuePhiOf ctx g x bb ve >>= fun vp => register g x ve vp pout := by
  cases ve <;> rfl

theorem assign_eq_ok {s : Partition × GVN} (h : assign ctx g x ve pout bb = .ok s) :
    ∃ vp, valuePhiOf ctx g x bb ve = .ok vp ∧ register g x ve vp pout = .ok s := by
  rw [assign_eq] at h
  exact Exec.bind_eq_ok.mp h

theorem transferFunction_eq_ok {s : Partition × GVN} (h : transferFunction ctx g x pin bb = .ok s) :
    ∃ ve n, valueExpr (ctx.forCall g.nextCall) g.nextOther x pin bb = .ok (ve, n) ∧
      assign (ctx.forCall g.nextCall) { g with nextOther := n, nextCall := g.nextCall + 1 } x ve
        (eraseMember (.instruction x) pin) bb = .ok s := by
  obtain ⟨⟨ve, n⟩, hve, h⟩ := Exec.bind_eq_ok.mp h
  exact ⟨ve, n, hve, h⟩

theorem register_cases {vp : Option (Expression × Expression)} {s : Partition × GVN}
    (h : register g x ve vp pout = .ok s) :
    ve = .null ∧ s = (pout, g) ∨ ve ≠ .null ∧
      ((∃ q, joinClass (.instruction x) ve vp pout = .ok (some q) ∧ s = (q, g)) ∨
        s = (pout.insert ⟨g.nextValue, leaderOf x ve, ve, vp, [.instruction x]⟩,
          { g with nextValue := g.nextValue + 1 })) := by
  unfold register at h
  split at h
  · rename_i hnull
    cases h
    exact .inl ⟨hnull, rfl⟩
  · rename_i hnull
    obtain ⟨o, ho, h⟩ := Exec.bind_eq_ok.mp h
    refine .inr ⟨hnull, ?_⟩
    cases o with
    | some q =>
      cases h
      exact .inl ⟨q, ho, rfl⟩
    | none =>
      cases h
      exact .inr rfl

/-- What an assignment does: nothing, an insertion into a class, or a new class. -/
theorem assign_cases {s : Partition × GVN} (h : assign ctx g x ve pout bb = .ok s) :
    s = (pout, g) ∨ ∃ vp,
      (∃ q, joinClass (.instruction x) ve vp pout = .ok (some q) ∧ s = (q, g)) ∨
      ∃ leader, s = (pout.insert ⟨g.nextValue, leader, ve, vp, [.instruction x]⟩,
        { g with nextValue := g.nextValue + 1 }) := by
  obtain ⟨vp, -, h⟩ := assign_eq_ok h
  rcases register_cases h with ⟨-, rfl⟩ | ⟨-, hq | rfl⟩
  · exact .inl rfl
  · exact .inr ⟨vp, .inl hq⟩
  · exact .inr ⟨vp, .inr ⟨_, rfl⟩⟩

/-- An assignment to `x` moves no other value. -/
theorem getVE_assign {s : Partition × GVN} (hv : v ≠ .instruction x)
    (h : assign ctx g x ve pout bb = .ok s) : getVE s.1 v = getVE pout v := by
  rcases assign_cases h with rfl | ⟨vp, ⟨q, hq, rfl⟩ | ⟨leader, rfl⟩⟩
  · rfl
  · exact getVE_joinClass hv hq
  · apply getVE_insert
    simpa using hv

theorem getVE_copy {s : Partition × GVN} (hv : v ≠ .instruction x)
    (h : assign ctx g x ve (eraseMember (.instruction x) p) bb = .ok s) :
    getVE s.1 v = getVE p v :=
  (getVE_assign hv h).trans (getVE_eraseMember hv)

theorem assign_nextOther {s : Partition × GVN} (h : assign ctx g x ve pout bb = .ok s) :
    s.2.nextOther = g.nextOther := by
  rcases assign_cases h with rfl | ⟨vp, ⟨q, hq, rfl⟩ | ⟨leader, rfl⟩⟩ <;> rfl

/-- An assignment does not depend on the counter of unknown values. -/
theorem assign_withNext {s : Partition × GVN} (h : assign ctx g x ve pout bb = .ok s) (n : Nat) :
    assign ctx { g with nextOther := n } x ve pout bb =
      .ok (s.1, { s.2 with nextOther := n }) := by
  rw [assign_eq] at h ⊢
  obtain ⟨vp, hvp, h⟩ := Exec.bind_eq_ok.mp h
  have hvp' : valuePhiOf ctx { g with nextOther := n } x bb ve = .ok vp := by
    cases ve <;> exact hvp
  apply Exec.bind_eq_ok.mpr
  refine ⟨vp, hvp', ?_⟩
  unfold register at h ⊢
  split at h
  · rename_i hnull
    cases h
    rw [if_pos hnull]
    rfl
  · rename_i hnull
    obtain ⟨o, ho, h⟩ := Exec.bind_eq_ok.mp h
    rw [if_neg hnull, ho]
    cases o <;> cases h <;> rfl

theorem getOperand_eq_ok {m : Module} {k : Nat} (h : getOperand m x k = .ok v) :
    (m.instrs x).operands[k]? = some v := by
  unfold getOperand Instruction.getOperand at h
  split at h
  · rename_i w hw
    cases h
    exact hw
  · cases h

/-- What a copy of `v` is given: the expression of its class, or `v` as a constant. -/
def copied (p : Partition) (v : Value) : Expression :=
  match getVE p v with
  | .null => .constant (toConstant v)
  | e => e

/-- A copy reads four operands and takes the one for its edge. -/
theorem copyExpr_eq : copyExpr ctx x p bb =
    if 4 ≤ (ctx.module.instrs x).operands.length then
      .ok ((operandFor ctx.module x bb).elim .null (copied p))
    else .error .undefinedBehaviour := by
  have hop : ∀ k, getOperand ctx.module x k =
      ((ctx.module.instrs x).operands[k]?).elim (.error .undefinedBehaviour) .ok := by
    intro k
    unfold getOperand Instruction.getOperand
    cases (ctx.module.instrs x).operands[k]? <;> rfl
  simp only [copyExpr, hop, operandFor]
  rcases (ctx.module.instrs x).operands with _ | ⟨lhs, _ | ⟨labelL, _ | ⟨rhs, _ | ⟨labelR, vs⟩⟩⟩⟩
  case cons.cons.cons.cons =>
    rw [if_pos (by simp)]
    change (if labelL = .basicBlock bb then _ else _ : Exec Expression) = _
    simp only [List.getElem?_cons_zero, List.getElem?_cons_succ, Option.some.injEq]
    split
    · rfl
    · split <;> rfl
  all_goals rfl

theorem copyExpr_eq_ok {e : Expression} : copyExpr ctx x p bb = .ok e ↔
    4 ≤ (ctx.module.instrs x).operands.length ∧
      (operandFor ctx.module x bb).elim .null (copied p) = e := by
  rw [copyExpr_eq]
  split
  · simp_all
  · simp_all

/-- A copy reads the class of the operand for its edge only, and makes no constant. -/
theorem valueExpr_phi_congr (next call : Nat) (hx : (ctx.module.instrs x).isPhi)
    (hv : ∀ v, operandFor ctx.module x bb = some v → getVE pin v = getVE p v) :
    valueExpr (ctx.forCall call) next x pin bb = valueExpr ctx next x p bb := by
  have hcopy : copyExpr (ctx.forCall call) x pin bb = copyExpr ctx x p bb := by
    rw [copyExpr_eq, copyExpr_eq, Context.forCall_module]
    cases ho : operandFor ctx.module x bb with
    | none => rfl
    | some v => simp only [Option.elim_some, copied, hv v ho]
  have hid : ∃ ty, (ctx.module.instrs x).opId = .phi ty := by
    revert hx
    unfold Instruction.isPhi
    cases (ctx.module.instrs x).opId <;> simp
  obtain ⟨ty, hid⟩ := hid
  unfold valueExpr
  simp only [Context.forCall_module, hid, hcopy]

/-- Copies one after the other are the copies at once if none reads a phi copied before it. -/
theorem transferAll_eq_assignAll {s r : Partition × GVN}
    (hphi : ∀ x ∈ xs, (ctx.module.instrs x).isPhi)
    (hread : xs.Pairwise fun x y => operandFor ctx.module y bb ≠ some (.instruction x))
    (hold : ∀ y ∈ xs, ∀ v, operandFor ctx.module y bb = some v → getVE s.1 v = getVE p v) :
    transferAll ctx bb xs s = .ok r ↔
      ∃ copies next, readAll ctx bb p xs s.2.nextOther = .ok (copies, next) ∧
        assignAll ctx bb copies (s.1, { s.2 with nextOther := next }) = .ok r := by
  induction xs generalizing s with
  | nil =>
    constructor
    · intro h
      exact ⟨[], s.2.nextOther, rfl, h⟩
    · rintro ⟨copies, next, h, hr⟩
      cases h
      exact hr
  | cons x xs ih =>
    obtain ⟨hx, hread⟩ := List.pairwise_cons.mp hread
    have hve := valueExpr_phi_congr s.2.nextOther s.2.nextCall (hphi x List.mem_cons_self)
      (hold x List.mem_cons_self)
    -- After the copy of `x` the operands of the other phis are still in their classes.
    have hold' : ∀ {ctx' ve g s'},
        assign ctx' g x ve (eraseMember (.instruction x) s.1) bb = .ok s' →
        ∀ y ∈ xs, ∀ v, operandFor ctx.module y bb = some v → getVE s'.1 v = getVE p v := by
      intro ctx' ve g s' h y hy v hv
      have hne : v ≠ .instruction x := by
        rintro rfl
        exact hx y hy hv
      rw [getVE_copy hne h]
      exact hold y (List.mem_cons_of_mem x hy) v hv
    have hphi' : ∀ y ∈ xs, (ctx.module.instrs y).isPhi :=
      fun y hy => hphi y (List.mem_cons_of_mem x hy)
    have ih' := fun s' hs' => ih (s := s') hphi' hread hs'
    constructor
    · intro h
      obtain ⟨s1, h1, h⟩ := Exec.bind_eq_ok.mp h
      obtain ⟨ve, n, hval, h1⟩ := transferFunction_eq_ok h1
      obtain ⟨copies, next, hreads, hr⟩ := (ih' s1 (hold' h1)).mp h
      have hn : s1.2.nextOther = n := assign_nextOther h1
      rw [hn] at hreads
      refine ⟨(x, ve) :: copies, next, ?_, ?_⟩
      · rw [hve] at hval
        exact Exec.bind_eq_ok.mpr ⟨(ve, n), hval, Exec.bind_eq_ok.mpr ⟨(copies, next), hreads, rfl⟩⟩
      · exact Exec.bind_eq_ok.mpr ⟨_, assign_withNext h1 next, hr⟩
    · rintro ⟨copies, next, hreads, hr⟩
      obtain ⟨⟨ve, n⟩, hval, hreads⟩ := Exec.bind_eq_ok.mp hreads
      obtain ⟨⟨copies', n'⟩, hreads, he⟩ := Exec.bind_eq_ok.mp hreads
      cases he
      obtain ⟨s1, h1, hr⟩ := Exec.bind_eq_ok.mp hr
      have h1' := assign_withNext h1 n
      have hn : s1.2.nextOther = next := assign_nextOther h1
      refine Exec.bind_eq_ok.mpr ⟨(s1.1, { s1.2 with nextOther := n }), ?_, ?_⟩
      · rw [← hve] at hval
        exact Exec.bind_eq_ok.mpr ⟨(ve, n), hval, h1'⟩
      · refine (ih' _ (hold' h1')).mpr ⟨copies', next, hreads, ?_⟩
        rw [← hn]
        exact hr

/-- The partition that the successor `t` joins for the edge from `bb`, with `s` after the
instructions of `bb`, is the one in which its phis are assigned at once. -/
def CopiesAtOnce (ctx : Context) (bb t : Nat) (s : Partition × GVN) : Prop :=
  ∀ r, transferAll ctx bb (succPhis ctx.module bb) s = .ok r →
    ∃ r', copyAtOnce ctx bb (phis ctx.module t) s = .ok r' ∧ r.1 = r'.1

/-- No phi of `t` reads a phi of `t` before it, and no other successor of `bb` has phis. -/
def SeparateCopies (m : Module) (bb t : Nat) : Prop :=
  (phis m t).Pairwise (fun x y => operandFor m y bb ≠ some (.instruction x)) ∧
    ∃ l₁ l₂, (m.blocks bb).succBbs = l₁ ++ t :: l₂ ∧ ∀ t' ∈ l₁ ++ l₂, phis m t' = []

theorem SeparateCopies.succPhis {m : Module} {bb t : Nat} (h : SeparateCopies m bb t) :
    succPhis m bb = phis m t := by
  obtain ⟨-, l₁, l₂, hl, hother⟩ := h
  have hnil : ∀ l : List Nat, (∀ t' ∈ l, phis m t' = []) → l.flatMap (phis m) = [] :=
    fun l hl => List.flatMap_eq_nil_iff.mpr hl
  rw [Gvn.succPhis, hl, List.flatMap_append, List.flatMap_cons,
    hnil l₁ fun t' ht => hother t' (List.mem_append_left _ ht),
    hnil l₂ fun t' ht => hother t' (List.mem_append_right _ ht)]
  simp

theorem copiesAtOnce_of_separate {t : Nat} (h : SeparateCopies ctx.module bb t)
    (s : Partition × GVN) : CopiesAtOnce ctx bb t s := by
  intro r hr
  rw [h.succPhis] at hr
  have hphi : ∀ x ∈ phis ctx.module t, (ctx.module.instrs x).isPhi := by
    intro x hx
    simpa using (List.mem_filter.mp hx).2
  obtain ⟨copies, next, hreads, hr⟩ :=
    (transferAll_eq_assignAll (p := s.1) hphi h.1 fun _ _ _ _ => rfl).mp hr
  exact ⟨r, Exec.bind_eq_ok.mpr ⟨(copies, next), hreads, hr⟩, rfl⟩

/-- A state after the instructions of `bb` in the first pass, when `before` are the blocks
visited before it. -/
def firstVisit (ctx : Context) (addr : Value → Nat) (f next : Nat) (before : List Nat) (bb : Nat) :
    Exec (Partition × GVN) :=
  match (ctx.module.functions f).basicBlocks with
  | [] => throw .undefinedBehaviour
  | entry :: _ => do
    let (_, g) ← pass ctx addr before (false, ← initial ctx f entry next)
    let g := enterBlock addr ctx.module bb g
    transferAll ctx bb (body ctx.module bb) (g.pin bb, g)

/-- `int main(void) { int a; int b; int t; a = 1; b = 2; t = 0;
while (input()) { t = a; a = b; b = t; } return 0; }`. -/
def swapProgram : ASTProgram :=
  let var (id : String) : ASTExpression := .simple (.ofTerm (.ofFactor (.var (.scalar id))))
  let assign (id : String) (e : ASTExpression) : ASTStatement :=
    .expressionStmt (some (.assign (.scalar id) e))
  let input : ASTExpression := .simple (.ofTerm (.ofFactor (.call "input" [])))
  ⟨[.fun ⟨.int, "main", [], [⟨.int, "a", none⟩, ⟨.int, "b", none⟩, ⟨.int, "t", none⟩],
    [assign "a" (Dominators.literal 1), assign "b" (Dominators.literal 2),
    assign "t" (Dominators.literal 0),
    .iteration input (.compound [] [assign "t" (var "a"), assign "a" (var "b"),
      assign "b" (var "t")]),
    .return (some (Dominators.literal 0))]⟩]⟩

/-- Whether two instructions share a class. -/
def sharesIn (p : Partition) (i j : Nat) : Bool :=
  p.any fun cc => .instruction i ∈ cc.members ∧ .instruction j ∈ cc.members

theorem shares_iff_sharesIn {i j : Nat} :
    Shares p (.instruction i) (.instruction j) ↔ sharesIn p i j = true := by
  simp [Shares, sharesIn]

/-- Whether the two variables share a class after the copies, and after the copies at once. -/
def exchanged (m : Module) : Option (Bool × Bool) := do
  let ctx : Context := ⟨m, noFloats, fun _ => false, 0, 0⟩
  let s ← (firstVisit ctx Value.code 4 1 [1] 2).toOption
  let r ← (transferAll ctx 2 (succPhis m 2) s).toOption
  let r' ← (copyAtOnce ctx 2 (phis m 1) s).toOption
  return (sharesIn r.1 18 19, sharesIn r'.1 18 19)

theorem swapProgram_module : ∃ m, buildModule swapProgram = some m ∧
    ∃ m', Mem2Reg.run m Value.code 20 = .ok m' ∧ (phis m' 1).map (fun x => operandFor m' x 0) =
      [some (.constInt 0), some (.constInt 2), some (.constInt 1)] ∧ (m'.blocks 0).succBbs = [1] ∧
      exchanged m' = some (true, false) := by
  obtain ⟨m, hm, h⟩ := exists_buildModule swapProgram
    (fun m => (Mem2Reg.run m Value.code 20).toOption.any fun m' =>
      decide ((phis m' 1).map (fun x => operandFor m' x 0) =
        [some (.constInt 0), some (.constInt 2), some (.constInt 1)] ∧ (m'.blocks 0).succBbs = [1] ∧
        exchanged m' = some (true, false))) (by decide +kernel)
  cases hrun : Mem2Reg.run m Value.code 20 with
  | error fault =>
    rw [hrun] at h
    cases h
  | ok m' =>
    rw [hrun] at h
    exact ⟨m, hm, m', hrun, of_decide_eq_true h⟩

/-- On the edge into the loop the phis read constants. -/
theorem copiesAtOnce_swapProgram : ∃ m, buildModule swapProgram = some m ∧
    ∃ m', Mem2Reg.run m Value.code 20 = .ok m' ∧
      ∀ s, CopiesAtOnce ⟨m', noFloats, fun _ => false, 0, 0⟩ 0 1 s := by
  obtain ⟨m, hm, m', hrun, hops, hsucc, -⟩ := swapProgram_module
  refine ⟨m, hm, m', hrun, copiesAtOnce_of_separate ⟨?_, [], [], hsucc, by simp⟩⟩
  apply List.Pairwise.imp_of_mem (R := fun _ _ => True)
  · intro x y _ hy _ he
    have hmem := List.mem_map_of_mem (f := fun x => operandFor m' x 0) hy
    rw [hops, he] at hmem
    simp at hmem
  · exact List.pairwise_of_forall fun _ _ => trivial

/-- On the edge back both variables end with the value of one of them, so not even the classes
are the same. -/
theorem not_copiesAtOnce_swapProgram : ∃ m, buildModule swapProgram = some m ∧
    ∃ m', Mem2Reg.run m Value.code 20 = .ok m' ∧
      ∃ s, firstVisit ⟨m', noFloats, fun _ => false, 0, 0⟩ Value.code 4 1 [1] 2 = .ok s ∧
        ¬ CopiesAtOnce ⟨m', noFloats, fun _ => false, 0, 0⟩ 2 1 s ∧
        ∃ r r', transferAll ⟨m', noFloats, fun _ => false, 0, 0⟩ 2 (succPhis m' 2) s = .ok r ∧
          copyAtOnce ⟨m', noFloats, fun _ => false, 0, 0⟩ 2 (phis m' 1) s = .ok r' ∧
          ¬ SameClasses r.1 r'.1 := by
  obtain ⟨m, hm, m', hrun, -, -, h⟩ := swapProgram_module
  obtain ⟨s, hs, h⟩ := Option.bind_eq_some_iff.mp h
  obtain ⟨r, hr, h⟩ := Option.bind_eq_some_iff.mp h
  obtain ⟨r', hr', h⟩ := Option.bind_eq_some_iff.mp h
  simp only [Option.pure_def, Option.some.injEq, Prod.mk.injEq] at h
  have hdiffer : ¬ SameClasses r.1 r'.1 := by
    intro hsame
    have hshares := (hsame _ _).mp (shares_iff_sharesIn.mpr h.1)
    rw [shares_iff_sharesIn, h.2] at hshares
    cases hshares
  refine ⟨m, hm, m', hrun, s, Exec.ok_of_toOption hs, ?_, r, r', Exec.ok_of_toOption hr,
    Exec.ok_of_toOption hr', hdiffer⟩
  intro hcopies
  obtain ⟨r'', hr'', hsame⟩ := hcopies r (Exec.ok_of_toOption hr)
  have he : r'' = r' := Except.ok.inj (hr''.symm.trans (Exec.ok_of_toOption hr'))
  apply hdiffer
  rw [hsame, he]
  exact fun v w => Iff.rfl

end Gvn

end Cminusf
