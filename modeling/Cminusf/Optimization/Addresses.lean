import Cminusf.Builder.Cfg
import Cminusf.LightIR.Address
import Cminusf.Optimization.Join
import Cminusf.Optimization.Mem2Reg

/-! The addresses of values enter the analysis through the leader of an intersection alone.
As long as no join has to choose among several members, the classes do not depend on them. -/

namespace Cminusf

namespace Gvn

variable {ctx : Context} {addr addr' : Value → Nat} {next f fuel bb : Nat} {p p1 p2 : Partition}
  {ci cj : CongruenceClass} {g g' : GVN} {blocks : List Nat} {changed : Bool}

/-- The leader of the intersection does not depend on the addresses. -/
def Determined (ci cj : CongruenceClass) : Prop :=
  ci.equal cj ∨ (ci.members.filter (· ∈ cj.members)).length ≤ 1 ∨
    ci.leader = cj.leader ∧ ∃ c, ci.valueExpr = .constant c

/-- No class of the join has its leader chosen among several members. -/
def DeterminedJoin (p1 p2 : Partition) : Prop :=
  (∃ c ∈ p1.head?, c.index = 0) ∨ (∃ c ∈ p2.head?, c.index = 0) ∨
    ∀ ci ∈ p1, ∀ cj ∈ p2, Determined ci cj

/-- The joins at the entry of a block. -/
def DeterminedBlock (m : Module) (g : GVN) (bb : Nat) : Prop :=
  ∀ p ps, (m.blocks bb).preBbs = p :: ps → ∀ q ∈ ps, DeterminedJoin (g.pout p) (g.pout q)

/-- The joins of one pass. -/
def DeterminedPass (ctx : Context) (addr : Value → Nat) : List Nat → GVN → Prop
  | [], _ => True
  | bb :: blocks, g => DeterminedBlock ctx.module g bb ∧
    ∀ changed g', visitBlock ctx addr g bb = .ok (changed, g') → DeterminedPass ctx addr blocks g'

/-- The joins of the do-while loop. -/
def DeterminedLoop (ctx : Context) (addr : Value → Nat) (blocks : List Nat) : Nat → Bool × GVN → Prop
  | 0, _ => True
  | fuel + 1, s => DeterminedPass ctx addr blocks s.2 ∧
    ∀ s', pass ctx addr blocks s = .ok s' → s'.1 → DeterminedLoop ctx addr blocks fuel s'

/-- The joins of the whole run. -/
def DeterminedRun (ctx : Context) (addr : Value → Nat) (f next fuel : Nat) : Prop :=
  ∀ entry blocks, (ctx.module.functions f).basicBlocks = entry :: blocks →
    ∀ g, initial ctx f entry next = .ok g →
      DeterminedLoop ctx addr (blocks.filter (· ≠ entry)) fuel (false, g)

/-! The conditions can be computed along a run. -/

instance : Decidable (Determined ci cj) :=
  decidable_of_iff (ci.equal cj ∨ (ci.members.filter (· ∈ cj.members)).length ≤ 1 ∨
    ci.leader = cj.leader ∧ ci.valueExpr = .constant (constantOf ci.valueExpr)) <| by
    refine or_congr_right (or_congr_right (and_congr_right fun _ => ⟨fun h => ⟨_, h⟩, ?_⟩))
    rintro ⟨c, h⟩
    rw [h]
    rfl

instance : Decidable (DeterminedJoin p1 p2) :=
  inferInstanceAs (Decidable (_ ∨ _ ∨ ∀ ci ∈ p1, ∀ cj ∈ p2, Determined ci cj))

instance {m : Module} : Decidable (DeterminedBlock m g bb) :=
  decidable_of_iff (∀ p ∈ (m.blocks bb).preBbs.head?, ∀ q ∈ (m.blocks bb).preBbs.tail,
    DeterminedJoin (g.pout p) (g.pout q)) <| by
    unfold DeterminedBlock
    cases (m.blocks bb).preBbs <;> simp

instance DeterminedPass.decidable : ∀ (blocks : List Nat) (g : GVN),
    Decidable (DeterminedPass ctx addr blocks g)
  | [], _ => isTrue trivial
  | bb :: blocks, g =>
    have := DeterminedPass.decidable blocks
    decidable_of_iff (DeterminedBlock ctx.module g bb ∧
      ∀ r ∈ (visitBlock ctx addr g bb).toOption, DeterminedPass ctx addr blocks r.2) <| by
      refine and_congr_right fun _ => ⟨fun h changed g' hg => h (changed, g') ?_, fun h r hr => ?_⟩
      · rw [hg]
        rfl
      · exact h r.1 r.2 (Exec.ok_of_toOption hr)

instance DeterminedLoop.decidable : ∀ (fuel : Nat) (s : Bool × GVN),
    Decidable (DeterminedLoop ctx addr blocks fuel s)
  | 0, _ => isTrue trivial
  | fuel + 1, s =>
    have := DeterminedLoop.decidable fuel
    decidable_of_iff (DeterminedPass ctx addr blocks s.2 ∧
      ∀ s' ∈ (pass ctx addr blocks s).toOption, s'.1 → DeterminedLoop ctx addr blocks fuel s') <| by
      refine and_congr_right fun _ => ⟨fun h s' hs => h s' ?_, fun h s' hs => ?_⟩
      · rw [hs]
        rfl
      · exact h s' (Exec.ok_of_toOption hs)

instance : Decidable (DeterminedRun ctx addr f next fuel) :=
  decidable_of_iff (∀ entry ∈ (ctx.module.functions f).basicBlocks.head?,
    ∀ g ∈ (initial ctx f entry next).toOption, DeterminedLoop ctx addr
      ((ctx.module.functions f).basicBlocks.tail.filter (· ≠ entry)) fuel (false, g)) <| by
    unfold DeterminedRun
    constructor
    · intro h entry blocks hb g hg
      rw [hb] at h
      refine h entry rfl g ?_
      rw [hg]
      rfl
    · intro h entry he g hg
      cases hb : (ctx.module.functions f).basicBlocks with
      | nil =>
        rw [hb] at he
        cases he
      | cons b blocks =>
        rw [hb] at he
        cases he
        exact h entry blocks hb g (Exec.ok_of_toOption hg)

/-- The same classes as sets of members. -/
def SameClasses (p q : Partition) : Prop := ∀ v w, Shares p v w ↔ Shares q v w

theorem argmin_congr (addr addr' : Value → Nat) {members : List Value} (h : members.length ≤ 1) :
    members.argmin addr = members.argmin addr' := by
  rcases members with - | ⟨v, - | ⟨w, members⟩⟩
  · rfl
  · rfl
  · simp only [List.length_cons] at h
    omega

theorem Determined.intersect (h : Determined ci cj) (addr addr' : Value → Nat) :
    intersect addr next ci cj = intersect addr' next ci cj := by
  simp only [Gvn.intersect]
  rcases h with h | h | ⟨hl, c, hc⟩
  · rw [if_pos h, if_pos h]
  · have hk : keptLeader addr ci.valueExpr (ci.members.filter (· ∈ cj.members)) =
        keptLeader addr' ci.valueExpr (ci.members.filter (· ∈ cj.members)) := by
      simp only [keptLeader, argmin_congr addr addr' h]
    rw [argmin_congr addr addr' h, hk]
  · rw [if_pos hl, if_pos hl, hc]
    rfl

theorem joinPairs_congr (addr addr' : Value → Nat) {pairs : List (CongruenceClass × CongruenceClass)}
    (h : ∀ pair ∈ pairs, Determined pair.1 pair.2) :
    joinPairs addr p1 p2 pairs p next = joinPairs addr' p1 p2 pairs p next := by
  induction pairs generalizing p next with
  | nil => rfl
  | cons pair pairs ih =>
    have hpairs := fun {p next} => @ih p next fun x hx => h x (List.mem_cons_of_mem pair hx)
    simp only [joinPairs, (h pair (by simp)).intersect addr addr', hpairs]

theorem DeterminedJoin.join (h : DeterminedJoin p1 p2) (addr addr' : Value → Nat) :
    join addr next p1 p2 = join addr' next p1 p2 := by
  unfold Gvn.join
  rcases h with h | h | h
  · obtain ⟨c, hc, h0⟩ := h
    cases p1 with
    | nil => cases hc
    | cons c1 p1 =>
      cases hc
      cases p2 with
      | nil =>
        apply joinPairs_congr
        simp
      | cons c2 p2 => simp [joinPairs, h0]
  · obtain ⟨c, hc, h0⟩ := h
    cases p2 with
    | nil => cases hc
    | cons c2 p2 =>
      cases hc
      cases p1 with
      | nil => rfl
      | cons c1 p1 => simp [joinPairs, h0]
  · apply joinPairs_congr
    intro pair hpair
    simp only [List.mem_flatMap, List.mem_map] at hpair
    obtain ⟨ci, hi, cj, hj, rfl⟩ := hpair
    exact h ci hi cj hj

/-- One step of the loop over the predecessors. -/
def joinInto (addr : Value → Nat) (bb : Nat) (p : Partition) (g : GVN) (q : Nat) : GVN :=
  let (pinR, next) := join addr g.nextValue p (g.pout q)
  { g with nextValue := next, pin := Function.update g.pin bb pinR }

theorem enterBlock_cons {m : Module} {p : Nat} {ps : List Nat} (h : (m.blocks bb).preBbs = p :: ps) :
    enterBlock addr m bb g = ps.foldl (joinInto addr bb (g.pout p))
      { g with pin := Function.update g.pin bb (g.pout p) } := by
  unfold enterBlock
  rw [h]
  rfl

theorem DeterminedBlock.enterBlock {m : Module} (h : DeterminedBlock m g bb)
    (addr addr' : Value → Nat) : enterBlock addr m bb g = enterBlock addr' m bb g := by
  cases hp : (m.blocks bb).preBbs with
  | nil =>
    unfold Gvn.enterBlock
    rw [hp]
  | cons p ps =>
    have hj := h p ps hp
    have key : ∀ qs : List Nat, (∀ q ∈ qs, q ∈ ps) → ∀ g' : GVN, g'.pout = g.pout →
        qs.foldl (joinInto addr bb (g.pout p)) g' = qs.foldl (joinInto addr' bb (g.pout p)) g' := by
      intro qs hqs
      induction qs with
      | nil =>
        intro g' _
        rw [List.foldl_nil, List.foldl_nil]
      | cons q qs ih =>
        intro g' hg'
        have hstep : joinInto addr bb (g.pout p) g' q = joinInto addr' bb (g.pout p) g' q := by
          simp only [joinInto, hg', (hj q (hqs q (by simp))).join addr addr']
        rw [List.foldl_cons, List.foldl_cons, hstep]
        exact ih (fun x hx => hqs x (List.mem_cons_of_mem q hx)) _ hg'
    rw [enterBlock_cons hp, enterBlock_cons hp]
    exact key ps (fun _ hq => hq) _ rfl

theorem DeterminedBlock.visitBlock (h : DeterminedBlock ctx.module g bb) (addr addr' : Value → Nat) :
    visitBlock ctx addr g bb = visitBlock ctx addr' g bb := by
  unfold Gvn.visitBlock
  rw [h.enterBlock addr addr']

theorem pass_nil (s : Bool × GVN) : pass ctx addr [] s = .ok s := rfl

theorem pass_cons (s : Bool × GVN) : pass ctx addr (bb :: blocks) s =
    visitBlock ctx addr s.2 bb >>= fun s' => pass ctx addr blocks s' := by
  rw [pass, List.foldlM_cons]
  rfl

theorem DeterminedPass.pass (h : DeterminedPass ctx addr blocks g) (addr' : Value → Nat) :
    pass ctx addr blocks (changed, g) = pass ctx addr' blocks (changed, g) := by
  induction blocks generalizing g changed with
  | nil => rw [pass_nil, pass_nil]
  | cons bb blocks ih =>
    obtain ⟨hb, hrest⟩ := h
    rw [pass_cons, pass_cons, ← hb.visitBlock addr addr']
    apply Exec.bind_congr
    intro s hs
    exact ih (hrest s.1 s.2 hs)

theorem iterate_succ (s : Bool × GVN) : iterate ctx addr blocks (fuel + 1) s =
    pass ctx addr blocks s >>= fun s' =>
      if s'.1 then iterate ctx addr blocks fuel s' else .ok s'.2 := rfl

theorem DeterminedLoop.iterate {s : Bool × GVN} (h : DeterminedLoop ctx addr blocks fuel s)
    (addr' : Value → Nat) :
    iterate ctx addr blocks fuel s = iterate ctx addr' blocks fuel s := by
  induction fuel generalizing s with
  | zero => rfl
  | succ fuel ih =>
    obtain ⟨hp, hrest⟩ := h
    rw [iterate_succ, iterate_succ, ← hp.pass addr']
    apply Exec.bind_congr
    intro s' hs'
    split
    · next hc => exact ih (hrest s' hs' hc)
    · rfl

theorem detectEquivalences_cons {entry : Nat} (h : (ctx.module.functions f).basicBlocks = entry :: blocks) :
    detectEquivalences ctx addr f next fuel = initial ctx f entry next >>= fun g =>
      iterate ctx addr (blocks.filter (· ≠ entry)) fuel (false, g) := by
  unfold Gvn.detectEquivalences
  rw [h]

theorem DeterminedRun.detectEquivalences (h : DeterminedRun ctx addr f next fuel)
    (addr' : Value → Nat) :
    detectEquivalences ctx addr f next fuel = detectEquivalences ctx addr' f next fuel := by
  cases hb : (ctx.module.functions f).basicBlocks with
  | nil =>
    unfold Gvn.detectEquivalences
    rw [hb]
  | cons entry blocks =>
    rw [detectEquivalences_cons hb, detectEquivalences_cons hb]
    apply Exec.bind_congr
    intro g hg
    exact (h entry blocks hb g hg).iterate addr'

/-- When no leader is chosen among several members, every order of the addresses gives the
same classes. -/
theorem sameClasses_of_determined (h : DeterminedRun ctx addr f next fuel)
    (hg : detectEquivalences ctx addr f next fuel = .ok g) (addr' : Value → Nat) :
    ∃ g', detectEquivalences ctx addr' f next fuel = .ok g' ∧
      ∀ b, SameClasses (g.pout b) (g'.pout b) := by
  rw [h.detectEquivalences addr'] at hg
  exact ⟨g, hg, fun b v w => Iff.rfl⟩

/-- Some arithmetic on floats, for programs without floats. -/
def noFloats : FloatOps :=
  ⟨fun a _ => a, fun a _ => a, fun a _ => a, fun a _ => a, fun _ => false, fun _ _ _ => false, id, some⟩

/-- The addresses of two instructions exchanged. -/
def swapped (i j : Nat) (v : Value) : Nat :=
  Value.code (Equiv.swap (.instruction i) (.instruction j) v)

theorem swapped_injective (i j : Nat) : Function.Injective (swapped i j) :=
  Value.code_injective.comp (Equiv.injective _)

/-- `int main(void) { int i; int x; int y; if (input()) { x = 1; y = 4; } else { x = 2; y = 5; }
i = 0; while (i < x) i = i + 1; return x + y; }`. -/
def branchLoopProgram : ASTProgram :=
  let var (id : String) : ASTFactor := .var (.scalar id)
  let simple (f : ASTFactor) : ASTExpression := .simple (.ofTerm (.ofFactor f))
  let sum (x y : ASTFactor) : ASTExpression :=
    .simple (.additive (.ofTerm (.ofFactor x)) .plus (.ofFactor y))
  let assign (id : String) (e : ASTExpression) : ASTStatement :=
    .expressionStmt (some (.assign (.scalar id) e))
  let set (x y : BitVec 32) : ASTStatement :=
    .compound [] [assign "x" (Dominators.literal x), assign "y" (Dominators.literal y)]
  ⟨[.fun ⟨.int, "main", [], ["i", "x", "y"].map fun id => ⟨.int, id, none⟩,
    [.selectionElse (simple (.call "input" [])) (set 1 4) (set 2 5),
    assign "i" (Dominators.literal 0),
    .iteration (.relation (.ofTerm (.ofFactor (var "i"))) .lt (.ofTerm (.ofFactor (var "x"))))
      (assign "i" (sum (var "i") (.num (.int 1)))),
    .return (some (sum (var "x") (var "y")))]⟩]⟩

/-- The partitions that meet after the choice and at the head of the loop have at most one value
in common in two classes, so the order of the two phis does not matter. -/
theorem sameClasses_of_determined_branchLoopProgram : ∃ m, buildModule branchLoopProgram = some m ∧
    ∃ m', Mem2Reg.run m Value.code 60 = .ok m' ∧
      ((m'.blocks 2).preBbs = [1, 3] ∧ (m'.blocks 4).preBbs = [2, 5] ∧
        (m'.functions 4).basicBlocks = [0, 1, 2, 3, 4, 5, 6] ∧ phis m' 2 = [30, 29]) ∧
      ∃ g g', detectEquivalences ⟨m', noFloats, fun _ => false, 0, 0⟩ Value.code 4 1 20 = .ok g ∧
        detectEquivalences ⟨m', noFloats, fun _ => false, 0, 0⟩ (swapped 29 30) 4 1 20 = .ok g' ∧
        ∀ b, SameClasses (g.pout b) (g'.pout b) := by
  obtain ⟨m, hm, h⟩ := exists_buildModule branchLoopProgram
    (fun m => (Mem2Reg.run m Value.code 60).toOption.any fun m' =>
      decide ((m'.blocks 2).preBbs = [1, 3] ∧ (m'.blocks 4).preBbs = [2, 5] ∧
        (m'.functions 4).basicBlocks = [0, 1, 2, 3, 4, 5, 6] ∧ phis m' 2 = [30, 29]) &&
      decide (DeterminedRun ⟨m', noFloats, fun _ => false, 0, 0⟩ Value.code 4 1 20) &&
      (detectEquivalences ⟨m', noFloats, fun _ => false, 0, 0⟩ Value.code 4 1 20).toOption.isSome)
    (by decide +kernel)
  obtain ⟨m', hrun, h⟩ := (Option.any_eq_true _ _).mp h
  simp only [Bool.and_eq_true, decide_eq_true_eq] at h
  obtain ⟨⟨hshape, hdet⟩, h⟩ := h
  obtain ⟨g, hg⟩ := Option.isSome_iff_exists.mp h
  have hg := Exec.ok_of_toOption hg
  obtain ⟨g', hg', hsame⟩ := sameClasses_of_determined hdet hg (swapped 29 30)
  exact ⟨m, hm, m', Exec.ok_of_toOption hrun, hshape, g, g', hg, hg', hsame⟩

/-- `x`, `y` and `a + b` on three paths with a leader of their own for each pair of them, and
`x + c` before and after the two joins. -/
def chain : Builder Unit := do
  let m ← Builder.getModule
  Builder.setModule (m.createFunction "f" .int32 [.int32, .int32, .int32])
  modify fun s => { s with curFun := some m.numFunctions }
  let a := Value.argument m.numFunctions 0
  let b := Value.argument m.numFunctions 1
  let c := Value.argument m.numFunctions 2
  let entry ← Builder.createBasicBlock "entry"
  let outer ← Builder.createBasicBlock ""
  let left ← Builder.createBasicBlock ""
  let right ← Builder.createBasicBlock ""
  let inner ← Builder.createBasicBlock ""
  let other ← Builder.createBasicBlock ""
  let last ← Builder.createBasicBlock ""
  Builder.setInsertPoint entry
  let x ← Builder.createIadd a b
  let _y ← Builder.createIadd a b
  let s ← Builder.createIadd x c
  discard <| Builder.createCondBr (← Builder.createIcmp .ne c (.constInt 0)) outer other
  Builder.setInsertPoint outer
  discard <| Builder.createCondBr (← Builder.createIcmp .ne a (.constInt 0)) left right
  Builder.setInsertPoint left
  discard <| Builder.createIadd a b
  discard <| Builder.createBr inner
  Builder.setInsertPoint right
  discard <| Builder.createIadd a b
  discard <| Builder.createBr inner
  Builder.setInsertPoint inner
  discard <| Builder.createBr last
  Builder.setInsertPoint other
  discard <| Builder.createIadd a b
  discard <| Builder.createBr last
  Builder.setInsertPoint last
  let t ← Builder.createIadd x c
  discard <| Builder.createRet (← Builder.createIadd s t)

/-- The values 2 and 14 share a class at the end of block 6. -/
def shares214 (r : Exec GVN) : Option Bool :=
  r.toOption.map fun g =>
    (g.pout 6).any fun cc => .instruction 2 ∈ cc.members ∧ .instruction 14 ∈ cc.members

theorem shares_iff_shares214 {r : Exec GVN} (h : r = .ok g) {b : Bool}
    (hs : shares214 r = some b) : Shares (g.pout 6) (.instruction 2) (.instruction 14) ↔ b = true := by
  rw [h] at hs
  simp only [shares214, Except.toOption, Option.map_some, Option.some.injEq] at hs
  rw [← hs]
  simp [Shares]

/-- The value after the two joins is congruent to the one before them under one order only. -/
theorem detectEquivalences_chain : ∃ m, (chain CminusfBuilder.initial).map (·.2.module) = some m ∧
    ∃ addr addr', Function.Injective addr ∧ Function.Injective addr' ∧
      ∃ g g', detectEquivalences ⟨m, noFloats, fun _ => false, 0, 0⟩ addr 4 1 10 = .ok g ∧
        detectEquivalences ⟨m, noFloats, fun _ => false, 0, 0⟩ addr' 4 1 10 = .ok g' ∧
        ¬ ∀ b, SameClasses (g.pout b) (g'.pout b) := by
  have hrun : ((chain CminusfBuilder.initial).map (·.2.module)).any (fun m =>
      decide (shares214 (detectEquivalences ⟨m, noFloats, fun _ => false, 0, 0⟩ Value.code 4 1 10) =
        some true ∧ shares214 (detectEquivalences ⟨m, noFloats, fun _ => false, 0, 0⟩
          (swapped 0 1) 4 1 10) = some false)) = true := by
    decide +kernel
  obtain ⟨m, hm, h⟩ := (Option.any_eq_true _ _).mp hrun
  obtain ⟨ht, hf⟩ := of_decide_eq_true h
  refine ⟨m, hm, Value.code, swapped 0 1, Value.code_injective, swapped_injective 0 1, ?_⟩
  cases hg : detectEquivalences ⟨m, noFloats, fun _ => false, 0, 0⟩ Value.code 4 1 10 with
  | error fault =>
    rw [hg] at ht
    cases ht
  | ok g =>
    cases hg' : detectEquivalences ⟨m, noFloats, fun _ => false, 0, 0⟩ (swapped 0 1) 4 1 10 with
    | error fault =>
      rw [hg'] at hf
      cases hf
    | ok g' =>
      refine ⟨g, g', rfl, rfl, fun hsame => ?_⟩
      have hs := (shares_iff_shares214 hg ht).mpr rfl
      have := (shares_iff_shares214 hg' hf).mp ((hsame 6 _ _).mp hs)
      cases this

end Gvn

end Cminusf
