import Cminusf.Builder.Blocks
import Cminusf.Optimization.Copies
import Cminusf.Optimization.Known
import Cminusf.Optimization.Ssa

/-! What the value numbering relies on holds of every function that the earlier pass returns. -/

namespace Cminusf

namespace Mem2Reg

open Builder Dominators Renaming Gvn

variable {m m1 m' : Module} {origin : Nat → Option Nat} {addr : Nat → Nat} {d : Dominators}
  {f entry fuel b i j x : Nat} {phis : Nat → List Nat} {r : Renaming} {is js : List Nat} {v w : Value}

/-- The operands of arithmetic, conversions and stores. -/
def consumed (m : Module) (i : Nat) : List Value :=
  match (m.instrs i).opId with
  | .binary _ | .zext _ | .fptosi _ | .sitofp _ | .store => (m.instrs i).operands
  | _ => []

/-- Nothing is computed from the call of a `void` function. -/
def NoVoidOperand (m : Module) : Prop :=
  ∀ i < m.numInstrs, ∀ j, .instruction j ∈ consumed m i → HasResult m j

theorem mem_operands_of_mem_consumed (h : w ∈ consumed m i) : w ∈ (m.instrs i).operands := by
  unfold consumed at h
  split at h
  all_goals first | exact h | cases h

/-- A constant, an argument, or an instruction that has a result. -/
def Produces (m m' : Module) (f : Nat) (v : Value) : Prop :=
  v.isConstant ∨ (∃ k < (m.functions f).paramTypes.length, v = .argument f k) ∨
    ∃ j, v = .instruction j ∧ ((m'.instrs j).isPhi ∨
      ∃ c ∈ (m.functions f).basicBlocks, j ∈ (m.blocks c).instrList ∧ HasResult m j)

/-- The operands that the value numbering looks up were values of the visitors. -/
theorem looksUp_old {n c : Nat}
    (he : Emits m origin n c (m.instrs x).opId (m.instrs x).type (m.instrs x).operands)
    (hop : (m'.instrs x).opId = (m.instrs x).opId) (hphi : ¬ (m'.instrs x).isPhi)
    (hv : v ∈ looksUp m' x b) : v ∈ (m'.instrs x).operands ∧
      consumed m x = (m.instrs x).operands ∧ ∀ w ∈ consumed m x, ValueAt m origin n c w := by
  unfold looksUp at hv
  unfold consumed
  unfold Instruction.isPhi at hphi
  rw [hop] at hv hphi
  generalize (m.instrs x).type = ty, (m.instrs x).operands = ops at he
  cases ho : (m.instrs x).opId <;> rw [ho] at hv hphi he
  case binary =>
    cases he with
    | binary ha hb => exact ⟨hv, rfl, by simp [ha, hb]⟩
  case zext =>
    cases he with
    | zext ha => exact ⟨hv, rfl, by simp [ha]⟩
  case fptosi =>
    cases he with
    | fptosi ha => exact ⟨hv, rfl, by simp [ha]⟩
  case sitofp =>
    cases he with
    | sitofp ha => exact ⟨hv, rfl, by simp [ha]⟩
  case phi => exact absurd rfl hphi
  all_goals cases hv

theorem mem_of_operandFor {pairs : List (Value × Nat)}
    (hv : (if (pairOperands pairs)[1]? = some (.basicBlock b) then (pairOperands pairs)[0]?
      else if (pairOperands pairs)[3]? = some (.basicBlock b) then (pairOperands pairs)[2]?
      else none) = some v) : (v, b) ∈ pairs := by
  rcases pairs with - | ⟨⟨v1, b1⟩, - | ⟨⟨v2, b2⟩, pairs⟩⟩
  · simp [pairOperands] at hv
  · simp [pairOperands] at hv
    simp [hv]
  · simp only [pairOperands, List.flatMap_cons] at hv
    split at hv
    · simp_all
    · split at hv
      · simp_all
      · cases hv

namespace Described

variable (h : Described m origin addr d f entry fuel m1 phis r m')

include h

theorem produces_operand (hvoid : NoVoidOperand m) {n c : Nat} (hb : b ∈ (m.functions f).basicBlocks)
    (hi : i ∈ (m.blocks b).instrList) (hw : w ∈ consumed m i)
    (hval : ValueAt m origin n c w) : Produces m m' f w := by
  cases w with
  | instruction j =>
    obtain ⟨-, hjb, hjm, -⟩ := h.operand_mem hb hi (mem_operands_of_mem_consumed hw)
    have hin := (h.laid.old h.inv h.lt hb hi).1
    exact .inr (.inr ⟨j, rfl, .inr ⟨_, hjb, hjm, hvoid i hin j hw⟩⟩)
  | constInt | constBool | constFP | constZero => exact .inl rfl
  | _ => cases hval

/-- Every value on a stack is the result of something. -/
theorem produces_vals (hvoid : NoVoidOperand m) (hb : Graph.Reaches (Succ m) entry b)
    (hlist : (m1.blocks b).instrList = is ++ js) (hx : w ∈ valsAfter m1 r b is v) :
    Produces m m' f w := by
  obtain ⟨keys, -, hw⟩ := h.promoted.walked
  have ha := h.laid.arranged h.inv h.lt h.head h.analysed
  refine hw.vals_rec ha h.promoted.shaped h.analysed.idoms.root
    (P := fun _ _ _ x => Produces m m' f x) ?_ ?_ ?_ ?_ ?_ b (h.mem_order.mpr hb) is js hlist v w hx
  · intro b hbo p hp u hsome
    have hbf := h.cfg.reaches_mem (h.mem_order.mp hbo)
    have hp' := h.mem_phis_of_phiVar hbf hp hsome
    have hmem := h.mem_final_phi hbf hp'
    obtain ⟨v, -, hins, -⟩ := h.laid.phiVar_phi hp'
    refine .inr (.inr ⟨p, rfl, .inl ?_⟩)
    rw [h.promoted.instrs b hbf p hmem, hins]
    rfl
  · intro b hbo is i js hlist v w hst hop _
    have hbf := h.cfg.reaches_mem (h.mem_order.mp hbo)
    have hi := h.mem_of_storedVar hbf (by rw [hlist]; simp) hst
    obtain ⟨hin, hins, hp, hfi⟩ := h.laid.old h.inv h.lt hbf hi
    rw [h.laid.storedVar h.inv h.lt hbf hi] at hst
    obtain ⟨w', hops, hw'⟩ := h.inv.stored_value hin hst
    rw [hins, Instruction.getOperand, hops] at hop
    cases hop
    rcases hw' with hval | ⟨k, hk, rfl⟩
    · apply h.produces_operand hvoid hbf hi _ hval
      rw [consumed, opId_of_isStore (isStore_of_storedVar hst), hops]
      simp
    · change (m.blocks (m.instrs i).parent).parent = f at hfi
      rw [hfi] at hk ⊢
      exact .inr (.inl ⟨k, hk, rfl⟩)
  · exact fun _ _ _ _ _ _ _ _ _ _ _ _ _ _ _ _ _ _ x hx => hx
  · exact fun _ _ _ _ _ _ _ x hx => hx
  · exact fun _ _ _ _ _ _ _ x hx => hx

/-- An instruction of the visitors has a result after the pass too. -/
theorem hasResult_final (hb : b ∈ (m.functions f).basicBlocks) (hj : j ∈ (m.blocks b).instrList)
    (hj' : j ∈ (m'.blocks b).instrList) (hr : HasResult m j) : HasResult m' j := by
  have hlt := (h.laid.old h.inv h.lt hb hj).1
  have hop : (m'.instrs j).opId = (m.instrs j).opId := by rw [h.between.instrs j hlt]
  unfold HasResult at hr ⊢
  rw [hop]
  split <;> rename_i ho
  · rw [ho] at hr
    exact hr
  · rw [ho] at hr
    exact hr
  · rw [ho] at hr
    exact hr
  · rw [ho] at hr
    intro g hg
    rw [h.operands_old hb hj hj', List.getElem?_map] at hg
    obtain ⟨u, hu, hug⟩ := Option.map_eq_some_iff.mp hg
    rw [h.between.functions]
    apply hr g
    -- The callee is not replaced.
    have hemit := h.inv.emits j hlt
    rw [ho] at hemit
    generalize hty : (m.instrs j).type = ty, hops : (m.instrs j).operands = ops at hemit hu
    cases hemit
    cases hu
    have hsub : ∀ k, r.sub (.function k) = .function k := by
      intro k
      by_contra hne
      obtain ⟨j, hj, -⟩ := h.promoted.shaped.sub_load _ hne
      cases hj
    rw [hsub] at hug
    rw [hug]
    rfl
  · trivial

/-- A value that the pass puts in the place of an operand. -/
theorem computed_final (hk : Produces m m' f v)
    (hp : m'.Present v) (hdef : DefinedBefore m' entry b is v) : Computed m' f entry b is v := by
  rcases hk with hc | ⟨k, hk, rfl⟩ | ⟨j, rfl, hj⟩
  · exact .inl hc
  · rw [← h.between.functions] at hk
    exact .inr (.inl ⟨k, hk, rfl⟩)
  · have hmem := Module.present_instruction.mp hp
    refine .inr (.inr ⟨j, rfl, ?_, (hdef j rfl).imp_right fun hdom => ⟨_, hdom, hmem⟩⟩)
    rcases hj with hphi | ⟨c, hc, hjc, hr⟩
    · exact hasResult_of_isPhi hphi
    · rw [h.parent_final hc ((h.laid.mem_instrList hc).mpr (.inr hjc))] at hmem
      exact h.hasResult_final hc hjc hmem hr

theorem operand_computed (hvoid : NoVoidOperand m) (hb : Graph.Reaches (Succ m) entry b)
    (hlist : (m'.blocks b).instrList = is ++ x :: js) (hphi : ¬ (m'.instrs x).isPhi)
    (hv : v ∈ looksUp m' x b) : Computed m' f entry b is v := by
  have hbf := h.cfg.reaches_mem hb
  have hx' : x ∈ (m'.blocks b).instrList := by rw [hlist]; simp
  have hx : x ∈ (m.blocks b).instrList := by
    rcases h.mem_final_cases hbf hx' with hx | hx
    · exact absurd hx.2 hphi
    · exact hx.1
  have hlt := (h.laid.old h.inv h.lt hbf hx).1
  obtain ⟨hops, hcons, hval⟩ := looksUp_old (h.inv.emits x hlt) (by rw [h.between.instrs x hlt]) hphi hv
  rw [h.operands_old hbf hx hx'] at hops
  obtain ⟨w, hw, rfl⟩ := List.mem_map.mp hops
  obtain ⟨is1, js1, hlist1, his⟩ := h.split_final hbf hlist
  have hinit : ∀ k ∈ is1, k ∈ (m1.blocks b).instrList := by
    intro k hk
    rw [hlist1]
    exact List.mem_append_left _ hk
  have hpres := h.present_operand hbf hx hw (by
    rintro j rfl
    exact (hval _ (hcons ▸ hw)).kind.1)
  have hdef := h.definedBefore_final hbf hinit his hpres (h.before_operand hb hlist1 hx hw)
  apply h.computed_final _ hpres hdef
  by_cases hsub : r.sub w = w
  · rw [hsub]
    exact h.produces_operand hvoid hbf hx (hcons ▸ hw) (hval _ (hcons ▸ hw))
  · obtain ⟨j, c, is', js', u, -, hc, -, hlist', -, hu⟩ := h.sub_mem_vals hbf hx hw hsub
    exact h.produces_vals hvoid hc hlist' hu

theorem copy_computed (hvoid : NoVoidOperand m) (hb : b ∈ (m.functions f).basicBlocks)
    (hx : x ∈ succPhis m' b) (hv : operandFor m' x b = some v) :
    Computed m' f entry b (m'.blocks b).instrList v := by
  obtain ⟨t, hbt, hxt⟩ := mem_succPhis.mp hx
  obtain ⟨hxt, hphi⟩ := mem_phis.mp hxt
  rw [h.between.succ] at hbt
  have htf := h.cfg.closed b hb t hbt
  have hp : x ∈ phis t := by
    rcases h.mem_final_cases htf hxt with hx | hx
    · exact hx.1
    · exact absurd hphi hx.2
  have hpair : (v, b) ∈ r.incoming x := by
    rw [operandFor, h.operands_phi htf hp] at hv
    exact mem_of_operandFor hv
  obtain ⟨hbr, -, hu⟩ := h.incoming_pair htf hp hpair
  obtain ⟨keys, -, hw⟩ := h.promoted.walked
  obtain ⟨-, -, -, -, u, -, hval⟩ := hw.incoming x _ hpair
  have hk := h.produces_vals hvoid hbr (List.append_nil _).symm (List.mem_of_mem_head? hval)
  apply h.computed_final hk hu.present
  exact h.definedBefore_final hb (fun _ hk => hk) (fun _ _ hk => hk) hu.present hu.before

theorem regular (hvoid : NoVoidOperand m) (hpre : ∀ b < m.numBlocks, (m.blocks b).preBbs.length ≤ 2)
    (hreach : ∀ b ∈ (m.functions f).basicBlocks, Graph.Reaches (Succ m) entry b) :
    Regular m' f entry := by
  have hblocks : (m'.functions f).basicBlocks = (m.functions f).basicBlocks := by
    rw [h.between.functions]
  have hpres : ∀ b, (m'.blocks b).preBbs = (m.blocks b).preBbs := by
    intro b
    rw [h.between.blocks b]
  constructor
  · rw [hblocks]
    constructor
    · exact h.head
    · rw [h.between.succ]
      exact h.cfg.closed
    · intro b hb a
      rw [hpres, h.between.succ]
      exact h.cfg.pre b hb a
    · rw [hpres]
      exact h.cfg.entry_pre
  · rw [hblocks]
    exact h.inv.block_nodup f h.lt
  · rw [hblocks, h.between.succ]
    exact hreach
  · intro b hb
    rw [hpres]
    rw [hblocks] at hb
    exact hpre b (h.mem_blocks.mp hb).1
  · rw [List.eq_nil_iff_forall_not_mem]
    intro x hx
    obtain ⟨hx, hphi⟩ := mem_phis.mp hx
    have hp : x ∈ phis entry := by
      rcases h.mem_final_cases h.cfg.entry_mem hx with hx | hx
      · exact hx.1
      · exact absurd hphi hx.2
    obtain ⟨u, -, -, hph⟩ := h.laid.phiVar_phi hp
    -- The entry has no predecessor, so it is in no frontier.
    have hfr : ∃ a ∈ (m.functions f).basicBlocks, entry ∈ d.domFrontier (some a) := by
      cases hph with
      | base ha hf => exact ⟨_, ha.1, hf⟩
      | step ha hf => exact ⟨_, phis_mem h.analysed ha, hf⟩
    obtain ⟨a, ha, hf⟩ := hfr
    have hlen := ((h.analysed.frontier a ha entry).mp hf).2.1
    rw [h.cfg.entry_pre] at hlen
    cases hlen
  · intro b hb is x js hlist hphi v hv
    rw [hblocks] at hb
    exact h.operand_computed hvoid (hreach b hb) hlist hphi hv
  · intro b hb x hx v hv
    rw [hblocks] at hb
    exact h.copy_computed hvoid hb hx hv

end Described

end Mem2Reg

namespace Gvn

open Dominators Mem2Reg

variable {ctx : Context} {m : Module} {addr : Value → Nat} {f fuel : Nat}

/-- No call of the value numbering of `f` meets an unknown operand if every block of `f` is
reached from earlier blocks or gets all it needs from its last predecessor. -/
theorem eachOfRun_safeCall {program : ASTProgram} (h : buildModule program = some m)
    (haddr : Function.Injective addr) (hrun : run m addr fuel = .ok ctx.module)
    (hvoid : NoVoidOperand m) (hf : f < m.numFunctions)
    (hcov : ∀ entry, (ctx.module.functions f).basicBlocks.head? = some entry →
      ∀ b ∈ (ctx.module.functions f).basicBlocks, Graph.Reaches (Succ ctx.module) entry b ∧
        (b ≠ entry → Covered ctx.module f entry b))
    (addr' : Value → Nat) (nextOther fuel' : Nat) :
    EachOfRun ctx addr' (SafeCall ctx) f nextOther fuel' := by
  obtain ⟨σ, s, hs, rfl⟩ := CminusfBuilder.buildModule_topLevel h
  obtain ⟨hbet, d, n, hdesc⟩ := describe hs.inv haddr hrun
  apply eachOfRun_of_covered
  · intro entry hh
    have hreach : ∀ b ∈ (s.module.functions f).basicBlocks,
        Graph.Reaches (Succ s.module) entry b := by
      intro b hb
      rw [← hbet.functions] at hb
      have hr := (hcov entry hh b hb).1
      rwa [hbet.succ] at hr
    rw [hbet.functions] at hh
    obtain ⟨m1, phis, r, hd⟩ := hdesc f hf entry hh
    exact hd.regular hvoid hs.pre hreach
  · exact fun entry hh b hb => (hcov entry hh b hb).2

/-- Whether every block has a predecessor among the ones before it. -/
def followsOrder (m : Module) : List Nat → List Nat → Bool
  | _, [] => true
  | done, b :: bs => (m.blocks b).preBbs.any (· ∈ done) && followsOrder m (done ++ [b]) bs

theorem inOrder_of_followsOrder {entry : Nat} {done bs : List Nat}
    (hl : (m.functions f).basicBlocks = done ++ bs) (hdone : ∀ b ∈ done, InOrder m f entry b)
    (h : followsOrder m done bs) : ∀ b ∈ done ++ bs, InOrder m f entry b := by
  induction bs generalizing done with
  | nil => simpa using hdone
  | cons b bs ih =>
    simp only [followsOrder, Bool.and_eq_true, List.any_eq_true, decide_eq_true_eq] at h
    obtain ⟨⟨q, hq, hqd⟩, h⟩ := h
    have hb : InOrder m f entry b := .step (hdone q hqd) hq ⟨done, bs, hl, hqd⟩
    have hdone' : ∀ c ∈ done ++ [b], InOrder m f entry c := by
      intro c hc
      rcases List.mem_append.mp hc with hc | hc
      · exact hdone c hc
      · rwa [List.mem_singleton.mp hc]
    have hrest := ih (by rw [hl]; simp) hdone' h
    simpa using hrest

theorem reaches_of_followsOrder {entry : Nat} {done bs : List Nat}
    (hpre : ∀ b ∈ bs, ∀ q ∈ (m.blocks b).preBbs, b ∈ (m.blocks q).succBbs)
    (hdone : ∀ b ∈ done, Graph.Reaches (Succ m) entry b) (h : followsOrder m done bs) :
    ∀ b ∈ done ++ bs, Graph.Reaches (Succ m) entry b := by
  induction bs generalizing done with
  | nil => simpa using hdone
  | cons b bs ih =>
    simp only [followsOrder, Bool.and_eq_true, List.any_eq_true, decide_eq_true_eq] at h
    obtain ⟨⟨q, hq, hqd⟩, h⟩ := h
    have hb : Graph.Reaches (Succ m) entry b :=
      (hdone q hqd).tail (hpre b List.mem_cons_self q hq)
    have hdone' : ∀ c ∈ done ++ [b], Graph.Reaches (Succ m) entry c := by
      intro c hc
      rcases List.mem_append.mp hc with hc | hc
      · exact hdone c hc
      · rwa [List.mem_singleton.mp hc]
    have hrest := ih (fun c hc => hpre c (List.mem_cons_of_mem b hc)) hdone' h
    simpa using hrest

/-- `HasResult`, computed. -/
def hasResult (m : Module) (x : Nat) : Bool :=
  match (m.instrs x).opId, (m.instrs x).operands[0]? with
  | .br, _ | .ret, _ | .store, _ => false
  | .call, some (Value.function f) => !(m.functions f).returnType.isVoid
  | _, _ => true

theorem hasResult_of_hasResult {x : Nat} (h : hasResult m x) : HasResult m x := by
  unfold hasResult at h
  unfold HasResult
  generalize (m.instrs x).opId = opId at h
  cases opId
  case call =>
    intro g hg
    rw [hg] at h
    simpa using h
  all_goals trivial

def noVoidOperand (m : Module) : Bool :=
  (List.range m.numInstrs).all fun i => (consumed m i).all fun
    | .instruction j => hasResult m j
    | _ => true

theorem noVoidOperand_of_noVoidOperand (h : noVoidOperand m) : NoVoidOperand m := by
  intro i hi j hj
  simp only [noVoidOperand, List.all_eq_true, List.mem_range] at h
  exact hasResult_of_hasResult (h i hi _ hj)

/-- `int main(void) { int x; if (input()) x = 1; else x = 2; return x + 1; }`. -/
def choiceProgram : ASTProgram :=
  let var (id : String) : ASTFactor := .var (.scalar id)
  let assign (id : String) (n : BitVec 32) : ASTStatement :=
    .expressionStmt (some (.assign (.scalar id) (Dominators.literal n)))
  ⟨[.fun ⟨.int, "main", [], [⟨.int, "x", none⟩],
    [.selectionElse (.simple (.ofTerm (.ofFactor (.call "input" [])))) (assign "x" 1) (assign "x" 2),
    .return (some (.simple (.additive (.ofTerm (.ofFactor (var "x"))) .plus
      (.ofFactor (.num (.int 1))))))]⟩]⟩

theorem eachOfRun_choiceProgram : ∃ m, buildModule choiceProgram = some m ∧
    ∃ m', run m Value.code 20 = .ok m' ∧
      EachOfRun ⟨m', noFloats, fun _ => false, 0, 0⟩ Value.code
        (SafeCall ⟨m', noFloats, fun _ => false, 0, 0⟩) 4 1 20 := by
  obtain ⟨m, hm, h⟩ := exists_buildModule choiceProgram
    (fun m => noVoidOperand m && decide (4 < m.numFunctions) &&
      (run m Value.code 20).toOption.any fun m' =>
        decide ((m'.functions 4).basicBlocks = [0, 1, 2, 3] ∧ followsOrder m' [0] [1, 2, 3] ∧
          ∀ b ∈ [1, 2, 3], ∀ q ∈ (m'.blocks b).preBbs, b ∈ (m'.blocks q).succBbs))
    (by decide +kernel)
  simp only [Bool.and_eq_true, decide_eq_true_eq] at h
  obtain ⟨⟨hvoid, hlt⟩, h⟩ := h
  cases hrun : run m Value.code 20 with
  | error fault =>
    rw [hrun] at h
    cases h
  | ok m' =>
    rw [hrun] at h
    obtain ⟨hl, hord, hpre⟩ := of_decide_eq_true h
    refine ⟨m, hm, m', hrun, eachOfRun_safeCall hm
      Value.code_injective hrun (noVoidOperand_of_noVoidOperand hvoid) hlt ?_ Value.code 1 20⟩
    intro entry hh b hb
    change (m'.functions 4).basicBlocks.head? = some entry at hh
    change b ∈ (m'.functions 4).basicBlocks at hb
    rw [hl] at hh hb
    cases hh
    have hin := inOrder_of_followsOrder hl
      (by simp [InOrder.entry] : ∀ b ∈ [0], InOrder m' 4 0 b) hord
    have hreach := reaches_of_followsOrder hpre
      (by simp [Graph.Reaches, Relation.ReflTransGen.refl] : ∀ b ∈ [0], Graph.Reaches _ 0 b) hord
    exact ⟨hreach b hb, fun _ => .inl (hin b hb)⟩

theorem EachPass.visit {P : GVN → Partition → Nat → Nat → Prop} {before rest : List Nat} {bb : Nat}
    {c : Bool} {g : GVN} {s : Bool × GVN} (h : EachPass ctx addr P (before ++ bb :: rest) g)
    (hs : pass ctx addr before (c, g) = .ok s) : EachVisit ctx addr P bb s.2 := by
  induction before generalizing c g with
  | nil =>
    cases hs
    exact h.1
  | cons b before ih =>
    obtain ⟨s1, h1, hs⟩ := Exec.bind_eq_ok.mp hs
    exact ih (h.2 s1 h1) hs

/-- Whether the first instruction of `bb` has an unknown operand in the first pass, when
`before` are the blocks visited before `bb`. -/
def meetsUnknown (ctx : Context) (addr : Value → Nat) (f : Nat) (before : List Nat) (bb : Nat) :
    Option Bool := do
  let entry ← (ctx.module.functions f).basicBlocks.head?
  let g ← (initial ctx f entry 1).toOption
  let s ← (pass ctx addr before (false, g)).toOption
  let x ← (body ctx.module bb).head?
  return (looksUp ctx.module x bb).any fun v =>
    !v.isConstant && getVE ((enterBlock addr ctx.module bb s.2).pin bb) v = .null

theorem not_eachOfRun_of_meetsUnknown {entry bb : Nat} {before rest : List Nat}
    (hl : (ctx.module.functions f).basicBlocks = entry :: (before ++ bb :: rest))
    (hnd : (ctx.module.functions f).basicBlocks.Nodup)
    (h : meetsUnknown ctx addr f before bb = some true) :
    ¬ EachOfRun ctx addr (fun _ pin x bb => Known ctx pin x bb) f 1 (fuel + 1) := by
  intro hall
  obtain ⟨-, -, hiter⟩ := hall entry _ hl
  unfold meetsUnknown at h
  obtain ⟨entry', hhead, h1⟩ := Option.bind_eq_some_iff.mp h
  rw [hl] at hhead
  obtain rfl := Option.some.inj hhead
  obtain ⟨g, hg, h2⟩ := Option.bind_eq_some_iff.mp h1
  obtain ⟨s, hs, h3⟩ := Option.bind_eq_some_iff.mp h2
  obtain ⟨x, hx, h4⟩ := Option.bind_eq_some_iff.mp h3
  have hfilter : (before ++ bb :: rest).filter (· ≠ entry) = before ++ bb :: rest := by
    rw [List.filter_eq_self]
    intro c hc
    rw [hl, List.nodup_cons] at hnd
    have hne : c ≠ entry := fun he => hnd.1 (he ▸ hc)
    simpa using hne
  have hpass := (hiter g (Exec.ok_of_toOption hg)).1
  rw [hfilter] at hpass
  have hvisit := (hpass.visit (Exec.ok_of_toOption hs)).1
  obtain ⟨xs, hxs⟩ := List.head?_eq_some_iff.mp hx
  rw [hxs] at hvisit
  simp only [Option.pure_def, Option.some.injEq, List.any_eq_true, Bool.and_eq_true,
    Bool.not_eq_true', decide_eq_true_eq] at h4
  obtain ⟨v, hv, hconst, hnull⟩ := h4
  rcases hvisit.1 v hv with hc | hne
  · simp [hconst] at hc
  · exact hne hnull

/-- `int main(void) { int x; x = input(); if (x) { if (x) ; } else { if (x) ; } return x + 1; }`. -/
def lateProgram : ASTProgram :=
  let x : ASTTerm := .ofFactor (.var (.scalar "x"))
  let cond : ASTExpression := .simple (.ofTerm x)
  ⟨[.fun ⟨.int, "main", [], [⟨.int, "x", none⟩],
    [.expressionStmt (some (.assign (.scalar "x")
      (.simple (.ofTerm (.ofFactor (.call "input" [])))))),
    .selectionElse cond (.selection cond (.expressionStmt none))
      (.selection cond (.expressionStmt none)),
    .return (some (.simple (.additive (.ofTerm x) .plus (.ofFactor (.num (.int 1))))))]⟩]⟩

/-- All blocks of `main` are reachable, and the block after the outer `if` is visited while
nothing is known at the ends of its predecessors. -/
theorem not_eachOfRun_lateProgram : ∃ m, buildModule lateProgram = some m ∧
    ∃ m', run m Value.code 40 = .ok m' ∧
      (∀ b ∈ (m'.functions 4).basicBlocks, Graph.Reaches (Succ m') 0 b) ∧
      ¬ EachOfRun ⟨m', noFloats, fun _ => false, 0, 0⟩ Value.code
        (fun _ pin x bb => Known ⟨m', noFloats, fun _ => false, 0, 0⟩ pin x bb) 4 1 1 := by
  obtain ⟨m, hm, h⟩ := exists_buildModule lateProgram
    (fun m => (run m Value.code 40).toOption.any fun m' =>
      decide ((m'.functions 4).basicBlocks = [0, 1, 2, 3, 4, 5, 6, 7] ∧
        followsOrder m' [0] [1, 3, 4, 5, 6, 7, 2] ∧
        (∀ b ∈ [1, 3, 4, 5, 6, 7, 2], ∀ q ∈ (m'.blocks b).preBbs, b ∈ (m'.blocks q).succBbs) ∧
        meetsUnknown ⟨m', noFloats, fun _ => false, 0, 0⟩ Value.code 4 [1] 2 = some true))
    (by decide +kernel)
  cases hrun : run m Value.code 40 with
  | error fault =>
    rw [hrun] at h
    cases h
  | ok m' =>
    rw [hrun] at h
    obtain ⟨hl, hord, hpre, hunknown⟩ := of_decide_eq_true h
    refine ⟨m, hm, m', hrun, fun b hb => ?_, ?_⟩
    · have hreach := reaches_of_followsOrder hpre
        (by simp [Graph.Reaches, Relation.ReflTransGen.refl] : ∀ b ∈ [0], Graph.Reaches _ 0 b) hord
      have hsub : ∀ b ∈ [0, 1, 2, 3, 4, 5, 6, 7], b ∈ [0] ++ [1, 3, 4, 5, 6, 7, 2] := by decide
      rw [hl] at hb
      exact hreach b (hsub b hb)
    · have hnd : (m'.functions 4).basicBlocks.Nodup := by
        rw [hl]
        decide
      exact not_eachOfRun_of_meetsUnknown hl hnd hunknown

end Gvn

end Cminusf
