import Cminusf.Optimization.Transfer

/-! When the value numbering of a function meets no operand without a value expression. -/

namespace Cminusf

namespace Gvn

open Dominators

variable {ctx : Context} {g g' : GVN} {addr : Value → Nat} {a b bb f entry n next x j q : Nat}
  {p pin pout : Partition} {v w : Value} {s s' : Partition × GVN} {xs : List Nat}

/-- `P` holds of the calls of `valueExpr` that the transfer of instructions makes. -/
def EachCall (ctx : Context) (P : GVN → Partition → Nat → Nat → Prop) (bb : Nat) :
    List Nat → Partition × GVN → Prop
  | [], _ => True
  | x :: xs, s => P s.2 s.1 x bb ∧
      ∀ s', transferFunction ctx s.2 x s.1 bb = .ok s' → EachCall ctx P bb xs s'

/-- The calls of a visit to a block. -/
def EachVisit (ctx : Context) (addr : Value → Nat) (P : GVN → Partition → Nat → Nat → Prop)
    (bb : Nat) (g : GVN) : Prop :=
  let g := enterBlock addr ctx.module bb g
  EachCall ctx P bb (body ctx.module bb) (g.pin bb, g) ∧
    ∀ s, transferAll ctx bb (body ctx.module bb) (g.pin bb, g) = .ok s →
      EachCall ctx P bb (succPhis ctx.module bb) s

/-- The calls of a pass over the blocks. -/
def EachPass (ctx : Context) (addr : Value → Nat) (P : GVN → Partition → Nat → Nat → Prop) :
    List Nat → GVN → Prop
  | [], _ => True
  | bb :: blocks, g => EachVisit ctx addr P bb g ∧
      ∀ s, visitBlock ctx addr g bb = .ok s → EachPass ctx addr P blocks s.2

/-- The calls of the do-while loop. -/
def EachIteration (ctx : Context) (addr : Value → Nat) (P : GVN → Partition → Nat → Nat → Prop)
    (blocks : List Nat) : Nat → Bool × GVN → Prop
  | 0, _ => True
  | fuel + 1, s => EachPass ctx addr P blocks s.2 ∧
      ∀ s', pass ctx addr blocks s = .ok s' → s'.1 → EachIteration ctx addr P blocks fuel s'

/-- `P` holds of the calls of `valueExpr` that `detectEquivalences` makes on `f`. -/
def EachOfRun (ctx : Context) (addr : Value → Nat) (P : GVN → Partition → Nat → Nat → Prop)
    (f nextOther fuel : Nat) : Prop :=
  let m := ctx.module
  ∀ entry blocks, (m.functions f).basicBlocks = entry :: blocks →
    let g : GVN := ⟨nextOther, 1, ctx.made, fun _ => [],
      fun b => if b ∈ (m.functions f).basicBlocks then [top] else []⟩
    let s := initialArgs m f (initialGv m ([], g))
    EachCall ctx P entry (m.blocks entry).instrList s ∧
      (∀ s', transferAll ctx entry (m.blocks entry).instrList s = .ok s' →
        EachCall ctx P entry (succPhis m entry) s') ∧
      ∀ g, initial ctx f entry nextOther = .ok g →
        EachIteration ctx addr P (blocks.filter (· ≠ entry)) fuel (false, g)

/-- A call of `valueExpr` that meets no unknown operand: no constant that it makes or computes
with is null, and no comparison of expressions meets a null part. -/
structure SafeCall (ctx : Context) (g : GVN) (pin : Partition) (x bb : Nat) : Prop where
  known : Known ctx pin x bb
  full : ∀ c ∈ pin, c.Full
  pouts : ∀ b, ∀ c ∈ g.pout b, c.Full
  result : ∀ ve k, valueExpr (ctx.forCall g.nextCall) g.nextOther x pin bb = .ok (ve, k) →
    ve = .null ∨ ve.Full

/-- A value that is there after the instructions `is` of block `b`. -/
def Computed (m : Module) (f entry b : Nat) (is : List Nat) (v : Value) : Prop :=
  v.isConstant ∨ (∃ k < (m.functions f).paramTypes.length, v = .argument f k) ∨
    ∃ j, v = .instruction j ∧ HasResult m j ∧
      (j ∈ is ∨ ∃ a, Graph.StrictlyDominates (Succ m) entry a b ∧ j ∈ (m.blocks a).instrList)

/-- What the value numbering relies on in a function. -/
structure Regular (m : Module) (f entry : Nat) : Prop where
  cfg : FunctionCfg m (m.functions f).basicBlocks entry
  nodup : (m.functions f).basicBlocks.Nodup
  reach : ∀ b ∈ (m.functions f).basicBlocks, Graph.Reaches (Succ m) entry b
  pre_length : ∀ b ∈ (m.functions f).basicBlocks, (m.blocks b).preBbs.length ≤ 2
  entry_phis : phis m entry = []
  operand : ∀ b ∈ (m.functions f).basicBlocks, ∀ is x js, (m.blocks b).instrList = is ++ x :: js →
    ¬ (m.instrs x).isPhi → ∀ v ∈ looksUp m x b, Computed m f entry b is v
  phiOperand : ∀ b ∈ (m.functions f).basicBlocks, ∀ x ∈ succPhis m b, ∀ v,
    operandFor m x b = some v → Computed m f entry b (m.blocks b).instrList v

/-- The block `q` is visited before `b`. -/
def Before (m : Module) (f q b : Nat) : Prop :=
  ∃ l₁ l₂, (m.functions f).basicBlocks = l₁ ++ b :: l₂ ∧ q ∈ l₁

/-- A block that is reached from the entry through blocks each of which is visited before
the next one. -/
inductive InOrder (m : Module) (f entry : Nat) : Nat → Prop where
  | entry : InOrder m f entry entry
  | step {q b : Nat} : InOrder m f entry q → q ∈ (m.blocks b).preBbs → Before m f q b →
      InOrder m f entry b

/-- A value that the block, or the last predecessor visited before it, gives a class even
while nothing of the other predecessors is known. -/
inductive Held (m : Module) (f : Nat) : Nat → Value → Prop where
  | own {b j : Nat} : j ∈ body m b → HasResult m j → Held m f b (.instruction j)
  | copy {b j : Nat} : j ∈ succPhis m b → Held m f b (.instruction j)
  | last {q b : Nat} {v : Value} : (m.blocks b).preBbs.getLast? = some q → Before m f q b →
      Held m f q v → Held m f b v

/-- A value that the last predecessor passes on. -/
def HeldIn (m : Module) (f b : Nat) (v : Value) : Prop :=
  ∃ q, (m.blocks b).preBbs.getLast? = some q ∧ Before m f q b ∧ Held m f q v

/-- All operands of the block are constants, computed in the block, or passed on by its last
predecessor. -/
structure SelfContained (m : Module) (f b : Nat) : Prop where
  operand : ∀ is x js, body m b = is ++ x :: js → ∀ v ∈ looksUp m x b,
    v.isConstant ∨ HeldIn m f b v ∨ ∃ j ∈ is, v = .instruction j
  phiOperand : ∀ x ∈ succPhis m b, ∀ v, operandFor m x b = some v →
    v.isConstant ∨ HeldIn m f b v ∨ ∃ j ∈ body m b, v = .instruction j

section

/-- What the transfer of known instructions keeps, and the results that get a class. -/
theorem transferAll_spec (ctx : Context) (bb : Nat) (xs : List Nat) (s : Partition × GVN)
    {K : Value → Prop} (hp : Tidy s.1 s.2.nextValue) (hpos : 0 < s.2.nextValue)
    (hpouts : ∀ b, ∀ c ∈ s.2.pout b, c.Full) (hK : ∀ v, K v → Member s.1 v)
    (hres : ∀ j, K (.instruction j) → j ∈ xs → HasResult ctx.module j)
    (hk : ∀ is x js, xs = is ++ x :: js → ∀ p, (∀ c ∈ p, c.Full) → (∀ v, K v → Member p v) →
      (∀ j ∈ is, HasResult ctx.module j → Member p (.instruction j)) → Known ctx p x bb) :
    EachCall ctx (SafeCall ctx) bb xs s ∧ ∀ s', transferAll ctx bb xs s = .ok s' →
      Tidy s'.1 s'.2.nextValue ∧ s.2.nextValue ≤ s'.2.nextValue ∧ s'.2.pin = s.2.pin ∧
      s'.2.pout = s.2.pout ∧ (∀ v, K v → Member s'.1 v) ∧
      (∀ j ∈ xs, HasResult ctx.module j → Member s'.1 (.instruction j)) ∧
      (Informed s'.1 ↔ Informed s.1) := by
  induction xs generalizing K s with
  | nil =>
    refine ⟨trivial, fun s' h => ?_⟩
    cases h
    exact ⟨hp, le_rfl, rfl, rfl, hK, by simp, Iff.rfl⟩
  | cons x xs ih =>
    have hx := hk [] x xs rfl s.1 hp.full hK (by simp)
    -- After `x` its result is known too.
    have hstep : ∀ s1, transferFunction ctx s.2 x s.1 bb = .ok s1 → _ := fun s1 h1 => by
      obtain ⟨h2, h3, h4, h5, h6, h7, h8⟩ := transferFunction_spec hp hpos hx h1
      have hkeep : ∀ v, (K v ∨ v = .instruction x ∧ HasResult ctx.module x) → Member s1.1 v := by
        rintro v (hv | ⟨rfl, hr⟩)
        · by_cases hvx : v = .instruction x
          · subst hvx
            exact h7 (hres x hv List.mem_cons_self)
          · exact h6 v hvx (hK v hv)
        · exact h7 hr
      have hrest := ih s1 (K := fun v => K v ∨ v = .instruction x ∧ HasResult ctx.module x) h2
        (hpos.trans_le h3) (by rw [h5]; exact hpouts) hkeep
        (by
          rintro j (hj | ⟨hj, hr⟩) hmem
          · exact hres j hj (List.mem_cons_of_mem x hmem)
          · cases hj
            exact hr)
        (by
          intro is y js hxs p hfull hKp his
          apply hk (x :: is) y js (by rw [hxs]; rfl) p hfull fun v hv => hKp v (.inl hv)
          intro j hj hr
          rcases List.mem_cons.mp hj with rfl | hj
          · exact hKp _ (.inr ⟨rfl, hr⟩)
          · exact his j hj hr)
      exact And.intro (And.intro h3 (And.intro h4 (And.intro h5 h8))) hrest
    have hx' : Known (ctx.forCall s.2.nextCall) s.1 x bb := hx
    refine ⟨⟨⟨hx, hp.full, hpouts, fun ve k hve => (valueExpr_full hp.full hx' hve).1⟩,
      fun s1 h1 => (hstep s1 h1).2.1⟩, fun s' h => ?_⟩
    obtain ⟨s1, h1, h⟩ := Exec.bind_eq_ok.mp h
    obtain ⟨⟨h3, h4, h5, h8⟩, -, hrest⟩ := hstep s1 h1
    obtain ⟨ha, hb, hc, hd, he, hf, hg⟩ := hrest s' h
    refine ⟨ha, h3.trans hb, hc.trans h4, hd.trans h5, fun v hv => he v (.inl hv), fun j hj hr => ?_,
      hg.trans h8⟩
    rcases List.mem_cons.mp hj with rfl | hj
    · exact he _ (.inr ⟨rfl, hr⟩)
    · exact hf j hj hr

/-- The values with a class when a block is entered whose predecessors are known. -/
def AvailIn (m : Module) (f entry b : Nat) (v : Value) : Prop :=
  (∃ k < (m.functions f).paramTypes.length, v = .argument f k) ∨
    ∃ j, v = .instruction j ∧ HasResult m j ∧ (j ∈ phis m b ∨
      ∃ a, Graph.StrictlyDominates (Succ m) entry a b ∧ j ∈ (m.blocks a).instrList)

/-- The values with a class at the end of such a block. -/
def AvailOut (m : Module) (f entry b : Nat) (v : Value) : Prop :=
  (∃ k < (m.functions f).paramTypes.length, v = .argument f k) ∨
    ∃ j, v = .instruction j ∧ HasResult m j ∧ (j ∈ succPhis m b ∨
      ∃ a, Graph.Dominates (Succ m) entry a b ∧ j ∈ (m.blocks a).instrList)

variable {m : Module}

theorem mem_phis : x ∈ phis m b ↔ x ∈ (m.blocks b).instrList ∧ (m.instrs x).isPhi := by
  simp [phis]

theorem mem_body : x ∈ body m b ↔ x ∈ (m.blocks b).instrList ∧ ¬ (m.instrs x).isPhi := by
  simp [body]

theorem hasResult_of_isPhi (h : (m.instrs x).isPhi) : HasResult m x := by
  unfold HasResult
  unfold Instruction.isPhi at h
  split at h
  · rename_i ho
    rw [ho]
    trivial
  · cases h

theorem AvailIn.out (hsucc : Succ m q b)
    (h : AvailIn m f entry b v) : AvailOut m f entry q v := by
  rcases h with h | ⟨j, rfl, hr, hj | ⟨a, ha, hj⟩⟩
  · exact .inl h
  · exact .inr ⟨j, rfl, hr, .inl (List.mem_flatMap.mpr ⟨b, hsucc, hj⟩)⟩
  · exact .inr ⟨j, rfl, hr, .inr ⟨a, ha.dominates_pred hsucc, hj⟩⟩

/-- The invariant of the iteration, when the blocks of `V` have been visited. -/
structure Stable (m : Module) (f entry : Nat) (V : Nat → Prop) (g : GVN) : Prop where
  pos : 0 < g.nextValue
  tidy : ∀ b, Tidy (g.pout b) g.nextValue
  fresh : ∀ b ∈ (m.functions f).basicBlocks, ¬ V b → g.pout b = [top]
  avail : ∀ b, V b → Informed (g.pout b) → ∀ v, AvailOut m f entry b v → Member (g.pout b) v
  ordered : ∀ b, V b → InOrder m f entry b → Informed (g.pout b)
  held : ∀ b, V b → ¬ Informed (g.pout b) → ∀ v, Held m f b v → Member (g.pout b) v

theorem not_informed_top : ¬ Informed [top] := by simp [Informed, top]

theorem Stable.visited {V : Nat → Prop} (h : Stable m f entry V g)
    (hb : b ∈ (m.functions f).basicBlocks) (hi : Informed (g.pout b)) : V b := by
  by_contra hV
  rw [h.fresh b hb hV] at hi
  exact not_informed_top hi

/-- The partition with which a block is entered. -/
structure Entered (m : Module) (f entry b : Nat) (g g' : GVN) : Prop where
  next : g.nextValue ≤ g'.nextValue
  pout : g'.pout = g.pout
  tidy : Tidy (g'.pin b) g'.nextValue
  avail : Informed (g'.pin b) → ∀ v, AvailIn m f entry b v → Member (g'.pin b) v
  ordered : InOrder m f entry b → Informed (g'.pin b)
  held : ¬ Informed (g'.pin b) → ∀ v, HeldIn m f b v → Member (g'.pin b) v

theorem enterBlock_spec (addr : Value → Nat) {V : Nat → Prop} (hr : Regular m f entry) (h : Stable m f entry V g)
    (hb : b ∈ (m.functions f).basicBlocks) (hne : b ≠ entry)
    (hV : ∀ q, Before m f q b → V q) : Entered m f entry b g (enterBlock addr m b g) := by
  have hpre : ∀ q ∈ (m.blocks b).preBbs, q ∈ (m.functions f).basicBlocks ∧ Succ m q b :=
    fun q hq => (hr.cfg.pre b hb q).mp hq
  -- Facts about one predecessor.
  have hav : ∀ q ∈ (m.blocks b).preBbs, Informed (g.pout q) → ∀ v, AvailIn m f entry b v →
      Member (g.pout q) v := by
    intro q hq hi v hv
    obtain ⟨hqf, hqs⟩ := hpre q hq
    exact h.avail q (h.visited hqf hi) hi v (hv.out hqs)
  have hord : InOrder m f entry b → ∃ q ∈ (m.blocks b).preBbs, Informed (g.pout q) := by
    intro ho
    cases ho with
    | entry => exact absurd rfl hne
    | step hq hmem hbef => exact ⟨_, hmem, h.ordered _ (hV _ hbef) hq⟩
  have hheld : ∀ q, (m.blocks b).preBbs.getLast? = some q → ¬ Informed (g.pout q) → ∀ v,
      HeldIn m f b v → Member (g.pout q) v := by
    rintro q hq hi v ⟨q', hq', hbef, hv⟩
    obtain rfl : q = q' := Option.some.inj (hq.symm.trans hq')
    exact h.held q (hV q hbef) hi v hv
  have hlen := hr.pre_length b hb
  unfold enterBlock
  rcases hl : (m.blocks b).preBbs with - | ⟨q1, - | ⟨q2, - | ⟨q3, qs⟩⟩⟩
  · exfalso
    obtain ⟨q, hrq, hqb⟩ := (Relation.ReflTransGen.cases_tail (hr.reach b hb)).resolve_left hne
    have hqf := hr.cfg.reaches_mem hrq
    have hmem := (hr.cfg.pre b hb q).mpr ⟨hqf, hqb⟩
    rw [hl] at hmem
    cases hmem
  · rw [hl] at hav hord hheld
    refine ⟨le_rfl, rfl, ?_, ?_, ?_, ?_⟩ <;> simp only [List.foldl_nil, Function.update_self]
    · exact h.tidy q1
    · exact hav q1 List.mem_cons_self
    · intro ho
      obtain ⟨q, hq, hi⟩ := hord ho
      rwa [List.mem_singleton.mp hq] at hi
    · exact hheld q1 rfl
  · rw [hl] at hav hord hheld
    have h1 := h.tidy q1
    have h2 := h.tidy q2
    have hmem2 : q2 ∈ [q1, q2] := by simp
    by_cases hi1 : Informed (g.pout q1)
    · by_cases hi2 : Informed (g.pout q2)
      · obtain ⟨ha, hn, hi, hm⟩ := join_tidy addr h1 h2 h.pos hi1 hi2
        refine ⟨hn, rfl, ?_, ?_, ?_, ?_⟩ <;>
          simp only [List.foldl_cons, List.foldl_nil, Function.update_self]
        · exact ha
        · exact fun _ v hv => hm v (hav q1 List.mem_cons_self hi1 v hv) (hav q2 hmem2 hi2 v hv)
        · exact fun _ => hi
        · exact fun hno => absurd hi hno
      · have hj := join_of_not_informed_right addr g.nextValue h2.sorted hi1 hi2
        refine ⟨?_, rfl, ?_, ?_, ?_, ?_⟩ <;>
          simp only [List.foldl_cons, List.foldl_nil, Function.update_self, hj, le_refl]
        · exact h1
        · exact fun _ => hav q1 List.mem_cons_self hi1
        · exact fun _ => hi1
        · exact fun hno => absurd hi1 hno
    · have hj := join_of_not_informed_left addr g.nextValue (g.pout q2) h1.sorted hi1
      refine ⟨?_, rfl, ?_, ?_, ?_, ?_⟩ <;>
        simp only [List.foldl_cons, List.foldl_nil, Function.update_self, hj, le_refl]
      · exact h2
      · exact hav q2 hmem2
      · intro ho
        obtain ⟨q, hq, hi⟩ := hord ho
        rcases List.mem_cons.mp hq with rfl | hq
        · exact absurd hi hi1
        · rwa [List.mem_singleton.mp hq] at hi
      · exact hheld q2 rfl
  · rw [hl] at hlen
    simp only [List.length_cons] at hlen
    omega

theorem split_body {is js : List Nat} (h : body m b = is ++ x :: js) :
    ∃ is' js', (m.blocks b).instrList = is' ++ x :: js' ∧ ¬ (m.instrs x).isPhi ∧
      ∀ j ∈ is', j ∈ is ∨ (m.instrs j).isPhi := by
  have hx : x ∈ body m b := by rw [h]; simp
  unfold body at h
  obtain ⟨l, l', hl, hl1, hl2⟩ := List.filter_eq_append_iff.mp h
  obtain ⟨l3, l4, rfl, hno, -, -⟩ := List.filter_eq_cons_iff.mp hl2
  refine ⟨l ++ l3, l4, by rw [hl]; simp, (mem_body.mp hx).2, fun j hj => ?_⟩
  by_cases hp : (m.instrs j).isPhi
  · exact .inr hp
  · rcases List.mem_append.mp hj with hj | hj
    · rw [← hl1]
      exact .inl (List.mem_filter.mpr ⟨hj, by simpa using hp⟩)
    · exact absurd (by simpa using hp) (hno j hj)

theorem known_of_member (hp : ∀ c ∈ p, c.Full)
    (h : ∀ v ∈ looksUp ctx.module x b, v.isConstant ∨ Member p v) : Known ctx p x b :=
  fun v hv => (h v hv).imp_right fun hm => (Tidy.getVE hp hm).solid.ne_null

theorem looksUp_phi (hx : (m.instrs x).isPhi) : looksUp m x b = (operandFor m x b).toList := by
  unfold Instruction.isPhi at hx
  unfold looksUp
  split at hx
  · rename_i ho
    rw [ho]
  · cases hx

/-- The blocks in which no operand is unknown: those reached in the order of the visits, and
those that need nothing of the blocks that are visited later. -/
def Covered (m : Module) (f entry b : Nat) : Prop := InOrder m f entry b ∨ SelfContained m f b

theorem mem_succPhis : x ∈ succPhis m b ↔ ∃ t, Succ m b t ∧ x ∈ phis m t := by
  simp only [succPhis, List.mem_flatMap]
  rfl

theorem hasResult_of_mem_succPhis (hx : x ∈ succPhis m b) : HasResult m x := by
  obtain ⟨t, -, hxt⟩ := mem_succPhis.mp hx
  exact hasResult_of_isPhi (mem_phis.mp hxt).2

theorem AvailIn.hasResult (h : AvailIn m f entry b (.instruction j)) : HasResult m j := by
  rcases h with ⟨k, -, hk⟩ | ⟨j', hj', hres, -⟩
  · cases hk
  · cases hj'
    exact hres

theorem Computed.hasResult {is : List Nat} (h : Computed m f entry b is (.instruction j)) :
    HasResult m j := by
  rcases h with hc | ⟨k, -, hk⟩ | ⟨j', hj', hres, -⟩
  · cases hc
  · cases hk
  · cases hj'
    exact hres

theorem Held.hasResult (h : Held m f b v) : ∀ j, v = .instruction j → HasResult m j := by
  induction h with
  | own _ hj =>
    rintro j he
    cases he
    exact hj
  | copy hj =>
    rintro j' he
    cases he
    exact hasResult_of_mem_succPhis hj
  | last _ _ _ ih => exact ih

/-- What has a class when a block is entered with the partition `pin`. -/
def OnEntry (m : Module) (f entry b : Nat) (pin : Partition) (v : Value) : Prop :=
  (Informed pin → AvailIn m f entry b v) ∧
    (¬ Informed pin → HeldIn m f b v ∧ ∀ j, v = .instruction j → HasResult m j)

theorem onEntry_of_informed (h : Informed pin) :
    OnEntry m f entry b pin v ↔ AvailIn m f entry b v :=
  ⟨fun hv => hv.1 h, fun hv => ⟨fun _ => hv, fun hno => absurd h hno⟩⟩

theorem onEntry_of_not_informed (h : ¬ Informed pin) : OnEntry m f entry b pin v ↔
    HeldIn m f b v ∧ ∀ j, v = .instruction j → HasResult m j :=
  ⟨fun hv => hv.2 h, fun hv => ⟨fun hi => absurd hi h, fun _ => hv⟩⟩

theorem OnEntry.hasResult (h : OnEntry m f entry b pin (.instruction j)) : HasResult m j := by
  by_cases hi : Informed pin
  · exact (h.1 hi).hasResult
  · exact (h.2 hi).2 j rfl

/-- An operand that is computed before `is'` has a class where `is` has one. -/
theorem Computed.member {is is' : List Nat} (h : Computed m f entry b is' v)
    (hsub : ∀ j ∈ is', j ∈ is ∨ j ∈ phis m b)
    (hself : ¬ Informed pin → v.isConstant ∨ HeldIn m f b v ∨ ∃ j ∈ is, v = .instruction j)
    (hpin : ∀ v, OnEntry m f entry b pin v → Member p v)
    (his : ∀ j ∈ is, HasResult m j → Member p (.instruction j)) : v.isConstant ∨ Member p v := by
  by_cases hi : Informed pin
  · have havail : AvailIn m f entry b v → Member p v :=
      fun hv => hpin v ((onEntry_of_informed hi).mpr hv)
    rcases h with hc | harg | ⟨j, rfl, hres, hj | hdom⟩
    · exact .inl hc
    · exact .inr (havail (.inl harg))
    · rcases hsub j hj with hj | hj
      · exact .inr (his j hj hres)
      · exact .inr (havail (.inr ⟨j, rfl, hres, .inl hj⟩))
    · exact .inr (havail (.inr ⟨j, rfl, hres, .inr hdom⟩))
  · rcases hself hi with hc | hh | ⟨j, hj, rfl⟩
    · exact .inl hc
    · refine .inr (hpin v ((onEntry_of_not_informed hi).mpr ⟨hh, ?_⟩))
      rintro j rfl
      exact h.hasResult
    · exact .inr (his j hj h.hasResult)

/-- Before any block is visited. -/
theorem Stable.initial (hpos : 0 < g.nextValue)
    (hpout : g.pout = fun b => if b ∈ (m.functions f).basicBlocks then [top] else []) :
    Stable m f entry (fun _ => False) g := by
  refine ⟨hpos, fun b => ?_, fun b hb _ => ?_, fun b hno => hno.elim, fun b hno => hno.elim,
    fun b hno => hno.elim⟩
  · rw [hpout]
    dsimp only
    split
    · refine ⟨List.pairwise_singleton _ _, ?_, ?_⟩
      · intro c hc
        rwa [List.mem_singleton.mp hc]
      · intro c hc
        rw [List.mem_singleton.mp hc]
        exact top_full
    · exact ⟨List.Pairwise.nil, by simp, by simp⟩
  · rw [hpout]
    exact if_pos hb

/-- A block is left with a partition that has a class for what it must have. -/
theorem Stable.leave {V : Nat → Prop} {g' : GVN} (h : Stable m f entry V g)
    (hnext : g.nextValue ≤ g'.nextValue) (hpout : g'.pout = Function.update g.pout b p)
    (htidy : Tidy p g'.nextValue)
    (havail : Informed p → ∀ v, AvailOut m f entry b v → Member p v)
    (hord : InOrder m f entry b → Informed p)
    (hheld : ¬ Informed p → ∀ v, Held m f b v → Member p v) :
    Stable m f entry (fun c => V c ∨ c = b) g' := by
  have hself : g'.pout b = p := by rw [hpout, Function.update_self]
  have hother : ∀ c, c ≠ b → g'.pout c = g.pout c := by
    intro c hc
    rw [hpout, Function.update_of_ne hc]
  refine ⟨h.pos.trans_le hnext, fun c => ?_, fun c hc hV => ?_, fun c hV => ?_, fun c hV => ?_,
    fun c hV => ?_⟩
  · by_cases hcb : c = b
    · rwa [hcb, hself]
    · rw [hother c hcb]
      exact (h.tidy c).mono hnext
  · obtain ⟨hV, hcb⟩ := not_or.mp hV
    rw [hother c hcb]
    exact h.fresh c hc hV
  · by_cases hcb : c = b
    · rwa [hcb, hself]
    · rw [hother c hcb]
      exact h.avail c (hV.resolve_right hcb)
  · by_cases hcb : c = b
    · rwa [hcb, hself]
    · rw [hother c hcb]
      exact h.ordered c (hV.resolve_right hcb)
  · by_cases hcb : c = b
    · rwa [hcb, hself]
    · rw [hother c hcb]
      exact h.held c (hV.resolve_right hcb)

/-- The calls of a visit are safe, and the visit keeps the invariant. -/
theorem Stable.visit (addr : Value → Nat) {V : Nat → Prop} (hr : Regular ctx.module f entry)
    (h : Stable ctx.module f entry V g) (hb : b ∈ (ctx.module.functions f).basicBlocks)
    (hne : b ≠ entry) (hV : ∀ q, Before ctx.module f q b → V q)
    (hcov : Covered ctx.module f entry b) : EachVisit ctx addr (SafeCall ctx) b g ∧
      ∀ s, visitBlock ctx addr g b = .ok s →
        Stable ctx.module f entry (fun c => V c ∨ c = b) s.2 := by
  have he := enterBlock_spec addr hr h hb hne hV
  generalize hg1 : enterBlock addr ctx.module b g = g1 at he
  have hpos : 0 < g1.nextValue := h.pos.trans_le he.next
  have hfull : ∀ c, ∀ d ∈ g1.pout c, d.Full := by
    rw [he.pout]
    exact fun c => (h.tidy c).full
  let K := OnEntry ctx.module f entry b (g1.pin b)
  have hK : ∀ v, K v → Member (g1.pin b) v := by
    intro v hv
    by_cases hi : Informed (g1.pin b)
    · exact he.avail hi v (hv.1 hi)
    · exact he.held hi v (hv.2 hi).1
  have hself : ¬ Informed (g1.pin b) → SelfContained ctx.module f b :=
    fun hi => hcov.resolve_left fun ho => hi (he.ordered ho)
  obtain ⟨hcalls, hbody⟩ := transferAll_spec ctx b (body ctx.module b) (g1.pin b, g1)
    (K := K) he.tidy hpos hfull hK (fun j hj _ => hj.hasResult)
    (by
      intro is x js hxs p hpf hKp hisp
      apply known_of_member hpf
      intro v hv
      obtain ⟨is', js', hlist, hxp, hsub⟩ := split_body hxs
      refine (hr.operand b hb is' x js' hlist hxp v hv).member ?_
        (fun hi => (hself hi).operand is x js hxs v hv) hKp hisp
      intro j hj
      refine (hsub j hj).imp_right fun hp => mem_phis.mpr ⟨?_, hp⟩
      rw [hlist]
      exact List.mem_append_left _ hj)
  -- The copies for the phis of the successors.
  have hcopies : ∀ s1, transferAll ctx b (body ctx.module b) (g1.pin b, g1) = .ok s1 → _ :=
    fun s1 h1 => by
      obtain ⟨ha, hb1, hc, hd, hKs, hres, hinf⟩ := hbody s1 h1
      exact transferAll_spec ctx b (succPhis ctx.module b) s1
        (K := fun v => K v ∨ ∃ j ∈ body ctx.module b, v = .instruction j ∧ HasResult ctx.module j)
        ha (hpos.trans_le hb1) (by rw [hd]; exact hfull)
        (by
          rintro v (hv | ⟨j, hj, rfl, hjr⟩)
          · exact hKs v hv
          · exact hres j hj hjr)
        (fun j _ hj => hasResult_of_mem_succPhis hj)
        (by
          intro is x js hxs p hpf hKp _
          apply known_of_member hpf
          have hx : x ∈ succPhis ctx.module b := by rw [hxs]; simp
          obtain ⟨t, -, hxt⟩ := mem_succPhis.mp hx
          rw [looksUp_phi (mem_phis.mp hxt).2]
          intro v hv
          have hv' : operandFor ctx.module x b = some v := Option.mem_toList.mp hv
          refine (hr.phiOperand b hb x hx v hv').member ?_
            (fun hi => (hself hi).phiOperand x hx v hv') (fun v hv => hKp v (.inl hv))
            (fun j hj hjr => hKp _ (.inr ⟨j, hj, rfl, hjr⟩))
          intro j hj
          by_cases hp : (ctx.module.instrs j).isPhi
          · exact .inr (mem_phis.mpr ⟨hj, hp⟩)
          · exact .inl (mem_body.mpr ⟨hj, hp⟩))
  refine ⟨?_, fun s hs => ?_⟩
  · unfold EachVisit
    rw [hg1]
    exact ⟨hcalls, fun s1 h1 => (hcopies s1 h1).1⟩
  · unfold visitBlock at hs
    rw [hg1] at hs
    obtain ⟨s1, h1, hs⟩ := Exec.bind_eq_ok.mp hs
    obtain ⟨s2, h2, hs⟩ := Exec.bind_eq_ok.mp hs
    cases hs
    obtain ⟨ha, hb1, hc, hd, hKs, hres, hinf⟩ := hbody s1 h1
    obtain ⟨ha2, hb2, hc2, hd2, hKs2, hres2, hinf2⟩ := (hcopies s1 h1).2 s2 h2
    have hpi : Informed s2.1 ↔ Informed (g1.pin b) := hinf2.trans hinf
    refine h.leave (p := s2.1) (he.next.trans (hb1.trans hb2)) ?_ ha2 (fun hi v hv => ?_)
      (fun ho => hpi.mpr (he.ordered ho)) (fun hi v hv => ?_)
    · show Function.update s2.2.pout b s2.1 = _
      rw [hd2.trans (hd.trans he.pout)]
    · have hin : AvailIn ctx.module f entry b v → Member s2.1 v :=
        fun hv => hKs2 v (.inl ((onEntry_of_informed (hpi.mp hi)).mpr hv))
      rcases hv with harg | ⟨j, rfl, hjr, hj | ⟨a, hdom, hj⟩⟩
      · exact hin (.inl harg)
      · exact hres2 j hj hjr
      · by_cases hab : a = b
        · subst hab
          by_cases hp : (ctx.module.instrs j).isPhi
          · exact hin (.inr ⟨j, rfl, hjr, .inl (mem_phis.mpr ⟨hj, hp⟩)⟩)
          · exact hKs2 _ (.inr ⟨j, mem_body.mpr ⟨hj, hp⟩, rfl, hjr⟩)
        · exact hin (.inr ⟨j, rfl, hjr, .inr ⟨a, ⟨hdom, hab⟩, hj⟩⟩)
    · have hi1 : ¬ Informed (g1.pin b) := fun hi' => hi (hpi.mpr hi')
      cases hv with
      | own hj hjr => exact hKs2 _ (.inr ⟨_, hj, rfl, hjr⟩)
      | copy hj => exact hres2 _ hj (hasResult_of_mem_succPhis hj)
      | last hq hbef hv =>
        exact hKs2 v (.inl ((onEntry_of_not_informed hi1).mpr ⟨⟨_, hq, hbef, hv⟩, hv.hasResult⟩))

theorem Before.mem_prefix {pre bs : List Nat} (hnd : (m.functions f).basicBlocks.Nodup)
    (hl : (m.functions f).basicBlocks = entry :: (pre ++ b :: bs)) (hq : Before m f q b) :
    q = entry ∨ q ∈ pre := by
  obtain ⟨l₁, l₂, hl', hq⟩ := hq
  have hpre : l₁ = entry :: pre := by
    rw [hl'] at hl hnd
    have hb : b ∉ l₁ := fun hb => (List.nodup_append.mp hnd).2.2 b hb b List.mem_cons_self rfl
    have hb' : b ∉ l₂ := (List.nodup_cons.mp (List.nodup_append.mp hnd).2.1).1
    rw [← List.cons_append] at hl
    exact ((List.append_cons_inj_of_notMem hb hb').mp hl).1
  rw [hpre] at hq
  simpa using hq

/-- The calls of a pass are safe, and the pass keeps the invariant. -/
theorem Stable.pass (addr : Value → Nat) (hr : Regular ctx.module f entry)
    (hcov : ∀ b ∈ (ctx.module.functions f).basicBlocks, b ≠ entry → Covered ctx.module f entry b)
    (pre : List Nat) {bs : List Nat} (hl : (ctx.module.functions f).basicBlocks = entry :: (pre ++ bs))
    {V : Nat → Prop} (hV : ∀ q, q = entry ∨ q ∈ pre → V q) {c : Bool}
    (h : Stable ctx.module f entry V g) : EachPass ctx addr (SafeCall ctx) bs g ∧
      ∀ s, Gvn.pass ctx addr bs (c, g) = .ok s →
        ∃ V', (∀ q, V q → V' q) ∧ Stable ctx.module f entry V' s.2 := by
  induction bs generalizing pre V g c with
  | nil =>
    refine ⟨trivial, fun s hs => ?_⟩
    cases hs
    exact ⟨V, fun _ hq => hq, h⟩
  | cons b bs ih =>
    have hb : b ∈ (ctx.module.functions f).basicBlocks := by rw [hl]; simp
    have hne : b ≠ entry := by
      rintro rfl
      have hnd := hr.nodup
      rw [hl] at hnd
      simp at hnd
    obtain ⟨hvisit, hstep⟩ := h.visit addr hr hb hne
      (fun q hq => hV q (hq.mem_prefix hr.nodup hl)) (hcov b hb hne)
    have hnext := fun s hs => ih (pre ++ [b]) (by rw [hl]; simp) (c := s.1)
      (V := fun q => V q ∨ q = b) (g := s.2) (by
        intro q hq
        simp only [List.mem_append, List.mem_singleton] at hq
        rcases hq with hq | hq | hq
        · exact .inl (hV q (.inl hq))
        · exact .inl (hV q (.inr hq))
        · exact .inr hq) (hstep s hs)
    refine ⟨⟨hvisit, fun s hs => (hnext s hs).1⟩, fun s hs => ?_⟩
    obtain ⟨s1, h1, hs⟩ := Exec.bind_eq_ok.mp hs
    obtain ⟨V', hVV, hstable⟩ := (hnext s1 h1).2 s hs
    exact ⟨V', fun q hq => hVV q (.inl hq), hstable⟩

/-- The calls of all passes are safe. -/
theorem Stable.iterate (addr : Value → Nat) (hr : Regular ctx.module f entry)
    (hcov : ∀ b ∈ (ctx.module.functions f).basicBlocks, b ≠ entry → Covered ctx.module f entry b)
    {bs : List Nat} (hl : (ctx.module.functions f).basicBlocks = entry :: bs) {V : Nat → Prop}
    (hV : V entry) {c : Bool} (h : Stable ctx.module f entry V g) (fuel : Nat) :
    EachIteration ctx addr (SafeCall ctx) bs fuel (c, g) := by
  induction fuel generalizing V g c with
  | zero => trivial
  | succ fuel ih =>
    obtain ⟨hpass, hstep⟩ := h.pass addr hr hcov [] (c := c) hl (by
      rintro q (rfl | hq)
      · exact hV
      · cases hq)
    refine ⟨hpass, fun s hs _ => ?_⟩
    obtain ⟨V', hVV, hstable⟩ := hstep s hs
    exact ih (hVV entry hV) hstable

/-- New classes, each with one value. -/
theorem foldl_insert (val : Nat → Value) (ve : Nat → Expression) (hve : ∀ k, (ve k).Full)
    (ks : List Nat) (hp : Tidy s.1 s.2.nextValue) (hpos : 0 < s.2.nextValue) (hi : Informed s.1) :
    let r := ks.foldl (fun s k => (s.1.insert ⟨s.2.nextValue, some (val k), ve k, none, [val k]⟩,
      { s.2 with nextValue := s.2.nextValue + 1 })) s
    Tidy r.1 r.2.nextValue ∧ 0 < r.2.nextValue ∧ Informed r.1 ∧ r.2.pout = s.2.pout ∧
      s.2.nextValue ≤ r.2.nextValue ∧ (∀ v, Member s.1 v → Member r.1 v) ∧
      ∀ k ∈ ks, Member r.1 (val k) := by
  induction ks generalizing s with
  | nil => exact ⟨hp, hpos, hi, rfl, le_rfl, fun _ hv => hv, by simp⟩
  | cons k ks ih =>
    have hfull : CongruenceClass.Full ⟨s.2.nextValue, some (val k), ve k, none, [val k]⟩ := by
      rw [CongruenceClass.Full, if_neg hpos.ne']
      exact ⟨hve k, by simp⟩
    obtain ⟨h1, h2, h3, h4, h5, h6, h7⟩ :=
      ih (s := (s.1.insert ⟨s.2.nextValue, some (val k), ve k, none, [val k]⟩,
        { s.2 with nextValue := s.2.nextValue + 1 }))
        (hp.insert (Nat.le_succ _) (Nat.lt_succ_self _) hfull) (Nat.succ_pos _)
        ((informed_insert hpos.ne').mpr hi)
    refine ⟨h1, h2, h3, h4, (Nat.le_succ _).trans h5, fun v hv => h6 v hv.insert, fun k' hk' => ?_⟩
    rcases List.mem_cons.mp hk' with rfl | hk'
    · apply h6
      apply member_insert
      · exact fun c hc => (hp.lt c hc).ne
      · exact List.mem_singleton_self _
    · exact h7 k' hk'

/-- The calls on the entry block and all later ones are safe. -/
theorem entry_safe (addr : Value → Nat) (hr : Regular ctx.module f entry)
    (hcov : ∀ b ∈ (ctx.module.functions f).basicBlocks, b ≠ entry → Covered ctx.module f entry b)
    {blocks : List Nat} (hl : (ctx.module.functions f).basicBlocks = entry :: blocks)
    (hp : Tidy s.1 s.2.nextValue) (hpos : 0 < s.2.nextValue)
    (hpouts : s.2.pout = fun b => if b ∈ (ctx.module.functions f).basicBlocks then [top] else [])
    (hargs : ∀ k < (ctx.module.functions f).paramTypes.length, Member s.1 (.argument f k))
    (hinf : Informed s.1) (fuel : Nat) :
    EachCall ctx (SafeCall ctx) entry (ctx.module.blocks entry).instrList s ∧
      (∀ s', transferAll ctx entry (ctx.module.blocks entry).instrList s = .ok s' →
        EachCall ctx (SafeCall ctx) entry (succPhis ctx.module entry) s') ∧
      ∀ g, (do
        let s ← transferAll ctx entry (ctx.module.blocks entry).instrList s
        let (poutEntry, g) ← transferAll ctx entry (succPhis ctx.module entry) s
        return { g with pout := Function.update g.pout entry poutEntry } : Exec GVN) = .ok g →
        EachIteration ctx addr (SafeCall ctx) (blocks.filter (· ≠ entry)) fuel (false, g) := by
  have hb : entry ∈ (ctx.module.functions f).basicBlocks := by rw [hl]; simp
  have hstable : Stable ctx.module f entry (fun _ => False) s.2 := .initial hpos hpouts
  have hfull : ∀ b, ∀ c ∈ s.2.pout b, c.Full := fun b => (hstable.tidy b).full
  let K : Value → Prop := fun v => ∃ k < (ctx.module.functions f).paramTypes.length, v = .argument f k
  have hnophi : ∀ j ∈ (ctx.module.blocks entry).instrList, ¬ (ctx.module.instrs j).isPhi := by
    intro j hj hphi
    have := mem_phis.mpr ⟨hj, hphi⟩
    rw [hr.entry_phis] at this
    cases this
  -- Nothing dominates the entry strictly.
  have hoper : ∀ {is : List Nat} {p : Partition} {v : Value},
      Computed ctx.module f entry entry is v → (∀ v, K v → Member p v) →
      (∀ j ∈ is, HasResult ctx.module j → Member p (.instruction j)) → v.isConstant ∨ Member p v := by
    intro is p v hcomp hKp his
    rcases hcomp with hc | harg | ⟨j, rfl, hres, hj | ⟨a, ha, -⟩⟩
    · exact .inl hc
    · exact .inr (hKp v harg)
    · exact .inr (his j hj hres)
    · exact absurd (Graph.Avoids.root (Ne.symm ha.2)) ha.1
  obtain ⟨hcalls, hbody⟩ := transferAll_spec ctx entry
    (ctx.module.blocks entry).instrList s (K := K) hp hpos hfull
    (by
      rintro v ⟨k, hk, rfl⟩
      exact hargs k hk)
    (by
      rintro j ⟨k, -, hk⟩
      cases hk)
    (by
      intro is x js hxs p hpf hKp his
      apply known_of_member hpf
      intro v hv
      have hx : x ∈ (ctx.module.blocks entry).instrList := by rw [hxs]; simp
      exact hoper (hr.operand entry hb is x js hxs (hnophi x hx) v hv) hKp his)
  have hphires : ∀ j ∈ succPhis ctx.module entry, HasResult ctx.module j :=
    fun j hj => hasResult_of_mem_succPhis hj
  have hcopies : ∀ s1, transferAll ctx entry (ctx.module.blocks entry).instrList s = .ok s1 → _ :=
    fun s1 h1 => by
      obtain ⟨ha, hb1, hc, hd, hKs, hres, -⟩ := hbody s1 h1
      exact transferAll_spec ctx entry (succPhis ctx.module entry) s1
        (K := fun v => K v ∨ ∃ j ∈ (ctx.module.blocks entry).instrList,
          v = .instruction j ∧ HasResult ctx.module j)
        ha (hpos.trans_le hb1) (by rw [hd]; exact hfull)
        (by
          rintro v (hv | ⟨j, hj, rfl, hjr⟩)
          · exact hKs v hv
          · exact hres j hj hjr)
        (fun j _ hj => hphires j hj)
        (by
          intro is x js hxs p hpf hKp _
          apply known_of_member hpf
          have hx : x ∈ succPhis ctx.module entry := by rw [hxs]; simp
          obtain ⟨t, -, hxt⟩ := mem_succPhis.mp hx
          rw [looksUp_phi (mem_phis.mp hxt).2]
          intro v hv
          exact hoper (hr.phiOperand entry hb x hx v (Option.mem_toList.mp hv))
            (fun v hv => hKp v (.inl hv)) fun j hj hjr => hKp _ (.inr ⟨j, hj, rfl, hjr⟩))
  refine ⟨hcalls, fun s1 h1 => (hcopies s1 h1).1, fun g hg => ?_⟩
  obtain ⟨s1, h1, hg⟩ := Exec.bind_eq_ok.mp hg
  obtain ⟨s2, h2, hg⟩ := Exec.bind_eq_ok.mp hg
  cases hg
  obtain ⟨ha, hb1, hc, hd, hKs, hres, hi1⟩ := hbody s1 h1
  obtain ⟨ha2, hb2, hc2, hd2, hKs2, hres2, hi2⟩ := (hcopies s1 h1).2 s2 h2
  have hfilter : blocks.filter (· ≠ entry) = blocks := by
    rw [List.filter_eq_self]
    intro c hc
    have hnd := hr.nodup
    rw [hl, List.nodup_cons] at hnd
    have hne : c ≠ entry := fun he => hnd.1 (he ▸ hc)
    simpa using hne
  rw [hfilter]
  have hinf2 : Informed s2.1 := hi2.mpr (hi1.mpr hinf)
  refine Stable.iterate addr hr hcov hl (V := (· = entry)) rfl ?_ fuel
  have hleave : Stable ctx.module f entry (fun c => False ∨ c = entry)
      { s2.2 with pout := Function.update s2.2.pout entry s2.1 } := by
    refine hstable.leave (p := s2.1) (hb1.trans hb2) ?_ ha2 (fun _ v hv => ?_) (fun _ => hinf2)
      (fun hno => absurd hinf2 hno)
    · show Function.update s2.2.pout entry s2.1 = _
      rw [hd2.trans hd]
    · rcases hv with harg | ⟨j, rfl, hjr, hj | ⟨a, hdom, hj⟩⟩
      · exact hKs2 v (.inl harg)
      · exact hres2 j hj hjr
      · by_cases hab : a = entry
        · subst hab
          exact hKs2 _ (.inr ⟨j, hj, rfl, hjr⟩)
        · exact absurd (Graph.Avoids.root (Ne.symm hab)) hdom
  simpa only [false_or] using hleave

/-- No call of the value numbering meets an unknown operand if every block is covered. -/
theorem eachOfRun_of_covered (addr : Value → Nat)
    (hr : ∀ entry, (ctx.module.functions f).basicBlocks.head? = some entry → Regular ctx.module f entry)
    (hcov : ∀ entry, (ctx.module.functions f).basicBlocks.head? = some entry →
      ∀ b ∈ (ctx.module.functions f).basicBlocks, b ≠ entry → Covered ctx.module f entry b)
    (nextOther fuel : Nat) : EachOfRun ctx addr (SafeCall ctx) f nextOther fuel := by
  intro entry blocks hl
  have hhead : (ctx.module.functions f).basicBlocks.head? = some entry := by rw [hl]; rfl
  replace hr := hr entry hhead
  replace hcov := hcov entry hhead
  dsimp only
  let g0 : GVN := ⟨nextOther, 1, ctx.made, fun _ => [],
    fun b => if b ∈ (ctx.module.functions f).basicBlocks then [top] else []⟩
  -- The classes of globals and arguments.
  obtain ⟨h1, h2, h3, h4, h5, -, -⟩ := foldl_insert .globalVariable .global
    (fun _ => trivial) (List.range ctx.module.numGlobals) (s := ([], g0))
    ⟨List.Pairwise.nil, by simp, by simp⟩ Nat.one_pos (by simp [Informed])
  obtain ⟨k1, k2, k3, k4, k5, -, k7⟩ := foldl_insert (.argument f) (.args f)
    (fun _ => trivial) (List.range (ctx.module.functions f).paramTypes.length)
    (s := initialGv ctx.module ([], g0)) h1 h2 h3
  change Tidy (initialArgs ctx.module f (initialGv ctx.module ([], g0))).1
    (initialArgs ctx.module f (initialGv ctx.module ([], g0))).2.nextValue at k1
  have hpouts : (initialArgs ctx.module f (initialGv ctx.module ([], g0))).2.pout = g0.pout :=
    k4.trans h4
  have hargs : ∀ k < (ctx.module.functions f).paramTypes.length,
      Member (initialArgs ctx.module f (initialGv ctx.module ([], g0))).1 (.argument f k) :=
    fun k hk => k7 k (List.mem_range.mpr hk)
  have hpos : 0 < (initialArgs ctx.module f (initialGv ctx.module ([], g0))).2.nextValue := k2
  have hinf : Informed (initialArgs ctx.module f (initialGv ctx.module ([], g0))).1 := k3
  have hinit : Gvn.initial ctx f entry nextOther = (do
      let s ← transferAll ctx entry (ctx.module.blocks entry).instrList
        (initialArgs ctx.module f (initialGv ctx.module ([], g0)))
      let (poutEntry, g) ← transferAll ctx entry (succPhis ctx.module entry) s
      return { g with pout := Function.update g.pout entry poutEntry }) := rfl
  rw [hinit]
  clear h1 h2 h3 h4 h5 k2 k3 k4 k5 k7 hinit
  generalize initialArgs ctx.module f (initialGv ctx.module ([], g0)) = s0 at *
  exact entry_safe addr hr hcov hl k1 hpos hpouts hargs hinf fuel

end

end Gvn

end Cminusf
