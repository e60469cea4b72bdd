import Cminusf.Optimization.DeadCode

/-! `DeadCode` on functions whose operands are in them: the work list of `mark` runs empty, and what
is left after one `sweep` is what the critical instructions reach. -/

namespace Cminusf

namespace DeadCode

/-- The instructions know their blocks, operands are instructions of the same function, and a call
has the called function as its first operand. -/
structure Closed (m : Module) : Prop extends Parented m where
  operands : ∀ f < m.numFunctions, ∀ i ∈ instructions m f, ∀ j,
    .instruction j ∈ (m.instrs i).operands → j ∈ instructions m f
  calls : ∀ f < m.numFunctions, ∀ i ∈ instructions m f, (m.instrs i).opId = .call →
    ∃ callee, (m.instrs i).getOperand 0 = some (.function callee)

/-- An operand edge from `i` to `j`. -/
def HasOperand (m : Module) (i j : Nat) : Prop := .instruction j ∈ (m.instrs i).operands

/-- A critical instruction of the function reaches `i`. -/
def Live (isPure : Nat → Bool) (m : Module) (f i : Nat) : Prop :=
  ∃ c ∈ instructions m f, isCritical isPure m c = .ok true ∧
    Relation.ReflTransGen (HasOperand m) c i

/-- The instructions of a function that are not marked. -/
def unmarked (m : Module) (f : Nat) (marked : Nat → Bool) : Nat :=
  (instructions m f).countP fun i => !marked i

variable {isPure : Nat → Bool} {m m' : Module} {f g i j n fuel : Nat} {s s' : DeadCode}
  {marked marked' : Nat → Bool} {b : Nat} {op : Value} {ops : List Value} {is fs : List Nat}

theorem Needed.mem (h : Closed m) (hf : f < m.numFunctions) (hi : Needed isPure m f i) :
    i ∈ instructions m f := by
  induction hi with
  | critical hi => exact hi
  | operand _ hj _ ih => exact h.operands f hf _ ih _ hj

theorem needed_iff_live (h : Closed m) (hf : f < m.numFunctions) :
    Needed isPure m f i ↔ Live isPure m f i := by
  constructor
  · intro hi
    induction hi with
    | critical hi hc => exact ⟨_, hi, hc, .refl⟩
    | operand _ hj _ ih =>
      obtain ⟨c, hc, hcrit, hpath⟩ := ih
      exact ⟨c, hc, hcrit, hpath.tail hj⟩
  · intro ⟨c, hc, hcrit, hpath⟩
    induction hpath with
    | refl => exact .critical hc hcrit
    | tail _ hj ih =>
      have hi := ih.mem h hf
      apply ih.operand hj
      rw [h.functionOf hf hi, h.functionOf hf (h.operands f hf _ hi _ hj)]

theorem countP_lt {xs : List Nat} {p q : Nat → Bool} (hle : ∀ j, q j → p j) (hi : i ∈ xs)
    (hp : p i) (hq : q i = false) : xs.countP q < xs.countP p := by
  induction xs with
  | nil => cases hi
  | cons x xs ih =>
    have hmono : xs.countP q ≤ xs.countP p := List.countP_mono_left fun j _ hj => hle j hj
    simp only [List.countP_cons]
    rcases List.mem_cons.mp hi with rfl | hi
    · simp only [hp, hq, if_true, Bool.false_eq_true, if_false]
      omega
    · have hlt := ih hi
      by_cases hx : q x
      · simp only [hx, hle x hx, if_true]
        omega
      · simp only [hx, if_false, Bool.false_eq_true]
        omega

theorem unmarked_push_lt (hi : i ∈ instructions m f) (h : s.marked i = false) :
    unmarked m f (s.push i).marked < unmarked m f s.marked := by
  apply countP_lt _ hi (by simp [h]) (by simp [DeadCode.push])
  intro j hj
  have hno : ¬ (s.push i).marked j := by simpa using hj
  rw [marked_push, not_or] at hno
  simpa using hno.2

/-- An operand in the function is pushed at most once. -/
theorem markOperand_returns (h : Closed m)
    (hop : ∀ j, op = .instruction j → j ∈ instructions m f) :
    ∃ s', markOperand m i s op = .ok s' ∧
      s'.workList.length + unmarked m f s'.marked ≤ s.workList.length + unmarked m f s.marked := by
  cases op with
  | instruction j =>
    have hj := hop j rfl
    obtain ⟨b, hb, hjb⟩ := mem_instructions.mp hj
    have hparent : j ∈ (m.blocks (m.instrs j).parent).instrList := by rwa [h.instr b j hjb]
    rw [markOperand, if_neg (not_not.mpr hparent)]
    by_cases hm : s.marked j = true
    · exact ⟨s, if_pos hm, Nat.le_refl _⟩
    · rw [if_neg hm]
      by_cases hfun : m.functionOf j ≠ m.functionOf i
      · exact ⟨s, if_pos hfun, Nat.le_refl _⟩
      · have hlt := unmarked_push_lt hj (by simpa using hm)
        have hlen : (s.push j).workList.length = s.workList.length + 1 := by simp [DeadCode.push]
        exact ⟨s.push j, if_neg hfun, by omega⟩
  | _ => exact ⟨s, rfl, Nat.le_refl _⟩

theorem markOperands_returns (h : Closed m)
    (hops : ∀ j, .instruction j ∈ ops → j ∈ instructions m f) :
    ∃ s', ops.foldlM (markOperand m i) s = .ok s' ∧
      s'.workList.length + unmarked m f s'.marked ≤ s.workList.length + unmarked m f s.marked := by
  induction ops generalizing s with
  | nil => exact ⟨s, rfl, Nat.le_refl _⟩
  | cons op ops ih =>
    have hop : ∀ j, op = .instruction j → j ∈ instructions m f :=
      fun j hj => hops j (hj ▸ List.mem_cons_self)
    obtain ⟨t, ht, hle⟩ := markOperand_returns (i := i) (s := s) h hop
    obtain ⟨s', hs', hle'⟩ := ih (s := t) fun j hj => hops j (List.mem_cons_of_mem _ hj)
    refine ⟨s', ?_, by omega⟩
    rw [List.foldlM_cons, ht]
    exact hs'

/-- Each round of the loop takes one instruction from the work list. -/
theorem markLoop_returns (h : Closed m) (hf : f < m.numFunctions) (hs : Marking isPure m f [] s)
    (hfuel : s.workList.length + unmarked m f s.marked ≤ fuel) :
    ∃ marked, markLoop m fuel s = .ok marked := by
  induction fuel generalizing s with
  | zero =>
    obtain ⟨workList, marked⟩ := s
    cases workList with
    | nil => exact ⟨marked, rfl⟩
    | cons now workList => simp at hfuel
  | succ fuel ih =>
    obtain ⟨workList, marked⟩ := s
    cases workList with
    | nil => exact ⟨marked, rfl⟩
    | cons now workList =>
      have hnow := hs.work now List.mem_cons_self
      have hmem : now ∈ instructions m f := (hs.needed now hnow).mem h hf
      obtain ⟨t, ht, hle⟩ := markOperands_returns (i := now) (s := ⟨workList, marked⟩) h
        (h.operands f hf now hmem)
      have hpop : Marking isPure m f [now] ⟨workList, marked⟩ :=
        ⟨hs.needed, fun i hi => hs.work i (List.mem_cons_of_mem _ hi), hs.passed⟩
      obtain ⟨hmark, -⟩ := markInstr_spec hpop hnow ht
      simp only [List.length_cons] at hfuel
      obtain ⟨marked', hrun⟩ := ih hmark (by simp only at hle; omega)
      refine ⟨marked', ?_⟩
      rw [markLoop, markInstr, ht]
      exact hrun

theorem isCritical_returns (isPure : Nat → Bool) (h : Closed m) (hf : f < m.numFunctions) (hi : i ∈ instructions m f) :
    ∃ critical, isCritical isPure m i = .ok critical := by
  cases hop : (m.instrs i).opId with
  | call =>
    obtain ⟨callee, hcallee⟩ := h.calls f hf i hi hop
    exact ⟨!isPure callee, by rw [isCritical, hop, hcallee]; rfl⟩
  | _ => exact ⟨_, by rw [isCritical, hop]; rfl⟩

theorem markCriticals_returns (isPure : Nat → Bool) (h : Closed m) (hf : f < m.numFunctions)
    (his : ∀ i ∈ is, i ∈ instructions m f) :
    ∃ s', is.foldlM (markCritical isPure m) s = .ok s' := by
  induction is generalizing s with
  | nil => exact ⟨s, rfl⟩
  | cons i is ih =>
    obtain ⟨critical, hc⟩ := isCritical_returns isPure h hf (his i List.mem_cons_self)
    have hrest : ∀ i ∈ is, i ∈ instructions m f := fun k hk => his k (List.mem_cons_of_mem _ hk)
    obtain ⟨s', hs'⟩ := ih (s := if critical then s.push i else s) hrest
    refine ⟨s', ?_⟩
    rw [List.foldlM_cons, markCritical, hc]
    cases critical with
    | true => exact hs'
    | false => exact hs'

theorem mark_unique (h : ∀ i, marked i ↔ Needed isPure m f i)
    (h' : ∀ i, marked' i ↔ Needed isPure m f i) : marked = marked' := by
  funext i
  rw [Bool.eq_iff_iff]
  exact (h i).trans (h' i).symm

/-- With enough fuel `mark` returns, and what it returns does not depend on the fuel. -/
theorem mark_returns (isPure : Nat → Bool) (h : Closed m) (hf : f < m.numFunctions) :
    ∃ marked bound, ∀ fuel ≥ bound, mark isPure m fuel f = .ok marked := by
  obtain ⟨s, hs⟩ := markCriticals_returns isPure (s := ⟨[], fun _ => false⟩) h hf
    fun _ hi => hi
  have hinit : Marking isPure m f [] ⟨[], fun _ => false⟩ := ⟨by simp, by simp, by simp⟩
  obtain ⟨hmarking, -⟩ := markCriticals_spec hinit (fun _ hi => hi) hs
  have hrun : ∀ fuel ≥ s.workList.length + unmarked m f s.marked,
      ∃ marked, mark isPure m fuel f = .ok marked := by
    intro fuel hfuel
    obtain ⟨marked, hloop⟩ := markLoop_returns h hf hmarking hfuel
    exact ⟨marked, by rw [mark, hs]; exact hloop⟩
  obtain ⟨marked, hmark⟩ := hrun _ (Nat.le_refl _)
  refine ⟨marked, s.workList.length + unmarked m f s.marked, fun fuel hfuel => ?_⟩
  obtain ⟨marked', hmark'⟩ := hrun fuel hfuel
  rw [hmark', mark_unique (mark_spec hmark) (mark_spec hmark')]

/-- All instructions of the function are needed. -/
def Clean (isPure : Nat → Bool) (m : Module) (f : Nat) : Prop :=
  ∀ i ∈ instructions m f, Needed isPure m f i

theorem Clean.waitDel (h : Clean isPure m f) (hmark : ∀ i, marked i ↔ Needed isPure m f i) :
    waitDel m marked f = [] := by
  apply List.filter_eq_nil_iff.mpr
  intro i hi
  simp [(hmark i).mpr (h i hi)]

theorem sweep_of_waitDel (h : waitDel m marked f = []) : sweep m marked f = m := by
  rw [sweep, h]
  rfl

theorem Swept.mem_instructions (h : Swept m m') (hi : i ∈ instructions m' f) :
    i ∈ instructions m f := by
  obtain ⟨b, hb, hi⟩ := DeadCode.mem_instructions.mp hi
  rw [h.functions] at hb
  exact DeadCode.mem_instructions.mpr ⟨b, hb, h.sub b i hi⟩

theorem Kept.clean (h : Kept isPure m m') (hf : f < m.numFunctions) (hc : Clean isPure m f) :
    Clean isPure m' f := fun i hi =>
  (h.needed_iff hf).mpr (hc i (h.toSwept.mem_instructions hi))

theorem Kept.refl (m : Module) : Kept isPure m m where
  toSwept := Swept.refl m
  needed _ _ _ _ _ hi _ := hi

/-- `sweep` of one function removes nothing from the others. -/
theorem mem_sweep (h : Closed m) (hf : f < m.numFunctions) (hg : g < m.numFunctions)
    (hmark : ∀ i, marked i ↔ Needed isPure m f i) (hi : i ∈ instructions m g) :
    i ∈ instructions (sweep m marked f) g ↔ g = f → Needed isPure m f i := by
  obtain ⟨hs, hmem⟩ := @sweep_spec m f marked
  constructor
  · intro hsweep hgf
    subst hgf
    obtain ⟨b, -, hib⟩ := mem_instructions.mp hsweep
    obtain ⟨hib, hno⟩ := (hmem b i).mp hib
    by_contra hn
    apply hno
    refine ⟨List.mem_filter.mpr ⟨hi, ?_⟩, h.instr b i hib⟩
    rw [← hmark i] at hn
    simpa using hn
  · intro hn
    obtain ⟨b, hb, hib⟩ := mem_instructions.mp hi
    refine mem_instructions.mpr ⟨b, by rwa [hs.functions], (hmem b i).mpr ⟨hib, ?_⟩⟩
    intro ⟨hdel, _⟩
    obtain ⟨hif, hno⟩ := List.mem_filter.mp hdel
    have hgf : g = f := (h.functionOf hg hi).symm.trans (h.functionOf hf hif)
    have := (hmark i).mpr (hn hgf)
    simp [this] at hno

theorem sweep_kept (h : Closed m) (hf : f < m.numFunctions)
    (hmark : ∀ i, marked i ↔ Needed isPure m f i) : Kept isPure m (sweep m marked f) :=
  (Kept.refl m).sweep h.toParented hf hmark

theorem sweep_clean (h : Closed m) (hf : f < m.numFunctions)
    (hmark : ∀ i, marked i ↔ Needed isPure m f i) : Clean isPure (sweep m marked f) f := by
  intro i hi
  have hk := sweep_kept h hf hmark
  have hn := (mem_sweep h hf hf hmark (hk.toSwept.mem_instructions hi)).mp hi rfl
  exact (hk.needed_iff hf).mpr hn

/-- An operand of an instruction that is left is left too. -/
theorem Closed.sweep (h : Closed m) (hf : f < m.numFunctions)
    (hmark : ∀ i, marked i ↔ Needed isPure m f i) : Closed (sweep m marked f) := by
  have hk := sweep_kept h hf hmark
  refine ⟨⟨?_, ?_⟩, ?_, ?_⟩
  · intro b i hi
    rw [hk.instrs]
    exact h.instr b i (hk.sub b i hi)
  · intro g hg b hb
    rw [hk.numFunctions] at hg
    rw [hk.functions] at hb
    rw [hk.blocks]
    exact h.block g hg b hb
  · intro g hg i hi j hj
    rw [hk.numFunctions] at hg
    rw [hk.instrs] at hj
    have hi' := hk.toSwept.mem_instructions hi
    have hj' := h.operands g hg i hi' j hj
    rw [mem_sweep h hf hg hmark hj']
    intro hgf
    subst hgf
    have hn := (mem_sweep h hf hf hmark hi').mp hi rfl
    apply hn.operand hj
    rw [h.functionOf hf hi', h.functionOf hf hj']
  · intro g hg i hi hop
    rw [hk.numFunctions] at hg
    rw [hk.instrs] at hop ⊢
    exact h.calls g hg i (hk.toSwept.mem_instructions hi) hop

/-- A round over the functions. -/
theorem round_returns (isPure : Nat → Bool) (fs : List Nat) (h : Closed m)
    (hfs : ∀ f ∈ fs, f < m.numFunctions) (changed : Bool) :
    ∃ m' changed' bound, (∀ n ≥ bound,
      fs.foldlM (runOnFunction isPure n) (m, changed) = .ok (m', changed')) ∧
      Closed m' ∧ Kept isPure m m' ∧ ∀ f ∈ fs, Clean isPure m' f := by
  induction fs generalizing m changed with
  | nil => exact ⟨m, changed, 0, fun _ _ => rfl, h, .refl m, by simp⟩
  | cons f fs ih =>
    have hf := hfs f List.mem_cons_self
    obtain ⟨marked, bound, hrun⟩ := mark_returns isPure h hf
    have hmark := mark_spec (hrun bound (Nat.le_refl _))
    have hk := sweep_kept h hf hmark
    obtain ⟨m', changed', bound', hrest, hclosed, hkept, hclean⟩ := ih (h.sweep hf hmark)
      (fun g hg => by rw [hk.numFunctions]; exact hfs g (List.mem_cons_of_mem _ hg))
      (changed || !(waitDel m marked f).isEmpty)
    refine ⟨m', changed', max bound bound', fun n hn => ?_, hclosed, ?_, fun g hg => ?_⟩
    · rw [List.foldlM_cons, runOnFunction, hrun n (le_trans (le_max_left _ _) hn)]
      exact hrest n (le_trans (le_max_right _ _) hn)
    · refine { hk.toSwept.trans hkept.toSwept with needed := fun g hg b hb i hi hn => ?_ }
      apply hkept.needed g (by rwa [hk.numFunctions]) b (by rwa [hk.functions]) i
        (hk.needed g hg b hb i hi hn)
      exact (hk.needed_iff hg).mpr hn
    · rcases List.mem_cons.mp hg with rfl | hg
      · exact hkept.clean (by rwa [hk.numFunctions]) (sweep_clean h hf hmark)
      · exact hclean g hg

theorem round_clean (isPure : Nat → Bool) (fs : List Nat) (h : Closed m)
    (hfs : ∀ f ∈ fs, f < m.numFunctions ∧ Clean isPure m f)
    (changed : Bool) :
    ∃ bound, ∀ n ≥ bound, fs.foldlM (runOnFunction isPure n) (m, changed) = .ok (m, changed) := by
  induction fs with
  | nil => exact ⟨0, fun _ _ => rfl⟩
  | cons f fs ih =>
    obtain ⟨hf, hclean⟩ := hfs f List.mem_cons_self
    obtain ⟨marked, bound, hrun⟩ := mark_returns isPure h hf
    have hnil := hclean.waitDel (mark_spec (hrun bound (Nat.le_refl _)))
    obtain ⟨bound', hrest⟩ := ih fun g hg => hfs g (List.mem_cons_of_mem _ hg)
    refine ⟨max bound bound', fun n hn => ?_⟩
    rw [List.foldlM_cons, runOnFunction, hrun n (le_trans (le_max_left _ _) hn)]
    show fs.foldlM (runOnFunction isPure n)
      (DeadCode.sweep m marked f, changed || !(waitDel m marked f).isEmpty) = _
    rw [sweep_of_waitDel hnil, hnil, List.isEmpty_nil, Bool.not_true, Bool.or_false]
    exact hrest n (le_trans (le_max_right _ _) hn)

/-- The second round of `run` changes nothing. -/
theorem run_returns (h : Closed m) :
    ∃ m' bound, ∀ fuel ≥ bound, run isPure m fuel = .ok m' := by
  obtain ⟨m', changed, bound, hrun, hclosed, hkept, hclean⟩ :=
    round_returns isPure (List.range m.numFunctions) h
      (fun _ hf => List.mem_range.mp hf) false
  have hnum : m'.numFunctions = m.numFunctions := hkept.numFunctions
  obtain ⟨bound', hrun'⟩ := round_clean isPure (List.range m'.numFunctions) hclosed
    (fun f hf => ⟨List.mem_range.mp hf, hclean f (hnum ▸ hf)⟩) false
  refine ⟨m', max 2 (max bound bound'), fun fuel hfuel => ?_⟩
  obtain ⟨k, rfl⟩ : ∃ k, fuel = k + 2 := ⟨fuel - 2, by omega⟩
  have h1 := hrun (k + 2) (by omega)
  have h2 := hrun' (k + 2) (by omega)
  rw [run, runLoop, h1]
  cases changed with
  | false => rfl
  | true =>
    show runLoop isPure (k + 2) (k + 1) m' = _
    rw [runLoop, h2]
    rfl

/-- `mark` and `sweep` remove exactly what no critical instruction reaches, a second time nothing,
and `run` returns. -/
theorem erased_iff_not_live (h : Closed m) (hf : f < m.numFunctions) :
    (∃ marked bound,
      (∀ fuel ≥ bound, mark isPure m fuel f = .ok marked ∧
        mark isPure (sweep m marked f) fuel f = .ok marked) ∧
      (∀ g < m.numFunctions, ∀ i ∈ instructions m g,
        i ∉ instructions (sweep m marked f) g ↔ g = f ∧ ¬ Live isPure m f i) ∧
      waitDel (sweep m marked f) marked f = [] ∧
      sweep (sweep m marked f) marked f = sweep m marked f) ∧
    ∃ m' bound, ∀ fuel ≥ bound, run isPure m fuel = .ok m' := by
  refine ⟨?_, run_returns h⟩
  obtain ⟨marked, bound, hrun⟩ := mark_returns isPure h hf
  have hmark := mark_spec (hrun bound (Nat.le_refl _))
  have hk := sweep_kept h hf hmark
  have hf' : f < (DeadCode.sweep m marked f).numFunctions := by rwa [hk.numFunctions]
  obtain ⟨marked', bound', hrun'⟩ := mark_returns isPure (h.sweep hf hmark) hf'
  have hmark' : ∀ i, marked i ↔ Needed isPure (DeadCode.sweep m marked f) f i := fun i =>
    (hmark i).trans (hk.needed_iff hf).symm
  have hsame : marked' = marked := mark_unique (mark_spec (hrun' bound' (Nat.le_refl _))) hmark'
  have hnil := (sweep_clean h hf hmark).waitDel hmark'
  refine ⟨marked, max bound bound', fun fuel hfuel => ⟨?_, ?_⟩, ?_, hnil, sweep_of_waitDel hnil⟩
  · exact hrun fuel (le_trans (le_max_left _ _) hfuel)
  · rw [← hsame, ← hrun' fuel (le_trans (le_max_right _ _) hfuel), hsame]
  · intro g hg i hi
    rw [mem_sweep h hf hg hmark hi, needed_iff_live h hf]
    tauto

theorem ancestor_of_operand {origin : Nat → Option Nat} {opId : OpID} {ty : Ty}
    (h : Builder.Emits m origin n b opId ty ops) (hj : .instruction j ∈ ops) :
    j < n ∧ Graph.Ancestor origin (m.instrs j).parent b := by
  have hval : ∀ v, Builder.ValueAt m origin n b v → v = .instruction j →
      j < n ∧ Graph.Ancestor origin (m.instrs j).parent b := by
    rintro v hv rfl
    exact ⟨hv.1, hv.2.1⟩
  have haddr : ∀ v, Builder.AddressAt m origin n b v → v = .instruction j →
      j < n ∧ Graph.Ancestor origin (m.instrs j).parent b := by
    rintro v hv rfl
    exact ⟨hv.1, hv.2.1⟩
  cases h <;> simp only [List.mem_cons, List.not_mem_nil, or_false, reduceCtorEq, false_or] at hj
  case binary hx hy | cmp hx hy | fcmp hx hy =>
    rcases hj with hj | hj
    · exact hval _ hx hj.symm
    · exact hval _ hy hj.symm
  case zext hx | fptosi hx | sitofp hx | ret hx => exact hval _ hx hj.symm
  case load hx _ => exact haddr _ hx hj.symm
  case store hx hy =>
    rcases hj with hj | hj
    · exact hval _ hx hj.symm
    · exact haddr _ hy hj.symm
  case storeArg _ hy => exact haddr _ hy hj.symm
  case gep hx hidxs =>
    rcases hj with hj | hj
    · exact hx.elim (haddr _ · hj.symm) (hval _ · hj.symm)
    · exact hval _ (hidxs _ hj) rfl
  case call hargs => exact hval _ (hargs _ hj) rfl
  case condBr hx _ _ _ => exact hval _ hx hj.symm

theorem callee_of_call {origin : Nat → Option Nat} {ty : Ty}
    (h : Builder.Emits m origin n b .call ty ops) :
    ∃ callee, ops[0]? = some (.function callee) := by
  cases h with
  | call => exact ⟨_, rfl⟩

/-- What the visitors build is closed. -/
theorem closed_of_buildModule {program : ASTProgram} (h : buildModule program = some m) :
    Closed m := by
  obtain ⟨origin, hm⟩ := CminusfBuilder.buildModule_inv h
  have hlt : ∀ b i, i ∈ (m.blocks b).instrList → b < m.numBlocks := by
    intro b i hi
    by_contra hb
    rw [hm.fresh_block b (not_lt.mp hb)] at hi
    cases hi
  have hparent : ∀ b, ∀ i ∈ (m.blocks b).instrList, (m.instrs i).parent = b :=
    fun b i hi => (hm.instr_mem b (hlt b i hi) i hi).2
  refine ⟨⟨hparent, fun f hf b hb => (hm.block_mem f hf b hb).2⟩, ?_, ?_⟩
  · intro f hf i hi j hj
    obtain ⟨b, hb, hi⟩ := mem_instructions.mp hi
    have hemits := hm.emits i (hm.instr_mem b (hlt b i hi) i hi).1
    obtain ⟨hji, hanc⟩ := ancestor_of_operand hemits hj
    have hb' := hlt b i hi
    rw [hparent b i hi] at hanc
    obtain ⟨hc, -, hpar⟩ := hm.ancestor_lt hanc hb'
    have hmem := (hm.block_parent _ hc).2
    rw [hpar, (hm.block_mem f hf b hb).2] at hmem
    have hjlt := hji.trans (hm.instr_mem b hb' i hi).1
    exact mem_instructions.mpr ⟨_, hmem, (hm.instr_parent j hjlt).2⟩
  · intro f hf i hi hop
    obtain ⟨b, -, hi⟩ := mem_instructions.mp hi
    have hemits := hm.emits i (hm.instr_mem b (hlt b i hi) i hi).1
    rw [hop] at hemits
    exact callee_of_call hemits

/-- `int main(void) { int x; x = input(); x * x + 1; return x; }`. -/
def uselessProgram : ASTProgram :=
  let x : ASTFactor := .var (.scalar "x")
  let simple (f : ASTFactor) : ASTExpression := .simple (.ofTerm (.ofFactor f))
  ⟨[.fun ⟨.int, "main", [], [⟨.int, "x", none⟩],
    [.expressionStmt (some (.assign (.scalar "x") (simple (.call "input" [])))),
    .expressionStmt (some (.simple (.additive (.ofTerm (.multiplicative (.ofFactor x) .mul x)) .plus
      (.ofFactor (.num (.int 1)))))),
    .return (some (simple x))]⟩]⟩

/-- The sum is not needed, and so the product and its operands are not. -/
theorem erased_iff_not_live_uselessProgram : ∃ m, buildModule uselessProgram = some m ∧
    (4 < m.numFunctions ∧ ∃ marked, mark (fun _ => false) m 40 4 = .ok marked ∧
      instructions m 4 = [0, 1, 2, 3, 4, 5, 6, 7, 8] ∧ waitDel m marked 4 = [3, 4, 5, 6]) ∧
    (∃ marked bound,
      (∀ fuel ≥ bound, mark (fun _ => false) m fuel 4 = .ok marked ∧
        mark (fun _ => false) (sweep m marked 4) fuel 4 = .ok marked) ∧
      (∀ g < m.numFunctions, ∀ i ∈ instructions m g,
        i ∉ instructions (sweep m marked 4) g ↔ g = 4 ∧ ¬ Live (fun _ => false) m 4 i) ∧
      waitDel (sweep m marked 4) marked 4 = [] ∧
      sweep (sweep m marked 4) marked 4 = sweep m marked 4) ∧
    ∃ m' bound, ∀ fuel ≥ bound, run (fun _ => false) m fuel = .ok m' := by
  obtain ⟨m, hm, h⟩ := exists_buildModule uselessProgram (fun m => decide (4 < m.numFunctions) &&
    (mark (fun _ => false) m 40 4).toOption.any fun marked =>
      decide (instructions m 4 = [0, 1, 2, 3, 4, 5, 6, 7, 8] ∧ waitDel m marked 4 = [3, 4, 5, 6]))
    (by decide +kernel)
  simp only [Bool.and_eq_true, decide_eq_true_eq] at h
  obtain ⟨hf, h⟩ := h
  obtain ⟨marked, hmark, h⟩ := (Option.any_eq_true _ _).mp h
  exact ⟨m, hm, ⟨hf, marked, Exec.ok_of_toOption hmark, of_decide_eq_true h⟩,
    erased_iff_not_live (closed_of_buildModule hm) hf⟩

end DeadCode

end Cminusf
