import Cminusf.Optimization.Mem2RegRun

/-! What `Mem2Reg` leaves of a function: which instructions remain, and which of their
operands are still there. -/

namespace Cminusf

namespace Mem2Reg

open Renaming Builder Dominators

variable {m m' m1 : Module} {b c f i j k p entry fuel : Nat} {v w x : Value}
  {origin : Nat → Option Nat} {d : Dominators} {phis : Nat → List Nat} {r : Renaming}
  {addr : Nat → Nat} {is js : List Nat} {fs : Nat → Prop}

/-- `v` is computed by the instructions `is` of block `b` or on every path to `b`. -/
def DefinedBefore (m : Module) (entry b : Nat) (is : List Nat) (v : Value) : Prop :=
  ∀ j, v = .instruction j →
    j ∈ is ∨ Graph.StrictlyDominates (Succ m) entry (m.instrs j).parent b

/-- The function `f` of a module that the pass returns, with the walk that describes it. -/
structure Described (m : Module) (origin : Nat → Option Nat) (addr : Nat → Nat) (d : Dominators)
    (f entry fuel : Nat) (m1 : Module) (phis : Nat → List Nat) (r : Renaming) (m' : Module) :
    Prop where
  inv : Inv m origin
  lt : f < m.numFunctions
  head : (m.functions f).basicBlocks.head? = some entry
  analysed : IsAnalysed m addr (m.functions f).basicBlocks entry d
  dead : NoDeadEdge m (m.functions f).basicBlocks entry
  enough : (m.functions f).basicBlocks.length < fuel
  between : Between m (· < m.numFunctions) m'
  promoted : Promoted m d f entry fuel m1 phis r m'

namespace Described

variable (h : Described m origin addr d f entry fuel m1 phis r m')
include h

theorem cfg : FunctionCfg m (m.functions f).basicBlocks entry := h.inv.functionCfg h.lt h.head

theorem laid : Laid m d f m1 phis := h.promoted.laid

theorem mem_order : b ∈ r.order ↔ Graph.Reaches (Succ m) entry b :=
  h.promoted.mem_order h.inv h.lt h.head h.analysed h.enough

theorem ancestor_iff (hb : Graph.Reaches (Succ m) entry b) :
    Graph.Ancestor d.idom c b ↔ Graph.Dominates (Succ m) entry c b :=
  h.analysed.idoms.ancestor b hb c

theorem mem_blocks : b ∈ (m.functions f).basicBlocks ↔ b < m.numBlocks ∧ (m.blocks b).parent = f :=
  h.inv.mem_blocks h.lt

/-- The phis in a block. -/
theorem mem_phis_of_phiVar (hb : b ∈ (m.functions f).basicBlocks) (hp : p ∈ (m1.blocks b).instrList)
    (hv : phiVar m1 p = some v) : p ∈ phis b := by
  refine ((h.laid.mem_instrList hb).mp hp).resolve_right fun hi => ?_
  rw [h.laid.phiVar_old h.inv h.lt hb hi] at hv
  cases hv

/-- The loads and the stores are those of the visitors. -/
theorem mem_of_storedVar (hb : b ∈ (m.functions f).basicBlocks) (hi : i ∈ (m1.blocks b).instrList)
    (hv : storedVar m1 i = some v) : i ∈ (m.blocks b).instrList := by
  refine ((h.laid.mem_instrList hb).mp hi).resolve_left fun hp => ?_
  rw [(h.laid.phi_not_old hp).1] at hv
  cases hv

theorem mem_of_loadedVar (hb : b ∈ (m.functions f).basicBlocks) (hi : i ∈ (m1.blocks b).instrList)
    (hv : loadedVar m1 i = some v) : i ∈ (m.blocks b).instrList := by
  refine ((h.laid.mem_instrList hb).mp hi).resolve_left fun hp => ?_
  rw [(h.laid.phi_not_old hp).2] at hv
  cases hv

theorem mem_final (hb : b ∈ (m.functions f).basicBlocks) : i ∈ (m'.blocks b).instrList ↔
    i ∈ (m1.blocks b).instrList ∧ i ∉ r.erased ∧ ¬ isScalarAlloca m1 i := by
  rw [h.promoted.blocks b hb]
  simp

theorem isScalarAlloca_old (hb : b ∈ (m.functions f).basicBlocks) (hi : i ∈ (m.blocks b).instrList) :
    isScalarAlloca m1 i = isScalarAlloca m i := by
  obtain ⟨-, hins, -, -⟩ := h.laid.old h.inv h.lt hb hi
  simp only [isScalarAlloca, hins]

theorem erased_iff (hb : b ∈ (m.functions f).basicBlocks) (hi : i ∈ (m.blocks b).instrList) :
    i ∈ r.erased ↔ Graph.Reaches (Succ m) entry b ∧ ((storedVar m i).isSome ∨
      (loadedVar m i).isSome ∧ r.sub (.instruction i) ≠ .instruction i) := by
  have hi1 := (h.laid.mem_instrList hb).mpr (.inr hi)
  have hst := h.laid.storedVar h.inv h.lt hb hi
  have hld := h.laid.loadedVar h.inv h.lt hb hi
  by_cases hbr : Graph.Reaches (Succ m) entry b
  · rw [h.promoted.erased b (h.mem_order.mpr hbr) i hi1, Erasable, hst, hld]
    simp [hbr]
  · have hno := h.promoted.kept b (fun ho => hbr (h.mem_order.mp ho)) i hi1
    simp [hno, hbr]

/-- The instructions of the visitors that remain. -/
theorem mem_final_old (hb : b ∈ (m.functions f).basicBlocks) (hi : i ∈ (m.blocks b).instrList) :
    i ∈ (m'.blocks b).instrList ↔ ¬ isScalarAlloca m i ∧
      ¬ (Graph.Reaches (Succ m) entry b ∧ ((storedVar m i).isSome ∨
        (loadedVar m i).isSome ∧ r.sub (.instruction i) ≠ .instruction i)) := by
  rw [h.mem_final hb, h.isScalarAlloca_old hb hi, h.erased_iff hb hi, h.laid.mem_instrList hb]
  simp only [hi, or_true, true_and]
  exact and_comm

/-- All phis remain. -/
theorem mem_final_phi (hb : b ∈ (m.functions f).basicBlocks) (hp : p ∈ phis b) :
    p ∈ (m'.blocks b).instrList := by
  have hp1 := (h.laid.mem_instrList hb).mpr (.inl hp)
  obtain ⟨v, -, hins, -⟩ := h.laid.phiVar_phi hp
  obtain ⟨hst, hld⟩ := h.laid.phi_not_old hp
  rw [h.mem_final hb]
  refine ⟨hp1, fun he => ?_, by simp [isScalarAlloca, hins]⟩
  by_cases hbo : b ∈ r.order
  · have her := (h.promoted.erased b hbo p hp1).mp he
    simp [Erasable, hst, hld] at her
  · exact h.promoted.kept b hbo p hp1 he

theorem operands_old (hb : b ∈ (m.functions f).basicBlocks) (hi : i ∈ (m.blocks b).instrList)
    (hi' : i ∈ (m'.blocks b).instrList) :
    (m'.instrs i).operands = (m.instrs i).operands.map r.sub := by
  obtain ⟨hin, hins, -, -⟩ := h.laid.old h.inv h.lt hb hi
  have hnil : r.incoming i = [] := by
    by_contra hne
    have hphi := h.promoted.shaped.incoming_phi i hne
    rw [hins] at hphi
    have hemit := h.inv.emits i hin
    cases ho : (m.instrs i).opId with
    | phi u => exact hemit.ne_phi u ho
    | _ => simp [Instruction.isPhi, ho] at hphi
  rw [h.promoted.instrs b hb i hi']
  simp [Renaming.operands, hnil, hins, pairOperands]

theorem operands_phi (hb : b ∈ (m.functions f).basicBlocks) (hp : p ∈ phis b) :
    (m'.instrs p).operands = pairOperands (r.incoming p) := by
  obtain ⟨v, -, hins, -⟩ := h.laid.phiVar_phi hp
  rw [h.promoted.instrs b hb p (h.mem_final_phi hb hp)]
  simp [Renaming.operands, hins]

theorem parent_final (hb : b ∈ (m.functions f).basicBlocks) (hi : i ∈ (m1.blocks b).instrList) :
    (m'.instrs i).parent = b := by
  rcases (h.laid.mem_instrList hb).mp hi with hp | hi
  · exact (h.between.mem b i (h.mem_final_phi hb hp)).2
  · obtain ⟨hin, -, hp, -⟩ := h.laid.old h.inv h.lt hb hi
    rw [h.between.instrs i hin]
    exact hp

theorem present_of_mem (hi : i ∈ (m'.blocks b).instrList) : m'.Present (.instruction i) := by
  rw [Module.present_instruction, (h.between.mem b i hi).2]
  exact hi

/-- The block of an operand, and that it is in the list there. -/
theorem operand_mem (hb : b ∈ (m.functions f).basicBlocks) (hi : i ∈ (m.blocks b).instrList)
    (hj : .instruction j ∈ (m.instrs i).operands) :
    j < i ∧ (m.instrs j).parent ∈ (m.functions f).basicBlocks ∧
      j ∈ (m.blocks (m.instrs j).parent).instrList ∧ (m'.instrs j).parent = (m.instrs j).parent := by
  obtain ⟨hin, -, -, hfi⟩ := h.laid.old h.inv h.lt hb hi
  obtain ⟨hji, hjb, hjp⟩ := h.inv.operand_parent hin hj
  have hjn := hji.trans hin
  exact ⟨hji, h.mem_blocks.mpr ⟨hjb, hjp.trans hfi⟩, (h.inv.instr_parent j hjn).2,
    by rw [h.between.instrs j hjn]⟩

/-- A value that is not replaced remains. -/
theorem present_of_sub_eq (hb : b ∈ (m.functions f).basicBlocks) (hi : i ∈ (m.blocks b).instrList)
    (hw : w ∈ (m.instrs i).operands) (hsc : ∀ j, w = .instruction j → ¬ isScalarAlloca m j)
    (hst : ∀ j, w = .instruction j → ¬ (m.instrs j).isStore) (hsub : r.sub w = w) :
    m'.Present w := by
  intro j hj
  obtain ⟨-, hjb, hjm, -⟩ := h.operand_mem hb hi (hj ▸ hw)
  apply Module.present_instruction.mp
  apply h.present_of_mem (b := (m.instrs j).parent)
  rw [h.mem_final_old hjb hjm]
  refine ⟨hsc j hj, ?_⟩
  rintro ⟨-, he | ⟨-, he⟩⟩
  · obtain ⟨v, hv⟩ := Option.isSome_iff_exists.mp he
    exact hst j hj (isStore_of_storedVar hv)
  · exact he (hj ▸ hsub)

/-- An operand is computed before its instruction. -/
theorem definedBefore_operand (hb : Graph.Reaches (Succ m) entry b)
    (hlist : (m1.blocks b).instrList = is ++ i :: js) (hi : i ∈ (m.blocks b).instrList)
    (hw : w ∈ (m.instrs i).operands) : DefinedBefore m' entry b is w := by
  intro j hj
  subst hj
  have hbf := h.cfg.reaches_mem hb
  obtain ⟨hji, hjb, hjm, hjp⟩ := h.operand_mem hbf hi hw
  obtain ⟨hin, -, hp, -⟩ := h.laid.old h.inv h.lt hbf hi
  rw [h.between.succ, hjp]
  by_cases hne : (m.instrs j).parent = b
  · rw [hne] at hjm
    obtain ⟨is', rfl, hlist'⟩ := h.laid.split h.inv h.lt hbf hlist hi
    have hsorted := h.inv.instr_sorted b (h.mem_blocks.mp hbf).1
    rw [hlist'] at hjm hsorted
    exact .inl (List.mem_append_right _ (mem_of_sorted hsorted hjm hji))
  · obtain ⟨-, hanc⟩ := (h.inv.emits i hin).available hw j rfl
    rw [hp] at hanc
    exact .inr ⟨h.inv.dominates h.lt h.head hanc, hne⟩

end Described

/-- A value that remains, and that is computed before the end of `is` in block `b`. -/
structure Usable (m' : Module) (entry b : Nat) (is : List Nat) (x : Value) : Prop where
  not_block : ∀ c, x ≠ .basicBlock c
  present : m'.Present x
  before : DefinedBefore m' entry b is x

theorem subset_of_mem_before {is' : List Nat} (js' : List Nat) (hnd : (is' ++ j :: js').Nodup)
    (hl : is ++ js = is' ++ j :: js') (hj : j ∈ is) : ∀ k ∈ is', k ∈ is := by
  intro k hk
  rcases List.append_eq_append_iff.mp hl with ⟨l, rfl, -⟩ | ⟨l, rfl, -⟩
  · exact absurd rfl ((List.nodup_append.mp hnd).2.2 j (List.mem_append_left _ hj) j
      List.mem_cons_self)
  · exact List.mem_append_left _ hk

namespace Described

variable (h : Described m origin addr d f entry fuel m1 phis r m')
include h

/-- A value computed before a place above is computed before a place below it. -/
theorem usable_down {is' : List Nat} (hb : Graph.Reaches (Succ m) entry b)
    (hc : Graph.Reaches (Succ m) entry c) (hcb : Graph.StrictlyDominates (Succ m) entry c b)
    (his : ∀ k ∈ is', k ∈ (m1.blocks c).instrList) (hx : Usable m' entry c is' x) :
    Usable m' entry b is x := by
  refine ⟨hx.not_block, hx.present, fun k hk => ?_⟩
  have hbef := hx.before k hk
  rw [h.between.succ] at hbef ⊢
  rcases hbef with hmem | hdom
  · rw [h.parent_final (h.cfg.reaches_mem hc) (his k hmem)]
    exact .inr hcb
  · exact .inr (hdom.trans_dominates hb hcb.1)

theorem usable_vals (hb : Graph.Reaches (Succ m) entry b)
    (hlist : (m1.blocks b).instrList = is ++ js) (hx : x ∈ valsAfter m1 r b is v) :
    Usable m' entry b (phis b ++ is) x := by
  obtain ⟨keys, -, hw⟩ := h.promoted.walked
  have ha := h.laid.arranged h.inv h.lt h.head h.analysed
  have hphi : ∀ {b}, Graph.Reaches (Succ m) entry b → ∀ k ∈ phis b, k ∈ (m1.blocks b).instrList :=
    fun hb k hk => (h.laid.mem_instrList (h.cfg.reaches_mem hb)).mpr (.inl hk)
  have hinit : ∀ {b is js}, Graph.Reaches (Succ m) entry b →
      (m1.blocks b).instrList = is ++ js → ∀ k ∈ phis b ++ is, k ∈ (m1.blocks b).instrList := by
    intro b is js hb hlist k hk
    rcases List.mem_append.mp hk with hk | hk
    · exact hphi hb k hk
    · rw [hlist]
      exact List.mem_append_left _ hk
  refine hw.vals_rec ha h.promoted.shaped h.analysed.idoms.root
    (P := fun b is _ x => Usable m' entry b (phis b ++ is) x) ?_ ?_ ?_ ?_ ?_ b (h.mem_order.mpr hb)
    is js hlist v x hx
  · intro b hbo p hp v hsome
    have hbf := h.cfg.reaches_mem (h.mem_order.mp hbo)
    have hp' := h.mem_phis_of_phiVar hbf hp hsome
    refine ⟨by simp, h.present_of_mem (h.mem_final_phi hbf hp'), fun k hk => ?_⟩
    cases hk
    exact .inl (List.mem_append_left _ hp')
  · intro b hbo is i js hlist v w hst hop hsub
    have hb := h.mem_order.mp hbo
    have hbf := h.cfg.reaches_mem hb
    have hi := h.mem_of_storedVar hbf (by rw [hlist]; simp) hst
    obtain ⟨hin, hins, hp, -⟩ := h.laid.old h.inv h.lt hbf hi
    rw [h.laid.storedVar h.inv h.lt hbf hi] at hst
    obtain ⟨w', hops, hw'⟩ := h.inv.stored_value hin hst
    rw [hins, Instruction.getOperand, hops] at hop
    cases hop
    have hmem : w ∈ (m.instrs i).operands := by rw [hops]; simp
    have hbef := h.definedBefore_operand hb hlist hi hmem
    have hbef' : DefinedBefore m' entry b (phis b ++ (is ++ [i])) w :=
      fun k hk => (hbef k hk).imp_left fun hk => by simp [hk]
    rcases hw' with hval | ⟨k, -, rfl⟩
    · rw [hp] at hval
      refine ⟨fun c => hval.ne_basicBlock, h.present_of_sub_eq hbf hi hmem ?_ ?_ hsub, hbef'⟩
      · rintro j rfl
        exact hval.kind.1
      · rintro j rfl
        exact hval.kind.2
    · exact ⟨by simp, fun _ hj => (by cases hj), hbef'⟩
  · intro b hbo is i js hlist v j _ _ _ _ b' hbo' is' js' hlist' hor x hx
    have hb := h.mem_order.mp hbo
    have hb' := h.mem_order.mp hbo'
    rcases hor with ⟨rfl, hj⟩ | ⟨hanc, hne⟩
    · have hsub : ∀ k ∈ is', k ∈ is := by
        apply subset_of_mem_before js' (j := j)
        · rw [← hlist']
          exact ha.nodup b' hb
        · exact hlist.symm.trans hlist'
        · exact hj
      refine ⟨hx.not_block, hx.present, fun k hk => (hx.before k hk).imp_left fun hk => ?_⟩
      rcases List.mem_append.mp hk with hk | hk
      · exact List.mem_append_left _ hk
      · simp [hsub k hk]
    · exact h.usable_down hb hb' ⟨(h.ancestor_iff hb).mp hanc, hne⟩ (hinit hb' hlist') hx
  · intro b _ is js ks _ _ x hx
    refine ⟨hx.not_block, hx.present, fun k hk => (hx.before k hk).imp_left fun hk => ?_⟩
    rcases List.mem_append.mp hk with hk | hk
    · exact List.mem_append_left _ hk
    · simp [hk]
  · intro a hao b hbo hidom hne _ x hx
    have hb := h.mem_order.mp hbo
    have ha := h.mem_order.mp hao
    have hdom := (h.ancestor_iff hb).mp (Graph.Ancestor.of_idom hidom)
    exact h.usable_down hb ha ⟨hdom, hne⟩ (hinit ha (List.append_nil _).symm) hx

/-- The value that has replaced a load was on the stack. -/
theorem replaced_mem_vals (hb : b ∈ (m.functions f).basicBlocks) (hj : j ∈ (m.blocks b).instrList)
    (hsub : r.sub (.instruction j) ≠ .instruction j) : Graph.Reaches (Succ m) entry b ∧
      ∃ is js v, (m1.blocks b).instrList = is ++ j :: js ∧ loadedVar m1 j = some v ∧
        r.sub (.instruction j) ∈ valsAfter m1 r b is v := by
  obtain ⟨keys, -, hw⟩ := h.promoted.walked
  obtain ⟨j, he, hld, hjo⟩ := hw.sub_ne h.promoted.shaped hsub
  cases he
  obtain ⟨-, hins, hp, -⟩ := h.laid.old h.inv h.lt hb hj
  rw [hins, hp] at hjo
  obtain ⟨is, js, hlist⟩ := List.append_of_mem ((h.laid.mem_instrList hb).mpr (.inr hj))
  obtain ⟨v, hv⟩ := Option.isSome_iff_exists.mp hld
  exact ⟨h.mem_order.mp hjo, is, js, v, hlist, hv, (hw.loads b hjo).mem_vals hlist hv hsub⟩

theorem sub_mem_vals (hb : b ∈ (m.functions f).basicBlocks) (hi : i ∈ (m.blocks b).instrList)
    (hw : w ∈ (m.instrs i).operands) (hsub : r.sub w ≠ w) :
    ∃ j c is js v, w = .instruction j ∧ Graph.Reaches (Succ m) entry c ∧ (m'.instrs j).parent = c ∧
      (m1.blocks c).instrList = is ++ j :: js ∧ loadedVar m1 j = some v ∧
        r.sub w ∈ valsAfter m1 r c is v := by
  obtain ⟨keys, -, hwk⟩ := h.promoted.walked
  obtain ⟨j, rfl, -, -⟩ := hwk.sub_ne h.promoted.shaped hsub
  obtain ⟨-, hjb, hjm, hjp⟩ := h.operand_mem hb hi hw
  obtain ⟨hc, is, js, v, hlist, hv, hval⟩ := h.replaced_mem_vals hjb hjm hsub
  exact ⟨j, _, is, js, v, rfl, hc, hjp, hlist, hv, hval⟩

theorem usable_sub (hb : b ∈ (m.functions f).basicBlocks) (hi : i ∈ (m.blocks b).instrList)
    (hw : w ∈ (m.instrs i).operands) (hsub : r.sub w ≠ w) :
    ∃ j c is js, w = .instruction j ∧ Graph.Reaches (Succ m) entry c ∧ (m'.instrs j).parent = c ∧
      (m1.blocks c).instrList = is ++ j :: js ∧ Usable m' entry c (phis c ++ is) (r.sub w) := by
  obtain ⟨j, c, is, js, v, hwj, hc, hjp, hlist, -, hval⟩ := h.sub_mem_vals hb hi hw hsub
  exact ⟨j, c, is, js, hwj, hc, hjp, hlist, h.usable_vals hc hlist hval⟩

theorem present_operand (hb : b ∈ (m.functions f).basicBlocks) (hi : i ∈ (m.blocks b).instrList)
    (hw : w ∈ (m.instrs i).operands) (hsc : ∀ j, w = .instruction j → ¬ isScalarAlloca m j) :
    m'.Present (r.sub w) := by
  by_cases hsub : r.sub w = w
  · rw [hsub]
    apply h.present_of_sub_eq hb hi hw hsc _ hsub
    rintro j rfl hst
    obtain ⟨hin, -, -, -⟩ := h.laid.old h.inv h.lt hb hi
    rcases (h.inv.emits i hin).operand_kind hw with hv | ⟨hv, -⟩ | hv
    · exact hv.kind.2 hst
    · obtain ⟨-, -, ha⟩ := hv
      simp [Instruction.isAlloca, Instruction.isGep, opId_of_isStore hst] at ha
    · exact hv j rfl
  · obtain ⟨j, c, is', js', -, -, -, -, hu⟩ := h.usable_sub hb hi hw hsub
    exact hu.present

/-- The value that has replaced a load can be used wherever the load could. -/
theorem usable_replaced (hb : Graph.Reaches (Succ m) entry b)
    (hlist : (m1.blocks b).instrList = is ++ js) (hc : c ∈ (m.functions f).basicBlocks)
    (hj : j ∈ (m.blocks c).instrList) (hsub : r.sub (.instruction j) ≠ .instruction j)
    (hdef : DefinedBefore m' entry b is (.instruction j)) :
    Usable m' entry b (phis b ++ is) (r.sub (.instruction j)) := by
  have hbf := h.cfg.reaches_mem hb
  obtain ⟨hcr, is', js', v, hlist', -, hval⟩ := h.replaced_mem_vals hc hj hsub
  have hu := h.usable_vals hcr hlist' hval
  have hjp := h.parent_final hc ((h.laid.mem_instrList hc).mpr (.inr hj))
  -- the load comes before the place in its block, or in a block that dominates it
  rcases hdef j rfl with hji | hdom
  · have hp := h.parent_final hbf (i := j) (by rw [hlist]; simp [hji])
    obtain rfl : c = b := hjp.symm.trans hp
    have ha := h.laid.arranged h.inv h.lt h.head h.analysed
    have hsub' : ∀ k ∈ is', k ∈ is := by
      apply subset_of_mem_before js' (j := j)
      · rw [← hlist']
        exact ha.nodup c hcr
      · exact hlist.symm.trans hlist'
      · exact hji
    refine ⟨hu.not_block, hu.present, fun k hk => (hu.before k hk).imp_left fun hk => ?_⟩
    rcases List.mem_append.mp hk with hk | hk
    · exact List.mem_append_left _ hk
    · exact List.mem_append_right _ (hsub' k hk)
  · rw [h.between.succ, hjp] at hdom
    refine h.usable_down hb hcr hdom (fun k hk => ?_) hu
    rcases List.mem_append.mp hk with hk | hk
    · exact (h.laid.mem_instrList hc).mpr (.inl hk)
    · rw [hlist']
      exact List.mem_append_left _ hk

theorem before_operand (hb : Graph.Reaches (Succ m) entry b)
    (hlist : (m1.blocks b).instrList = is ++ i :: js) (hi : i ∈ (m.blocks b).instrList)
    (hw : w ∈ (m.instrs i).operands) : DefinedBefore m' entry b is (r.sub w) := by
  have hbf := h.cfg.reaches_mem hb
  have hdef := h.definedBefore_operand hb hlist hi hw
  by_cases hsub : r.sub w = w
  · rwa [hsub]
  · obtain ⟨j, -, -, -, -, rfl, -⟩ := h.sub_mem_vals hbf hi hw hsub
    obtain ⟨-, hjb, hjm, -⟩ := h.operand_mem hbf hi hw
    have hu := h.usable_replaced hb hlist hjb hjm hsub hdef
    obtain ⟨is0, rfl, -⟩ := h.laid.split h.inv h.lt hbf hlist hi
    intro k hk
    refine (hu.before k hk).imp_left fun hk => ?_
    rcases List.mem_append.mp hk with hk | hk
    · exact List.mem_append_left _ hk
    · exact hk

theorem reaches_of_path (ha : b ∈ (m.functions f).basicBlocks) (hbc : Relation.TransGen (Succ m) b c)
    (hc : Graph.Reaches (Succ m) entry c) : Graph.Reaches (Succ m) entry b := by
  have hclosed : ∀ {x}, Relation.TransGen (Succ m) b x → x ∈ (m.functions f).basicBlocks := by
    intro x hbx
    induction hbx with
    | single hbx => exact h.cfg.closed _ ha _ hbx
    | tail _ hyx ih => exact h.cfg.closed _ ih _ hyx
  induction hbc with
  | single hbc => exact h.dead b ha _ hbc hc
  | tail hbx hxc ih => exact ih (h.dead _ (hclosed hbx) _ hxc hc)

/-- No value of a variable has come to a place when no store to it leads there. -/
theorem vals_eq_nil_iff (hb : Graph.Reaches (Succ m) entry b)
    (hlist : (m1.blocks b).instrList = is ++ js) :
    valsAfter m1 r b is v = [] ↔ (∀ k ∈ is, storedVar m1 k ≠ some v) ∧
      ∀ a, Stores m (m.functions f).basicBlocks v a → ¬ Relation.TransGen (Succ m) a b := by
  obtain ⟨keys, -, hw⟩ := h.promoted.walked
  have ha := h.laid.arranged h.inv h.lt h.head h.analysed
  have hbf := h.cfg.reaches_mem hb
  have hop : ∀ k ∈ is, ∀ v, storedVar m1 k = some v → ((m1.instrs k).getOperand 0).isSome := by
    intro k hk v hv
    obtain ⟨l, l', hl⟩ := List.append_of_mem hk
    have hsplit : (m1.blocks b).instrList = l ++ k :: (l' ++ js) := by rw [hlist, hl]; simp
    obtain ⟨w, hw, -⟩ := ha.stored b hb l k _ hsplit v hv
    simp [hw]
  have hphi : phiVals m1 (m1.blocks b).instrList v = [] ↔
      ¬ Graph.IteratedFrontier (Graph.Frontier (Succ m) entry)
        (Stores m (m.functions f).basicBlocks v) b := by
    rw [phiVals_eq_nil, ← h.analysed.phiBlock_iff h.cfg h.dead (fun _ hx => hx.1) hb]
    constructor
    · intro hno hph
      obtain ⟨p, hp, hins⟩ := h.laid.has b v hph
      exact hno p ((h.laid.mem_instrList hbf).mpr (.inl hp)) (by simp [phiVar, hins])
    · intro hno p hp hpv
      rcases (h.laid.mem_instrList hbf).mp hp with hp | hp
      · obtain ⟨u, hu, -, hph⟩ := h.laid.phiVar_phi hp
        rw [hpv] at hu
        cases hu
        exact hno hph
      · rw [h.laid.phiVar_old h.inv h.lt hbf hp] at hpv
        cases hpv
  rw [valsAfter, List.append_eq_nil_iff, List.append_eq_nil_iff, storedVals_eq_nil hop, hphi,
    hw.entry_eq_nil ha h.analysed.idoms.root (h.analysed.hasTree.isTree h.cfg).antisymm (h.mem_order.mpr hb)]
  have hdef : ∀ {a}, Graph.Reaches (Succ m) entry a → (Def m1 v a ↔
      Graph.Defines (Succ m) entry (Stores m (m.functions f).basicBlocks v) a) := by
    intro a har
    rw [h.laid.def_iff h.inv h.lt (h.cfg.reaches_mem har),
      h.analysed.phiBlock_iff h.cfg h.dead (fun _ hx => hx.1) har]
    rfl
  apply and_congr_right
  intro _
  refine ⟨?_, fun hno => ⟨?_, ?_⟩⟩
  · rintro ⟨hnphi, hno⟩ a hst hab
    have har := h.reaches_of_path hst.1 hab hb
    rcases Graph.Defines.reaches (.inl hst) har hab with ⟨z, hz, hzb⟩ | hif
    · exact hno z ((h.ancestor_iff hb).mpr hzb.1) hzb.2 ((hdef (hzb.1.reaches hb)).mpr hz)
    · exact hnphi hif
  · intro hif
    obtain ⟨a, hst, hab⟩ := hif.exists_path
    exact hno a hst hab
  · intro a hab hne hd
    have hdom : Graph.StrictlyDominates (Succ m) entry a b := ⟨(h.ancestor_iff hb).mp hab, hne⟩
    have hpath := hdom.path hb
    rcases (hdef (hdom.1.reaches hb)).mp hd with hst | hif
    · exact hno a hst hpath
    · obtain ⟨c, hst, hca⟩ := hif.exists_path
      exact hno c hst (hca.trans hpath)

/-- A load is replaced exactly when some value has come to it. -/
theorem sub_load_iff (hb : Graph.Reaches (Succ m) entry b)
    (hlist : (m1.blocks b).instrList = is ++ i :: js) (hv : loadedVar m1 i = some v) :
    r.sub (.instruction i) = .instruction i ↔ valsAfter m1 r b is v = [] := by
  obtain ⟨keys, -, hw⟩ := h.promoted.walked
  have ha := h.laid.arranged h.inv h.lt h.head h.analysed
  obtain ⟨hhead, hnil⟩ := hw.loads b (h.mem_order.mpr hb) is i js hlist v hv
  constructor
  · intro hsub
    cases hvals : valsAfter m1 r b is v with
    | nil => rfl
    | cons x xs =>
      have hx := hhead x (by rw [hvals]; rfl)
      rw [hsub] at hx
      subst hx
      have hu := h.usable_vals hb hlist (v := v) (x := .instruction i) (by rw [hvals]; simp)
      have hnd := ha.nodup b hb
      have hbf := h.cfg.reaches_mem hb
      have hil : i ∈ (m1.blocks b).instrList := by rw [hlist]; simp
      rcases hu.before i rfl with hmem | hdom
      · rcases List.mem_append.mp hmem with hp | hmem
        · have := (h.laid.phi_not_old hp).2
          rw [hv] at this
          cases this
        · rw [hlist] at hnd
          exact absurd rfl ((List.nodup_append.mp hnd).2.2 i hmem i List.mem_cons_self)
      · rw [h.parent_final hbf hil] at hdom
        exact absurd hdom (Graph.strictlyDominates_irrefl)
  · exact fun hvals => (hnil hvals).1

end Described

end Mem2Reg

end Cminusf
