import Cminusf.Builder.Stored
import Cminusf.Optimization.Execution
import Cminusf.Optimization.Ssa

/-! The value of a variable at a place: the top of its stack when the walk of `re_name` comes
there. A step inside a block and a step along an edge say what becomes of it. -/

namespace Cminusf

namespace Mem2Reg

open Renaming Builder Dominators

variable {m m' m1 : Module} {b c f i j k p s entry fuel : Nat} {v w x : Value}
  {origin : Nat → Option Nat} {d : Dominators} {phis : Nat → List Nat} {r : Renaming}
  {addr : Nat → Nat} {is js : List Nat}

/-- The value of `v` behind the phis of block `b` and the instructions `is`. -/
def valueAfter (m1 : Module) (phis : Nat → List Nat) (r : Renaming) (b : Nat) (is : List Nat)
    (v : Value) : Option Value :=
  (valsAfter m1 r b (phis b ++ is) v).head?

theorem valsAfter_concat (m : Module) (r : Renaming) (b : Nat) (is : List Nat) (i : Nat)
    (v : Value) : valsAfter m r b (is ++ [i]) v = (if storedVar m i = some v then
      (((m.instrs i).getOperand 0).map r.sub).toList else []) ++ valsAfter m r b is v := by
  by_cases hv : storedVar m i = some v
  · cases ho : (m.instrs i).getOperand 0 <;> simp [valsAfter, storedVals, hv, ho]
  · simp [valsAfter, storedVals, hv]

namespace Described

variable (h : Described m origin addr d f entry fuel m1 phis r m')
include h

theorem arranged : Arranged m1 d.idom (Graph.Reaches (Succ m) entry) :=
  h.laid.arranged h.inv h.lt h.head h.analysed

theorem instrList_laid (hb : b ∈ (m.functions f).basicBlocks) :
    (m1.blocks b).instrList = phis b ++ (m.blocks b).instrList := by
  rw [h.laid.blocks b hb]

/-- The variables that have a phi in a block. -/
theorem exists_phi_iff (hb : Graph.Reaches (Succ m) entry b) :
    (∃ p ∈ phis b, phiVar m1 p = some v) ↔ Graph.IteratedFrontier (Graph.Frontier (Succ m) entry)
      (Stores m (m.functions f).basicBlocks v) b := by
  rw [← h.analysed.phiBlock_iff h.cfg h.dead (fun _ hx => hx.1) hb]
  constructor
  · rintro ⟨p, hp, hv⟩
    obtain ⟨u, hu, -, hph⟩ := h.laid.phiVar_phi hp
    rw [hv] at hu
    cases hu
    exact hph
  · intro hph
    obtain ⟨p, hp, hins⟩ := h.laid.has b v hph
    exact ⟨p, hp, by simp [phiVar, hins]⟩

theorem def_iff (hb : Graph.Reaches (Succ m) entry b) : Def m1 v b ↔
    Graph.Defines (Succ m) entry (Stores m (m.functions f).basicBlocks v) b := by
  rw [h.laid.def_iff h.inv h.lt (h.cfg.reaches_mem hb),
    h.analysed.phiBlock_iff h.cfg h.dead (fun _ hx => hx.1) hb]
  rfl

/-- A block that gives the variable no value leaves its stack as it finds it. -/
theorem valsAtEnd_of_not_def (hb : Graph.Reaches (Succ m) entry b) (hd : ¬ Def m1 v b) :
    valsAtEnd m1 r b v = (r.entryStack b v).getD [] := by
  have hst : storedVals m1 r.sub (m1.blocks b).instrList v = [] := by
    rw [storedVals_eq_nil]
    · exact fun k hk hkv => hd ⟨k, hk, .inl hkv⟩
    · intro k hk v hv
      obtain ⟨is, js, hlist⟩ := List.append_of_mem hk
      obtain ⟨w, hw, -⟩ := h.arranged.stored b hb is k js hlist v hv
      simp [hw]
  have hphi : phiVals m1 (m1.blocks b).instrList v = [] :=
    phiVals_eq_nil.mpr fun k hk hkv => hd ⟨k, hk, .inr hkv⟩
  rw [valsAtEnd, valsAfter, hst, hphi]
  rfl

/-- On an edge to a block without a phi of the variable, the stack at the end of the block before
is the one with which the block is entered. -/
theorem valsAtEnd_edge (hb : Graph.Reaches (Succ m) entry b) (hs : Succ m b s)
    (hno : ¬ ∃ p ∈ phis s, phiVar m1 p = some v) :
    valsAtEnd m1 r b v = (r.entryStack s v).getD [] := by
  obtain ⟨keys, -, hw⟩ := h.promoted.walked
  have hsr : Graph.Reaches (Succ m) entry s := hb.tail hs
  rw [h.exists_phi_iff hsr] at hno
  obtain ⟨pre, post, hord⟩ := List.append_of_mem (h.mem_order.mpr hsr)
  rcases hw.entry pre s post hord with ⟨rfl, -⟩ | ⟨a, hap, hidom, hne, hvals⟩
  · have hpre := (h.cfg.pre s h.cfg.entry_mem b).mpr ⟨h.cfg.reaches_mem hb, hs⟩
    rw [h.cfg.entry_pre] at hpre
    cases hpre
  rw [hvals v]
  have has : Graph.StrictlyDominates (Succ m) entry a s :=
    ⟨(h.ancestor_iff hsr).mp (Graph.Ancestor.of_idom hidom), hne⟩
  have hab := (h.ancestor_iff hb).mpr (has.dominates_pred hs)
  -- up the tree from the end of the edge to the immediate dominator of its target
  have key : ∀ y, Graph.Ancestor d.idom a y → Graph.Dominates (Succ m) entry y b →
      valsAtEnd m1 r y v = valsAtEnd m1 r a v := by
    intro y hay
    induction hay using Relation.ReflTransGen.head_induction_on with
    | refl => exact fun _ => rfl
    | @head y z hyz hza ih =>
      intro hyb
      have hyr : Graph.Reaches (Succ m) entry y := hyb.reaches hb
      by_cases hya : y = a
      · rw [hya]
      have haz : Graph.Ancestor d.idom a y := Relation.ReflTransGen.head hyz hza
      have hay := (h.ancestor_iff hyr).mp haz
      have hnd : ¬ Def m1 v y := by
        rw [h.def_iff hyr]
        intro hd
        refine hno (hd.frontier ⟨⟨b, hs, hb, hyb⟩, fun hys => hya ?_⟩)
        obtain ⟨e, he, hye⟩ := Graph.Ancestor.parent ((h.ancestor_iff hsr).mpr hys.1) hys.2
        obtain rfl : e = a := Option.some.inj (he.symm.trans hidom)
        exact Graph.Dominates.antisymm hyr ((h.ancestor_iff (has.1.reaches hsr)).mp hye) hay
      obtain ⟨pre, post, hord⟩ := List.append_of_mem (h.mem_order.mpr hyr)
      rcases hw.entry pre y post hord with ⟨rfl, -⟩ | ⟨e, -, he, hne, hvals⟩
      · exact absurd (haz.eq_of_fixed h.analysed.idoms.root).symm hya
      · obtain rfl : e = z := Option.some.inj (he.symm.trans hyz)
        rw [h.valsAtEnd_of_not_def hyr hnd, hvals v]
        refine ih (Graph.Dominates.trans ?_ hyb)
        exact (h.ancestor_iff hyr).mp (Graph.Ancestor.of_idom he)
  exact key b hab (Graph.dominates_refl _ _ _)

theorem storedVals_phis (b : Nat) (v : Value) : storedVals m1 r.sub (phis b) v = [] := by
  rw [storedVals_eq_nil]
  · intro k hk
    rw [(h.laid.phi_not_old hk).1]
    simp
  · intro k hk v hv
    rw [(h.laid.phi_not_old hk).1] at hv
    cases hv

theorem valueAfter_phi (hb : Graph.Reaches (Succ m) entry b) (hp : p ∈ phis b)
    (hv : phiVar m1 p = some v) : valueAfter m1 phis r b [] v = some (.instruction p) := by
  have hbf := h.cfg.reaches_mem hb
  have hmem : .instruction p ∈ phiVals m1 (m1.blocks b).instrList v :=
    mem_phiVals.mpr ⟨p, (h.laid.mem_instrList hbf).mpr (.inl hp), hv, rfl⟩
  rw [valueAfter, List.append_nil, valsAfter, h.storedVals_phis b v, List.nil_append]
  cases hvals : phiVals m1 (m1.blocks b).instrList v with
  | nil =>
    rw [hvals] at hmem
    cases hmem
  | cons x xs =>
    have hx : x ∈ phiVals m1 (m1.blocks b).instrList v := by
      rw [hvals]
      exact List.mem_cons_self
    obtain ⟨q, hq, hqv, rfl⟩ := mem_phiVals.mp hx
    have hq' := h.mem_phis_of_phiVar hbf hq hqv
    have hop : (m1.instrs q).opId = (m1.instrs p).opId := by
      obtain ⟨u, hu, hins, -⟩ := h.laid.phiVar_phi hp
      obtain ⟨u', hu', hins', -⟩ := h.laid.phiVar_phi hq'
      rw [hv] at hu
      rw [hqv] at hu'
      cases hu
      cases hu'
      rw [hins, hins']
    rw [h.laid.unique b q hq' p hp hop]
    rfl

theorem valueAfter_end (hb : b ∈ (m.functions f).basicBlocks) :
    valueAfter m1 phis r b (m.blocks b).instrList v = (valsAtEnd m1 r b v).head? := by
  rw [valueAfter, valsAtEnd, h.instrList_laid hb]

theorem valueAfter_edge (hb : Graph.Reaches (Succ m) entry b) (hs : Succ m b s)
    (hno : ¬ ∃ p ∈ phis s, phiVar m1 p = some v) :
    valueAfter m1 phis r s [] v = valueAfter m1 phis r b (m.blocks b).instrList v := by
  have hsf := h.cfg.reaches_mem (hb.tail hs)
  have hphi : phiVals m1 (m1.blocks s).instrList v = [] := by
    exact phiVals_eq_nil.mpr fun k hk hkv => hno ⟨k, h.mem_phis_of_phiVar hsf hk hkv, hkv⟩
  rw [h.valueAfter_end (h.cfg.reaches_mem hb), h.valsAtEnd_edge hb hs hno, valueAfter,
    List.append_nil, valsAfter, h.storedVals_phis s v, hphi]
  rfl

theorem split_laid (hb : b ∈ (m.functions f).basicBlocks)
    (hlist : (m.blocks b).instrList = is ++ i :: js) :
    (m1.blocks b).instrList = (phis b ++ is) ++ i :: js := by
  rw [h.instrList_laid hb, hlist, List.append_assoc]

theorem valueAfter_store (hb : b ∈ (m.functions f).basicBlocks)
    (hi : i ∈ (m.blocks b).instrList) (hv : storedVar m i = some v)
    (hw : (m.instrs i).operands = [w, v]) :
    valueAfter m1 phis r b (is ++ [i]) v = some (r.sub w) := by
  obtain ⟨-, hins, -, -⟩ := h.laid.old h.inv h.lt hb hi
  have hop : (m1.instrs i).getOperand 0 = some w := by simp [hins, Instruction.getOperand, hw]
  rw [valueAfter, ← List.append_assoc, valsAfter_concat, h.laid.storedVar h.inv h.lt hb hi,
    if_pos hv, hop]
  rfl

theorem valueAfter_other (hb : b ∈ (m.functions f).basicBlocks)
    (hi : i ∈ (m.blocks b).instrList) (hv : storedVar m i ≠ some v) :
    valueAfter m1 phis r b (is ++ [i]) v = valueAfter m1 phis r b is v := by
  rw [valueAfter, ← List.append_assoc, valsAfter_concat, h.laid.storedVar h.inv h.lt hb hi,
    if_neg hv]
  rfl

/-- What a load is replaced by. -/
theorem sub_load (hb : Graph.Reaches (Succ m) entry b)
    (hlist : (m.blocks b).instrList = is ++ i :: js) (hv : loadedVar m i = some v) :
    (∀ x, valueAfter m1 phis r b is v = some x → r.sub (.instruction i) = x) ∧
      (valueAfter m1 phis r b is v = none → r.sub (.instruction i) = .instruction i) := by
  obtain ⟨keys, -, hw⟩ := h.promoted.walked
  have hbf := h.cfg.reaches_mem hb
  have hi : i ∈ (m.blocks b).instrList := by
    rw [hlist]
    simp
  obtain ⟨hhead, hnil⟩ := hw.loads b (h.mem_order.mpr hb) _ i js (h.split_laid hbf hlist) v
    ((h.laid.loadedVar h.inv h.lt hbf hi).trans hv)
  exact ⟨hhead, fun hno => (hnil (List.head?_eq_none_iff.mp hno)).1⟩

theorem usable_value (hb : Graph.Reaches (Succ m) entry b)
    (hlist : (m.blocks b).instrList = is ++ js)
    (hx : valueAfter m1 phis r b is v = some x) : Usable m' entry b (phis b ++ is) x := by
  have hlist1 : (m1.blocks b).instrList = (phis b ++ is) ++ js := by
    rw [h.instrList_laid (h.cfg.reaches_mem hb), hlist, List.append_assoc]
  have hu := h.usable_vals hb hlist1 (List.mem_of_mem_head? hx)
  refine ⟨hu.not_block, hu.present, fun k hk => (hu.before k hk).imp_left fun hk => ?_⟩
  rcases List.mem_append.mp hk with hk | hk
  · exact List.mem_append_left _ hk
  · exact hk

/-- The value that a phi gets on an edge. -/
theorem incoming_edge (hb : Graph.Reaches (Succ m) entry b) (hs : Succ m b s) (hp : p ∈ phis s)
    (hv : phiVar m1 p = some v)
    (hx : valueAfter m1 phis r b (m.blocks b).instrList v = some x) :
    Execution.incoming m' (.instruction p) b = some x := by
  obtain ⟨keys, -, hw⟩ := h.promoted.walked
  have hbf := h.cfg.reaches_mem hb
  have hsf := h.cfg.reaches_mem (hb.tail hs)
  rw [h.valueAfter_end hbf] at hx
  have hs1 : s ∈ (m1.blocks b).succBbs := by
    rw [h.laid.blocks b hbf]
    exact hs
  have hpair := (hw.edges b (h.mem_order.mpr hb) s hs1 p
    ((h.laid.mem_instrList hsf).mpr (.inl hp)) v hv).1 x hx
  have hnd := hw.incoming_nodup p
  rw [Execution.incoming, h.operands_phi hsf hp, pairUp_pairOperands]
  revert hpair hnd
  generalize r.incoming p = pairs
  intro hpair hnd
  induction pairs with
  | nil => cases hpair
  | cons pair pairs ih =>
    rw [List.map_cons, List.nodup_cons] at hnd
    rcases List.mem_cons.mp hpair with rfl | hpair
    · simp
    · have hne : pair.2 ≠ b := by
        rintro rfl
        exact hnd.1 (List.mem_map.mpr ⟨_, hpair, rfl⟩)
      rw [List.map_cons, List.find?_cons_of_neg (by simpa using hne)]
      exact ih hpair hnd.2

/-- The type of a value that the visitors have made. -/
theorem getType_final (hv : ∀ j, v = .instruction j → j < m.numInstrs) :
    m'.getType v = m.getType v := by
  cases v with
  | instruction j => rw [Module.getType, h.between.instrs j (hv j rfl), Module.getType]
  | _ => simp only [Module.getType, h.between.functions, h.between.globals]

theorem type_load (hj : j < m.numInstrs) (hv : loadedVar m j = some v) :
    m.getType (.instruction j) = phiType m v := by
  have hl := isLoad_of_loadedVar hv
  obtain ⟨ptr, hops, -, hty⟩ := (h.inv.emits_of_opId hj (opId_of_isLoad hl)).load_operands
  simp only [loadedVar, hl, if_true, Instruction.getOperand, hops, List.getElem?_cons_zero] at hv
  obtain ⟨he, -⟩ := Option.filter_eq_some_iff.mp hv
  cases he
  rw [phiType, hty]
  rfl

/-- A value of a variable has its type, unless a conversion has made it. -/
theorem type_vals (hfit : StoresFit m) (hb : Graph.Reaches (Succ m) entry b)
    (hlist : (m1.blocks b).instrList = is ++ js) (hx : x ∈ valsAfter m1 r b is v) :
    m'.getType x = phiType m v ∨ Converted m x ∧ ∀ j, x = .instruction j → j < m.numInstrs := by
  obtain ⟨keys, -, hw⟩ := h.promoted.walked
  have storable : ∀ {b}, Graph.Reaches (Succ m) entry b → ∀ {is i js},
      (m1.blocks b).instrList = is ++ i :: js → ∀ {v w}, storedVar m1 i = some v →
        (m1.instrs i).getOperand 0 = some w → Storable m w v ∧ ∀ j, w = .instruction j →
          j < m.numInstrs := by
    intro b hb is i js hlist v w hst hop
    have hbf := h.cfg.reaches_mem hb
    have hi := h.mem_of_storedVar hbf (by rw [hlist]; simp) hst
    obtain ⟨hin, hins, -, -⟩ := h.laid.old h.inv h.lt hbf hi
    rw [h.laid.storedVar h.inv h.lt hbf hi] at hst
    obtain ⟨-, w', hops⟩ := h.inv.storedVar hin hst
    rw [hins, Instruction.getOperand, hops] at hop
    cases hop
    obtain ⟨val, ptr, hops', hs⟩ := hfit i hin (opId_of_isStore (isStore_of_storedVar hst))
    rw [hops] at hops'
    cases hops'
    refine ⟨hs, fun j hj => ?_⟩
    subst hj
    exact hs.value
  refine hw.vals_rec h.arranged h.promoted.shaped h.analysed.idoms.root
    (P := fun _ _ v x => m'.getType x = phiType m v ∨
      Converted m x ∧ ∀ j, x = .instruction j → j < m.numInstrs) ?_ ?_ ?_
    (fun _ _ _ _ _ _ _ _ hx => hx) (fun _ _ _ _ _ _ _ _ hx => hx) b (h.mem_order.mpr hb) is js
    hlist v x hx
  · intro b hbo p hp v hv
    have hbf := h.cfg.reaches_mem (h.mem_order.mp hbo)
    have hp' := h.mem_phis_of_phiVar hbf hp hv
    obtain ⟨u, hu, hins, -⟩ := h.laid.phiVar_phi hp'
    rw [hv] at hu
    cases hu
    left
    rw [Module.getType, h.promoted.instrs b hbf p (h.mem_final_phi hbf hp'), hins]
  · intro b hbo is i js hlist v w hst hop _
    obtain ⟨hs, hw⟩ := storable (h.mem_order.mp hbo) hlist hst hop
    refine hs.type.imp (fun ht => ?_) fun hc => ⟨hc, hw⟩
    rw [h.getType_final hw, phiType, ht]
    rfl
  · intro b hbo is i js hlist v j u hst hop hld b' hbo' is' js' hlist' _ x hx
    obtain ⟨hs, -⟩ := storable (h.mem_order.mp hbo) hlist hst hop
    have hbf' := h.cfg.reaches_mem (h.mem_order.mp hbo')
    have hj := h.mem_of_loadedVar hbf' (by rw [hlist']; simp) hld
    obtain ⟨hjn, -, -, -⟩ := h.laid.old h.inv h.lt hbf' hj
    rw [h.laid.loadedVar h.inv h.lt hbf' hj] at hld
    have hty : m.getType (.instruction j) = phiType m u := h.type_load hjn hld
    refine hx.imp_left fun hx => hx.trans ?_
    rcases hs.type with ht | ⟨k, ty, hk, hconv⟩
    · rw [← hty, phiType, ht]
      rfl
    · cases hk
      rw [opId_of_isLoad (isLoad_of_loadedVar hld)] at hconv
      rcases hconv with hconv | hconv <;> cases hconv

/-- The type of an operand after the pass. -/
theorem type_operand (hfit : StoresFit m) (hb : b ∈ (m.functions f).basicBlocks)
    (hi : i ∈ (m.blocks b).instrList) (hw : w ∈ (m.instrs i).operands) :
    m'.getType (r.sub w) = m.getType w ∨
      Converted m (r.sub w) ∧ ∀ j, r.sub w = .instruction j → j < m.numInstrs := by
  by_cases hsub : r.sub w = w
  · rw [hsub]
    refine .inl (h.getType_final fun j hj => ?_)
    subst hj
    exact (h.operand_mem hb hi hw).1.trans (h.laid.old h.inv h.lt hb hi).1
  · obtain ⟨j, c, is, js, v, rfl, hc, -, hlist, hld, hval⟩ := h.sub_mem_vals hb hi hw hsub
    have hcf := h.cfg.reaches_mem hc
    have hj := h.mem_of_loadedVar hcf (by rw [hlist]; simp) hld
    obtain ⟨hjn, -, -, -⟩ := h.laid.old h.inv h.lt hcf hj
    rw [h.laid.loadedVar h.inv h.lt hcf hj] at hld
    rw [h.type_load hjn hld]
    exact h.type_vals hfit hc hlist hval

/-- An instruction does not use its own result. -/
theorem ne_of_usable (hb : Graph.Reaches (Succ m) entry b)
    (hlist : (m.blocks b).instrList = is ++ i :: js) (hx : Usable m' entry b (phis b ++ is) x) :
    x ≠ .instruction i := by
  rintro rfl
  have hbf := h.cfg.reaches_mem hb
  have hi : i ∈ (m.blocks b).instrList := by
    rw [hlist]
    simp
  rcases hx.before i rfl with hmem | hdom
  · rcases List.mem_append.mp hmem with hp | hmem
    · have hle := (h.laid.phi b i hp).1
      have hlt := (h.laid.old h.inv h.lt hbf hi).1
      omega
    · have hsorted := h.inv.instr_sorted b (h.mem_blocks.mp hbf).1
      rw [hlist] at hsorted
      exact absurd ((List.pairwise_append.mp hsorted).2.2 i hmem i List.mem_cons_self) (lt_irrefl _)
  · rw [h.parent_final hbf ((h.laid.mem_instrList hbf).mpr (.inr hi))] at hdom
    exact Graph.strictlyDominates_irrefl hdom

/-- What is computed above a block is none of its phis. -/
theorem ne_phi_of_usable (hs : Graph.Reaches (Succ m) entry s)
    (hbs : Graph.StrictlyDominates (Succ m) entry b s) (his : ∀ k ∈ is, k ∈ (m1.blocks b).instrList)
    (hx : Usable m' entry b is x) (hp : p ∈ phis s) : x ≠ .instruction p := by
  rintro rfl
  have hsf := h.cfg.reaches_mem hs
  have hp1 := (h.laid.mem_instrList hsf).mpr (.inl hp)
  rcases hx.before p rfl with hmem | hdom
  · exact hbs.2 ((h.laid.parent b p (his p hmem)).symm.trans (h.laid.parent s p hp1))
  · rw [h.parent_final hsf hp1, h.between.succ] at hdom
    exact hbs.2 (Graph.Dominates.antisymm (hbs.1.reaches hs) hbs.1 hdom.1)

/-- A value that stays the same along an edge is no phi of the target. -/
theorem ne_phi_of_edge (hb : Graph.Reaches (Succ m) entry b) (hs : Succ m b s)
    (hno : ¬ ∃ p ∈ phis s, phiVar m1 p = some v)
    (hx : valueAfter m1 phis r b (m.blocks b).instrList v = some x) (hp : p ∈ phis s) :
    x ≠ .instruction p := by
  obtain ⟨keys, -, hw⟩ := h.promoted.walked
  have hsr : Graph.Reaches (Succ m) entry s := hb.tail hs
  rw [h.valueAfter_end (h.cfg.reaches_mem hb), h.valsAtEnd_edge hb hs hno] at hx
  obtain ⟨pre, post, hord⟩ := List.append_of_mem (h.mem_order.mpr hsr)
  rcases hw.entry pre s post hord with ⟨-, hnil⟩ | ⟨a, -, hidom, hne, hvals⟩
  · rw [hnil v] at hx
    cases hx
  · rw [hvals v] at hx
    have has : Graph.StrictlyDominates (Succ m) entry a s :=
      ⟨(h.ancestor_iff hsr).mp (Graph.Ancestor.of_idom hidom), hne⟩
    have har := has.1.reaches hsr
    have hu := h.usable_vals har (List.append_nil _).symm (List.mem_of_mem_head? hx)
    refine h.ne_phi_of_usable hsr has (fun k hk => ?_) hu hp
    rcases List.mem_append.mp hk with hk | hk
    · exact (h.laid.mem_instrList (h.cfg.reaches_mem har)).mpr (.inl hk)
    · exact hk

/-- Nor is what has replaced a load above the target. -/
theorem ne_phi_of_replaced (hs : Graph.Reaches (Succ m) entry s)
    (hcs : Graph.StrictlyDominates (Succ m) entry c s) (hj : j ∈ (m.blocks c).instrList)
    (hsub : r.sub (.instruction j) ≠ .instruction j) (hp : p ∈ phis s) :
    r.sub (.instruction j) ≠ .instruction p := by
  have hcf := h.cfg.reaches_mem (hcs.1.reaches hs)
  obtain ⟨hc, is, js, v, hlist, -, hval⟩ := h.replaced_mem_vals hcf hj hsub
  refine h.ne_phi_of_usable hs hcs (fun k hk => ?_) (h.usable_vals hc hlist hval) hp
  rcases List.mem_append.mp hk with hk | hk
  · exact (h.laid.mem_instrList hcf).mpr (.inl hk)
  · rw [hlist]
    exact List.mem_append_left _ hk

/-- The instructions that remain in a block that is reached. -/
theorem kept_iff (hb : Graph.Reaches (Succ m) entry b) (hi : i ∈ (m.blocks b).instrList) :
    i ∈ (m'.blocks b).instrList ↔ ¬ isScalarAlloca m i ∧ storedVar m i = none ∧
      (loadedVar m i = none ∨ r.sub (.instruction i) = .instruction i) := by
  rw [h.mem_final_old (h.cfg.reaches_mem hb) hi]
  simp only [hb, true_and, not_or, not_and, Option.isSome_iff_ne_none, not_not]
  refine and_congr_right fun _ => and_congr_right fun _ => ?_
  rw [or_iff_not_imp_left]

theorem phis_final (hb : b ∈ (m.functions f).basicBlocks) : p ∈ Gvn.phis m' b ↔ p ∈ phis b := by
  rw [Gvn.phis, List.mem_filter]
  constructor
  · rintro ⟨hp, hphi⟩
    exact ((h.mem_final_cases hb hp).resolve_right fun ho => ho.2 hphi).1
  · intro hp
    have hmem := h.mem_final_phi hb hp
    refine ⟨hmem, ?_⟩
    rcases h.mem_final_cases hb hmem with ho | ho
    · exact ho.2
    · have hle := (h.laid.phi b p hp).1
      have hlt := (h.laid.old h.inv h.lt hb ho.1).1
      omega

theorem not_isPhi (hb : b ∈ (m.functions f).basicBlocks) (hi : i ∈ (m.blocks b).instrList) :
    ¬ (m.instrs i).isPhi := by
  intro hphi
  have hemit := h.inv.emits i (h.laid.old h.inv h.lt hb hi).1
  cases ho : (m.instrs i).opId with
  | phi u => exact hemit.ne_phi u ho
  | _ => simp [Instruction.isPhi, ho] at hphi

theorem body_old (hb : b ∈ (m.functions f).basicBlocks) :
    Gvn.body m b = (m.blocks b).instrList :=
  List.filter_eq_self.mpr fun i hi => by simpa using h.not_isPhi hb hi

theorem body_final (hb : b ∈ (m.functions f).basicBlocks) :
    Gvn.body m' b = (m.blocks b).instrList.filter (· ∈ (m'.blocks b).instrList) := by
  have hfin : (m'.blocks b).instrList = (m1.blocks b).instrList.filter
      fun i => i ∉ r.erased ∧ ¬ isScalarAlloca m1 i := by
    rw [h.promoted.blocks b hb]
  have hphi : (phis b).filter (fun i => !(m'.instrs i).isPhi &&
      decide (i ∉ r.erased ∧ ¬ isScalarAlloca m1 i)) = [] := by
    refine List.filter_eq_nil_iff.mpr fun p hp => ?_
    have := (List.mem_filter.mp ((h.phis_final hb).mpr hp)).2
    simp [this]
  conv_lhs => rw [Gvn.body, hfin, h.instrList_laid hb, List.filter_filter, List.filter_append, hphi]
  refine List.filter_congr fun i hi => ?_
  have hmem := h.mem_final (i := i) hb
  simp only [(h.laid.mem_instrList hb).mpr (.inr hi), true_and] at hmem
  by_cases hk : i ∈ (m'.blocks b).instrList
  · have hphi : ¬ (m'.instrs i).isPhi := by
      refine ((h.mem_final_cases hb hk).resolve_left fun hp => ?_).2
      have hle := (h.laid.phi b i hp.1).1
      have hlt := (h.laid.old h.inv h.lt hb hi).1
      omega
    simp [hk, hmem.mp hk, hphi]
  · simp only [decide_eq_false (mt hmem.mpr hk), Bool.and_false, decide_eq_false hk]

end Described

end Mem2Reg

end Cminusf
