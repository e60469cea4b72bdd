import Cminusf.LightIR.Address
import Cminusf.Optimization.WellFormed
import Mathlib.Data.Finset.Lattice.Fold
import Mathlib.Order.Lattice.Nat

/-! When `Mem2Reg` leaves well-formed SSA: an `alloca` that it removes has uses left if a
load or a store of it is out of reach of the renaming, or if it is subscripted. -/

namespace Cminusf

/-- The pairs of operands of a phi. -/
def pairUp : List Value → List (Value × Value)
  | v :: b :: ops => (v, b) :: pairUp ops
  | _ => []

/-- The entries that `PhiInst::print` lists, with `none` for `undef`. Without operands it
reads the type of an operand that does not exist. -/
def phiEntries (m : Module) (i : Nat) : Option (List (Option Value × Value)) :=
  let ops := (m.instrs i).operands
  let pairs := (pairUp ops).map fun pair => (some pair.1, pair.2)
  let preBbs := (m.blocks (m.instrs i).parent).preBbs
  if ops = [] then none
  else if pairs.length < preBbs.length then
    some (pairs ++ (preBbs.filter fun pre => .basicBlock pre ∉ ops).map fun pre =>
      (none, .basicBlock pre))
  else some pairs

namespace Mem2Reg

open Renaming Builder Dominators

variable {m m' m1 : Module} {b c f i j k p entry fuel : Nat} {v w x : Value}
  {origin : Nat → Option Nat} {d : Dominators} {phis : Nat → List Nat} {r : Renaming}
  {addr : Nat → Nat} {is js : List Nat}

/-- Well-formed SSA. -/
structure WellFormed (m : Module) : Prop where
  present : ∀ f < m.numFunctions, ∀ b ∈ (m.functions f).basicBlocks, ∀ i ∈ (m.blocks b).instrList,
    ∀ v ∈ (m.instrs i).operands, m.Present v
  dominates : ∀ f < m.numFunctions, ∀ entry, (m.functions f).basicBlocks.head? = some entry →
    ∀ b, Graph.Reaches (Succ m) entry b → ∀ is i js, (m.blocks b).instrList = is ++ i :: js →
      ¬ (m.instrs i).isPhi → ∀ v ∈ (m.instrs i).operands, DefinedBefore m entry b is v
  phiDominates : ∀ f < m.numFunctions, ∀ entry, (m.functions f).basicBlocks.head? = some entry →
    ∀ b, Graph.Reaches (Succ m) entry b → ∀ i ∈ (m.blocks b).instrList, (m.instrs i).isPhi →
      ∀ pair ∈ pairUp (m.instrs i).operands, ∃ c, pair.2 = .basicBlock c ∧
        DefinedBefore m entry c (m.blocks c).instrList pair.1
  phiPrint : ∀ f < m.numFunctions, ∀ b ∈ (m.functions f).basicBlocks, ∀ i ∈ (m.blocks b).instrList,
    (m.instrs i).isPhi → ∃ entries, phiEntries m i = some entries ∧
      ∀ pre ∈ (m.blocks b).preBbs, (entries.map Prod.snd).count (.basicBlock pre) = 1

/-- The address is that of a variable that `remove_alloca` removes. -/
def IsScalar (m : Module) (v : Value) : Prop := ∃ j, v = .instruction j ∧ isScalarAlloca m j

/-- What the pass relies on. -/
structure Promotable (m : Module) : Prop where
  dead : ∀ f < m.numFunctions, ∀ entry, (m.functions f).basicBlocks.head? = some entry →
    ∀ b ∈ (m.functions f).basicBlocks, ¬ Graph.Reaches (Succ m) entry b →
      ∀ i ∈ (m.blocks b).instrList, ∀ v, loadedVar m i = some v ∨ storedVar m i = some v →
        ¬ IsScalar m v
  load : ∀ f < m.numFunctions, ∀ entry, (m.functions f).basicBlocks.head? = some entry →
    ∀ b, Graph.Reaches (Succ m) entry b → ∀ is i js, (m.blocks b).instrList = is ++ i :: js →
      ∀ v, loadedVar m i = some v → IsScalar m v → (∃ k ∈ is, storedVar m k = some v) ∨
        ∃ a, Stores m (m.functions f).basicBlocks v a ∧ Relation.TransGen (Succ m) a b
  gep : ∀ f < m.numFunctions, ∀ b ∈ (m.functions f).basicBlocks, ∀ i ∈ (m.blocks b).instrList,
    (m.instrs i).isGep → ∀ v, (m.instrs i).getOperand 0 = some v → ¬ IsScalar m v
  phi : ∀ f < m.numFunctions, ∀ entry, (m.functions f).basicBlocks.head? = some entry →
    ∀ b, ¬ Graph.Reaches (Succ m) entry b → ∀ v, Stores m (m.functions f).basicBlocks v b →
      ∀ s, Succ m b s → (m.blocks s).preBbs.length < 2

theorem pairUp_pairOperands (pairs : List (Value × Nat)) :
    pairUp (pairOperands pairs) = pairs.map fun pair => (pair.1, .basicBlock pair.2) := by
  induction pairs with
  | nil => rfl
  | cons pair pairs ih =>
    simp only [pairOperands, List.flatMap_cons, List.cons_append, List.nil_append, pairUp,
      List.map_cons, List.cons.injEq, true_and]
    exact ih

theorem pairOperands_eq_nil {pairs : List (Value × Nat)} : pairOperands pairs = [] ↔ pairs = [] := by
  cases pairs <;> simp [pairOperands]

/-- With one pair for each predecessor that has a value, every predecessor is listed once. -/
theorem count_entries (pairs : List (Value × Nat)) {pres : List Nat} (hpres : pres.Nodup)
    (hnd : (pairs.map Prod.snd).Nodup) (hsub : ∀ pair ∈ pairs, pair.2 ∈ pres)
    (hval : ∀ pair ∈ pairs, ∀ c, pair.1 ≠ .basicBlock c) (pre : Nat) (hpre : pre ∈ pres) :
    ((pairs.map fun pair => Value.basicBlock pair.2) ++
      if pairs.length < pres.length then
        (pres.filter fun pre => .basicBlock pre ∉ pairOperands pairs).map Value.basicBlock
      else []).count (.basicBlock pre) = 1 := by
  have hinj : Function.Injective Value.basicBlock := fun _ _ h => Value.basicBlock.inj h
  have hmem : ∀ pre, Value.basicBlock pre ∈ pairOperands pairs ↔ pre ∈ pairs.map Prod.snd := by
    intro pre
    simp only [pairOperands, List.mem_flatMap, List.mem_map, List.mem_cons, List.not_mem_nil,
      or_false]
    constructor
    · rintro ⟨pair, hp, he | he⟩
      · exact absurd he.symm (hval pair hp pre)
      · exact ⟨pair, hp, (hinj he).symm⟩
    · rintro ⟨pair, hp, rfl⟩
      exact ⟨pair, hp, .inr rfl⟩
  have hleft : (pairs.map fun pair => Value.basicBlock pair.2).count (.basicBlock pre) =
      (pairs.map Prod.snd).count pre := by
    rw [← List.count_map_of_injective _ _ hinj]
    simp [Function.comp_def]
  rw [List.count_append, hleft]
  by_cases hp : pre ∈ pairs.map Prod.snd
  · rw [List.count_eq_one_of_mem hnd hp]
    have hzero : (Value.basicBlock pre) ∉ (if pairs.length < pres.length then
        (pres.filter fun pre => .basicBlock pre ∉ pairOperands pairs).map Value.basicBlock
        else []) := by
      split
      · intro hq
        obtain ⟨q, hq, he⟩ := List.mem_map.mp hq
        rw [hinj he] at hq
        have hno := (List.mem_filter.mp hq).2
        exact absurd ((hmem pre).mpr hp) (by simpa using hno)
      · simp
    rw [List.count_eq_zero_of_not_mem hzero]
  · rw [List.count_eq_zero_of_not_mem hp]
    have hlt : pairs.length < pres.length := by
      have hle : (pre :: pairs.map Prod.snd).length ≤ pres.length := by
        refine (List.Nodup.subperm (List.nodup_cons.mpr ⟨hp, hnd⟩) fun q hq => ?_).length_le
        rcases List.mem_cons.mp hq with rfl | hq
        · exact hpre
        · obtain ⟨pair, hpair, rfl⟩ := List.mem_map.mp hq
          exact hsub pair hpair
      simp only [List.length_cons, List.length_map] at hle
      omega
    rw [if_pos hlt, List.count_map_of_injective _ _ hinj, Nat.zero_add]
    apply List.count_eq_one_of_mem (hpres.filter _)
    simp [hmem, hpre]
    simpa using hp

theorem mem_operands_of_loadedVar (hv : loadedVar m i = some v) : v ∈ (m.instrs i).operands := by
  unfold loadedVar at hv
  split at hv
  · exact List.mem_of_getElem? (Option.filter_eq_some_iff.mp hv).1
  · cases hv

theorem mem_operands_of_storedVar (hv : storedVar m i = some v) : v ∈ (m.instrs i).operands := by
  unfold storedVar at hv
  split at hv
  · exact List.mem_of_getElem? (Option.filter_eq_some_iff.mp hv).1
  · cases hv

theorem isScalarAlloca_eq_false (ho : ∀ ty, (m.instrs i).opId ≠ .alloca ty) :
    ¬ isScalarAlloca m i := by
  unfold isScalarAlloca
  cases h : (m.instrs i).opId <;> simp_all

namespace Described

variable (h : Described m origin addr d f entry fuel m1 phis r m')
include h

theorem not_present_alloca (hb : b ∈ (m.functions f).basicBlocks) (hi : i ∈ (m.blocks b).instrList)
    (hj : .instruction j ∈ (m.instrs i).operands) (hsc : isScalarAlloca m j) :
    ¬ m'.Present (.instruction j) := by
  intro hp
  obtain ⟨-, hjb, hjm, hjp⟩ := h.operand_mem hb hi hj
  rw [Module.present_instruction, hjp, h.mem_final_old hjb hjm] at hp
  exact hp.1 hsc

/-- A scalar `alloca` is the operand of an instruction that remains only if the pass relied
on something that does not hold. -/
theorem isScalar_operand (hm : Promotable m) (hb : b ∈ (m.functions f).basicBlocks)
    (hi : i ∈ (m.blocks b).instrList) (hi' : i ∈ (m'.blocks b).instrList)
    (hw : w ∈ (m.instrs i).operands) : ∀ j, w = .instruction j → ¬ isScalarAlloca m j := by
  intro j hj hsc
  have hsw : IsScalar m w := ⟨j, hj, hsc⟩
  obtain ⟨hin, hins, hp, -⟩ := h.laid.old h.inv h.lt hb hi
  have hna := (h.mem_final_old hb hi).mp hi'
  have haddr : AddressOf (m.instrs i).opId (m.instrs i).operands w := by
    rcases (h.inv.emits i hin).operand_kind hw with hv | ⟨-, ha⟩ | hv
    · subst hj
      exact absurd hsc hv.kind.1
    · exact ha
    · exact absurd hj (hv j)
  have hloc : isLocal m w := by
    subst hj
    cases ho : (m.instrs j).opId <;>
      simp [isScalarAlloca, isLocal, Value.isGlobalVariable, Module.isGepInstr, Instruction.isGep, ho]
        at hsc ⊢
  rcases haddr with ⟨ho, h0⟩ | ⟨ho, h1⟩ | ⟨⟨ty, ho⟩, h0⟩
  · have hld : loadedVar m i = some w := by
      simp [loadedVar, Instruction.isLoad, ho, Instruction.getOperand, h0, hloc]
    by_cases hbr : Graph.Reaches (Succ m) entry b
    · have hld1 := (h.laid.loadedVar h.inv h.lt hb hi).trans hld
      obtain ⟨is, js, hlist⟩ := List.append_of_mem ((h.laid.mem_instrList hb).mpr (.inr hi))
      have hsub : r.sub (.instruction i) = .instruction i := by
        by_contra hne
        exact hna.2 ⟨hbr, .inr ⟨by simp [hld], hne⟩⟩
      rw [h.sub_load_iff hbr hlist hld1, h.vals_eq_nil_iff hbr hlist] at hsub
      obtain ⟨is', rfl, hlist'⟩ := h.laid.split h.inv h.lt hb hlist hi
      rcases hm.load f h.lt entry h.head b hbr is' i js hlist' w hld hsw with ⟨k, hk, hkv⟩ | ⟨a, ha, hab⟩
      · apply hsub.1 k (List.mem_append_right _ hk)
        rw [h.laid.storedVar h.inv h.lt hb (by rw [hlist']; simp [hk]), hkv]
      · exact hsub.2 a ha hab
    · exact hm.dead f h.lt entry h.head b hb hbr i hi w (.inl hld) hsw
  · have hst : storedVar m i = some w := by
      simp [storedVar, Instruction.isStore, ho, Instruction.getOperand, h1, hloc]
    by_cases hbr : Graph.Reaches (Succ m) entry b
    · exact hna.2 ⟨hbr, .inl (by simp [hst])⟩
    · exact hm.dead f h.lt entry h.head b hb hbr i hi w (.inr hst) hsw
  · exact hm.gep f h.lt b hb i hi (by simp [Instruction.isGep, ho]) w h0 hsw

/-- The pairs of a phi come from predecessors. -/
theorem incoming_pair (hb : b ∈ (m.functions f).basicBlocks) (hp : p ∈ phis b) {pair : Value × Nat}
    (hpair : pair ∈ r.incoming p) : Graph.Reaches (Succ m) entry pair.2 ∧ Succ m pair.2 b ∧
      Usable m' entry pair.2 (m1.blocks pair.2).instrList pair.1 := by
  obtain ⟨keys, -, hw⟩ := h.promoted.walked
  obtain ⟨ho, s, hs, hps, v, -, hval⟩ := hw.incoming p pair hpair
  have hr := h.mem_order.mp ho
  have hrf := h.cfg.reaches_mem hr
  have hsb : s = b := by
    have h1 := h.laid.parent s p hps
    have h2 := h.laid.parent b p ((h.laid.mem_instrList hb).mpr (.inl hp))
    exact h1.symm.trans h2
  subst hsb
  rw [h.laid.blocks _ hrf] at hs
  have hu := h.usable_vals hr (List.append_nil _).symm (List.mem_of_mem_head? hval)
  refine ⟨hr, hs, hu.not_block, hu.present, fun k hk => (hu.before k hk).imp_left fun hk => ?_⟩
  rcases List.mem_append.mp hk with hk | hk
  · exact (h.laid.mem_instrList hrf).mpr (.inl hk)
  · exact hk

/-- A phi in a reachable block has a pair. -/
theorem incoming_ne_nil (hb : Graph.Reaches (Succ m) entry b) (hp : p ∈ phis b) :
    r.incoming p ≠ [] := by
  intro hnil
  obtain ⟨keys, -, hw⟩ := h.promoted.walked
  have ha := h.laid.arranged h.inv h.lt h.head h.analysed
  have hbf := h.cfg.reaches_mem hb
  obtain ⟨v, hv, -, hph⟩ := h.laid.phiVar_phi hp
  rw [h.analysed.phiBlock_iff h.cfg h.dead (fun _ hx => hx.1) hb] at hph
  have hfr : ∃ x, Graph.Defines (Succ m) entry (Stores m (m.functions f).basicBlocks v) x ∧
      Graph.Frontier (Succ m) entry x b := by
    cases hph with
    | base hx hf => exact ⟨_, .inl hx, hf⟩
    | step hx hf => exact ⟨_, .inr hx, hf⟩
  obtain ⟨x, hx, ⟨q, hqb, hq, hxq⟩, -⟩ := hfr
  have hqf := h.cfg.reaches_mem hq
  have hxr := hxq.reaches hq
  have hdef : Def m1 v x := by
    rw [h.laid.def_iff h.inv h.lt (h.cfg.reaches_mem hxr),
      h.analysed.phiBlock_iff h.cfg h.dead (fun _ hx => hx.1) hxr]
    exact hx
  have hqo := h.mem_order.mpr hq
  have hne : valsAtEnd m1 r q v ≠ [] := by
    intro hnil
    exact (hw.vals_eq_nil ha h.analysed.idoms.root hqo).mp hnil x ((h.ancestor_iff hq).mpr hxq) hdef
  obtain ⟨y, ys, hys⟩ := List.exists_cons_of_ne_nil hne
  have hedge := (hw.edges q hqo b (by rw [h.laid.blocks q hqf]; exact hqb) p
    ((h.laid.mem_instrList hbf).mpr (.inl hp)) v hv).1 y (by rw [hys]; rfl)
  rw [hnil] at hedge
  cases hedge

/-- A phi in an unreachable block comes from a store in an unreachable block. -/
theorem dead_phi (hb : ¬ Graph.Reaches (Succ m) entry b)
    (hph : PhiBlock d (Stores m (m.functions f).basicBlocks v) b) :
    ∃ a s, ¬ Graph.Reaches (Succ m) entry a ∧ Stores m (m.functions f).basicBlocks v a ∧
      Succ m a s ∧ 2 ≤ (m.blocks s).preBbs.length := by
  have hpred : ∀ {x y}, x ∈ (m.functions f).basicBlocks → ¬ Graph.Reaches (Succ m) entry y →
      y ∈ d.domFrontier (some x) → ¬ Graph.Reaches (Succ m) entry x ∧ Succ m x y ∧
        2 ≤ (m.blocks y).preBbs.length := by
    intro x y hx hy hxy
    obtain ⟨hyf, hlen, q, hq, hrun⟩ := (h.analysed.frontier x hx y).mp hxy
    have hxq := hrun.2 hy
    subst hxq
    have hs := ((h.cfg.pre y hyf x).mp hq).2
    exact ⟨fun hr => hy (hr.tail hs), hs, hlen⟩
  induction hph with
  | base hx hxy =>
    obtain ⟨h1, h2, h3⟩ := hpred hx.1 hb hxy
    exact ⟨_, _, h1, hx, h2, h3⟩
  | step hx hxy ih => exact ih (hpred (phis_mem h.analysed hx) hb hxy).1

/-- An instruction that remains is a phi or one of the visitors. -/
theorem mem_final_cases (hb : b ∈ (m.functions f).basicBlocks) (hi : i ∈ (m'.blocks b).instrList) :
    (i ∈ phis b ∧ (m'.instrs i).isPhi) ∨ (i ∈ (m.blocks b).instrList ∧ ¬ (m'.instrs i).isPhi) := by
  rcases (h.laid.mem_instrList hb).mp ((h.mem_final hb).mp hi).1 with hp | hp
  · obtain ⟨v, -, hins, -⟩ := h.laid.phiVar_phi hp
    left
    rw [h.promoted.instrs b hb i hi, hins]
    exact ⟨hp, rfl⟩
  · obtain ⟨hin, -, -, -⟩ := h.laid.old h.inv h.lt hb hp
    right
    refine ⟨hp, fun hphi => ?_⟩
    rw [h.between.instrs i hin] at hphi
    cases ho : (m.instrs i).opId with
    | phi u => exact (h.inv.emits i hin).ne_phi u ho
    | _ => simp [Instruction.isPhi, ho] at hphi

/-- The instructions before a place that remain. -/
theorem definedBefore_final {is1 : List Nat} (hb : b ∈ (m.functions f).basicBlocks)
    (his1 : ∀ k ∈ is1, k ∈ (m1.blocks b).instrList)
    (his : ∀ k ∈ is1, k ∈ (m'.blocks b).instrList → k ∈ is) (hv : m'.Present v)
    (hdef : DefinedBefore m' entry b is1 v) : DefinedBefore m' entry b is v := by
  intro j hj
  subst hj
  refine (hdef j rfl).imp_left fun hmem => his j hmem ?_
  have hp := Module.present_instruction.mp hv
  rwa [h.parent_final hb (his1 j hmem)] at hp

theorem split_final (hb : b ∈ (m.functions f).basicBlocks)
    (hlist : (m'.blocks b).instrList = is ++ i :: js) :
    ∃ is1 js1, (m1.blocks b).instrList = is1 ++ i :: js1 ∧
      ∀ k ∈ is1, k ∈ (m'.blocks b).instrList → k ∈ is := by
  have hfin := h.promoted.blocks b hb
  rw [hfin] at hlist
  obtain ⟨l, l', hl, hl1, hl2⟩ := List.filter_eq_append_iff.mp hlist
  obtain ⟨l3, l4, rfl, hno, -, -⟩ := List.filter_eq_cons_iff.mp hl2
  refine ⟨l ++ l3, l4, by rw [hl]; simp, fun k hk hkf => ?_⟩
  have hq := ((h.mem_final hb).mp hkf).2
  rw [← hl1, List.mem_filter]
  rcases List.mem_append.mp hk with hk | hk
  · exact ⟨hk, by simpa using hq⟩
  · exact absurd (by simpa using hq) (hno k hk)

theorem operand_final (hm : Promotable m) (hb : b ∈ (m.functions f).basicBlocks)
    (hi : i ∈ (m.blocks b).instrList) (hi' : i ∈ (m'.blocks b).instrList)
    (hv : v ∈ (m'.instrs i).operands) :
    ∃ w ∈ (m.instrs i).operands, r.sub w = v ∧ m'.Present v := by
  rw [h.operands_old hb hi hi'] at hv
  obtain ⟨w, hw, rfl⟩ := List.mem_map.mp hv
  exact ⟨w, hw, rfl, h.present_operand hb hi hw (h.isScalar_operand hm hb hi hi' hw)⟩

theorem phi_print (hm : Promotable m) (hb : b ∈ (m.functions f).basicBlocks) (hp : p ∈ phis b) :
    ∃ entries, phiEntries m' p = some entries ∧
      ∀ pre ∈ (m.blocks b).preBbs, (entries.map Prod.snd).count (.basicBlock pre) = 1 := by
  obtain ⟨keys, -, hw⟩ := h.promoted.walked
  have hbr : Graph.Reaches (Succ m) entry b := by
    by_contra hbr
    obtain ⟨v, -, -, hph⟩ := h.laid.phiVar_phi hp
    obtain ⟨a, s, ha, hst, has, hlen⟩ := h.dead_phi hbr hph
    have := hm.phi f h.lt entry h.head a ha v hst s has
    omega
  have hpres : (m'.blocks (m'.instrs p).parent).preBbs = (m.blocks b).preBbs := by
    rw [h.parent_final hb ((h.laid.mem_instrList hb).mpr (.inl hp)), h.between.blocks b]
  have hne : pairOperands (r.incoming p) ≠ [] :=
    fun hnil => h.incoming_ne_nil hbr hp (pairOperands_eq_nil.mp hnil)
  have hcount := count_entries (r.incoming p)
    (h.inv.pre_nodup b (h.mem_blocks.mp hb).1) (hw.incoming_nodup p)
    (fun pair hpair => by
      obtain ⟨hr, hs, -⟩ := h.incoming_pair hb hp hpair
      exact (h.cfg.pre b hb pair.2).mpr ⟨h.cfg.reaches_mem hr, hs⟩)
    fun pair hpair => (h.incoming_pair hb hp hpair).2.2.not_block
  simp only [phiEntries, h.operands_phi hb hp, hpres, pairUp_pairOperands, hne, if_false,
    List.length_map]
  by_cases hlt : (r.incoming p).length < (m.blocks b).preBbs.length
  · simp only [hlt, if_true] at hcount ⊢
    refine ⟨_, rfl, fun pre hpre => ?_⟩
    have := hcount pre hpre
    simpa [Function.comp_def] using this
  · simp only [hlt, if_false] at hcount ⊢
    refine ⟨_, rfl, fun pre hpre => ?_⟩
    have := hcount pre hpre
    simpa [Function.comp_def] using this

/-- An instruction of the visitors that uses a scalar `alloca` does not remain. -/
theorem not_mem_of_scalar (hwf : WellFormed m') (hb : b ∈ (m.functions f).basicBlocks)
    (hi : i ∈ (m.blocks b).instrList) (hv : v ∈ (m.instrs i).operands) (hsc : IsScalar m v) :
    i ∉ (m'.blocks b).instrList := by
  intro hi'
  obtain ⟨j, rfl, hsc⟩ := hsc
  obtain ⟨-, hjb, hjm, -⟩ := h.operand_mem hb hi hv
  obtain ⟨-, hins, -, -⟩ := h.laid.old h.inv h.lt hjb hjm
  have hsub : r.sub (.instruction j) = .instruction j := by
    apply h.promoted.shaped.sub_eq
    intro k hk hld
    cases hk
    rw [hins] at hld
    simp [isScalarAlloca, opId_of_isLoad hld] at hsc
  apply h.not_present_alloca hb hi hv hsc
  apply hwf.present f (by rw [h.between.numFunctions]; exact h.lt) b
    (by rw [h.between.functions]; exact hb) i hi'
  rw [h.operands_old hb hi hi']
  exact List.mem_map.mpr ⟨_, hv, hsub⟩

theorem not_scalar_of_dead (hwf : WellFormed m') (hb : b ∈ (m.functions f).basicBlocks)
    (hbr : ¬ Graph.Reaches (Succ m) entry b) (hi : i ∈ (m.blocks b).instrList)
    (hv : loadedVar m i = some v ∨ storedVar m i = some v) : ¬ IsScalar m v := by
  intro hsc
  have hmem : v ∈ (m.instrs i).operands :=
    hv.elim mem_operands_of_loadedVar mem_operands_of_storedVar
  apply h.not_mem_of_scalar hwf hb hi hmem hsc
  rw [h.mem_final_old hb hi]
  refine ⟨isScalarAlloca_eq_false fun ty ho => ?_, fun hr => hbr hr.1⟩
  rcases hv with hv | hv
  · simp [opId_of_isLoad (isLoad_of_loadedVar hv)] at ho
  · simp [opId_of_isStore (isStore_of_storedVar hv)] at ho

/-- A load that no store comes before is not replaced, so it remains with its `alloca`. -/
theorem stored_of_wellFormed (hwf : WellFormed m') (hb : Graph.Reaches (Succ m) entry b)
    (hlist : (m.blocks b).instrList = is ++ i :: js) (hv : loadedVar m i = some v)
    (hsc : IsScalar m v) : (∃ k ∈ is, storedVar m k = some v) ∨
      ∃ a, Stores m (m.functions f).basicBlocks v a ∧ Relation.TransGen (Succ m) a b := by
  have hbf := h.cfg.reaches_mem hb
  have hi : i ∈ (m.blocks b).instrList := by
    rw [hlist]
    simp
  have hlist1 : (m1.blocks b).instrList = (phis b ++ is) ++ i :: js := by
    rw [h.laid.blocks b hbf, hlist]
    simp
  have hld1 : loadedVar m1 i = some v := (h.laid.loadedVar h.inv h.lt hbf hi).trans hv
  by_contra hno
  rw [not_or] at hno
  have hsub : r.sub (.instruction i) = .instruction i := by
    rw [h.sub_load_iff hb hlist1 hld1, h.vals_eq_nil_iff hb hlist1]
    refine ⟨fun k hk hkv => ?_, fun a ha hab => hno.2 ⟨a, ha, hab⟩⟩
    rcases List.mem_append.mp hk with hk | hk
    · rw [(h.laid.phi_not_old hk).1] at hkv
      cases hkv
    · rw [h.laid.storedVar h.inv h.lt hbf (by rw [hlist]; simp [hk])] at hkv
      exact hno.1 ⟨k, hk, hkv⟩
  apply h.not_mem_of_scalar hwf hbf hi (mem_operands_of_loadedVar hv) hsc
  rw [h.mem_final_old hbf hi]
  refine ⟨isScalarAlloca_eq_false fun ty ho => ?_, ?_⟩
  · simp [opId_of_isLoad (isLoad_of_loadedVar hv)] at ho
  · rintro ⟨-, hst | ⟨-, hne⟩⟩
    · rw [loadedVar_storedVar hv] at hst
      cases hst
    · exact hne hsub

theorem not_scalar_of_gep (hwf : WellFormed m') (hb : b ∈ (m.functions f).basicBlocks)
    (hi : i ∈ (m.blocks b).instrList) (hgep : (m.instrs i).isGep)
    (hv : (m.instrs i).getOperand 0 = some v) : ¬ IsScalar m v := by
  intro hsc
  apply h.not_mem_of_scalar hwf hb hi (List.mem_of_getElem? hv) hsc
  rw [h.mem_final_old hb hi]
  have hnot : (m.instrs i).isStore = false ∧ (m.instrs i).isLoad = false := by
    revert hgep
    simp only [Instruction.isGep, Instruction.isStore, Instruction.isLoad]
    cases (m.instrs i).opId <;> simp
  refine ⟨isScalarAlloca_eq_false fun ty ho => ?_, ?_⟩
  · simp [Instruction.isGep, ho] at hgep
  · simp [storedVar, loadedVar, hnot]

/-- A store in a dead block puts a phi into a join behind it, and no walk completes that phi. -/
theorem lt_two_of_dead (hwf : WellFormed m') (hb : ¬ Graph.Reaches (Succ m) entry b)
    (hst : Stores m (m.functions f).basicBlocks v b) {s : Nat} (hs : Succ m b s) :
    (m.blocks s).preBbs.length < 2 := by
  by_contra hlen
  have hsf := h.cfg.closed b hst.1 s hs
  have hsr : ¬ Graph.Reaches (Succ m) entry s := fun hsr => hb (h.dead b hst.1 s hs hsr)
  have hph : PhiBlock d (Stores m (m.functions f).basicBlocks v) s := by
    apply Graph.IteratedFrontier.base hst
    rw [h.analysed.frontier b hst.1 s]
    exact ⟨hsf, by omega, b, (h.cfg.pre s hsf b).mpr ⟨hst.1, hs⟩, fun hr => absurd hr hsr,
      fun _ => rfl⟩
  obtain ⟨p, hp, hins⟩ := h.laid.has s v hph
  have hpm := h.mem_final_phi hsf hp
  have hnil : r.incoming p = [] := by
    rw [List.eq_nil_iff_forall_not_mem]
    intro pair hpair
    obtain ⟨hr, hs', -⟩ := h.incoming_pair hsf hp hpair
    exact hsr (hr.tail hs')
  have hphi : (m'.instrs p).isPhi := by
    rw [h.promoted.instrs s hsf p hpm, hins]
    rfl
  obtain ⟨entries, he, -⟩ := hwf.phiPrint f (by rw [h.between.numFunctions]; exact h.lt) s
    (by rw [h.between.functions]; exact hsf) p hpm hphi
  simp [phiEntries, h.operands_phi hsf hp, hnil, pairOperands] at he

theorem present_final (hpr : Promotable m) (hb : b ∈ (m.functions f).basicBlocks)
    (hi : i ∈ (m'.blocks b).instrList) (hv : v ∈ (m'.instrs i).operands) : m'.Present v := by
  rcases h.mem_final_cases hb hi with ⟨hp, -⟩ | ⟨hi1, -⟩
  · rw [h.operands_phi hb hp] at hv
    obtain ⟨pair, hpair, hv⟩ := List.mem_flatMap.mp hv
    simp only [List.mem_cons, List.not_mem_nil, or_false] at hv
    rcases hv with rfl | rfl
    · exact (h.incoming_pair hb hp hpair).2.2.present
    · simp [Module.Present]
  · obtain ⟨w, -, -, hpres⟩ := h.operand_final hpr hb hi1 hi hv
    exact hpres

theorem dominates_final (hpr : Promotable m) (hbr : Graph.Reaches (Succ m) entry b)
    (hlist : (m'.blocks b).instrList = is ++ i :: js) (hphi : ¬ (m'.instrs i).isPhi)
    (hv : v ∈ (m'.instrs i).operands) : DefinedBefore m' entry b is v := by
  have hb := h.cfg.reaches_mem hbr
  have hi : i ∈ (m'.blocks b).instrList := by
    rw [hlist]
    simp
  have hi1 := ((h.mem_final_cases hb hi).resolve_left fun hp => hphi hp.2).1
  obtain ⟨w, hw, rfl, hpres⟩ := h.operand_final hpr hb hi1 hi hv
  obtain ⟨is1, js1, hlist1, hsub⟩ := h.split_final hb hlist
  apply h.definedBefore_final hb _ hsub hpres (h.before_operand hbr hlist1 hi1 hw)
  intro k hk
  rw [hlist1]
  exact List.mem_append_left _ hk

theorem phi_dominates_final (hbr : Graph.Reaches (Succ m) entry b)
    (hi : i ∈ (m'.blocks b).instrList) (hphi : (m'.instrs i).isPhi) {pair : Value × Value}
    (hpair : pair ∈ pairUp (m'.instrs i).operands) : ∃ c, pair.2 = .basicBlock c ∧
      DefinedBefore m' entry c (m'.blocks c).instrList pair.1 := by
  have hb := h.cfg.reaches_mem hbr
  have hp := ((h.mem_final_cases hb hi).resolve_right fun ho => ho.2 hphi).1
  rw [h.operands_phi hb hp, pairUp_pairOperands] at hpair
  obtain ⟨⟨x, c⟩, hxc, rfl⟩ := List.mem_map.mp hpair
  obtain ⟨hcr, -, hu⟩ := h.incoming_pair hb hp hxc
  exact ⟨c, rfl, h.definedBefore_final (h.cfg.reaches_mem hcr) (fun _ hk => hk)
    (fun _ _ hk => hk) hu.present hu.before⟩

theorem phi_print_final (hpr : Promotable m) (hb : b ∈ (m.functions f).basicBlocks)
    (hi : i ∈ (m'.blocks b).instrList) (hphi : (m'.instrs i).isPhi) :
    ∃ entries, phiEntries m' i = some entries ∧
      ∀ pre ∈ (m'.blocks b).preBbs, (entries.map Prod.snd).count (.basicBlock pre) = 1 := by
  have hp := ((h.mem_final_cases hb hi).resolve_right fun ho => ho.2 hphi).1
  rw [h.between.blocks b]
  exact h.phi_print hpr hb hp

end Described

/-- Every function of the module is described by a walk over it. -/
theorem describe {addr : Value → Nat} (hm : Inv m origin) (haddr : Function.Injective addr)
    (hrun : run m addr fuel = .ok m') : Between m (· < m.numFunctions) m' ∧
      ∃ d n, ∀ f < m.numFunctions, ∀ entry, (m.functions f).basicBlocks.head? = some entry →
        ∃ m1 phis r, Described m origin (fun bb => addr (.basicBlock bb)) d f entry n m1 phis r m' := by
  have hinj : Function.Injective fun bb => addr (.basicBlock bb) :=
    fun x y h => Value.basicBlock.inj (haddr h)
  let k := (Finset.range m.numFunctions).sup fun f => (m.functions f).basicBlocks.length
  have hrun' := (run_mono (le_max_left fuel (k + 1))).eq_ok hrun
  obtain ⟨d, hd, -⟩ := Exec.bind_eq_ok.mp hrun'
  have hspec := run_spec hm haddr hd
  rw [hrun'] at hspec
  cases hspec with
  | ok hrew =>
    refine ⟨hrew.between, d, max fuel (k + 1), fun f hf entry hh => ?_⟩
    obtain ⟨m1, phis, r, hp⟩ := hrew.promoted f hf entry hh
    have hle : (m.functions f).basicBlocks.length ≤ k :=
      Finset.le_sup (f := fun f => (m.functions f).basicBlocks.length) (Finset.mem_range.mpr hf)
    exact ⟨m1, phis, r, hm, hf, hh, run_analysed hinj hm.moduleCfg hd f (List.mem_range.mpr hf) entry hh,
      noDeadEdges_of_run hm.moduleCfg hd f hf entry hh, by omega, hrew.between, hp⟩

theorem exists_head {f : Nat} (hb : b ∈ (m.functions f).basicBlocks) :
    ∃ entry, (m.functions f).basicBlocks.head? = some entry := by
  cases hl : (m.functions f).basicBlocks with
  | nil => simp [hl] at hb
  | cons entry blocks => exact ⟨entry, rfl⟩

/-- The module that the pass returns is well-formed SSA exactly when what the pass relies on
holds of the module it was given. -/
theorem run_wellFormed_iff {program : ASTProgram} {addr : Value → Nat}
    (h : buildModule program = some m) (haddr : Function.Injective addr)
    (hrun : run m addr fuel = .ok m') : WellFormed m' ↔ Promotable m := by
  obtain ⟨origin, hm⟩ := CminusfBuilder.buildModule_inv h
  obtain ⟨hbet, d, n, hdesc⟩ := describe hm haddr hrun
  constructor
  · intro hwf
    constructor
    · intro f hf entry hh b hb hbr i hi v hv
      obtain ⟨m1, phis, r, hd⟩ := hdesc f hf entry hh
      exact hd.not_scalar_of_dead hwf hb hbr hi hv
    · intro f hf entry hh b hb is i js hlist v hv hsc
      obtain ⟨m1, phis, r, hd⟩ := hdesc f hf entry hh
      exact hd.stored_of_wellFormed hwf hb hlist hv hsc
    · intro f hf b hb i hi hgep v hv
      obtain ⟨entry, hh⟩ := exists_head hb
      obtain ⟨m1, phis, r, hd⟩ := hdesc f hf entry hh
      exact hd.not_scalar_of_gep hwf hb hi hgep hv
    · intro f hf entry hh b hb v hst s hs
      obtain ⟨m1, phis, r, hd⟩ := hdesc f hf entry hh
      exact hd.lt_two_of_dead hwf hb hst hs
  · intro hpr
    constructor
    · intro f hf b hb i hi v hv
      rw [hbet.numFunctions] at hf
      rw [hbet.functions] at hb
      obtain ⟨entry, hh⟩ := exists_head hb
      obtain ⟨m1, phis, r, hd⟩ := hdesc f hf entry hh
      exact hd.present_final hpr hb hi hv
    · intro f hf entry hh b hbr is i js hlist hphi v hv
      rw [hbet.functions] at hh
      rw [hbet.succ] at hbr
      rw [hbet.numFunctions] at hf
      obtain ⟨m1, phis, r, hd⟩ := hdesc f hf entry hh
      exact hd.dominates_final hpr hbr hlist hphi hv
    · intro f hf entry hh b hbr i hi hphi pair hpair
      rw [hbet.functions] at hh
      rw [hbet.succ] at hbr
      rw [hbet.numFunctions] at hf
      obtain ⟨m1, phis, r, hd⟩ := hdesc f hf entry hh
      exact hd.phi_dominates_final hbr hi hphi hpair
    · intro f hf b hb i hi hphi
      rw [hbet.numFunctions] at hf
      rw [hbet.functions] at hb
      obtain ⟨entry, hh⟩ := exists_head hb
      obtain ⟨m1, phis, r, hd⟩ := hdesc f hf entry hh
      exact hd.phi_print_final hpr hb hi hphi

/-- `int main(void) { int x; if (1) return 1; else return 2; x = 3; return 0; }`. -/
def deadStoreProgram : ASTProgram := ⟨[.fun ⟨.int, "main", [], [⟨.int, "x", none⟩],
  [.selectionElse (Dominators.literal 1) (.return (some (Dominators.literal 1)))
    (.return (some (Dominators.literal 2))),
    .expressionStmt (some (.assign (.scalar "x") (Dominators.literal 3))),
    .return (some (Dominators.literal 0))]⟩]⟩

/-- Some operand is not in the list of its block. -/
def dangles (m : Module) : Bool :=
  (List.range m.numFunctions).any fun f => (m.functions f).basicBlocks.any fun b =>
    (m.blocks b).instrList.any fun i => (m.instrs i).operands.any fun
      | .instruction j => j ∉ (m.blocks (m.instrs j).parent).instrList
      | _ => false

theorem not_wellFormed_of_dangles (h : dangles m) : ¬ WellFormed m := by
  intro hwf
  simp only [dangles, List.any_eq_true, List.mem_range] at h
  obtain ⟨f, hf, b, hb, i, hi, v, hv, h⟩ := h
  have hpres := hwf.present f hf b hb i hi v hv
  cases v with
  | instruction j => exact of_decide_eq_true h (Module.present_instruction.mp hpres)
  | _ => cases h

theorem deadStoreProgram_module : ∃ m, buildModule deadStoreProgram = some m ∧
    ∃ m', run m Value.code 20 = .ok m' ∧ dangles m' := by
  obtain ⟨m, hm, h⟩ := exists_buildModule deadStoreProgram
    (fun m => (run m Value.code 20).toOption.any dangles) (by decide +kernel)
  cases hrun : run m Value.code 20 with
  | error fault =>
    rw [hrun] at h
    cases h
  | ok m' =>
    rw [hrun] at h
    exact ⟨m, hm, m', hrun, h⟩

theorem run_wellFormed_iff_deadStoreProgram : ∃ m, buildModule deadStoreProgram = some m ∧
    ∃ m', run m Value.code 20 = .ok m' ∧ (WellFormed m' ↔ Promotable m) := by
  obtain ⟨m, hm, m', hrun, -⟩ := deadStoreProgram_module
  exact ⟨m, hm, m', hrun, run_wellFormed_iff hm Value.code_injective hrun⟩

/-- The variable is removed, and the store to it in the block that is out of reach is not. -/
theorem run_deadStoreProgram : ∃ m, buildModule deadStoreProgram = some m ∧
    ∃ addr, Function.Injective addr ∧ ∃ fuel m', run m addr fuel = .ok m' ∧ ¬ WellFormed m' := by
  obtain ⟨m, hm, m', hrun, hd⟩ := deadStoreProgram_module
  exact ⟨m, hm, Value.code, Value.code_injective, 20, m', hrun, not_wellFormed_of_dangles hd⟩

end Mem2Reg

end Cminusf
