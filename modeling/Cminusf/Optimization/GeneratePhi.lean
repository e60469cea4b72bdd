import Cminusf.Graph.Dominance
import Cminusf.Optimization.Mem2Reg
import Mathlib.Data.List.Perm.Subperm

/-! `generate_phi` places the phis of a variable on the iterated frontier of its stores. -/

namespace Cminusf

namespace Mem2Reg

variable {m : Module} {s s' : PhiState} {var v : Value} {ty : Ty} {b i p : Nat} {blocks : List Nat}
  {phis : Nat → List Nat}

/-- The module of `s` is `m` with the phis `phis` in front of its blocks. -/
structure Places (m : Module) (s : PhiState) (phis : Nat → List Nat) : Prop where
  functions : s.module.functions = m.functions
  numFunctions : s.module.numFunctions = m.numFunctions
  globals : s.module.globals = m.globals
  numGlobals : s.module.numGlobals = m.numGlobals
  numBlocks : s.module.numBlocks = m.numBlocks
  useList : s.module.useList = m.useList
  blocks : ∀ b, s.module.blocks b = { m.blocks b with instrList := phis b ++ (m.blocks b).instrList }
  numInstrs : m.numInstrs ≤ s.module.numInstrs
  instrs : ∀ i, i < m.numInstrs ∨ s.module.numInstrs ≤ i → s.module.instrs i = m.instrs i
  phi : ∀ b, ∀ p ∈ phis b, m.numInstrs ≤ p ∧ p < s.module.numInstrs ∧
    ∃ v, s.module.instrs p = ⟨.phi v, phiType m v, [], b⟩ ∧ (b, v) ∈ s.bbHasVarPhi
  has : ∀ b v, (b, v) ∈ s.bbHasVarPhi → ∃ p ∈ phis b, s.module.instrs p = ⟨.phi v, phiType m v, [], b⟩
  covers : ∀ i, m.numInstrs ≤ i → i < s.module.numInstrs → ∃ b, i ∈ phis b
  nodup : ∀ b, (phis b).Nodup
  unique : ∀ b, ∀ p ∈ phis b, ∀ q ∈ phis b, (s.module.instrs p).opId = (s.module.instrs q).opId → p = q

theorem Places.initial (m : Module) : Places m ⟨m, []⟩ fun _ => [] := by
  refine ⟨rfl, rfl, rfl, rfl, rfl, rfl, fun _ => rfl, le_rfl, fun _ _ => rfl, by simp, by simp,
    fun i hi hi' => ?_, by simp, by simp⟩
  exact absurd hi' (Nat.not_lt.mpr hi)

theorem Places.createPhi (h : Places m s phis) (hno : (b, var) ∉ s.bbHasVarPhi) :
    Places m (s.createPhi var (phiType m var) b)
      (Function.update phis b (s.module.numInstrs :: phis b)) := by
  have hinstrs : (s.createPhi var (phiType m var) b).module.instrs =
      Function.update s.module.instrs s.module.numInstrs ⟨.phi var, phiType m var, [], b⟩ := rfl
  have hblocks : (s.createPhi var (phiType m var) b).module.blocks =
      Function.update s.module.blocks b
        { s.module.blocks b with instrList := s.module.numInstrs :: (s.module.blocks b).instrList } := rfl
  have hlt : ∀ c, ∀ p ∈ phis c, p ≠ s.module.numInstrs := by
    intro c p hp
    have := (h.phi c p hp).2.1
    omega
  have hold : ∀ c, ∀ p ∈ phis c, (s.createPhi var (phiType m var) b).module.instrs p =
      s.module.instrs p := by
    intro c p hp
    rw [hinstrs, Function.update_of_ne (hlt c p hp)]
  have hmem : ∀ c p, p ∈ Function.update phis b (s.module.numInstrs :: phis b) c →
      p ∈ phis c ∨ c = b ∧ p = s.module.numInstrs := by
    intro c p hp
    by_cases hc : c = b
    · subst hc
      rw [Function.update_self] at hp
      rcases List.mem_cons.mp hp with rfl | hp
      · exact .inr ⟨rfl, rfl⟩
      · exact .inl hp
    · rw [Function.update_of_ne hc] at hp
      exact .inl hp
  have hsub : ∀ c, ∀ p ∈ phis c, p ∈ Function.update phis b (s.module.numInstrs :: phis b) c := by
    intro c p hp
    by_cases hc : c = b
    · subst hc
      simp [hp]
    · rwa [Function.update_of_ne hc]
  refine ⟨h.functions, h.numFunctions, h.globals, h.numGlobals, h.numBlocks, h.useList, fun c => ?_,
    h.numInstrs.trans (Nat.le_succ _), fun i hi => ?_, fun c p hp => ?_, fun c v hv => ?_,
    fun i hi hi' => ?_, fun c => ?_, fun c p hp q hq he => ?_⟩
  · by_cases hc : c = b
    · subst hc
      rw [hblocks, Function.update_self, Function.update_self, h.blocks c]
      rfl
    · rw [hblocks, Function.update_of_ne hc, Function.update_of_ne hc, h.blocks c]
  · have hi' : i < m.numInstrs ∨ s.module.numInstrs + 1 ≤ i := hi
    have hn := h.numInstrs
    rw [hinstrs, Function.update_of_ne (by omega)]
    exact h.instrs i (by omega)
  · change m.numInstrs ≤ p ∧ p < s.module.numInstrs + 1 ∧ _
    rcases hmem c p hp with hp | ⟨rfl, rfl⟩
    · obtain ⟨h1, h2, v, h3, h4⟩ := h.phi c p hp
      exact ⟨h1, by omega, v, by rw [hold c p hp, h3], List.mem_cons_of_mem _ h4⟩
    · exact ⟨h.numInstrs, by omega, var, by rw [hinstrs, Function.update_self], List.mem_cons_self⟩
  · rcases List.mem_cons.mp hv with hv | hv
    · cases hv
      exact ⟨s.module.numInstrs, by simp, by rw [hinstrs, Function.update_self]⟩
    · obtain ⟨p, hp, hpi⟩ := h.has c v hv
      exact ⟨p, hsub c p hp, by rw [hold c p hp, hpi]⟩
  · by_cases hn : i = s.module.numInstrs
    · exact ⟨b, by simp [hn]⟩
    · have hi'' : i < s.module.numInstrs + 1 := hi'
      obtain ⟨c, hc⟩ := h.covers i hi (by omega)
      exact ⟨c, hsub c i hc⟩
  · by_cases hc : c = b
    · subst hc
      rw [Function.update_self, List.nodup_cons]
      exact ⟨fun hm => hlt c _ hm rfl, h.nodup c⟩
    · rw [Function.update_of_ne hc]
      exact h.nodup c
  · have hself : (s.createPhi var (phiType m var) b).module.instrs s.module.numInstrs =
        ⟨.phi var, phiType m var, [], b⟩ := by
      rw [hinstrs, Function.update_self]
    have hnew : ∀ p ∈ phis b, (s.module.instrs p).opId ≠ .phi var := by
      intro p hp he
      obtain ⟨-, -, v, h3, h4⟩ := h.phi b p hp
      rw [h3] at he
      injection he with he
      exact hno (he ▸ h4)
    rcases hmem c p hp with hp' | ⟨hc, rfl⟩ <;> rcases hmem c q hq with hq' | ⟨hc', rfl⟩
    · rw [hold c p hp', hold c q hq'] at he
      exact h.unique c p hp' q hq' he
    · rw [hold c p hp', hself] at he
      exact absurd he (hnew p (hc' ▸ hp'))
    · rw [hself, hold c q hq'] at he
      exact absurd he.symm (hnew q (hc ▸ hq'))
    · rfl

/-- The loop over one dominance frontier. -/
theorem placePhis_spec (var : Value) (frontier : List Nat) (h : Places m s phis) :
    ∃ phis', Places m (placePhis var (phiType m var) s frontier).1 phis' ∧
      (∀ b v, (b, v) ∈ (placePhis var (phiType m var) s frontier).1.bbHasVarPhi ↔
        (b, v) ∈ s.bbHasVarPhi ∨ v = var ∧ b ∈ frontier) ∧
      (∀ b, b ∈ (placePhis var (phiType m var) s frontier).2 ↔
        b ∈ frontier ∧ (b, var) ∉ s.bbHasVarPhi) ∧
      (placePhis var (phiType m var) s frontier).2.Nodup := by
  induction frontier generalizing s phis with
  | nil => exact ⟨phis, h, by simp [placePhis], by simp [placePhis], .nil⟩
  | cons b frontier ih =>
    by_cases hb : (b, var) ∈ s.bbHasVarPhi
    · obtain ⟨phis', h1, h2, h3, h4⟩ := ih h
      simp only [placePhis, hb, if_true]
      refine ⟨phis', h1, fun c v => ?_, fun c => ?_, h4⟩
      · rw [h2, List.mem_cons]
        grind
      · rw [h3, List.mem_cons]
        grind
    · obtain ⟨phis', h1, h2, h3, h4⟩ := ih (h.createPhi hb)
      simp only [placePhis, hb, if_false]
      have hhas : ∀ c v, (c, v) ∈ (s.createPhi var (phiType m var) b).bbHasVarPhi ↔
          c = b ∧ v = var ∨ (c, v) ∈ s.bbHasVarPhi := by
        simp [PhiState.createPhi]
      refine ⟨phis', h1, fun c v => ?_, fun c => ?_, ?_⟩
      · rw [h2, hhas, List.mem_cons]
        tauto
      · rw [List.mem_cons, h3, hhas, List.mem_cons]
        by_cases hc : c = b
        · subst hc
          simp [hb]
        · simp [hc]
      · rw [List.nodup_cons, h3, hhas]
        exact ⟨by simp, h4⟩

section

variable {d : Dominators} {Init : Nat → Prop}

/-- The blocks of the iterated frontier that `work_list` computes. -/
abbrev PhiBlock (d : Dominators) (Init : Nat → Prop) : Nat → Prop :=
  Graph.IteratedFrontier (fun x y => y ∈ d.domFrontier (some x)) Init

instance : LawfulBEq (Nat × Value) := inferInstance

/-- The work that is left: the list and the blocks that may still be put on it. -/
def workLeft (blocks : List Nat) (var : Value) (s : PhiState) (workList : List Nat) : Nat :=
  workList.length + blocks.countP fun b => (b, var) ∉ s.bbHasVarPhi

theorem workLeft_step (workList : List Nat) {work : List Nat} (hwork : work.Nodup)
    (hmem : ∀ c ∈ work, c ∈ blocks ∧ (c, var) ∉ s.bbHasVarPhi ∧ (c, var) ∈ s'.bbHasVarPhi)
    (hmono : ∀ c, (c, var) ∈ s.bbHasVarPhi → (c, var) ∈ s'.bbHasVarPhi) :
    workLeft blocks var s' (workList ++ work) < workLeft blocks var s (b :: workList) := by
  have hsplit := List.countP_eq_countP_filter_add blocks (fun b => (b, var) ∉ s.bbHasVarPhi)
    (fun b => (b, var) ∈ s'.bbHasVarPhi)
  have hnew : work.length ≤
      (blocks.filter fun b => (b, var) ∈ s'.bbHasVarPhi).countP fun b => (b, var) ∉ s.bbHasVarPhi := by
    rw [List.countP_eq_length_filter]
    refine (List.Nodup.subperm hwork fun c hc => ?_).length_le
    obtain ⟨h1, h2, h3⟩ := hmem c hc
    simp [h1, h2, h3]
  have hold : (blocks.filter fun b => !decide ((b, var) ∈ s'.bbHasVarPhi)).countP
        (fun b => (b, var) ∉ s.bbHasVarPhi) = blocks.countP fun b => (b, var) ∉ s'.bbHasVarPhi := by
    rw [List.countP_filter]
    refine List.countP_congr fun c _ => ?_
    simp only [Bool.and_eq_true, decide_eq_true_eq, Bool.not_eq_true', decide_eq_false_iff_not]
    exact ⟨fun h => h.2, fun h => ⟨fun hc => h (hmono c hc), h⟩⟩
  simp only [workLeft, List.length_append, List.length_cons]
  omega

/-- When no work is left, the phis are on the iterated frontier. -/
theorem phiBlock_iff (hsound : ∀ b, (b, var) ∈ s.bbHasVarPhi → PhiBlock d Init b)
    (hdone : ∀ x, Init x ∨ (x, var) ∈ s.bbHasVarPhi →
      ∀ y ∈ d.domFrontier (some x), (y, var) ∈ s.bbHasVarPhi) (b : Nat) :
    (b, var) ∈ s.bbHasVarPhi ↔ PhiBlock d Init b := by
  refine ⟨hsound b, fun h => ?_⟩
  induction h with
  | base hx hxy => exact hdone _ (.inl hx) _ hxy
  | step _ hxy ih => exact hdone _ (.inr ih) _ hxy

theorem placeVar_spec (Init : Nat → Prop) (hdf : ∀ x ∈ blocks, ∀ y ∈ d.domFrontier (some x), y ∈ blocks) (fuel : Nat) :
    ∀ workList s phis, Places m s phis → (∀ b ∈ workList, b ∈ blocks) →
      (∀ b, (b, var) ∈ s.bbHasVarPhi → PhiBlock d Init b) →
      (∀ b ∈ workList, Init b ∨ (b, var) ∈ s.bbHasVarPhi) →
      (∀ x, Init x ∨ (x, var) ∈ s.bbHasVarPhi → x ∈ workList ∨
        ∀ y ∈ d.domFrontier (some x), (y, var) ∈ s.bbHasVarPhi) →
      Exec.Meets (fun s' => ∃ phis', Places m s' phis' ∧
          (∀ b, (b, var) ∈ s'.bbHasVarPhi ↔ PhiBlock d Init b) ∧
          ∀ b v, v ≠ var → ((b, v) ∈ s'.bbHasVarPhi ↔ (b, v) ∈ s.bbHasVarPhi))
        (fun fault => fault = .outOfFuel ∧ fuel < workLeft blocks var s workList)
        (placeVar d var (phiType m var) fuel workList s) := by
  induction fuel with
  | zero =>
    intro workList s phis h _ hsound _ hdone
    cases workList with
    | nil =>
      exact .pure ⟨phis, h, phiBlock_iff hsound fun x hx => (hdone x hx).resolve_left (by simp),
        fun _ _ _ => Iff.rfl⟩
    | cons b workList =>
      refine .throw ⟨rfl, ?_⟩
      simp only [workLeft, List.length_cons]
      omega
  | succ fuel ih =>
    intro workList s phis h hblocks hsound hwork hdone
    cases workList with
    | nil =>
      exact .pure ⟨phis, h, phiBlock_iff hsound fun x hx => (hdone x hx).resolve_left (by simp),
        fun _ _ _ => Iff.rfl⟩
    | cons b workList =>
      obtain ⟨phis', h1, hhas, hnew, hnd⟩ := placePhis_spec var (d.domFrontier (some b)) h
      have hb := hblocks b List.mem_cons_self
      have hmono : ∀ c v, (c, v) ∈ s.bbHasVarPhi → (c, v) ∈
          (placePhis var (phiType m var) s (d.domFrontier (some b))).1.bbHasVarPhi :=
        fun c v hc => (hhas c v).mpr (.inl hc)
      have hstep := workLeft_step (b := b) workList hnd
        (fun c hc => ⟨hdf b hb c ((hnew c).mp hc).1, ((hnew c).mp hc).2,
          (hhas c var).mpr (.inr ⟨rfl, ((hnew c).mp hc).1⟩)⟩) (fun c => hmono c var)
      refine (ih (workList ++ (placePhis var (phiType m var) s (d.domFrontier (some b))).2) _ phis' h1
        (fun c hc => ?_) (fun c hc => ?_) (fun c hc => ?_) (fun x hx => ?_)).mono
        (fun s' hs' => ?_) fun fault hf => ⟨hf.1, by omega⟩
      · rcases List.mem_append.mp hc with hc | hc
        · exact hblocks c (List.mem_cons_of_mem b hc)
        · exact hdf b hb c ((hnew c).mp hc).1
      · rcases (hhas c var).mp hc with hc | ⟨-, hc⟩
        · exact hsound c hc
        · rcases hwork b List.mem_cons_self with hi | hi
          · exact .base hi hc
          · exact .step (hsound b hi) hc
      · rcases List.mem_append.mp hc with hc | hc
        · exact (hwork c (List.mem_cons_of_mem b hc)).imp_right (hmono c var)
        · exact .inr ((hhas c var).mpr (.inr ⟨rfl, ((hnew c).mp hc).1⟩))
      · have hnewx : (x, var) ∉ s.bbHasVarPhi → x ∈ d.domFrontier (some b) → x ∈ workList ++
            (placePhis var (phiType m var) s (d.domFrontier (some b))).2 :=
          fun hx hxb => List.mem_append_right _ ((hnew x).mpr ⟨hxb, hx⟩)
        have hold : Init x ∨ (x, var) ∈ s.bbHasVarPhi →
            x ∈ workList ++ (placePhis var (phiType m var) s (d.domFrontier (some b))).2 ∨
            ∀ y ∈ d.domFrontier (some x), (y, var) ∈
              (placePhis var (phiType m var) s (d.domFrontier (some b))).1.bbHasVarPhi := by
          intro hx
          rcases hdone x hx with hx | hx
          · rcases List.mem_cons.mp hx with rfl | hx
            · exact .inr fun y hy => (hhas y var).mpr (.inr ⟨rfl, hy⟩)
            · exact .inl (List.mem_append_left _ hx)
          · exact .inr fun y hy => hmono y var (hx y hy)
        rcases hx with hx | hx
        · exact hold (.inl hx)
        · by_cases hxs : (x, var) ∈ s.bbHasVarPhi
          · exact hold (.inr hxs)
          · rcases (hhas x var).mp hx with hx | ⟨-, hx⟩
            · exact absurd hx hxs
            · exact .inl (hnewx hxs hx)
      · obtain ⟨phis'', h2, h3, h4⟩ := hs'
        refine ⟨phis'', h2, h3, fun c v hv => (h4 c v hv).trans ?_⟩
        rw [hhas]
        simp [hv]

/-- The blocks of the function that store to `v`. -/
def Stores (m : Module) (blocks : List Nat) (v : Value) (b : Nat) : Prop :=
  b ∈ blocks ∧ ∃ i ∈ (m.blocks b).instrList, storedVar m i = some v

theorem PhiBlock.exists_init (h : PhiBlock d Init b) : ∃ x, Init x := by
  induction h with
  | base hx _ => exact ⟨_, hx⟩
  | step _ _ ih => exact ih

theorem nodup_of_sorted {α : Type*} {addr : α → Nat} {xs : List α}
    (h : xs.Pairwise (addr · < addr ·)) : xs.Nodup :=
  h.imp fun {_ _} hlt he => absurd (he ▸ hlt) (lt_irrefl _)

variable {addr : Value → Nat}

theorem mem_liveVar2Blocks (haddr : Function.Injective addr) :
    b ∈ liveVar2Blocks m addr blocks v ↔ Stores m blocks v b := by
  have hinj : Function.Injective fun bb => addr (.basicBlock bb) :=
    fun x y h => Value.basicBlock.inj (haddr h)
  simp [liveVar2Blocks, mem_ptrSet hinj, Stores]

theorem mem_globalLiveVarName (haddr : Function.Injective addr) :
    v ∈ globalLiveVarName m addr blocks ↔ ∃ b, Stores m blocks v b := by
  simp only [globalLiveVarName, mem_ptrSet haddr, List.mem_flatMap, List.mem_filterMap, Stores]

/-- The phis of a function are on the iterated frontiers of the stores. -/
theorem generatePhi_spec (haddr : Function.Injective addr)
    (hdf : ∀ x ∈ blocks, ∀ y ∈ d.domFrontier (some x), y ∈ blocks) (fuel : Nat) :
    Exec.Meets (fun m' => ∃ s phis, m' = s.module ∧ Places m s phis ∧
        ∀ b v, (b, v) ∈ s.bbHasVarPhi ↔ PhiBlock d (Stores m blocks v) b)
      (fun fault => fault = .outOfFuel ∧ fuel < 2 * blocks.length)
      (generatePhi addr d fuel blocks m) := by
  have hnd : (globalLiveVarName m addr blocks).Nodup := nodup_of_sorted (ptrSet_sorted _)
  refine Exec.Meets.bind (Q := fun s => ∃ phis, Places m s phis ∧ ∀ b v, (b, v) ∈ s.bbHasVarPhi ↔
    v ∈ globalLiveVarName m addr blocks ∧ PhiBlock d (Stores m blocks v) b)
    (Exec.Meets.foldlM (I := fun vars s => ∃ phis, Places m s phis ∧ ∀ b v, (b, v) ∈ s.bbHasVarPhi ↔
      v ∈ vars ∧ PhiBlock d (Stores m blocks v) b) ?_ ⟨_, .initial m, by simp⟩) ?_
  · intro vars var rest s hvars ⟨phis, hs, hhas⟩
    have hvar : var ∉ vars := by
      rw [hvars] at hnd
      exact fun hm => (List.nodup_append.mp hnd).2.2 var hm var (by simp) rfl
    have hnone : ∀ b, (b, var) ∉ s.bbHasVarPhi := fun b hb => hvar ((hhas b var).mp hb).1
    have hlen : (liveVar2Blocks m addr blocks var).length ≤ blocks.length := by
      refine (List.Nodup.subperm (nodup_of_sorted (ptrSet_sorted _)) fun c hc => ?_).length_le
      exact ((mem_liveVar2Blocks haddr).mp hc).1
    refine (placeVar_spec (Stores m blocks var) hdf fuel (liveVar2Blocks m addr blocks var) s
      phis hs (fun c hc => ((mem_liveVar2Blocks haddr).mp hc).1) (fun b hb => absurd hb (hnone b))
      (fun c hc => .inl ((mem_liveVar2Blocks haddr).mp hc)) fun x hx => ?_).mono ?_ ?_
    · exact .inl ((mem_liveVar2Blocks haddr).mpr (hx.resolve_right (hnone x)))
    · rintro s' ⟨phis', h1, h2, h3⟩
      refine ⟨phis', h1, fun b v => ?_⟩
      by_cases hv : v = var
      · subst hv
        rw [h2]
        simp
      · rw [h3 b v hv, hhas]
        simp [hv]
    · rintro fault ⟨rfl, hlt⟩
      have hcount := List.countP_le_length (p := fun b => (b, var) ∉ s.bbHasVarPhi) (l := blocks)
      simp only [workLeft] at hlt
      exact ⟨rfl, by omega⟩
  · rintro s ⟨phis, hs, hhas⟩
    refine .pure ⟨s, phis, rfl, hs, fun b v => (hhas b v).trans ⟨And.right, fun h => ⟨?_, h⟩⟩⟩
    exact (mem_globalLiveVarName haddr).mpr h.exists_init

end

end Mem2Reg

end Cminusf
