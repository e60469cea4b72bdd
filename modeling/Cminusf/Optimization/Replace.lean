import Cminusf.LightIR.UseGraph
import Cminusf.Optimization.Copies
import Cminusf.Optimization.Execution
import Cminusf.Optimization.SsaFunction

/-! `replace_cc_members`: where a member gives way to its leader, and when the two hold one
value there. What is known at the end of a block need not hold at a use inside it, nor at the
end of another block whose operand a phi has beside the block's own. -/

namespace Cminusf

/-- `Value::replace_use_with_when`; `new` is another value. -/
def Module.replaceUseWithWhen (m : Module) (v new : Value) (pred : Value → Bool) : Module :=
  let m' := ((m.useList v).filter fun use => pred use.val).foldl
    (fun m use => m.setOperand use.val use.argNo new) m
  { m' with useList := Function.update m'.useList v ((m.useList v).filter fun use => !pred use.val) }

namespace Module

variable {m : Module} {v w new : Value} {pred : Value → Bool} {use : Use} {k : Nat}

theorem replaceUseWithWhen_rewires : Rewires m (m.replaceUseWithWhen v new pred) := by
  obtain ⟨h, -⟩ := foldl_setOperand m new ((m.useList v).filter fun use => pred use.val)
  exact ⟨h.1, h.2, h.3, h.4, h.5, h.6, h.7, h.8⟩

theorem getElem?_operands_replaceUseWithWhen :
    ((m.replaceUseWithWhen v new pred).operands w)[k]? =
      if (⟨w, k⟩ ∈ m.useList v ∧ pred w) ∧ k < (m.operands w).length then some new
      else (m.operands w)[k]? := by
  obtain ⟨-, h, -⟩ := foldl_setOperand m new ((m.useList v).filter fun use => pred use.val)
  have he : (m.replaceUseWithWhen v new pred).operands w =
      (((m.useList v).filter fun use => pred use.val).foldl
        (fun m use => m.setOperand use.val use.argNo new) m).operands w := by
    cases w <;> rfl
  rw [he, h]
  simp only [List.mem_filter]

theorem useGraph_replaceUseWithWhen {live : Value → Bool}
    (huses : ∀ use ∈ m.useList v, use.val.isUser ∧ use.argNo < (m.operands use.val).length) :
    (m.useGraph live).replaceUseWithWhen v new pred =
      .ok ((m.replaceUseWithWhen v new pred).useGraph live) := by
  have hfilter : ∀ q : Value → Bool, ((m.useGraph live).useList v).filter (fun use => q use.1) =
      ((m.useList v).filter fun use => q use.val).map fun use => (use.val, use.argNo) := by
    intro q
    simp [useGraph, List.filter_map, Function.comp_def]
  rw [UseGraph.replaceUseWithWhen, hfilter, hfilter fun w => !pred w,
    useGraph_setUses fun use huse => huses use (List.mem_filter.mp huse).1]
  refine congrArg Except.ok (UseGraph.ext rfl ?_ ?_)
  · funext w
    cases w <;> rfl
  · funext w
    by_cases hw : w = v
    · simp [useGraph, replaceUseWithWhen, hw]
    · simp [useGraph, replaceUseWithWhen, hw]

theorem mem_useList_replaceUseWithWhen (hne : new ≠ v) :
    use ∈ (m.replaceUseWithWhen v new pred).useList w ↔
      use ∈ m.useList w ∧ (w = v → ¬ pred use.val) ∨
        w = new ∧ use ∈ m.useList v ∧ pred use.val := by
  obtain ⟨-, -, h⟩ := foldl_setOperand m new ((m.useList v).filter fun use => pred use.val)
  by_cases hw : w = v
  · subst hw
    simp [replaceUseWithWhen, Ne.symm hne]
  · simp [replaceUseWithWhen, h, hw]

/-- Exact uses stay exact. -/
theorem uses_replaceUseWithWhen (hne : new ≠ v)
    (hm : ∀ v use, use ∈ m.useList v → (m.operands use.val)[use.argNo]? = some v)
    (hu : use ∈ (m.replaceUseWithWhen v new pred).useList w) :
    ((m.replaceUseWithWhen v new pred).operands use.val)[use.argNo]? = some w := by
  rw [getElem?_operands_replaceUseWithWhen]
  rcases (mem_useList_replaceUseWithWhen hne).mp hu with ⟨hw, hp⟩ | ⟨rfl, hv, hp⟩
  · rw [if_neg, hm w use hw]
    rintro ⟨⟨hv, hpred⟩, -⟩
    have he := (hm w use hw).symm.trans (hm v use hv)
    exact hp (Option.some.inj he) hpred
  · rw [if_pos]
    exact ⟨⟨hv, hp⟩, (List.getElem?_eq_some_iff.mp (hm v use hv)).1⟩

end Module

namespace Gvn

open Execution Mem2Reg Dominators

/-- The users whose operands are replaced on behalf of `bb`. -/
def usedAt (m : Module) (bb : Nat) : Value → Bool
  | .instruction i =>
    if (m.instrs i).isPhi then bb ∈ (m.blocks (m.instrs i).parent).preBbs
    else (m.instrs i).parent = bb
  | _ => false

/-- `dynamic_cast<PhiInst *>`. -/
def isPhiValue (m : Module) : Value → Bool
  | .instruction i => (m.instrs i).isPhi
  | _ => false

def givesWay (m : Module) (cc : CongruenceClass) (member : Value) : Bool :=
  some member ≠ cc.leader && (cc.valuePhi ≠ none || !isPhiValue m member)

def replaceMember (bb : Nat) (cc : CongruenceClass) (m : Module) (member : Value) : Exec Module :=
  if givesWay m cc member then
    match cc.leader with
    | some leader => return m.replaceUseWithWhen member leader (usedAt m bb)
    | none =>
      if (m.useList member).any fun use => usedAt m bb use.val then throw .undefinedBehaviour
      else return m
  else return m

/-- `pout` lists the map in its order. -/
def replaceCcMembers (m : Module) (pout : List (Nat × Partition)) : Exec Module :=
  pout.foldlM (fun m entry => entry.2.foldlM (fun m cc =>
    if cc.index = 0 then return m else cc.members.foldlM (replaceMember entry.1 cc) m) m) m

/-- A member of a class of the partition of a block. -/
structure Candidate where
  bb : Nat
  cc : CongruenceClass
  member : Value

/-- The members in the order in which they are looked at. -/
def candidates (pout : List (Nat × Partition)) : List Candidate :=
  pout.flatMap fun entry => (entry.2.filter (·.index ≠ 0)).flatMap fun cc =>
    cc.members.map fun member => ⟨entry.1, cc, member⟩

def replaceCandidate (m : Module) (c : Candidate) : Exec Module :=
  replaceMember c.bb c.cc m c.member

variable {S : Type} {ops : FloatOps} {m m' : Module} {E : Effect S} {f entry b c bb x k : Nat}
  {v w l : Value} {pout : List (Nat × Partition)} {is js : List Nat} {s s' s₁ : State S}

theorem foldlM_flatMap {α β γ : Type} (f : γ → β → Exec γ) (g : α → List β) (xs : List α) (s : γ) :
    (xs.flatMap g).foldlM f s = xs.foldlM (fun s x => (g x).foldlM f s) s := by
  induction xs generalizing s with
  | nil => rfl
  | cons x xs ih =>
    rw [List.flatMap_cons, List.foldlM_append, List.foldlM_cons]
    simp only [ih]

/-- The three loops are one loop over the members. -/
theorem replaceCcMembers_eq :
    replaceCcMembers m pout = (candidates pout).foldlM replaceCandidate m := by
  rw [candidates, foldlM_flatMap]
  unfold replaceCcMembers
  congr 1
  funext m entry
  rw [foldlM_flatMap]
  generalize entry.2 = part
  induction part generalizing m with
  | nil => rfl
  | cons cc part ih =>
    by_cases hcc : cc.index = 0
    · simpa [hcc] using ih m
    · rw [List.filter_cons_of_pos (by simpa using hcc), List.foldlM_cons, List.foldlM_cons,
        if_neg hcc, List.foldlM_map]
      exact Exec.bind_congr fun m₁ _ => ih m₁

/-- The operand `k` of `x` is changed from `v` to `l` on behalf of `bb`. -/
def Changes (m : Module) (pout : List (Nat × Partition)) (bb : Nat) (v l : Value) (x k : Nat) :
    Prop :=
  ∃ before cc after m', candidates pout = before ++ ⟨bb, cc, v⟩ :: after ∧
    before.foldlM replaceCandidate m = .ok m' ∧ givesWay m' cc v ∧ cc.leader = some l ∧
    ⟨.instruction x, k⟩ ∈ m'.useList v ∧ usedAt m' bb (.instruction x)

/-- The value is that of a phi of a successor of `b`. -/
def IsCopied (m : Module) (b : Nat) (v : Value) : Prop := v ∈ (succPhis m b).map Value.instruction

instance : Decidable (IsCopied m b v) := inferInstanceAs (Decidable (_ ∈ _))

/-- A value at the end of `b` after the copies for its successors' phis. -/
def atEnd (m : Module) (b : Nat) (s : State S) (v : Value) : Datum :=
  if IsCopied m b v then ((incoming m v b).map s.env).getD (s.env v) else s.env v

/-- The values are in one class at the end of `b`. -/
def Together (pout : List (Nat × Partition)) (b : Nat) (v w : Value) : Prop :=
  ∃ part, (b, part) ∈ pout ∧ ∃ cc ∈ part, cc.index ≠ 0 ∧
    (v ∈ cc.members ∨ cc.leader = some v) ∧ (w ∈ cc.members ∨ cc.leader = some w)

/-- The members of each class and its leader have equal values at the end of the block. -/
structure EqualAtEnd (ops : FloatOps) (m : Module) (E : Effect S) (entry : Nat)
    (pout : List (Nat × Partition)) : Prop where
  available : ∀ b v w, Together pout b v w → v ≠ w →
    IsCopied m b v ∨ DefinedBefore m entry b (m.blocks b).instrList v
  equal : ∀ b v w, Together pout b v w → ∀ s s', At ops m E entry b s →
    Flow.Executes (semantics ops m E entry) (steps m (m.blocks b).instrList) s s' →
      atEnd m b s' v = atEnd m b s' w

/-- Where an operand is read: in the block `b` when `is` are executed and `js` are left. -/
inductive ReadAt (m : Module) (x k : Nat) : Nat → List Nat → List Nat → Prop where
  | inside {is js : List Nat} : ¬ (m.instrs x).isPhi →
      (m.blocks (m.instrs x).parent).instrList = is ++ x :: js →
      ReadAt m x k (m.instrs x).parent is (x :: js)
  | copy {c : Nat} : (m.instrs x).isPhi → (m.instrs x).operands[k + 1]? = some (.basicBlock c) →
      ReadAt m x k c (m.blocks c).instrList []

/-- The leader is defined where the operand is read, and has the value of the member there. -/
def KeepsValue (ops : FloatOps) (m : Module) (E : Effect S) (entry : Nat) (v l : Value)
    (x k : Nat) : Prop :=
  ∃ b is js, ReadAt m x k b is js ∧ DefinedBefore m entry b is l ∧
    ∀ s s₁, At ops m E entry b s →
      Flow.Executes (semantics ops m E entry) (steps m is) s s₁ → s₁.env v = s₁.env l

/-- The classes decide on the two values when `is` are executed in `b` and `js` are left: they
are together at the end of `b` and not copied there, or together on every edge into `b` and
not computed in it. -/
inductive Decided (ops : FloatOps) (m : Module) (E : Effect S) (entry : Nat)
    (pout : List (Nat × Partition)) (b : Nat) (v l : Value) (is js : List Nat) : Prop where
  | fromEnd : Together pout b v l → ¬ IsCopied m b v → ¬ IsCopied m b l →
      (∀ s s₁, At ops m E entry b s → Flow.Executes (semantics ops m E entry) (steps m is) s s₁ →
        ∃ s', Flow.Executes (semantics ops m E entry) (steps m js) s₁ s') →
      Decided ops m E entry pout b v l is js
  | fromStart : Graph.Reaches (Succ m) entry b → b ≠ entry →
      (∀ p ∈ (m.blocks b).preBbs, Together pout p v l ∧
        ∀ u, u = v ∨ u = l → IsCopied m p u → u ∈ (phis m b).map Value.instruction) →
      v ∉ steps m (m.blocks b).instrList → l ∉ steps m (m.blocks b).instrList →
      Decided ops m E entry pout b v l is js

/-- The leader is not computed after the operand is read, and the classes decide there. -/
def Harmless (ops : FloatOps) (m : Module) (E : Effect S) (entry : Nat)
    (pout : List (Nat × Partition)) (v l : Value) (x k : Nat) : Prop :=
  ∃ b is js, ReadAt m x k b is js ∧ (∀ j ∈ js, l ≠ .instruction j) ∧
    Decided ops m E entry pout b v l is js

theorem ReadAt.instrList_eq (h : ReadAt m x k b is js) : (m.blocks b).instrList = is ++ js := by
  cases h with
  | inside _ hl => exact hl
  | copy _ _ => simp

theorem atEnd_of_not_isCopied (h : ¬ IsCopied m b v) (s : State S) : atEnd m b s v = s.env v :=
  if_neg h

/-- The copies for all successors leave what the copies for one of them do. -/
theorem atEnd_eq_enter {t : Nat} (ht : Succ m b t)
    (h : IsCopied m b v → v ∈ (phis m t).map Value.instruction) (s : State S) :
    ((program m).enter b t s).env v = atEnd m b s v := by
  have hiff : v ∈ (program m).phis t ↔ IsCopied m b v := by
    refine ⟨fun hv => ?_, h⟩
    obtain ⟨j, hj, rfl⟩ := List.mem_map.mp hv
    exact List.mem_map_of_mem (List.mem_flatMap.mpr ⟨t, ht, hj⟩)
  by_cases hv : IsCopied m b v
  · rw [atEnd, if_pos hv]
    exact if_pos (hiff.mpr hv)
  · rw [atEnd, if_neg hv]
    exact if_neg (mt hiff.mp hv)

theorem Together.symm (h : Together pout b v w) : Together pout b w v := by
  obtain ⟨part, hpart, cc, hcc, hne, hv, hw⟩ := h
  exact ⟨part, hpart, cc, hcc, hne, hw, hv⟩

theorem ne_of_givesWay {cc : CongruenceClass} (h : givesWay m cc v) (hl : cc.leader = some l) :
    l ≠ v := by
  rintro rfl
  simp [givesWay, hl] at h

section Values

variable (hm : SsaFunction m f entry) (heq : EqualAtEnd ops m E entry pout)
include hm heq

theorem Decided.env_eq (h : Decided ops m E entry pout b v l is js)
    (hl : (m.blocks b).instrList = is ++ js) (hv : ∀ j ∈ js, v ≠ .instruction j)
    (hlj : ∀ j ∈ js, l ≠ .instruction j) (hs : At ops m E entry b s)
    (hrun : Flow.Executes (semantics ops m E entry) (steps m is) s s₁) : s₁.env v = s₁.env l := by
  cases h with
  | fromEnd htog hcv hcl hgo =>
    obtain ⟨s', hs'⟩ := hgo s s₁ hs hrun
    have hwhole : Flow.Executes (semantics ops m E entry) (steps m (m.blocks b).instrList) s s' := by
      rw [hl, steps_append]
      exact Flow.executes_append.mpr ⟨s₁, hrun, hs'⟩
    have hend := heq.equal b v l htog s s' hs hwhole
    rw [atEnd_of_not_isCopied hcv, atEnd_of_not_isCopied hcl, hs'.env_eq (not_mem_steps hv),
      hs'.env_eq (not_mem_steps hlj)] at hend
    exact hend
  | fromStart _ hne hpre hbv hbl =>
    rw [hl, steps_append, List.mem_append, not_or] at hbv hbl
    rw [hrun.env_eq hbv.1, hrun.env_eq hbl.1]
    cases hs with
    | start hstart => exact absurd hstart.1 hne
    | @edge p _ s₀ s' hp hbody hbr =>
      have hpf := hm.cfg.reaches_mem (Execution.At.reaches hp)
      have hb := hm.cfg.closed p hpf b hbr.1
      obtain ⟨htog, hin⟩ := hpre p ((hm.cfg.pre b hb p).mpr ⟨hpf, hbr.1⟩)
      rw [atEnd_eq_enter hbr.1 (hin v (.inl rfl)), atEnd_eq_enter hbr.1 (hin l (.inr rfl))]
      exact heq.equal p v l htog s₀ s' hp hbody

/-- The value decided on is defined. -/
theorem Decided.definedBefore (h : Decided ops m E entry pout b v l is js)
    (hne : l ≠ v) (hl : (m.blocks b).instrList = is ++ js) (hlj : ∀ j ∈ js, l ≠ .instruction j) :
    DefinedBefore m entry b is l := by
  rintro j rfl
  have hmem : j ∈ (m.blocks b).instrList → j ∈ is := by
    intro hj
    rw [hl, List.mem_append] at hj
    exact hj.resolve_right fun hj => hlj j hj rfl
  cases h with
  | fromEnd htog _ hcl _ =>
    rcases heq.available b _ _ htog.symm hne with hc | hd
    · exact absurd hc hcl
    · exact (hd j rfl).imp_left hmem
  | fromStart hr hentry hpre _ _ =>
    have hb := hm.cfg.reaches_mem hr
    by_cases hj : j ∈ (m.blocks b).instrList
    · exact .inl (hmem hj)
    · right
      have hdom : ∀ p, Succ m p b → Graph.Reaches (Succ m) entry p →
          Graph.Dominates (Succ m) entry (m.instrs j).parent p := by
        intro p hpb hp
        have hpf := hm.cfg.reaches_mem hp
        obtain ⟨htog, hin⟩ := hpre p ((hm.cfg.pre b hb p).mpr ⟨hpf, hpb⟩)
        rcases heq.available p _ _ htog.symm hne with hc | hd
        · obtain ⟨i, hi, he⟩ := List.mem_map.mp (hin _ (.inr rfl) hc)
          cases he
          exact absurd (List.mem_of_mem_filter hi) hj
        · rcases hd j rfl with hjp | hd
          · rw [hm.parent p hpf j hjp]
            exact Graph.dominates_refl _ _ _
          · exact hd.1
      refine ⟨Graph.dominates_of_preds hentry hdom, ?_⟩
      rintro rfl
      obtain ⟨u, hub, hu⟩ := Graph.exists_avoids_pred hr hentry
      exact hdom u hub hu.reaches hu

end Values

/-- What holds of the module between the replacements. -/
structure Replacing (m : Module) (f entry : Nat) (m' : Module) : Prop where
  rewires : Module.Rewires m m'
  uses : ∀ v use, use ∈ m'.useList v → (m'.operands use.val)[use.argNo]? = some v
  old : ∀ v use, use ∈ m'.useList v → ∃ w, use ∈ m.useList w
  defined : ∀ x, (m.instrs x).parent ∈ (m.functions f).basicBlocks →
    x ∈ (m.blocks (m.instrs x).parent).instrList → ∀ k b is js, ReadAt m x k b is js →
      Graph.Reaches (Succ m) entry b → ∀ v, (m'.operands (.instruction x))[k]? = some v →
        DefinedBefore m entry b is v

theorem SsaFunction.replacing (hm : SsaFunction m f entry) : Replacing m f entry m where
  rewires := .refl m
  uses := hm.uses
  old v use hu := ⟨v, hu⟩
  defined x hx hmem k b is js hread hr v hv := by
    cases hread with
    | inside hphi hl => exact hm.dominates _ hr is x _ hl hphi v (List.mem_of_getElem? hv)
    | copy hphi hc => exact hm.phiDominates _ hx x hmem hphi k v b hv hc hr

theorem ReadAt.unique (hm : SsaFunction m f entry)
    (hx : (m.instrs x).parent ∈ (m.functions f).basicBlocks) {b' : Nat} {is' js' : List Nat}
    (h : ReadAt m x k b is js) (h' : ReadAt m x k b' is' js') : b = b' ∧ is = is' := by
  cases h with
  | inside hphi hl =>
    cases h' with
    | inside _ hl' =>
      have hnd := hm.nodup _ hx
      rw [hl'] at hl hnd
      have hnot : x ∉ is' := fun hx => (List.nodup_append.mp hnd).2.2 x hx x List.mem_cons_self rfl
      have hnot' := (List.nodup_cons.mp (List.nodup_append.mp hnd).2.1).1
      exact ⟨rfl, ((List.append_cons_inj_of_notMem hnot hnot').mp hl).1.symm⟩
    | copy hphi' _ => exact absurd hphi' hphi
  | copy hphi hc =>
    cases h' with
    | inside hphi' _ => exact absurd hphi hphi'
    | copy _ hc' =>
      rw [hc] at hc'
      cases hc'
      exact ⟨rfl, rfl⟩

theorem Rewires.usedAt (h : Module.Rewires m m') : usedAt m' bb v = usedAt m bb v := by
  cases v with
  | instruction i =>
    dsimp only [Gvn.usedAt]
    rw [h.instrs i, h.blocks]
    rfl
  | _ => rfl

theorem candidates_bb {c : Candidate} (hbb : ∀ e ∈ pout, e.1 ∈ (m.functions f).basicBlocks)
    (hc : c ∈ candidates pout) : c.bb ∈ (m.functions f).basicBlocks := by
  simp only [candidates, List.mem_flatMap, List.mem_map] at hc
  obtain ⟨e, he, cc, -, v, -, rfl⟩ := hc
  exact hbb e he

section Steps

variable (hm : SsaFunction m f entry) (heq : EqualAtEnd ops m E entry pout)
  (hr : Replacing m f entry m') (hbb : bb ∈ (m.functions f).basicBlocks)
include hm hr hbb

/-- The users are instructions of the function. -/
theorem Replacing.placed (hu : ⟨.instruction x, k⟩ ∈ m'.useList v)
    (hused : usedAt m' bb (.instruction x)) :
    (m.instrs x).parent ∈ (m.functions f).basicBlocks ∧
      x ∈ (m.blocks (m.instrs x).parent).instrList := by
  obtain ⟨w, hw⟩ := hr.old v _ hu
  have hmem := hm.placed w x k hw
  refine ⟨?_, hmem⟩
  rw [Rewires.usedAt hr.rewires] at hused
  simp only [usedAt] at hused
  split at hused
  · by_contra hno
    exact hm.apart _ (List.ne_nil_of_mem hmem) hno bb (by simpa using hused) hbb
  · rw [of_decide_eq_true hused]
    exact hbb

include heq

theorem Replacing.keepsValue (hne : l ≠ v) (hu : ⟨.instruction x, k⟩ ∈ m'.useList v)
    (hused : usedAt m' bb (.instruction x)) (h : Harmless ops m E entry pout v l x k) :
    KeepsValue ops m E entry v l x k := by
  obtain ⟨b, is, js, hread, hlj, hdec⟩ := h
  have hl := hread.instrList_eq
  refine ⟨b, is, js, hread, hdec.definedBefore hm heq hne hl hlj, fun s s₁ hs hrun => ?_⟩
  -- The member is read, so it is defined before.
  have hreach := Execution.At.reaches hs
  have hb := hm.cfg.reaches_mem hreach
  obtain ⟨hx, hmem⟩ := hr.placed hm hbb hu hused
  have hbefore := hr.defined x hx hmem k b is js hread hreach v (hr.uses v _ hu)
  have hnd := hm.nodup b hb
  rw [hl] at hnd
  apply hdec.env_eq hm heq hl _ hlj hs hrun
  rintro j hj rfl
  rcases hbefore j rfl with hji | hdom
  · exact (List.nodup_append.mp hnd).2.2 j hji j hj rfl
  · have hjb : j ∈ (m.blocks b).instrList := by
      rw [hl]
      exact List.mem_append_right is hj
    rw [hm.parent b hb j hjb] at hdom
    exact Graph.strictlyDominates_irrefl hdom

end Steps

theorem Replacing.step {cc : CongruenceClass} {m'' : Module} (hm : SsaFunction m f entry)
    (heq : EqualAtEnd ops m E entry pout) (hr : Replacing m f entry m')
    (hstep : replaceMember bb cc m' v = .ok m'')
    (h : ∀ l x k, givesWay m' cc v → cc.leader = some l → ⟨.instruction x, k⟩ ∈ m'.useList v →
      usedAt m' bb (.instruction x) → Harmless ops m E entry pout v l x k) :
    Replacing m f entry m'' := by
  unfold replaceMember at hstep
  split at hstep
  · rename_i hgive
    cases hlead : cc.leader with
    | none =>
      simp only [hlead] at hstep
      split at hstep
      · cases hstep
      · cases hstep
        exact hr
    | some l =>
      simp only [hlead] at hstep
      cases hstep
      have hne := ne_of_givesWay hgive hlead
      constructor
      · exact hr.rewires.trans Module.replaceUseWithWhen_rewires
      · intro w use hu
        exact Module.uses_replaceUseWithWhen hne hr.uses hu
      · intro w use hu
        rcases (Module.mem_useList_replaceUseWithWhen hne).mp hu with ⟨hw, -⟩ | ⟨-, hv, -⟩
        · exact hr.old w use hw
        · exact hr.old v use hv
      · intro x hx hmem k b is js hread hreach w hw
        rw [Module.getElem?_operands_replaceUseWithWhen] at hw
        split at hw
        · rename_i hc
          cases hw
          obtain ⟨b', is', js', hread', hlj, hdec⟩ := h l x k hgive hlead hc.1.1 hc.1.2
          obtain ⟨rfl, rfl⟩ := hread.unique hm hx hread'
          exact hdec.definedBefore hm heq hne hread'.instrList_eq hlj
        · exact hr.defined x hx hmem k b is js hread hreach w hw
  · cases hstep
    exact hr

section Runs

variable (hm : SsaFunction m f entry) (heq : EqualAtEnd ops m E entry pout)
  (hh : ∀ bb v l x k, Changes m pout bb v l x k → Harmless ops m E entry pout v l x k)
include hm heq hh

theorem replacing_foldlM {before after : List Candidate}
    (hl : candidates pout = before ++ after) (hrun : before.foldlM replaceCandidate m = .ok m') :
    Replacing m f entry m' := by
  induction before using List.reverseRecOn generalizing after m' with
  | nil =>
    cases hrun
    exact hm.replacing
  | append_singleton before c ih =>
    rw [List.foldlM_append] at hrun
    obtain ⟨m₁, h₁, hrun⟩ := Exec.bind_eq_ok.mp hrun
    obtain ⟨m₂, h₂, hrun⟩ := Exec.bind_eq_ok.mp hrun
    cases hrun
    have hl' : candidates pout = before ++ c :: after := by simpa using hl
    apply Replacing.step hm heq (ih hl' h₁) h₂
    intro l x k hgive hlead hu hused
    exact hh _ _ _ x k ⟨before, c.cc, after, m₁, hl', h₁, hgive, hlead, hu, hused⟩

/-- A run in which every change is harmless changes no value. -/
theorem keepsValue_of_harmless (hbb : ∀ e ∈ pout, e.1 ∈ (m.functions f).basicBlocks) :
    ∀ bb v l x k, Changes m pout bb v l x k → KeepsValue ops m E entry v l x k := by
  intro bb v l x k hc
  have hharm := hh bb v l x k hc
  obtain ⟨before, cc, after, m', hl, hrun, hgive, hlead, hu, hused⟩ := hc
  have hmem : (⟨bb, cc, v⟩ : Candidate) ∈ candidates pout := by simp [hl]
  exact (replacing_foldlM hm heq hh hl hrun).keepsValue hm heq (candidates_bb hbb hmem)
    (ne_of_givesWay hgive hlead) hu hused hharm

end Runs

/-- `int main(void) { return 1 + 2; }`. -/
def sumProgram : ASTProgram :=
  ⟨[.fun ⟨.int, "main", [], [], [.return (some (.simple (.additive
    (.ofTerm (.ofFactor (.num (.int 1)))) .plus (.ofFactor (.num (.int 2))))))]⟩]⟩

/-- What is known at the end of its block: the sum is the constant 3. -/
def sumPartition : List (Nat × Partition) :=
  [(0, [⟨1, some (.constInt 3), .constant (some (.constInt 3)), none, [.instruction 0]⟩])]

theorem together_sumPartition (h : Together sumPartition b v w) :
    b = 0 ∧ (v = .instruction 0 ∨ v = .constInt 3) ∧ (w = .instruction 0 ∨ w = .constInt 3) := by
  obtain ⟨part, hpart, cc, hcc, -, hv, hw⟩ := h
  simp only [sumPartition, List.mem_singleton, Prod.mk.injEq] at hpart
  obtain ⟨rfl, rfl⟩ := hpart
  obtain rfl := List.mem_singleton.mp hcc
  simp only [List.mem_singleton, Option.some.injEq] at hv hw
  exact ⟨rfl, hv.imp_right Eq.symm, hw.imp_right Eq.symm⟩

/-- What the block of `sumProgram` is. -/
structure SumBlock (m : Module) : Prop where
  blocks : (m.functions 4).basicBlocks = [0]
  instrList : (m.blocks 0).instrList = [0, 1]
  succPhis : succPhis m 0 = []
  steps : steps m [0, 1] = [.instruction 0, .instruction 1]
  sum : (m.instrs 0).opId = .binary .add ∧ (m.instrs 0).operands = [.constInt 1, .constInt 2]
  ret : (m.instrs 1).opId = .ret ∧ (m.instrs 1).parent = 0
  uses : m.useList (.instruction 0) = [⟨.instruction 1, 0⟩]

theorem equalAtEnd_sumPartition (h : SumBlock m) :
    EqualAtEnd noFloats m anyEffect 0 sumPartition where
  available b v w htog _ := by
    obtain ⟨rfl, rfl | rfl, -⟩ := together_sumPartition htog
    · right
      rintro j hj
      cases hj
      simp [h.instrList]
    · exact .inr fun j hj => by cases hj
  equal b v w htog s s' hs hrun := by
    obtain ⟨rfl, hv, hw⟩ := together_sumPartition htog
    have key : ∀ u, u = .instruction 0 ∨ u = .constInt 3 → atEnd m 0 s' u = .int 3 := by
      intro u hu
      rw [atEnd_of_not_isCopied (by simp [IsCopied, h.succPhis])]
      rcases hu with rfl | rfl
      · rw [h.instrList, h.steps] at hrun
        cases hrun with
        | @cons _ _ _ _ d rest hsum hrun =>
          obtain ⟨x, hx, hsum⟩ := hsum
          cases hx
          have h1 := Execution.At.constant hs (v := .constInt 1) rfl
          have h2 := Execution.At.constant hs (v := .constInt 2) rfl
          simp only [Computes, h.sum.1, h.sum.2, OpID.isArithmetic, if_true, List.map_cons,
            List.map_nil, h1, h2] at hsum
          have hd : some (Datum.int 3) = some d := hsum.1
          cases hd
          rw [hrun.env_eq (by simp)]
          simp
      · rw [env_eq_of_executes hrun (by simp)]
        exact Execution.At.constant hs rfl
    rw [key v hv, key w hw]

theorem keepsValue_of_harmless_sumProgram : ∃ m, buildModule sumProgram = some m ∧
    ∃ m', run m Value.code 20 = .ok m' ∧
      Changes m' sumPartition 0 (.instruction 0) (.constInt 3) 1 0 ∧
      KeepsValue noFloats m' anyEffect 0 (.instruction 0) (.constInt 3) 1 0 := by
  obtain ⟨m, hm, h⟩ := exists_buildModule sumProgram
    (fun m => (run m Value.code 20).toOption.any fun m' =>
      decide (4 < m.numFunctions ∧ (m.functions 4).basicBlocks.head? = some 0 ∧
        isSsa m' 4 0 1 ∧ (m'.functions 4).basicBlocks = [0] ∧ (m'.blocks 0).instrList = [0, 1] ∧
        succPhis m' 0 = [] ∧ steps m' [0, 1] = [.instruction 0, .instruction 1] ∧
        ((m'.instrs 0).opId = .binary .add ∧
          (m'.instrs 0).operands = [.constInt 1, .constInt 2]) ∧
        ((m'.instrs 1).opId = .ret ∧ (m'.instrs 1).parent = 0) ∧
        m'.useList (.instruction 0) = [⟨.instruction 1, 0⟩] ∧
        usedAt m' 0 (.instruction 1) ∧ ¬ (m'.instrs 0).isPhi))
    (by decide +kernel)
  cases hrun : run m Value.code 20 with
  | error fault =>
    rw [hrun] at h
    cases h
  | ok m' =>
    rw [hrun] at h
    obtain ⟨hlt, hhead, hssa, hb, hl, hs, hst, hsum, hret, huse, hused, hphi⟩ := of_decide_eq_true h
    have hblock : SumBlock m' := ⟨hb, hl, hs, hst, hsum, hret, huse⟩
    have hm' := ssaFunction_of_isSsa hm Value.code_injective hrun hlt hhead hssa
    have hchange : Changes m' sumPartition 0 (.instruction 0) (.constInt 3) 1 0 := by
      refine ⟨[], _, [], m', rfl, rfl, ?_, rfl, ?_, hused⟩
      · simp [givesWay, isPhiValue, hphi]
      · simp [huse]
    refine ⟨m, hm, m', hrun, hchange, ?_⟩
    refine keepsValue_of_harmless hm' (equalAtEnd_sumPartition hblock) ?_ ?_ _ _ _ _ _ hchange
    · rintro bb v l x k ⟨before, cc, after, m₁, hsplit, hbefore, -, hlead, hu, -⟩
      -- The sum is the only member, and its only use is the return.
      have hnil : before = [] := by
        cases before with
        | nil => rfl
        | cons c before => simp [candidates, sumPartition] at hsplit
      subst hnil
      cases hsplit
      cases hbefore
      cases hlead
      rw [huse, List.mem_singleton] at hu
      cases hu
      have hret' : ¬ (m'.instrs 1).isPhi := by simp [Instruction.isPhi, hret.1]
      have hread : ReadAt m' 1 0 (m'.instrs 1).parent [0] [1] := by
        apply ReadAt.inside hret'
        rw [hret.2, hl]
        rfl
      rw [hret.2] at hread
      refine ⟨0, [0], [1], hread, by simp, .fromEnd ?_ ?_ ?_ ?_⟩
      · exact ⟨_, List.mem_singleton_self _, _, List.mem_singleton_self _, by decide, by simp, by simp⟩
      · simp [IsCopied, hs]
      · simp [IsCopied, hs]
      · intro s s₁ _ _
        have hsteps : steps m' [1] = [.instruction 1] := by simp [steps, hret']
        have hc : Computes noFloats m' anyEffect 1 s₁ (.int 0) () := by
          simp only [Computes, hret.1, OpID.isArithmetic, Bool.false_eq_true, if_false]
          exact ⟨hret', trivial⟩
        rw [hsteps]
        exact ⟨_, .cons ⟨1, rfl, hc⟩ .nil⟩
    · simp [sumPartition, hb]

/-- Whether the class has one value, or the members other than the leader are copies of it. -/
def followsLeader (m : Module) (entry n b : Nat) (cc : CongruenceClass) : Bool :=
  match cc.leader with
  | some l => cc.members.all (· = l) ||
    !decide (IsCopied m b l) && definedBefore m entry n b (m.blocks b).instrList l &&
      cc.members.all fun v => v = l || decide (IsCopied m b v) && incoming m v b = some l
  | none => false

/-- Copies of a leader are equal to it in every execution. -/
theorem equalAtEnd_of_followsLeader {n : Nat}
    (h : ∀ e ∈ pout, ∀ cc ∈ e.2, cc.index ≠ 0 → followsLeader m entry n e.1 cc) :
    EqualAtEnd ops m E entry pout := by
  have key : ∀ b v w, Together pout b v w → v ≠ w → ∃ l, ¬ IsCopied m b l ∧
      DefinedBefore m entry b (m.blocks b).instrList l ∧
      ∀ u, u = v ∨ u = w → u = l ∨ IsCopied m b u ∧ incoming m u b = some l := by
    rintro b v w ⟨part, hpart, cc, hcc, hindex, hv, hw⟩ hne
    have hf := h _ hpart cc hcc hindex
    unfold followsLeader at hf
    split at hf
    · rename_i l hl
      rw [hl, Option.some.injEq] at hv hw
      simp only [Bool.or_eq_true, Bool.and_eq_true, List.all_eq_true, decide_eq_true_eq,
        Bool.not_eq_true', decide_eq_false_iff_not] at hf
      rcases hf with hall | ⟨⟨hcopied, hdef⟩, hall⟩
      · have hvl := hv.elim (hall v) Eq.symm
        have hwl := hw.elim (hall w) Eq.symm
        exact absurd (hvl.trans hwl.symm) hne
      · refine ⟨l, hcopied, definedBefore_of_definedBefore hdef, ?_⟩
        rintro u (rfl | rfl)
        · exact hv.elim (hall u) fun he => .inl he.symm
        · exact hw.elim (hall u) fun he => .inl he.symm
    · cases hf
  constructor
  · intro b v w htog hne
    obtain ⟨l, -, hdef, hl⟩ := key b v w htog hne
    rcases hl v (.inl rfl) with rfl | ⟨hc, -⟩
    · exact .inr hdef
    · exact .inl hc
  · intro b v w htog s s' _ _
    by_cases hne : v = w
    · rw [hne]
    · obtain ⟨l, hcopied, -, hl⟩ := key b v w htog hne
      have hend : ∀ u, u = v ∨ u = w → atEnd m b s' u = s'.env l := by
        intro u hu
        rcases hl u hu with rfl | ⟨hc, hi⟩
        · exact if_neg hcopied
        · simp [atEnd, hc, hi]
      rw [hend v (.inl rfl), hend w (.inr rfl)]

/-- Whether the candidate with the number `n` changes the operand. -/
def changed (m : Module) (pout : List (Nat × Partition)) (n bb : Nat) (v l : Value) (x k : Nat) :
    Bool :=
  match (candidates pout)[n]?, (((candidates pout).take n).foldlM replaceCandidate m).toOption with
  | some c, some m' => c.bb = bb && c.member = v && givesWay m' c.cc v && c.cc.leader = some l &&
    ⟨.instruction x, k⟩ ∈ m'.useList v && usedAt m' bb (.instruction x)
  | _, _ => false

theorem changes_of_changed {n : Nat} (h : changed m pout n bb v l x k) :
    Changes m pout bb v l x k := by
  unfold changed at h
  split at h
  · rename_i c m' hc hrun
    simp only [Bool.and_eq_true, decide_eq_true_eq] at h
    obtain ⟨⟨⟨⟨⟨rfl, rfl⟩, hgive⟩, hlead⟩, hu⟩, hused⟩ := h
    obtain ⟨hlt, rfl⟩ := List.getElem?_eq_some_iff.mp hc
    refine ⟨_, _, (candidates pout).drop (n + 1), m', ?_, Exec.ok_of_toOption hrun, hgive, hlead, hu, hused⟩
    rw [List.getElem_cons_drop]
    simp
  · cases h

/-- `int main(void) { int x; int z; int q; if (input()) { x = 1; z = 1; } else { x = 2; z = 3; }
q = 0; while (input()) { output(q); q = x + x; } return z; }`. -/
def carryProgram : ASTProgram :=
  let var (id : String) : ASTFactor := .var (.scalar id)
  let simple (t : ASTFactor) : ASTExpression := .simple (.ofTerm (.ofFactor t))
  let assign (id : String) (e : ASTExpression) : ASTStatement :=
    .expressionStmt (some (.assign (.scalar id) e))
  let input : ASTExpression := simple (.call "input" [])
  ⟨[.fun ⟨.int, "main", [], [⟨.int, "x", none⟩, ⟨.int, "z", none⟩, ⟨.int, "q", none⟩],
    [.selectionElse input
      (.compound [] [assign "x" (Dominators.literal 1), assign "z" (Dominators.literal 1)])
      (.compound [] [assign "x" (Dominators.literal 2), assign "z" (Dominators.literal 3)]),
    assign "q" (Dominators.literal 0),
    .iteration input (.compound [] [.expressionStmt (some (simple (.call "output" [simple (var "q")]))),
      assign "q" (.simple (.additive (.ofTerm (.ofFactor (var "x"))) .plus (.ofFactor (var "x"))))]),
    .return (some (simple (var "z")))]⟩]⟩

/-- The partitions at the ends of the blocks of a function. -/
def poutOf (m : Module) (f : Nat) (g : GVN) : List (Nat × Partition) :=
  (m.functions f).basicBlocks.map fun b => (b, g.pout b)

/-- The classes that the analysis finds are sound at the ends of the blocks, and `output(q)`
gets the sum that is computed after it. -/
theorem not_keepsValue_carryProgram : ∃ m, buildModule carryProgram = some m ∧
    ∃ m', run m Value.code 40 = .ok m' ∧ SsaFunction m' 4 0 ∧
      ∃ g, detectEquivalences ⟨m', noFloats, fun _ => false, 0, 0⟩ Value.code 4 1 40 = .ok g ∧
        (∀ (S : Type) (ops : FloatOps) (E : Effect S), EqualAtEnd ops m' E 0 (poutOf m' 4 g)) ∧
        Changes m' (poutOf m' 4 g) 5 (.instruction 28) (.instruction 21) 18 1 ∧
        ∀ (S : Type) (ops : FloatOps) (E : Effect S),
          ¬ KeepsValue ops m' E 0 (.instruction 28) (.instruction 21) 18 1 := by
  obtain ⟨m, hm, h⟩ := exists_buildModule carryProgram
    (fun m => decide (4 < m.numFunctions ∧ (m.functions 4).basicBlocks.head? = some 0) &&
      (run m Value.code 40).toOption.any fun m' => isSsa m' 4 0 8 &&
        decide ((m'.blocks 5).instrList = [18, 21, 23] ∧ (m'.instrs 18).parent = 5 ∧
          (m'.instrs 21).parent = 5 ∧ ¬ (m'.instrs 18).isPhi) &&
        (detectEquivalences ⟨m', noFloats, fun _ => false, 0, 0⟩ Value.code 4 1 40).toOption.any fun g =>
          ((poutOf m' 4 g).all fun e => e.2.all fun cc => cc.index = 0 ||
            followsLeader m' 0 8 e.1 cc) &&
          changed m' (poutOf m' 4 g) 29 5 (.instruction 28) (.instruction 21) 18 1)
    (by decide +kernel)
  simp only [Bool.and_eq_true, decide_eq_true_eq] at h
  obtain ⟨⟨hlt, hhead⟩, h⟩ := h
  obtain ⟨m', hrun, h⟩ := (Option.any_eq_true _ _).mp h
  simp only [Bool.and_eq_true, decide_eq_true_eq] at h
  obtain ⟨⟨hssa, hl, hparent, hparent', hphi⟩, h⟩ := h
  obtain ⟨g, hg, h⟩ := (Option.any_eq_true _ _).mp h
  simp only [Bool.and_eq_true, List.all_eq_true, Bool.or_eq_true, decide_eq_true_eq] at h
  obtain ⟨hfollows, hchanged⟩ := h
  have hrun := Exec.ok_of_toOption hrun
  refine ⟨m, hm, m', hrun, ssaFunction_of_isSsa hm Value.code_injective hrun hlt hhead hssa, g,
    Exec.ok_of_toOption hg, fun S ops E => ?_, changes_of_changed hchanged, fun S ops E => ?_⟩
  · apply equalAtEnd_of_followsLeader
    exact fun e he cc hcc hne => (hfollows e he cc hcc).resolve_left hne
  · rintro ⟨b, is, js, hread, hdef, -⟩
    cases hread with
    | copy hp _ => exact hphi hp
    | @inside is js _ hsplit =>
      rw [hparent] at hdef
      rw [hparent, hl] at hsplit
      -- The call comes first, and the sum is computed in its block.
      cases is with
      | nil =>
        rcases hdef 21 rfl with hmem | hdom
        · cases hmem
        · rw [hparent'] at hdom
          exact Graph.strictlyDominates_irrefl hdom
      | cons i is =>
        rw [List.cons_append, List.cons.injEq] at hsplit
        have hmem : 18 ∈ is ++ 18 :: js := by simp
        rw [← hsplit.2] at hmem
        simp at hmem

end Gvn

end Cminusf
