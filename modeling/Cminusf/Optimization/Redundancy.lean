import Cminusf.Optimization.PhiFunc

/-! The redundancy that the value φ-functions are for: `x op y` of two phis is a third phi when
both of its operands have been computed at the ends of the predecessors. It is found in the block
of the phis, and not in the blocks below it. -/

namespace Cminusf

namespace Gvn

open Mem2Reg Dominators

variable {ctx : Context} {g : GVN} {addr : Value → Nat} {bb k k₁ k₂ l r f fuel next x y z w : Nat}
  {op : BinaryOp} {p : Partition} {s : Partition × GVN} {c : CongruenceClass} {u v : Value}
  {e ve e₁ e₂ d₁ d₂ : Expression} {vp : Option (Expression × Expression)} {blocks is : List Nat}

/-- A comparison of an expression with itself. -/
theorem Expression.equiv_self {b : Bool} (h : e.equiv e = .ok b) : b = true := by
  induction e generalizing b with
  | null => cases h
  | bin op l r ihl ihr =>
    simp only [equiv, if_true] at h
    obtain ⟨b', hb', h⟩ := Exec.bind_eq_ok.mp h
    obtain rfl := ihl hb'
    exact ihr h
  | phi l r ihl ihr =>
    obtain ⟨b', hb', h⟩ := Exec.bind_eq_ok.mp h
    obtain rfl := ihl hb'
    exact ihr h
  | typeConverse e op ih =>
    obtain ⟨b', hb', h⟩ := Exec.bind_eq_ok.mp h
    obtain rfl := ih hb'
    cases h
    simp
  | _ =>
    cases h
    simp

theorem getVN_of_mem {b : Bool} (hne : ve ≠ .null) (hc : c ∈ p) (hve : c.valueExpr = ve)
    (h : getVN p ve = .ok b) : b = true := by
  induction p with
  | nil => cases hc
  | cons c' p ih =>
    rw [getVN] at h
    rcases List.mem_cons.mp hc with rfl | hc
    · rw [if_pos (by rw [hve]; exact hne)] at h
      obtain ⟨b', hb', h⟩ := Exec.bind_eq_ok.mp h
      rw [hve] at hb'
      obtain rfl := Expression.equiv_self hb'
      cases h
      rfl
    · split at h
      · obtain ⟨b', -, h⟩ := Exec.bind_eq_ok.mp h
        split at h
        · cases h
          rfl
        · exact ih hc h
      · exact ih hc h

/-- The comparison of the value expressions comes first. -/
theorem inClass_eq : inClass ve vp c =
    (if c.valueExpr ≠ .null then ve.equiv c.valueExpr else return false) >>= fun b =>
      if b then return true
      else if vp ≠ none ∧ c.valuePhi ≠ none then (phiOf vp).equiv (phiOf c.valuePhi)
      else return false := by
  unfold inClass
  by_cases hve : c.valueExpr ≠ .null
  · simp only [if_pos hve]
  · simp only [if_neg hve, pure_bind, Bool.false_eq_true, if_false]

theorem phiOf_injective {vp' : Option (Expression × Expression)} (h : phiOf vp = phiOf vp') :
    vp = vp' := by
  cases vp <;> cases vp' <;> simp_all [phiOf, Prod.ext_iff]

/-- The two reasons to put a value into a class. -/
theorem of_inClass (h : inClass ve vp c = .ok true) :
    c.valueExpr = ve ∨ vp ≠ none ∧ c.valuePhi = vp := by
  rw [inClass_eq] at h
  obtain ⟨b, hb, h⟩ := Exec.bind_eq_ok.mp h
  cases b with
  | true =>
    split at hb
    · exact .inl (Expression.eq_of_equiv hb).symm
    · cases hb
  | false =>
    rw [if_neg (by simp)] at h
    split at h
    · rename_i hne
      exact .inr ⟨hne.1, (phiOf_injective (Expression.eq_of_equiv h)).symm⟩
    · cases h

theorem inClass_of_valuePhi {b : Bool} (hne : vp ≠ none) (hc : c.valuePhi = vp)
    (h : inClass ve vp c = .ok b) : b = true := by
  rw [inClass_eq] at h
  obtain ⟨b', -, h⟩ := Exec.bind_eq_ok.mp h
  cases b' with
  | true =>
    cases h
    rfl
  | false =>
    rw [if_neg (by simp), hc, if_pos ⟨hne, hne⟩] at h
    exact Expression.equiv_self h

/-- The value goes to the first class that fits. -/
theorem joinClass_cases {o : Option Partition} (h : joinClass v ve vp p = .ok o) :
    (o = none ∧ ∀ c ∈ p, inClass ve vp c = .ok false) ∨
      ∃ before c after, p = before ++ c :: after ∧ inClass ve vp c = .ok true ∧
        o = some (before ++ { c with members := insertMember v c.members } :: after) := by
  induction p generalizing o with
  | nil =>
    cases h
    exact .inl ⟨rfl, by simp⟩
  | cons c p ih =>
    rw [joinClass] at h
    obtain ⟨b, hb, h⟩ := Exec.bind_eq_ok.mp h
    cases b with
    | true =>
      cases h
      exact .inr ⟨[], c, p, rfl, hb, rfl⟩
    | false =>
      obtain ⟨o', ho', h⟩ := Exec.bind_eq_ok.mp h
      cases h
      rcases ih ho' with ⟨rfl, hno⟩ | ⟨before, c', after, rfl, hc', rfl⟩
      · refine .inl ⟨rfl, fun d hd => ?_⟩
        rcases List.mem_cons.mp hd with rfl | hd
        · exact hb
        · exact hno d hd
      · exact .inr ⟨c :: before, c', after, rfl, hc', rfl⟩

theorem mem_insertMember {members : List Value} :
    u ∈ insertMember v members ↔ u = v ∨ u ∈ members := by
  unfold insertMember
  split
  · rename_i hv
    constructor
    · exact .inr
    · rintro (rfl | hu)
      · exact hv
      · exact hu
  · rw [List.mem_append, List.mem_singleton, or_comm]

/-- A class after the transfer of an instruction that may have been or become a member. -/
structure Same (v : Value) (c c' : CongruenceClass) : Prop where
  valueExpr : c'.valueExpr = c.valueExpr
  valuePhi : c'.valuePhi = c.valuePhi
  mem : ∀ u, u ≠ v → (u ∈ c'.members ↔ u ∈ c.members)

theorem Same.refl (v : Value) (c : CongruenceClass) : Same v c c := ⟨rfl, rfl, fun _ _ => Iff.rfl⟩

theorem Same.trans {c' c'' : CongruenceClass} (h : Same v c c') (h' : Same v c' c'') :
    Same v c c'' where
  valueExpr := h'.valueExpr.trans h.valueExpr
  valuePhi := h'.valuePhi.trans h.valuePhi
  mem u hu := (h'.mem u hu).trans (h.mem u hu)

theorem same_erase (v : Value) (c : CongruenceClass) :
    Same v c { c with members := c.members.erase v } :=
  ⟨rfl, rfl, fun _ hu => List.mem_erase_of_ne hu⟩

theorem same_insertMember (v : Value) (c : CongruenceClass) :
    Same v c { c with members := insertMember v c.members } := by
  refine ⟨rfl, rfl, fun u hu => ?_⟩
  rw [mem_insertMember]
  exact or_iff_right hu

theorem same_of_mem_eraseMember (hc : c ∈ eraseMember v p) : ∃ d ∈ p, Same v d c := by
  rcases mem_eraseMember hc with hc | ⟨d, hd, -, rfl⟩
  · exact ⟨c, hc, .refl v c⟩
  · exact ⟨d, hd, same_erase v d⟩

theorem exists_same_eraseMember (hc : c ∈ p) (hu : u ∈ c.members) (hne : u ≠ v) :
    ∃ c' ∈ eraseMember v p, Same v c c' := by
  induction p with
  | nil => cases hc
  | cons d p ih =>
    unfold eraseMember
    rcases List.mem_cons.mp hc with rfl | hc
    · split
      · have hmem : u ∈ c.members.erase v := (List.mem_erase_of_ne hne).mpr hu
        rw [if_neg (by simpa using List.ne_nil_of_mem hmem)]
        exact ⟨_, List.mem_cons_self, same_erase v c⟩
      · exact ⟨c, List.mem_cons_self, .refl v c⟩
    · split
      · split
        · exact ⟨c, hc, .refl v c⟩
        · exact ⟨c, List.mem_cons_of_mem _ hc, .refl v c⟩
      · obtain ⟨c', hc', hs⟩ := ih hc
        exact ⟨c', List.mem_cons_of_mem _ hc', hs⟩

/-- What `register` does with the classes: all remain, and a new one is made only when none
fits. -/
theorem register_classes (hrun : register g x ve vp p = .ok s) : s.2.pout = g.pout ∧
    (∀ c ∈ p, ∃ c' ∈ s.1, Same (.instruction x) c c') ∧
    ∀ c' ∈ s.1, (∃ c ∈ p, Same (.instruction x) c c') ∨
      c'.valueExpr = ve ∧ c'.valuePhi = vp ∧ ∀ c ∈ p, inClass ve vp c = .ok false := by
  unfold register at hrun
  split at hrun
  · cases hrun
    exact ⟨rfl, fun c hc => ⟨c, hc, .refl _ c⟩, fun c hc => .inl ⟨c, hc, .refl _ c⟩⟩
  obtain ⟨o, ho, hrun⟩ := Exec.bind_eq_ok.mp hrun
  rcases joinClass_cases ho with ⟨rfl, hno⟩ | ⟨before, c, after, rfl, -, rfl⟩
  · cases hrun
    refine ⟨rfl, fun c hc => ⟨c, mem_insert_of_mem hc, .refl _ c⟩, fun c' hc' => ?_⟩
    rcases mem_of_mem_insert hc' with rfl | hc'
    · exact .inr ⟨rfl, rfl, hno⟩
    · exact .inl ⟨c', hc', .refl _ c'⟩
  · cases hrun
    refine ⟨rfl, fun d hd => ?_, fun d hd => .inl ?_⟩
    · rcases List.mem_append.mp hd with hd | hd
      · exact ⟨d, List.mem_append_left _ hd, .refl _ d⟩
      · rcases List.mem_cons.mp hd with rfl | hd
        · exact ⟨_, List.mem_append_right _ List.mem_cons_self, same_insertMember _ d⟩
        · exact ⟨d, List.mem_append_right _ (List.mem_cons_of_mem _ hd), .refl _ d⟩
    · rcases List.mem_append.mp hd with hd | hd
      · exact ⟨d, List.mem_append_left _ hd, .refl _ d⟩
      · rcases List.mem_cons.mp hd with rfl | hd
        · exact ⟨c, List.mem_append_right _ List.mem_cons_self, same_insertMember _ c⟩
        · exact ⟨d, List.mem_append_right _ (List.mem_cons_of_mem _ hd), .refl _ d⟩

/-- A value for which a class fits becomes a member of one. -/
theorem register_joins (hve : ve ≠ .null) (hc : c ∈ p) (hfit : inClass ve vp c ≠ .ok false)
    (hrun : register g x ve vp p = .ok s) : ∃ c ∈ p, inClass ve vp c = .ok true ∧
      ∃ c' ∈ s.1, Same (.instruction x) c c' ∧ .instruction x ∈ c'.members := by
  rw [register, if_neg hve] at hrun
  obtain ⟨o, ho, hrun⟩ := Exec.bind_eq_ok.mp hrun
  rcases joinClass_cases ho with ⟨rfl, hno⟩ | ⟨before, c, after, rfl, hin, rfl⟩
  · exact absurd (hno c hc) hfit
  · cases hrun
    exact ⟨c, List.mem_append_right _ List.mem_cons_self, hin, _,
      List.mem_append_right _ List.mem_cons_self, same_insertMember _ c,
      mem_insertMember.mpr (.inl rfl)⟩

theorem phiEdge_of_mem (hconst : constantOf e₁ = none ∨ constantOf d₁ = none)
    {nested : Exec (Option (Expression × Expression))}
    (hc : c ∈ p) (hve : c.valueExpr = .bin op e₁ d₁) (h : phiEdge ctx x op e₁ d₁ p nested = .ok e) :
    e = .bin op e₁ d₁ := by
  unfold phiEdge at h
  split at h
  · rename_i h₁ h₂
    rcases hconst with hconst | hconst
    · rw [hconst] at h₁
      cases h₁
    · rw [hconst] at h₂
      cases h₂
  · obtain ⟨b, hb, h⟩ := Exec.bind_eq_ok.mp h
    obtain rfl := getVN_of_mem (by simp) hc hve hb
    cases h
    rfl

/-- What the documentation asks of the classes on entry to a block: phis for `x` and `y`, and one
class, that of `z`, for the phi of the two sums. -/
structure Merged (pin pl pr : Partition) (op : BinaryOp) (x y z : Nat)
    (e₁ e₂ d₁ d₂ : Expression) : Prop where
  lhs : getVE pin (.instruction x) = .phi e₁ e₂
  rhs : getVE pin (.instruction y) = .phi d₁ d₂
  value : ∃ cc ∈ pin, .instruction z ∈ cc.members ∧
    cc.valuePhi = some (.bin op e₁ d₁, .bin op e₂ d₂)
  only : ∀ cc ∈ pin, cc.valueExpr = .bin op (.phi e₁ e₂) (.phi d₁ d₂) ∨
    cc.valuePhi = some (.bin op e₁ d₁, .bin op e₂ d₂) → .instruction z ∈ cc.members
  left : ∃ cc ∈ pl, cc.valueExpr = .bin op e₁ d₁
  right : ∃ cc ∈ pr, cc.valueExpr = .bin op e₂ d₂
  leftVaries : constantOf e₁ = none ∨ constantOf d₁ = none
  rightVaries : constantOf e₂ = none ∨ constantOf d₂ = none

section

variable (hfront : (ctx.module.blocks bb).preBbs.head? = some l)
  (hback : (ctx.module.blocks bb).preBbs.getLast? = some r)
  (h : Merged p (g.pout l) (g.pout r) op x y z e₁ e₂ d₁ d₂)
include hfront hback h

/-- The value φ-function of `x op y`. -/
theorem Merged.valuePhiFunc {call : Nat} (hrun : valuePhiFunc (ctx.forCall call) g.pout w op
    (.phi e₁ e₂) (.phi d₁ d₂) bb = .ok vp) : vp = some (.bin op e₁ d₁, .bin op e₂ d₂) := by
  rw [Gvn.valuePhiFunc, Context.forCall_module, hfront, hback] at hrun
  obtain ⟨vi, hvi, hrun⟩ := Exec.bind_eq_ok.mp hrun
  obtain ⟨vj, hvj, hrun⟩ := Exec.bind_eq_ok.mp hrun
  obtain ⟨cl, hcl, hl⟩ := h.left
  obtain ⟨cr, hcr, hr⟩ := h.right
  obtain rfl := phiEdge_of_mem h.leftVaries hcl hl hvi
  obtain rfl := phiEdge_of_mem h.rightVaries hcr hr hvj
  cases hrun
  rfl

/-- A transfer of another instruction keeps the classes of the phis. -/
theorem Merged.transfer {i : Nat} (hx : i ≠ x) (hy : i ≠ y) (hz : i ≠ z)
    (hrun : transferFunction ctx g i p bb = .ok s) : s.2.pout = g.pout ∧
      Merged s.1 (g.pout l) (g.pout r) op x y z e₁ e₂ d₁ d₂ := by
  obtain ⟨ve, n, -, hrun⟩ := transferFunction_eq_ok hrun
  have hne : ∀ {j}, i ≠ j → Value.instruction j ≠ .instruction i :=
    fun hij he => hij (Value.instruction.inj he).symm
  have hlhs := getVE_copy (hne hx) hrun
  have hrhs := getVE_copy (hne hy) hrun
  obtain ⟨vp, hvp, hrun⟩ := assign_eq_ok hrun
  obtain ⟨hpout, hkept, hnew⟩ := register_classes hrun
  obtain ⟨cz, hcz, hzm, hzp⟩ := h.value
  obtain ⟨cz', hcz', hs⟩ := exists_same_eraseMember hcz hzm (hne hz)
  obtain ⟨cz'', hcz'', hs'⟩ := hkept cz' hcz'
  refine ⟨hpout, ⟨hlhs.trans h.lhs, hrhs.trans h.rhs, ⟨cz'', hcz'', ?_, ?_⟩, ?_, h.left, h.right,
    h.leftVaries, h.rightVaries⟩⟩
  · exact ((hs.trans hs').mem _ (hne hz)).mpr hzm
  · exact (hs.trans hs').valuePhi.trans hzp
  intro c hc hexpr
  rcases hnew c hc with ⟨d, hd, hds⟩ | ⟨hve, hphi, hno⟩
  · obtain ⟨d', hd', hds'⟩ := same_of_mem_eraseMember hd
    have hsame := hds'.trans hds
    rw [hsame.valueExpr, hsame.valuePhi] at hexpr
    exact (hsame.mem _ (hne hz)).mpr (h.only d' hd' hexpr)
  · -- a new class is made only when that of `z` does not fit
    exfalso
    have hvp' : vp = some (.bin op e₁ d₁, .bin op e₂ d₂) := by
      rcases hexpr with hexpr | hexpr
      · rw [hve] at hexpr
        subst hexpr
        exact Merged.valuePhiFunc hfront hback h hvp
      · exact hphi.symm.trans hexpr
    have := inClass_of_valuePhi (by rw [hvp']; simp)
      (hs.valuePhi.trans (hzp.trans hvp'.symm)) (hno cz' hcz')
    cases this

/-- `x op y` goes to the class of `z`. -/
theorem Merged.shares (hop : (ctx.module.instrs w).opId = .binary op)
    (hops : (ctx.module.instrs w).operands = [.instruction x, .instruction y]) (hz : w ≠ z)
    (hrun : transferFunction ctx g w p bb = .ok s) :
    s.2.pout = g.pout ∧ Shares s.1 (.instruction w) (.instruction z) := by
  obtain ⟨ve, n, hve, hrun⟩ := transferFunction_eq_ok hrun
  have hve : ve = .bin op (.phi e₁ e₂) (.phi d₁ d₂) := by
    simp only [valueExpr, Context.forCall_module, hop] at hve
    obtain ⟨e, he, hve⟩ := Exec.bind_eq_ok.mp hve
    cases hve
    have h0 : getOperand ctx.module w 0 = .ok (.instruction x) := by
      simp [getOperand, Instruction.getOperand, hops, pure, Except.pure]
    have h1 : getOperand ctx.module w 1 = .ok (.instruction y) := by
      simp [getOperand, Instruction.getOperand, hops, pure, Except.pure]
    rw [binType, Context.forCall_module, h0, hop] at he
    obtain ⟨l, hl, he⟩ := Exec.bind_eq_ok.mp he
    cases hl
    rw [h1] at he
    obtain ⟨r, hr, he⟩ := Exec.bind_eq_ok.mp he
    cases hr
    rw [h.lhs, h.rhs] at he
    cases he
    rfl
  subst hve
  obtain ⟨vp, hvp, hrun⟩ := assign_eq_ok hrun
  obtain rfl := Merged.valuePhiFunc hfront hback h hvp
  obtain ⟨hpout, -, -⟩ := register_classes hrun
  have hne : Value.instruction z ≠ .instruction w := fun he => hz (Value.instruction.inj he).symm
  obtain ⟨cz, hcz, hzm, hzp⟩ := h.value
  obtain ⟨cz', hcz', hs⟩ := exists_same_eraseMember hcz hzm hne
  have hfit : inClass (.bin op (.phi e₁ e₂) (.phi d₁ d₂))
      (some (.bin op e₁ d₁, .bin op e₂ d₂)) cz' ≠ .ok false := by
    intro hno
    cases inClass_of_valuePhi (by simp) (hs.valuePhi.trans hzp) hno
  obtain ⟨c, hc, hin, c', hc', hsame, hmem⟩ := register_joins (by simp) hcz' hfit hrun
  obtain ⟨d, hd, hds⟩ := same_of_mem_eraseMember hc
  refine ⟨hpout, c', hc', hmem, (hsame.mem _ hne).mpr ((hds.mem _ hne).mpr (h.only d hd ?_))⟩
  rw [← hds.valueExpr, ← hds.valuePhi]
  exact (of_inClass hin).imp_right fun hphi => hphi.2

end

theorem transferFunction_pout {i : Nat} (hrun : transferFunction ctx g i p bb = .ok s) :
    s.2.pout = g.pout := by
  obtain ⟨ve, n, -, hrun⟩ := transferFunction_eq_ok hrun
  obtain ⟨vp, -, hrun⟩ := assign_eq_ok hrun
  exact (register_classes hrun).1

/-- Two values that share a class do so after the transfer of another instruction. -/
theorem Shares.transfer {i : Nat} (hu : u ≠ .instruction i) (hv : v ≠ .instruction i)
    (h : Shares p u v) (hrun : transferFunction ctx g i p bb = .ok s) : Shares s.1 u v := by
  obtain ⟨ve, n, -, hrun⟩ := transferFunction_eq_ok hrun
  obtain ⟨vp, -, hrun⟩ := assign_eq_ok hrun
  obtain ⟨c, hc, huc, hvc⟩ := h
  obtain ⟨c', hc', hs⟩ := exists_same_eraseMember hc huc hu
  obtain ⟨-, hkept, -⟩ := register_classes hrun
  obtain ⟨c'', hc'', hs'⟩ := hkept c' hc'
  exact ⟨c'', hc'', ((hs.trans hs').mem u hu).mpr huc, ((hs.trans hs').mem v hv).mpr hvc⟩

theorem Shares.transferAll {s' : Partition × GVN} (hu : ∀ i ∈ is, u ≠ .instruction i)
    (hv : ∀ i ∈ is, v ≠ .instruction i)
    (h : Shares s.1 u v) (hrun : transferAll ctx bb is s = .ok s') : Shares s'.1 u v := by
  induction is generalizing s with
  | nil =>
    cases hrun
    exact h
  | cons i is ih =>
    obtain ⟨s₁, hs₁, hrun⟩ := Exec.bind_eq_ok.mp ((List.foldlM_cons ..).symm.trans hrun)
    exact ih (fun j hj => hu j (List.mem_cons_of_mem _ hj))
      (fun j hj => hv j (List.mem_cons_of_mem _ hj))
      (h.transfer (hu i List.mem_cons_self) (hv i List.mem_cons_self) hs₁) hrun

theorem transferAll_pout {s' : Partition × GVN} (hrun : transferAll ctx bb is s = .ok s') :
    s'.2.pout = s.2.pout := by
  induction is generalizing s with
  | nil =>
    cases hrun
    rfl
  | cons i is ih =>
    obtain ⟨s₁, hs₁, hrun⟩ := Exec.bind_eq_ok.mp ((List.foldlM_cons ..).symm.trans hrun)
    exact (ih hrun).trans (transferFunction_pout hs₁)

theorem Merged.transferAll {s' : Partition × GVN}
    (hfront : (ctx.module.blocks bb).preBbs.head? = some l)
    (hback : (ctx.module.blocks bb).preBbs.getLast? = some r)
    (his : ∀ i ∈ is, i ≠ x ∧ i ≠ y ∧ i ≠ z)
    (h : Merged s.1 (s.2.pout l) (s.2.pout r) op x y z e₁ e₂ d₁ d₂)
    (hrun : transferAll ctx bb is s = .ok s') :
    Merged s'.1 (s'.2.pout l) (s'.2.pout r) op x y z e₁ e₂ d₁ d₂ := by
  induction is generalizing s with
  | nil =>
    cases hrun
    exact h
  | cons i is ih =>
    obtain ⟨s₁, hs₁, hrun⟩ := Exec.bind_eq_ok.mp ((List.foldlM_cons ..).symm.trans hrun)
    obtain ⟨hx, hy, hz⟩ := his i List.mem_cons_self
    obtain ⟨hpout, hm⟩ := h.transfer hfront hback hx hy hz hs₁
    rw [← hpout] at hm
    exact ih (fun j hj => his j (List.mem_cons_of_mem _ hj)) hm hrun

theorem visitBlock_eq_ok {r : Bool × GVN} (hrun : visitBlock ctx addr g bb = .ok r) :
    ∃ s₁ s₂, transferAll ctx bb (body ctx.module bb)
        ((enterBlock addr ctx.module bb g).pin bb, enterBlock addr ctx.module bb g) = .ok s₁ ∧
      transferAll ctx bb (succPhis ctx.module bb) s₁ = .ok s₂ ∧
      r.2.pout = Function.update s₂.2.pout bb s₂.1 := by
  obtain ⟨s₁, hs₁, hrun⟩ := Exec.bind_eq_ok.mp hrun
  obtain ⟨s₂, hs₂, hrun⟩ := Exec.bind_eq_ok.mp hrun
  cases hrun
  exact ⟨s₁, s₂, hs₁, hs₂, rfl⟩

theorem pout_foldl_joinInto (qs : List Nat) (pt : Partition) :
    (qs.foldl (joinInto addr bb pt) g).pout = g.pout := by
  induction qs generalizing g with
  | nil => rfl
  | cons q qs ih => exact ih

@[simp] theorem enterBlock_pout : (enterBlock addr ctx.module bb g).pout = g.pout := by
  cases hpre : (ctx.module.blocks bb).preBbs with
  | nil =>
    unfold enterBlock
    rw [hpre]
  | cons q qs =>
    rw [enterBlock_cons hpre]
    exact pout_foldl_joinInto qs _

theorem visitBlock_pout {r : Bool × GVN} {b : Nat} (hne : b ≠ bb)
    (hrun : visitBlock ctx addr g bb = .ok r) : r.2.pout b = g.pout b := by
  obtain ⟨s₁, s₂, hs₁, hs₂, hr⟩ := visitBlock_eq_ok hrun
  rw [hr, Function.update_of_ne hne, transferAll_pout hs₂, transferAll_pout hs₁, enterBlock_pout]

theorem pass_pout {s r : Bool × GVN} {b : Nat} (hb : b ∉ blocks)
    (hrun : pass ctx addr blocks s = .ok r) : r.2.pout b = s.2.pout b := by
  induction blocks generalizing s with
  | nil =>
    cases hrun
    rfl
  | cons c blocks ih =>
    rw [pass_cons] at hrun
    obtain ⟨s₁, hs₁, hrun⟩ := Exec.bind_eq_ok.mp hrun
    rw [List.mem_cons, not_or] at hb
    exact (ih hb.2 hrun).trans (visitBlock_pout hb.1 hs₁)

/-- The state before the last pass of the do-while loop. -/
def lastPass (ctx : Context) (addr : Value → Nat) (blocks : List Nat) : Nat → Bool × GVN →
    Exec (Bool × GVN)
  | 0, _ => throw .outOfFuel
  | fuel + 1, s => do
    let s' ← pass ctx addr blocks s
    if s'.1 then lastPass ctx addr blocks fuel s' else return s

/-- The state in which `detectEquivalences` visits a block for the last time. -/
def lastVisit (ctx : Context) (addr : Value → Nat) (f nextOther fuel k : Nat) : Exec GVN :=
  match (ctx.module.functions f).basicBlocks with
  | [] => throw .undefinedBehaviour
  | entry :: blocks => do
    let g ← initial ctx f entry nextOther
    let s ← lastPass ctx addr (blocks.filter (· ≠ entry)) fuel (false, g)
    let s ← pass ctx addr ((blocks.filter (· ≠ entry)).takeWhile (· ≠ k)) s
    return s.2

theorem pass_of_lastPass {s s' : Bool × GVN} (hrun : iterate ctx addr blocks fuel s = .ok g)
    (hlast : lastPass ctx addr blocks fuel s = .ok s') :
    pass ctx addr blocks s' = .ok (false, g) := by
  induction fuel generalizing s with
  | zero => cases hrun
  | succ fuel ih =>
    obtain ⟨⟨changed, g₁⟩, hpass, hrun⟩ := Exec.bind_eq_ok.mp hrun
    obtain ⟨s₁, hpass', hlast⟩ := Exec.bind_eq_ok.mp hlast
    rw [hpass] at hpass'
    cases hpass'
    cases changed with
    | true => exact ih hrun hlast
    | false =>
      cases hrun
      cases hlast
      exact hpass

/-- `k` leads to a block of the function through blocks with a single predecessor. -/
inductive Below (m : Module) (f k : Nat) : Nat → Prop where
  | refl : Below m f k k
  | step {b c} : Below m f k b → c ∈ (m.functions f).basicBlocks → (m.blocks c).preBbs = [b] →
      Below m f k c

/-- The phis `x = φ(a, c)`, `y = φ(b, d)` and `z = φ(s, t)` of block `k`, where `s = a op b` and
`t = c op d`. -/
structure Pattern (m : Module) (f entry k k₁ k₂ : Nat) (op : BinaryOp) (x y z s t : Nat)
    (a b c d : Value) : Prop where
  head : (m.functions f).basicBlocks.head? = some entry
  source : (m.blocks entry).preBbs = []
  nodupBlocks : (m.functions f).basicBlocks.Nodup
  nodup : ∀ q ∈ (m.functions f).basicBlocks, (m.blocks q).instrList.Nodup
  mem : k ∈ (m.functions f).basicBlocks
  preBbs : (m.blocks k).preBbs = [k₁, k₂]
  phis : ∀ i ∈ [x, y, z], i ∈ phis m k
  left : operandFor m x k₁ = some a ∧ operandFor m y k₁ = some b ∧
    operandFor m z k₁ = some (.instruction s)
  right : operandFor m x k₂ = some c ∧ operandFor m y k₂ = some d ∧
    operandFor m z k₂ = some (.instruction t)
  first : (m.instrs s).opId = .binary op ∧ (m.instrs s).operands = [a, b] ∧
    ∃ q, s ∈ (m.blocks q).instrList ∧ Graph.Dominates (Succ m) entry q k₁
  second : (m.instrs t).opId = .binary op ∧ (m.instrs t).operands = [c, d] ∧
    ∃ q, t ∈ (m.blocks q).instrList ∧ Graph.Dominates (Succ m) entry q k₂

/-- The value is in a class that is not constant. -/
def Varies (p : Partition) (v : Value) : Prop :=
  ∃ cc ∈ p, v ∈ cc.members ∧ ∀ c, cc.valueExpr ≠ .constant c

/-- Wherever the pattern occurs, each `x op y` in `k` or below is found to be `z`. -/
def FindsRedundancy (m : Module) (f : Nat) (g : GVN) : Prop :=
  ∀ entry k k₁ k₂ op x y z s t a b c d, Pattern m f entry k k₁ k₂ op x y z s t a b c d →
    Varies (g.pout k₁) a → Varies (g.pout k₁) b → Varies (g.pout k₂) c → Varies (g.pout k₂) d →
    (∀ q, q = k₁ ∨ q = k₂ → ¬ Shares (g.pout q) a c ∧ ¬ Shares (g.pout q) b d) →
    ∀ q, Below m f k q → ∀ w ∈ body m q, (m.instrs w).opId = .binary op →
      (m.instrs w).operands = [.instruction x, .instruction y] →
      Shares (g.pout q) (.instruction w) (.instruction z)

theorem Below.mem {q : Nat} (h : Below ctx.module f k q)
    (hk : k ∈ (ctx.module.functions f).basicBlocks) : q ∈ (ctx.module.functions f).basicBlocks := by
  cases h with
  | refl => exact hk
  | step _ hmem _ => exact hmem

/-- In a visit of a block that has the phis and reads the two sums at the ends of its
predecessors, an `x op y` that stands in the block is found. -/
theorem shares_of_visit {s' : Bool × GVN}
    (hfront : (ctx.module.blocks bb).preBbs.head? = some l)
    (hback : (ctx.module.blocks bb).preBbs.getLast? = some r)
    (hm : Merged ((enterBlock addr ctx.module bb g).pin bb) (g.pout l) (g.pout r) op x y z
      e₁ e₂ d₁ d₂)
    (hphis : ∀ i ∈ [x, y, z], (ctx.module.instrs i).isPhi)
    (hnd : (ctx.module.blocks bb).instrList.Nodup)
    (hw : w ∈ body ctx.module bb) (hop : (ctx.module.instrs w).opId = .binary op)
    (hops : (ctx.module.instrs w).operands = [.instruction x, .instruction y])
    (hself : z ∉ succPhis ctx.module bb) (hrun : visitBlock ctx addr g bb = .ok s') :
    Shares (s'.2.pout bb) (.instruction w) (.instruction z) := by
  obtain ⟨s₁, s₂, hs₁, hs₂, hr⟩ := visitBlock_eq_ok hrun
  rw [hr, Function.update_self]
  have hphi : ∀ i ∈ body ctx.module bb, i ≠ x ∧ i ≠ y ∧ i ≠ z := by
    intro i hi
    have hno : ∀ j ∈ [x, y, z], i ≠ j := fun j hj he => (mem_body.mp hi).2 (he ▸ hphis j hj)
    exact ⟨hno x (by simp), hno y (by simp), hno z (by simp)⟩
  have hwz := (hphi w hw).2.2
  have hnd : (body ctx.module bb).Nodup := hnd.filter _
  obtain ⟨before, after, hbody⟩ := List.append_of_mem hw
  rw [hbody] at hs₁ hphi hnd
  rw [transferAll, List.foldlM_append] at hs₁
  obtain ⟨s₃, hs₃, hs₁⟩ := Exec.bind_eq_ok.mp hs₁
  rw [List.foldlM_cons] at hs₁
  obtain ⟨s₄, hs₄, hs₁⟩ := Exec.bind_eq_ok.mp hs₁
  -- the phis keep their classes up to `w`, which then stays with `z`
  have hpout : (enterBlock addr ctx.module bb g).pout = g.pout := enterBlock_pout
  rw [← hpout] at hm
  have hm₃ := hm.transferAll (s := (_, enterBlock addr ctx.module bb g)) hfront hback
    (fun i hi => hphi i (List.mem_append_left _ hi)) hs₃
  obtain ⟨-, hsh⟩ := hm₃.shares hfront hback hop hops hwz hs₄
  have hafter : w ∉ after := by
    have := (List.nodup_append.mp hnd).2.1
    exact (List.nodup_cons.mp this).1
  have hsh₁ : Shares s₁.1 (.instruction w) (.instruction z) := by
    apply hsh.transferAll _ _ hs₁
    · intro i hi he
      exact hafter (Value.instruction.inj he ▸ hi)
    · intro i hi he
      exact (hphi i (List.mem_append_right _ (List.mem_cons_of_mem _ hi))).2.2
        (Value.instruction.inj he).symm
  apply hsh₁.transferAll _ _ hs₂
  · intro i hi he
    obtain ⟨q, -, hq⟩ := mem_succPhis.mp hi
    rw [← Value.instruction.inj he] at hq
    exact (mem_body.mp hw).2 (mem_phis.mp hq).2
  · intro i hi he
    exact hself (Value.instruction.inj he ▸ hi)

/-- When the classes at the last visit of `bb` are those of the documentation, the redundancies in
`bb` are found. -/
theorem shares_of_merged {entry s t : Nat} {a b c d : Value} {g₀ : GVN}
    (hrun : detectEquivalences ctx addr f next fuel = .ok g)
    (hlast : lastVisit ctx addr f next fuel bb = .ok g₀)
    (hp : Pattern ctx.module f entry k k₁ k₂ op x y z s t a b c d)
    (hbelow : Below ctx.module f k bb) (hfront : (ctx.module.blocks bb).preBbs.head? = some l)
    (hback : (ctx.module.blocks bb).preBbs.getLast? = some r)
    (hm : Merged ((enterBlock addr ctx.module bb g₀).pin bb) (g₀.pout l) (g₀.pout r) op x y z
      e₁ e₂ d₁ d₂) (hself : z ∉ succPhis ctx.module bb)
    (hw : w ∈ body ctx.module bb) (hop : (ctx.module.instrs w).opId = .binary op)
    (hops : (ctx.module.instrs w).operands = [.instruction x, .instruction y]) :
    Shares (g.pout bb) (.instruction w) (.instruction z) := by
  obtain ⟨blocks, hblocks⟩ := List.head?_eq_some_iff.mp hp.head
  rw [detectEquivalences, hblocks] at hrun
  rw [lastVisit, hblocks] at hlast
  obtain ⟨g₁, hg₁, hrun⟩ := Exec.bind_eq_ok.mp hrun
  obtain ⟨g₁', hg₁', hlast⟩ := Exec.bind_eq_ok.mp hlast
  rw [hg₁] at hg₁'
  cases hg₁'
  obtain ⟨s', hs', hlast⟩ := Exec.bind_eq_ok.mp hlast
  obtain ⟨s₁, hs₁, hlast⟩ := Exec.bind_eq_ok.mp hlast
  cases hlast
  have hpass := pass_of_lastPass hrun hs'
  have hmem := hbelow.mem hp.mem
  have hne : bb ≠ entry := by
    rintro rfl
    rw [hp.source] at hfront
    cases hfront
  have hk : bb ∈ blocks.filter (· ≠ entry) := by
    rw [hblocks, List.mem_cons] at hmem
    simpa [hne] using hmem
  have hnd : (blocks.filter (· ≠ entry)).Nodup := by
    have := hp.nodupBlocks
    rw [hblocks] at this
    exact (List.nodup_cons.mp this).2.filter _
  -- the last pass is a pass up to `bb`, the visit of `bb`, and a pass over the others
  obtain ⟨before, after, hsplit⟩ := List.append_of_mem hk
  rw [hsplit] at hpass hs₁ hnd
  have hbefore : ∀ q ∈ before, decide (q ≠ bb) = true := by
    intro q hq
    have := (List.nodup_append.mp hnd).2.2 q hq bb List.mem_cons_self
    simpa using this
  have hafter : bb ∉ after := (List.nodup_cons.mp (List.nodup_append.mp hnd).2.1).1
  rw [List.takeWhile_append_of_pos hbefore, List.takeWhile_cons_of_neg (by simp),
    List.append_nil] at hs₁
  rw [pass, List.foldlM_append] at hpass
  obtain ⟨s₂, hs₂, hpass⟩ := Exec.bind_eq_ok.mp hpass
  rw [pass, hs₂] at hs₁
  cases hs₁
  rw [List.foldlM_cons] at hpass
  obtain ⟨s₃, hs₃, hpass⟩ := Exec.bind_eq_ok.mp hpass
  have hout := pass_pout hafter hpass
  dsimp only at hout
  rw [hout]
  exact shares_of_visit hfront hback hm (fun i hi => (mem_phis.mp (hp.phis i hi)).2)
    (hp.nodup bb (hbelow.mem hp.mem)) hw hop hops hself hs₃

/-- The pattern, with the two sums in the predecessors. -/
def isPattern (m : Module) (f entry k k₁ k₂ : Nat) (op : BinaryOp) (x y z s t : Nat)
    (a b c d : Value) : Bool :=
  decide ((m.functions f).basicBlocks.head? = some entry ∧ (m.blocks entry).preBbs = [] ∧
    (m.functions f).basicBlocks.Nodup ∧
    (∀ q ∈ (m.functions f).basicBlocks, (m.blocks q).instrList.Nodup) ∧
    k ∈ (m.functions f).basicBlocks ∧ (m.blocks k).preBbs = [k₁, k₂] ∧
    ∀ i ∈ [x, y, z], i ∈ phis m k) &&
  decide (operandFor m x k₁ = some a ∧ operandFor m y k₁ = some b ∧
    operandFor m z k₁ = some (.instruction s)) &&
  decide (operandFor m x k₂ = some c ∧ operandFor m y k₂ = some d ∧
    operandFor m z k₂ = some (.instruction t)) &&
  decide ((m.instrs s).opId = .binary op ∧ (m.instrs s).operands = [a, b] ∧
    s ∈ (m.blocks k₁).instrList) &&
  decide ((m.instrs t).opId = .binary op ∧ (m.instrs t).operands = [c, d] ∧
    t ∈ (m.blocks k₂).instrList)

theorem pattern_of_isPattern {m : Module} {entry s t : Nat} {a b c d : Value}
    (h : isPattern m f entry k k₁ k₂ op x y z s t a b c d) :
    Pattern m f entry k k₁ k₂ op x y z s t a b c d := by
  simp only [isPattern, Bool.and_eq_true, decide_eq_true_eq] at h
  obtain ⟨⟨⟨⟨⟨h1, h2, h3, h4, h5, h6, h7⟩, hl⟩, hr⟩, hs⟩, ht⟩ := h
  exact ⟨h1, h2, h3, h4, h5, h6, h7, hl, hr, ⟨hs.1, hs.2.1, k₁, hs.2.2, Graph.dominates_refl _ _ _⟩,
    ⟨ht.1, ht.2.1, k₂, ht.2.2, Graph.dominates_refl _ _ _⟩⟩

/-- `int f(int a, int b, int c, int d) { int x; int y; int z; if (input()) { x = a; y = b; z = a + b;
} else { x = c; y = d; z = c + d; } use return z; }`, with a call in `main`. -/
def sumsProgram (use : ASTStatement) : ASTProgram :=
  let var (id : String) : ASTExpression := .simple (.ofTerm (.ofFactor (.var (.scalar id))))
  let input : ASTExpression := .simple (.ofTerm (.ofFactor (.call "input" [])))
  let sum (id id' : String) : ASTExpression :=
    .simple (.additive (.ofTerm (.ofFactor (.var (.scalar id)))) .plus
      (.ofFactor (.var (.scalar id'))))
  let assign (id : String) (e : ASTExpression) : ASTStatement :=
    .expressionStmt (some (.assign (.scalar id) e))
  ⟨[.fun ⟨.int, "f",
    [⟨.int, "a", false⟩, ⟨.int, "b", false⟩, ⟨.int, "c", false⟩, ⟨.int, "d", false⟩],
    [⟨.int, "x", none⟩, ⟨.int, "y", none⟩, ⟨.int, "z", none⟩],
    [.selectionElse input
      (.compound [] [assign "x" (var "a"), assign "y" (var "b"), assign "z" (sum "a" "b")])
      (.compound [] [assign "x" (var "c"), assign "y" (var "d"), assign "z" (sum "c" "d")]),
      use, .return (some (var "z"))]⟩,
    .fun ⟨.int, "main", [], [],
      [.return (some (.simple (.ofTerm (.ofFactor (.call "f" [input, input, input, input])))))]⟩]⟩

/-- `output(id + id');`. -/
def outputSum (id id' : String) : ASTStatement :=
  .expressionStmt (some (.simple (.ofTerm (.ofFactor (.call "output"
    [.simple (.additive (.ofTerm (.ofFactor (.var (.scalar id)))) .plus
      (.ofFactor (.var (.scalar id'))))])))))

/-- `if (input()) output(x + y);`. -/
def maybeOutputSum : ASTStatement :=
  .selection (.simple (.ofTerm (.ofFactor (.call "input" [])))) (outputSum "x" "y")

/-- `{ output(a + b); output(c + d); if (input()) output(x + y); }`. -/
def outputSums : ASTStatement :=
  .compound [] [outputSum "a" "b", outputSum "c" "d", maybeOutputSum]

def merged (pin pl pr : Partition) (op : BinaryOp) (x y z : Nat) (e₁ e₂ d₁ d₂ : Expression) :
    Bool :=
  decide (getVE pin (.instruction x) = .phi e₁ e₂ ∧ getVE pin (.instruction y) = .phi d₁ d₂ ∧
    (∃ cc ∈ pin, .instruction z ∈ cc.members ∧
      cc.valuePhi = some (.bin op e₁ d₁, .bin op e₂ d₂)) ∧
    (∀ cc ∈ pin, cc.valueExpr = .bin op (.phi e₁ e₂) (.phi d₁ d₂) ∨
      cc.valuePhi = some (.bin op e₁ d₁, .bin op e₂ d₂) → .instruction z ∈ cc.members) ∧
    (∃ cc ∈ pl, cc.valueExpr = .bin op e₁ d₁) ∧ (∃ cc ∈ pr, cc.valueExpr = .bin op e₂ d₂) ∧
    (constantOf e₁ = none ∨ constantOf d₁ = none) ∧
    (constantOf e₂ = none ∨ constantOf d₂ = none))

theorem merged_of_merged {pin pl pr : Partition} (h : merged pin pl pr op x y z e₁ e₂ d₁ d₂) :
    Merged pin pl pr op x y z e₁ e₂ d₁ d₂ := by
  obtain ⟨h1, h2, h3, h4, h5, h6, h7, h8⟩ := of_decide_eq_true h
  exact ⟨h1, h2, h3, h4, h5, h6, h7, h8⟩

/-- Where the block of the phis computes `a + b` and `c + d` again, `x + y` is found to be `z` in
the block below as well. -/
theorem shares_of_merged_outputSums : ∃ m, buildModule (sumsProgram outputSums) = some m ∧
    ∃ m', run m Value.code 60 = .ok m' ∧
      ∃ g, detectEquivalences (joinContext m') Value.code 4 1 60 = .ok g ∧
        Shares (g.pout 4) (.instruction 45) (.instruction 58) := by
  obtain ⟨m, hm, h⟩ := exists_buildModule (sumsProgram outputSums)
    (fun m => (run m Value.code 60).toOption.any fun m' =>
      isPattern m' 4 0 2 1 3 .add 56 57 58 20 29 (.argument 4 0) (.argument 4 1) (.argument 4 2)
        (.argument 4 3) &&
      decide (4 ∈ (m'.functions 4).basicBlocks ∧ (m'.blocks 4).preBbs = [2]) &&
      decide (58 ∉ succPhis m' 4 ∧ 45 ∈ body m' 4 ∧ (m'.instrs 45).opId = .binary .add ∧
        (m'.instrs 45).operands = [.instruction 56, .instruction 57]) &&
      ((detectEquivalences (joinContext m') Value.code 4 1 60).toOption.isSome &&
      (lastVisit (joinContext m') Value.code 4 1 60 4).toOption.any fun g =>
        merged ((enterBlock Value.code m' 4 g).pin 4) (g.pout 2) (g.pout 2) .add 56 57 58
          (.args 4 0) (.args 4 2) (.args 4 1) (.args 4 3))) (by decide +kernel)
  obtain ⟨m', hrun, h⟩ := (Option.any_eq_true _ _).mp h
  simp only [Bool.and_eq_true, decide_eq_true_eq] at h
  obtain ⟨⟨⟨hp, hmem, hpre⟩, hself, hw, hop, hops⟩, hg, h⟩ := h
  obtain ⟨g, hg⟩ := Option.isSome_iff_exists.mp hg
  obtain ⟨g₀, hlast, hmerged⟩ := (Option.any_eq_true _ _).mp h
  have hg := Exec.ok_of_toOption hg
  have hfront : (m'.blocks 4).preBbs.head? = some 2 := by rw [hpre]; rfl
  have hback : (m'.blocks 4).preBbs.getLast? = some 2 := by rw [hpre]; rfl
  exact ⟨m, hm, m', Exec.ok_of_toOption hrun, g, hg,
    shares_of_merged hg (Exec.ok_of_toOption hlast) (pattern_of_isPattern hp)
      (.step .refl hmem hpre) hfront hback (merged_of_merged hmerged) hself hw hop hops⟩

/-- The value has the class of argument `n`. -/
def isArgument (p : Partition) (f n : Nat) : Bool :=
  decide (∃ cc ∈ p, .argument f n ∈ cc.members ∧ cc.valueExpr = .args f n)

theorem varies_of_isArgument {n : Nat} (h : isArgument p f n) : Varies p (.argument f n) := by
  obtain ⟨cc, hcc, hmem, hve⟩ := of_decide_eq_true h
  refine ⟨cc, hcc, hmem, fun c hc => ?_⟩
  rw [hve] at hc
  cases hc

def shares (p : Partition) (u v : Value) : Bool :=
  decide (∃ cc ∈ p, u ∈ cc.members ∧ v ∈ cc.members)

theorem not_shares_of_shares (h : shares p u v = false) : ¬ Shares p u v := by
  show ¬ ∃ cc ∈ p, u ∈ cc.members ∧ v ∈ cc.members
  exact of_decide_eq_false h

/-- In the block below, `x + y` has a class of its own. -/
theorem not_findsRedundancy_maybeOutputSum : ∃ m,
    buildModule (sumsProgram maybeOutputSum) = some m ∧ ∃ m', run m Value.code 60 = .ok m' ∧
      ∃ g, detectEquivalences (joinContext m') Value.code 4 1 60 = .ok g ∧
        ¬ FindsRedundancy m' 4 g := by
  obtain ⟨m, hm, h⟩ := exists_buildModule (sumsProgram maybeOutputSum)
    (fun m => (run m Value.code 60).toOption.any fun m' =>
      isPattern m' 4 0 2 1 3 .add 48 49 50 20 29 (.argument 4 0) (.argument 4 1) (.argument 4 2)
        (.argument 4 3) &&
      decide (4 ∈ (m'.functions 4).basicBlocks ∧ (m'.blocks 4).preBbs = [2]) &&
      decide (37 ∈ body m' 4 ∧ (m'.instrs 37).opId = .binary .add ∧
        (m'.instrs 37).operands = [.instruction 48, .instruction 49]) &&
      (detectEquivalences (joinContext m') Value.code 4 1 60).toOption.any fun g =>
        isArgument (g.pout 1) 4 0 && isArgument (g.pout 1) 4 1 && isArgument (g.pout 3) 4 2 &&
        isArgument (g.pout 3) 4 3 && decide (∀ q ∈ ([1, 3] : List Nat),
          shares (g.pout q) (.argument 4 0) (.argument 4 2) = false ∧
          shares (g.pout q) (.argument 4 1) (.argument 4 3) = false) &&
        !shares (g.pout 4) (.instruction 37) (.instruction 50)) (by decide +kernel)
  obtain ⟨m', hrun, h⟩ := (Option.any_eq_true _ _).mp h
  simp only [Bool.and_eq_true, decide_eq_true_eq] at h
  obtain ⟨⟨⟨hp, hmem, hpre⟩, hw, hop, hops⟩, h⟩ := h
  obtain ⟨g, hg, h⟩ := (Option.any_eq_true _ _).mp h
  simp only [Bool.and_eq_true, decide_eq_true_eq, Bool.not_eq_true'] at h
  obtain ⟨⟨⟨⟨⟨ha, hb⟩, hc⟩, hd⟩, hno⟩, hnot⟩ := h
  refine ⟨m, hm, m', Exec.ok_of_toOption hrun, g, Exec.ok_of_toOption hg, fun hfinds => ?_⟩
  apply not_shares_of_shares hnot
  refine hfinds 0 2 1 3 .add 48 49 50 20 29 _ _ _ _ (pattern_of_isPattern hp)
    (varies_of_isArgument ha) (varies_of_isArgument hb) (varies_of_isArgument hc)
    (varies_of_isArgument hd) (fun q hq => ?_) 4 (.step .refl hmem hpre) 37 hw hop hops
  obtain ⟨h₁, h₂⟩ := hno q (by simpa using hq)
  exact ⟨not_shares_of_shares h₁, not_shares_of_shares h₂⟩

end Gvn

end Cminusf
