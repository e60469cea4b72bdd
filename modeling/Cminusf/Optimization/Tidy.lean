import Cminusf.Optimization.Copies

/-! Partitions whose expressions have no null parts, and what the operations of `GVN` keep
of the values in them. -/

namespace Cminusf

namespace Gvn

variable {ctx : Context} {g : GVN} {addr : Value → Nat} {bb n next x : Nat} {p p1 p2 pin : Partition}
  {v w : Value} {ve : Expression} {c cc ci cj : CongruenceClass} {ops : FloatOps} {s s' : Partition × GVN}

/-- No constant and no part of the expression is null. -/
def Expression.Full : Expression → Prop
  | .null => False
  | .constant c => c.isSome
  | .bin _ l r => l.Full ∧ r.Full
  | .phi l r => l.Full ∧ r.Full
  | .typeConverse e _ => e.Full
  | _ => True

/-- No part of the expression is null. -/
def Expression.Solid : Expression → Prop
  | .null => False
  | .bin _ l r => l.Solid ∧ r.Solid
  | .phi l r => l.Solid ∧ r.Solid
  | .typeConverse e _ => e.Solid
  | _ => True

theorem Expression.Full.solid (h : ve.Full) : ve.Solid := by
  induction ve with
  | null => exact h
  | bin op l r ihl ihr => exact ⟨ihl h.1, ihr h.2⟩
  | phi l r ihl ihr => exact ⟨ihl h.1, ihr h.2⟩
  | typeConverse e op ih => exact ih h
  | _ => trivial

theorem Expression.Solid.ne_null (h : ve.Solid) : ve ≠ .null := by
  rintro rfl
  exact h

/-- The top class, or a class whose value expression is full. -/
def CongruenceClass.Full (c : CongruenceClass) : Prop :=
  if c.index = 0 then c = top
  else c.valueExpr.Full ∧ ∀ l r, c.valuePhi = some (l, r) → l.Solid ∧ r.Solid

/-- A partition as a set of classes in which the first `n` indices are in use. -/
structure Tidy (p : Partition) (n : Nat) : Prop where
  sorted : p.Pairwise (·.index < ·.index)
  lt : ∀ c ∈ p, c.index < n
  full : ∀ c ∈ p, c.Full

/-- A value has a class. -/
def Member (p : Partition) (v : Value) : Prop := ∃ c ∈ p, v ∈ c.members

/-- The top class is not in the partition. -/
def Informed (p : Partition) : Prop := ∀ c ∈ p, c.index ≠ 0

theorem Tidy.mono {n' : Nat} (h : Tidy p n) (hn : n ≤ n') : Tidy p n' :=
  ⟨h.sorted, fun c hc => (h.lt c hc).trans_le hn, h.full⟩

theorem CongruenceClass.Full.of_mem (h : c.Full) (hv : v ∈ c.members) :
    c.index ≠ 0 ∧ c.valueExpr.Full ∧ ∀ l r, c.valuePhi = some (l, r) → l.Solid ∧ r.Solid := by
  unfold CongruenceClass.Full at h
  split at h
  · subst h
    cases hv
  · rename_i hne
    exact ⟨hne, h⟩

/-- The value expression of a value that has a class. -/
theorem Tidy.getVE (h : ∀ c ∈ p, c.Full) (hv : Member p v) : (getVE p v).Full := by
  induction p with
  | nil =>
    obtain ⟨c, hc, -⟩ := hv
    cases hc
  | cons c p ih =>
    unfold Gvn.getVE
    by_cases hmem : v ∈ c.members
    · obtain ⟨-, hfull, -⟩ := (h c List.mem_cons_self).of_mem hmem
      rw [if_pos hmem, if_pos hfull.solid.ne_null]
      exact hfull
    · rw [if_neg hmem]
      obtain ⟨c', hc', hv'⟩ := hv
      apply ih fun c hc => h c (List.mem_cons_of_mem _ hc)
      rcases List.mem_cons.mp hc' with rfl | hc'
      · exact absurd hv' hmem
      · exact ⟨c', hc', hv'⟩

theorem getVE_cases (h : ∀ c ∈ p, c.Full) (v : Value) : getVE p v = .null ∨ (getVE p v).Full := by
  induction p with
  | nil => exact .inl rfl
  | cons c p ih =>
    unfold Gvn.getVE
    by_cases hmem : v ∈ c.members
    · obtain ⟨-, hfull, -⟩ := (h c List.mem_cons_self).of_mem hmem
      rw [if_pos hmem, if_pos hfull.solid.ne_null]
      exact .inr hfull
    · rw [if_neg hmem]
      exact ih fun c hc => h c (List.mem_cons_of_mem _ hc)

section

theorem mem_of_mem_insert (hc : c ∈ p.insert cc) : c = cc ∨ c ∈ p := by
  induction p with
  | nil => simpa [Partition.insert] using hc
  | cons d p ih =>
    unfold Partition.insert at hc
    split at hc
    · simpa using hc
    · split at hc
      · rcases List.mem_cons.mp hc with rfl | hc
        · simp
        · rcases ih hc with rfl | hc <;> simp [*]
      · exact .inr hc

theorem mem_insert_of_mem (hc : c ∈ p) : c ∈ p.insert cc := by
  induction p with
  | nil => cases hc
  | cons d p ih =>
    unfold Partition.insert
    split
    · exact List.mem_cons_of_mem _ hc
    · split
      · rcases List.mem_cons.mp hc with rfl | hc
        · exact List.mem_cons_self
        · exact List.mem_cons_of_mem _ (ih hc)
      · exact hc

theorem exists_index_insert (p : Partition) (cc : CongruenceClass) :
    ∃ c ∈ p.insert cc, c.index = cc.index := by
  induction p with
  | nil => exact ⟨cc, by simp [Partition.insert], rfl⟩
  | cons d p ih =>
    unfold Partition.insert
    split
    · exact ⟨cc, List.mem_cons_self, rfl⟩
    · split
      · obtain ⟨c, hc, hi⟩ := ih
        exact ⟨c, List.mem_cons_of_mem _ hc, hi⟩
      · exact ⟨d, List.mem_cons_self, by omega⟩

theorem insert_sorted (hs : p.Pairwise (·.index < ·.index)) :
    (p.insert cc).Pairwise (·.index < ·.index) := by
  induction p with
  | nil => exact List.pairwise_singleton _ _
  | cons d p ih =>
    obtain ⟨hd, hp⟩ := List.pairwise_cons.mp hs
    unfold Partition.insert
    split
    · rename_i hlt
      refine List.pairwise_cons.mpr ⟨fun c hc => ?_, hs⟩
      rcases List.mem_cons.mp hc with rfl | hc
      · exact hlt
      · exact hlt.trans (hd c hc)
    · split
      · rename_i hlt
        refine List.pairwise_cons.mpr ⟨fun c hc => ?_, ih hp⟩
        rcases mem_of_mem_insert hc with rfl | hc
        · exact hlt
        · exact hd c hc
      · exact hs

theorem Tidy.insert {n' : Nat} (h : Tidy p n) (hn : n ≤ n') (hlt : cc.index < n') (hcc : cc.Full) :
    Tidy (p.insert cc) n' where
  sorted := insert_sorted h.sorted
  lt c hc := by
    rcases mem_of_mem_insert hc with rfl | hc
    · exact hlt
    · exact (h.lt c hc).trans_le hn
  full c hc := by
    rcases mem_of_mem_insert hc with rfl | hc
    · exact hcc
    · exact h.full c hc

theorem Tidy.eq_of_index (h : Tidy p n) (hc : c ∈ p) (hcc : cc ∈ p) (hi : c.index = cc.index) :
    c = cc := by
  have hnodup : (p.map (·.index)).Nodup := List.pairwise_map.mpr (h.sorted.imp fun hlt => hlt.ne)
  exact List.inj_on_of_nodup_map hnodup hc hcc hi

theorem Member.insert (h : Member p v) : Member (p.insert cc) v := by
  obtain ⟨c, hc, hv⟩ := h
  exact ⟨c, mem_insert_of_mem hc, hv⟩

/-- A class with a new index is in the partition after its insertion. -/
theorem member_insert (hnew : ∀ c ∈ p, c.index ≠ cc.index) (hv : v ∈ cc.members) :
    Member (p.insert cc) v := by
  obtain ⟨c, hc, hi⟩ := exists_index_insert p cc
  rcases mem_of_mem_insert hc with rfl | hc'
  · exact ⟨_, hc, hv⟩
  · exact absurd hi (hnew c hc')

theorem mem_eraseMember (hc : c ∈ eraseMember v p) :
    c ∈ p ∨ ∃ d ∈ p, v ∈ d.members ∧ c = { d with members := d.members.erase v } := by
  induction p with
  | nil => cases hc
  | cons d p ih =>
    unfold eraseMember at hc
    split at hc
    · rename_i hv
      split at hc
      · exact .inl (List.mem_cons_of_mem _ hc)
      · rcases List.mem_cons.mp hc with rfl | hc
        · exact .inr ⟨d, List.mem_cons_self, hv, rfl⟩
        · exact .inl (List.mem_cons_of_mem _ hc)
    · rcases List.mem_cons.mp hc with rfl | hc
      · exact .inl List.mem_cons_self
      · rcases ih hc with hc | ⟨d', hd', hv, rfl⟩
        · exact .inl (List.mem_cons_of_mem _ hc)
        · exact .inr ⟨d', List.mem_cons_of_mem _ hd', hv, rfl⟩

theorem eraseMember_index :
    List.Sublist ((eraseMember v p).map CongruenceClass.index) (p.map CongruenceClass.index) := by
  induction p with
  | nil => exact List.Sublist.refl _
  | cons d p ih =>
    unfold eraseMember
    split
    · split
      · exact List.sublist_cons_self _ _
      · exact List.Sublist.refl _
    · exact ih.cons_cons _

theorem CongruenceClass.Full.withMembers {members : List Value} (h : c.Full) (hi : c.index ≠ 0) :
    ({ c with members := members } : CongruenceClass).Full := by
  unfold CongruenceClass.Full at h ⊢
  rw [if_neg hi] at h ⊢
  exact h

theorem Tidy.eraseMember (h : Tidy p n) : Tidy (eraseMember v p) n where
  sorted := by
    have hs : (p.map CongruenceClass.index).Pairwise (· < ·) := List.pairwise_map.mpr h.sorted
    exact List.pairwise_map.mp (hs.sublist eraseMember_index)
  lt c hc := by
    rcases mem_eraseMember hc with hc | ⟨d, hd, -, rfl⟩
    · exact h.lt c hc
    · exact h.lt d hd
  full c hc := by
    rcases mem_eraseMember hc with hc | ⟨d, hd, hv, rfl⟩
    · exact h.full c hc
    · exact (h.full d hd).withMembers ((h.full d hd).of_mem hv).1

theorem Member.eraseMember (h : Member p v) (hne : v ≠ w) : Member (eraseMember w p) v := by
  obtain ⟨c, hc, hv⟩ := h
  induction p with
  | nil => cases hc
  | cons d p ih =>
    unfold Gvn.eraseMember
    have herase : ∀ l : List Value, v ∈ l → v ∈ l.erase w := fun l hl => (List.mem_erase_of_ne hne).mpr hl
    split
    · rcases List.mem_cons.mp hc with rfl | hc
      · rw [if_neg (by
          rw [List.isEmpty_iff]
          exact List.ne_nil_of_mem (herase _ hv))]
        exact ⟨_, List.mem_cons_self, herase _ hv⟩
      · split
        · exact ⟨c, hc, hv⟩
        · exact ⟨c, List.mem_cons_of_mem _ hc, hv⟩
    · rcases List.mem_cons.mp hc with rfl | hc
      · exact ⟨c, List.mem_cons_self, hv⟩
      · obtain ⟨c', hc', hv'⟩ := ih hc
        exact ⟨c', List.mem_cons_of_mem _ hc', hv'⟩

theorem mem_eraseMember_of_not_mem (hc : c ∈ p) (hv : v ∉ c.members) : c ∈ eraseMember v p := by
  induction p with
  | nil => cases hc
  | cons d p ih =>
    unfold eraseMember
    rcases List.mem_cons.mp hc with rfl | hc
    · rw [if_neg hv]
      exact List.mem_cons_self
    · split
      · split
        · exact hc
        · exact List.mem_cons_of_mem _ hc
      · exact List.mem_cons_of_mem _ (ih hc)

theorem informed_eraseMember (h : Tidy p n) : Informed (eraseMember v p) ↔ Informed p := by
  constructor
  · intro hi c hc h0
    have htop : c = top := by
      have := h.full c hc
      rwa [CongruenceClass.Full, if_pos h0] at this
    exact hi c (mem_eraseMember_of_not_mem hc (by simp [htop, top])) h0
  · intro hi c hc
    rcases mem_eraseMember hc with hc | ⟨d, hd, -, rfl⟩
    · exact hi c hc
    · exact hi d hd

/-- The insertion into an existing class. -/
theorem joinClass_spec {vp : Option (Expression × Expression)} {q : Partition} (hp : Tidy p n)
    (h : joinClass v ve vp p = .ok (some q)) :
    Tidy q n ∧ (∀ w, Member p w → Member q w) ∧ Member q v ∧ (Informed q ↔ Informed p) := by
  have key : ∀ {p q : Partition}, (∀ c ∈ p, c.Full) → joinClass v ve vp p = .ok (some q) →
      q.map CongruenceClass.index = p.map CongruenceClass.index ∧ (∀ c ∈ q, c.Full) ∧
        (∀ w, Member p w → Member q w) ∧ Member q v := by
    intro p q hp h
    induction p generalizing q with
    | nil => cases h
    | cons c p ih =>
      rw [joinClass] at h
      obtain ⟨b, hb, h⟩ := Exec.bind_eq_ok.mp h
      have hins : ∀ w l, w ∈ l → w ∈ insertMember v l := by
        intro w l hw
        unfold insertMember
        split <;> simp [hw]
      split at h
      · rename_i hbt
        cases h
        have h0 : c.index ≠ 0 := by
          intro h0
          have htop : c = top := by
            have := hp c List.mem_cons_self
            rwa [CongruenceClass.Full, if_pos h0] at this
          rw [htop] at hb
          simp only [inClass, top, ne_eq, not_true_eq_false, if_false, and_false] at hb
          cases hb
          cases hbt
        refine ⟨rfl, ?_, ?_, ?_⟩
        · intro d hd
          rcases List.mem_cons.mp hd with rfl | hd
          · exact (hp c List.mem_cons_self).withMembers h0
          · exact hp d (List.mem_cons_of_mem _ hd)
        · rintro w ⟨d, hd, hw⟩
          rcases List.mem_cons.mp hd with rfl | hd
          · exact ⟨_, List.mem_cons_self, hins w _ hw⟩
          · exact ⟨d, List.mem_cons_of_mem _ hd, hw⟩
        · refine ⟨_, List.mem_cons_self, ?_⟩
          show v ∈ insertMember v c.members
          unfold insertMember
          split <;> simp [*]
      · obtain ⟨o, ho, h⟩ := Exec.bind_eq_ok.mp h
        cases o with
        | none => cases h
        | some q' =>
          cases h
          obtain ⟨h1, h2, h3, c', hc', hv'⟩ :=
            ih (fun d hd => hp d (List.mem_cons_of_mem _ hd)) ho
          refine ⟨by simp [h1], ?_, ?_, c', List.mem_cons_of_mem _ hc', hv'⟩
          · intro d hd
            rcases List.mem_cons.mp hd with rfl | hd
            · exact hp _ List.mem_cons_self
            · exact h2 d hd
          · rintro w ⟨d, hd, hw⟩
            rcases List.mem_cons.mp hd with rfl | hd
            · exact ⟨_, List.mem_cons_self, hw⟩
            · obtain ⟨d', hd', hw'⟩ := h3 w ⟨d, hd, hw⟩
              exact ⟨d', List.mem_cons_of_mem _ hd', hw'⟩
  obtain ⟨hidx, hfull, hmem, hv⟩ := key hp.full h
  have hiff : ∀ {P : Nat → Prop}, (∀ c ∈ q, P c.index) ↔ ∀ c ∈ p, P c.index := by
    intro P
    rw [← List.forall_mem_map (f := CongruenceClass.index) (P := P), hidx,
      List.forall_mem_map (f := CongruenceClass.index) (P := P)]
  refine ⟨⟨?_, (hiff (P := (· < n))).mpr hp.lt, hfull⟩, hmem, hv, hiff (P := (· ≠ 0))⟩
  have hs : (p.map CongruenceClass.index).Pairwise (· < ·) := List.pairwise_map.mpr hp.sorted
  rw [← hidx] at hs
  exact List.pairwise_map.mp hs

theorem informed_insert (hcc : cc.index ≠ 0) : Informed (p.insert cc) ↔ Informed p := by
  constructor
  · exact fun h c hc => h c (mem_insert_of_mem hc)
  · intro h c hc
    rcases mem_of_mem_insert hc with rfl | hc
    · exact hcc
    · exact h c hc

end

/-- The values whose expressions `valueExpr` looks up and uses. -/
def looksUp (m : Module) (x bb : Nat) : List Value :=
  match (m.instrs x).opId with
  | .binary _ | .zext _ | .fptosi _ | .sitofp _ => (m.instrs x).operands
  | .phi _ => (operandFor m x bb).toList
  | _ => []

/-- No operand of the instruction is unknown. -/
def Known (ctx : Context) (pin : Partition) (x bb : Nat) : Prop :=
  ∀ v ∈ looksUp ctx.module x bb, v.isConstant ∨ getVE pin v ≠ .null

section

theorem compute_isSome {get : BitVec 32 → Value} {opId : OpID} {a b r : Option Value}
    (hop : (∃ op, opId = .binary op) ∨ (∃ op, opId = .cmp op) ∨ ∃ op, opId = .fcmp op)
    (h : compute ops get opId a b = .ok r) : r.isSome := by
  have hbind : ∀ {α β : Type} {e : Exec α} {e' : α → Exec β} {k : α → β → Exec (Option Value)},
      (∀ x y r, k x y = .ok r → r.isSome) → ∀ r, (do
        let x ← e
        let y ← e' x
        k x y) = .ok r → r.isSome := by
    intro α β e e' k hk r h
    obtain ⟨x, -, h⟩ := Exec.bind_eq_ok.mp h
    obtain ⟨y, -, h⟩ := Exec.bind_eq_ok.mp h
    exact hk x y r h
  have hint : ∀ {f : BitVec 32 → BitVec 32 → Exec Value} {r : Option Value}, (do
      return some (← f (← getConstIntValue a) (← getConstIntValue b))) = Except.ok r → r.isSome := by
    intro f r
    refine hbind (fun x y r h => ?_) r
    obtain ⟨z, -, h⟩ := Exec.bind_eq_ok.mp h
    cases h
    rfl
  have hfp : ∀ {f : BitVec 32 → BitVec 32 → Value} {r : Option Value}, (do
      return some (f (← getConstFpValue a) (← getConstFpValue b)) : Exec _) = .ok r → r.isSome := by
    intro f r
    refine hbind (fun x y r h => ?_) r
    cases h
    rfl
  rcases hop with ⟨op, rfl⟩ | ⟨op, rfl⟩ | ⟨op, rfl⟩
  · cases op <;> first | exact hint h | exact hfp h
  · exact hint h
  · exact hfp h

theorem computeCast_isSome {get : BitVec 32 → Value} {op : CastOp} {a r : Option Value}
    (h : computeCast ops get op a = .ok r) : r.isSome := by
  cases op with
  | fptosi =>
    obtain ⟨y, -, h⟩ := Exec.bind_eq_ok.mp h
    split at h
    · cases h
      rfl
    · cases h
  | _ =>
    obtain ⟨y, -, h⟩ := Exec.bind_eq_ok.mp h
    cases h
    rfl

theorem getOperand_mem {m : Module} {k : Nat} (h : getOperand m x k = .ok v) :
    v ∈ (m.instrs x).operands := by
  unfold getOperand Instruction.getOperand at h
  split at h
  · rename_i w hw
    cases h
    exact List.mem_of_getElem? hw
  · cases h

/-- A constant, or the value expression of a value that is known. -/
theorem full_of_known (hp : ∀ c ∈ p, c.Full) (hv : v.isConstant ∨ getVE p v ≠ .null) :
    (getVE p v = .null ∧ (toConstant v).isSome) ∨ (getVE p v).Full := by
  rcases getVE_cases hp v with h | h
  · have hc := hv.resolve_right fun hne => hne h
    exact .inl ⟨h, by simp [toConstant, hc]⟩
  · exact .inr h

theorem binType_full (hp : ∀ c ∈ pin, c.Full) (hk : Known ctx pin x bb)
    (hop : (∃ op, (ctx.module.instrs x).opId = .binary op) ∨
      (∃ op, (ctx.module.instrs x).opId = .cmp op) ∨ ∃ op, (ctx.module.instrs x).opId = .fcmp op)
    (h : binType ctx x pin = .ok ve) : ve.Full := by
  have hconst : ∀ {a b : Option Value} {ve : Expression}, (do
      return .constant (← compute ctx.ops ctx.constantFP (ctx.module.instrs x).opId a b)) =
        Except.ok ve → ve.Full := by
    intro a b ve h
    obtain ⟨r, hr, h⟩ := Exec.bind_eq_ok.mp h
    cases h
    exact compute_isSome hop hr
  obtain ⟨lhs, hl, h⟩ := Exec.bind_eq_ok.mp h
  obtain ⟨rhs, hr, h⟩ := Exec.bind_eq_ok.mp h
  split at h
  · exact hconst h
  · rcases hop with ⟨op, hop⟩ | ⟨op, hop⟩ | ⟨op, hop⟩
    · have hlook : ∀ v ∈ (ctx.module.instrs x).operands, v.isConstant ∨ getVE pin v ≠ .null := by
        intro v hv
        apply hk v
        rw [looksUp, hop]
        exact hv
      have hfl := full_of_known hp (hlook lhs (getOperand_mem hl))
      have hfr := full_of_known hp (hlook rhs (getOperand_mem hr))
      rw [hop] at h hconst
      generalize getVE pin lhs = le at h hfl
      generalize getVE pin rhs = re at h hfr
      rcases hfl with ⟨rfl, hcl⟩ | hfl
      · rcases hfr with ⟨rfl, hcr⟩ | hfr
        · cases h
        · cases re with
          | null => exact hfr.elim
          | constant c => exact hconst h
          | _ =>
            cases h
            exact ⟨hcl, hfr⟩
      · rcases hfr with ⟨rfl, hcr⟩ | hfr
        · cases le with
          | null => exact hfl.elim
          | constant c => exact hconst h
          | _ =>
            cases h
            exact ⟨hfl, hcr⟩
        · cases le with
          | null => exact hfl.elim
          | constant c =>
            cases re with
            | null => exact hfr.elim
            | constant c' => exact hconst h
            | _ =>
              cases h
              exact ⟨hfl, hfr⟩
          | _ =>
            cases re with
            | null => exact hfr.elim
            | _ =>
              cases h
              exact ⟨hfl, hfr⟩
    · rw [hop] at h
      cases h
      trivial
    · rw [hop] at h
      cases h
      trivial

theorem castExpr_full {op : CastOp} (hp : ∀ c ∈ pin, c.Full)
    (hk : ∀ v ∈ (ctx.module.instrs x).operands, v.isConstant ∨ getVE pin v ≠ .null)
    (h : castExpr ctx x op pin = .ok ve) : ve.Full := by
  have hconst : ∀ {a : Option Value} {ve : Expression}, (do
      return .constant (← computeCast ctx.ops ctx.constantFP op a)) = Except.ok ve → ve.Full := by
    intro a ve h
    obtain ⟨r, hr, h⟩ := Exec.bind_eq_ok.mp h
    cases h
    exact computeCast_isSome hr
  obtain ⟨v, hv, h⟩ := Exec.bind_eq_ok.mp h
  split at h
  · exact hconst h
  · rename_i hnc
    have hfull : (getVE pin v).Full := by
      refine (full_of_known hp (hk v (getOperand_mem hv))).resolve_left ?_
      rintro ⟨-, hc⟩
      simp [toConstant, hnc] at hc
    generalize getVE pin v = e at h hfull
    cases e with
    | null => exact hfull.elim
    | constant c => exact hconst h
    | _ =>
      cases h
      exact hfull

theorem copied_full (hp : ∀ c ∈ pin, c.Full) (hk : v.isConstant ∨ getVE pin v ≠ .null) :
    (copied pin v).Full := by
  unfold copied
  rcases full_of_known hp hk with ⟨h, hc⟩ | h
  · rw [h]
    exact hc
  · generalize getVE pin v = e at h
    cases e with
    | null => exact h.elim
    | _ => exact h

theorem copyExpr_full (hp : ∀ c ∈ pin, c.Full)
    (hk : ∀ v, operandFor ctx.module x bb = some v → v.isConstant ∨ getVE pin v ≠ .null)
    (h : copyExpr ctx x pin bb = .ok ve) : ve = .null ∨ ve.Full := by
  obtain ⟨-, rfl⟩ := copyExpr_eq_ok.mp h
  cases ho : operandFor ctx.module x bb with
  | none => exact .inl rfl
  | some v => exact .inr (copied_full hp (hk v ho))

/-- The instruction has a result. -/
def HasResult (m : Module) (x : Nat) : Prop :=
  match (m.instrs x).opId with
  | .br | .ret | .store => False
  | .call => ∀ f, (m.instrs x).operands[0]? = some (.function f) → ¬ (m.functions f).returnType.isVoid
  | _ => True

/-- A value expression is full, and null for an instruction without a result only. -/
theorem valueExpr_full {k : Nat} (hp : ∀ c ∈ pin, c.Full) (hk : Known ctx pin x bb)
    (h : valueExpr ctx next x pin bb = .ok (ve, k)) :
    (ve = .null ∨ ve.Full) ∧ (HasResult ctx.module x → ve ≠ .null) := by
  have hfull : ∀ {e : Exec Expression}, (∀ ve, e = .ok ve → ve.Full) →
      (do return (← e, next) : Exec (Expression × Nat)) = .ok (ve, k) →
      (ve = .null ∨ ve.Full) ∧ (HasResult ctx.module x → ve ≠ .null) := by
    intro e he h
    obtain ⟨ve', hve, h⟩ := Exec.bind_eq_ok.mp h
    cases h
    have := he _ hve
    exact ⟨.inr this, fun _ => this.solid.ne_null⟩
  have hother : ∀ {e : Expression}, e.Full → (e = .null ∨ e.Full) ∧ (HasResult ctx.module x → e ≠ .null) :=
    fun h => ⟨.inr h, fun _ => h.solid.ne_null⟩
  unfold valueExpr at h
  have hlook : ∀ {opId}, (ctx.module.instrs x).opId = opId → looksUp ctx.module x bb =
      match opId with
      | .binary _ | .zext _ | .fptosi _ | .sitofp _ => (ctx.module.instrs x).operands
      | .phi _ => (operandFor ctx.module x bb).toList
      | _ => [] := by
    rintro opId rfl
    rfl
  have hres : ∀ {opId}, (ctx.module.instrs x).opId = opId → HasResult ctx.module x =
      match opId with
      | .br | .ret | .store => False
      | .call => ∀ f, (ctx.module.instrs x).operands[0]? = some (.function f) →
          ¬ (ctx.module.functions f).returnType.isVoid
      | _ => True := by
    rintro opId rfl
    rfl
  cases ho : (ctx.module.instrs x).opId with
  | binary op =>
    simp only [ho] at h
    exact hfull (fun _ => binType_full hp hk (.inl ⟨op, ho⟩)) h
  | cmp op =>
    simp only [ho] at h
    exact hfull (fun _ => binType_full hp hk (.inr (.inl ⟨op, ho⟩))) h
  | fcmp op =>
    simp only [ho] at h
    exact hfull (fun _ => binType_full hp hk (.inr (.inr ⟨op, ho⟩))) h
  | zext ty =>
    simp only [ho] at h
    exact hfull (fun _ => castExpr_full hp fun v hv => hk v (by rw [hlook ho]; exact hv)) h
  | fptosi ty =>
    simp only [ho] at h
    exact hfull (fun _ => castExpr_full hp fun v hv => hk v (by rw [hlook ho]; exact hv)) h
  | sitofp ty =>
    simp only [ho] at h
    exact hfull (fun _ => castExpr_full hp fun v hv => hk v (by rw [hlook ho]; exact hv)) h
  | phi l =>
    simp only [ho] at h
    obtain ⟨e, he, h⟩ := Exec.bind_eq_ok.mp h
    rcases copyExpr_full hp (fun v hv => hk v (by rw [hlook ho]; simp [hv])) he with rfl | hf
    · cases h
      exact hother trivial
    · cases e with
      | null => exact hf.elim
      | _ =>
        cases h
        exact hother hf
  | call =>
    simp only [ho] at h
    obtain ⟨v, hv, h⟩ := Exec.bind_eq_ok.mp h
    split at h
    · rename_i f
      have hop : (ctx.module.instrs x).operands[0]? = some (.function f) := by
        unfold getOperand Instruction.getOperand at hv
        split at hv
        · rename_i w hw
          cases hv
          exact hw
        · cases hv
      split at h
      · rename_i hvoid
        cases h
        refine ⟨.inl rfl, fun hr => ?_⟩
        rw [hres ho] at hr
        exact absurd hvoid (hr f hop)
      · split at h <;>
        · cases h
          exact hother trivial
    · cases h
  | br =>
    simp only [ho] at h
    cases h
    exact ⟨.inl rfl, fun hr => by rw [hres ho] at hr; exact hr.elim⟩
  | ret =>
    simp only [ho] at h
    cases h
    exact ⟨.inl rfl, fun hr => by rw [hres ho] at hr; exact hr.elim⟩
  | store =>
    simp only [ho] at h
    cases h
    exact ⟨.inl rfl, fun hr => by rw [hres ho] at hr; exact hr.elim⟩
  | _ =>
    simp only [ho] at h
    cases h
    exact hother trivial

end

end Gvn

end Cminusf
