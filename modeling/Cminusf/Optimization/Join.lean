import Cminusf.Optimization.Gvn

/-! `GVN::join` intersects two partitions. What a class of the result asserts about its
members is taken from the first side alone when the two classes have the same members or
the same leader, and then it need not hold on the second side. -/

namespace Cminusf

namespace Gvn

variable {addr : Value → Nat} {next n : Nat} {p p1 p2 : Partition} {c cc ci cj : CongruenceClass}
  {v w : Value}

/-- Two values share a class. -/
def Shares (p : Partition) (v w : Value) : Prop := ∃ cc ∈ p, v ∈ cc.members ∧ w ∈ cc.members

/-- A partition without the top class: classes of variables that are not empty and disjoint. -/
structure Valid (p : Partition) : Prop where
  sorted : p.Pairwise (·.index < ·.index)
  disjoint : ∀ c ∈ p, ∀ c' ∈ p, c ≠ c' → c.members.Disjoint c'.members
  nonempty : ∀ cc ∈ p, cc.members ≠ []
  noTop : ∀ cc ∈ p, cc.index ≠ 0
  nodup : ∀ cc ∈ p, cc.members.Nodup
  noConstants : ∀ cc ∈ p, ∀ v ∈ cc.members, v.isConstant = false

/-- The class asserts that its members are equal to a constant. -/
def HasConstant (cc : CongruenceClass) (c : Value) : Prop :=
  c.isConstant ∧ (cc.leader = some c ∨ cc.valueExpr = .constant (some c))

/-- What a class of the result asserts holds on both sides. -/
def AssertsBoth (ci cj cc : CongruenceClass) : Prop :=
  (∀ c, HasConstant cc c → HasConstant ci c ∧ HasConstant cj c) ∧
    ((∀ c, ¬ HasConstant cc c) →
      (cc.valueExpr = ci.valueExpr ∧ cc.valueExpr = cj.valueExpr) ∨
        cc.valueExpr = .phi ci.valueExpr cj.valueExpr)

/-- The join is an intersection, and its classes assert nothing new. -/
structure SoundJoin (p1 p2 p : Partition) : Prop where
  shares : ∀ v w, Shares p v w ↔ Shares p1 v w ∧ Shares p2 v w
  asserts : ∀ cc ∈ p, ∀ v ∈ cc.members, ∀ ci ∈ p1, v ∈ ci.members → ∀ cj ∈ p2, v ∈ cj.members →
    AssertsBoth ci cj cc

/-- What the first class asserts holds of the second one. -/
def Carries (ci cj : CongruenceClass) : Prop :=
  (∀ c, HasConstant ci c → HasConstant cj c) ∧
    ((∀ c, ¬ HasConstant ci c) → ci.valueExpr = cj.valueExpr)

/-- What the value expression of the first class asserts holds of the second one. -/
def CarriesExpr (ci cj : CongruenceClass) : Prop :=
  (∀ c, c.isConstant → ci.valueExpr = .constant (some c) → HasConstant cj c) ∧
    ((∀ c, c.isConstant → ci.valueExpr ≠ .constant (some c)) → ci.valueExpr = cj.valueExpr)

/-- Classes with the same members, or with the same leader, assert the same. -/
def Compatible (p1 p2 : Partition) : Prop :=
  ∀ ci ∈ p1, ∀ cj ∈ p2, (∃ v ∈ ci.members, v ∈ cj.members) →
    if ci.equal cj then Carries ci cj else ci.leader = cj.leader → CarriesExpr ci cj

theorem mem_insert (h : ∀ c' ∈ p, c'.index ≠ cc.index) :
    c ∈ Partition.insert cc p ↔ c = cc ∨ c ∈ p := by
  induction p with
  | nil => simp [Partition.insert]
  | cons d p ih =>
    have hd := h d (by simp)
    simp only [Partition.insert]
    split
    · simp
    · rw [if_pos (by omega), List.mem_cons, ih fun c' hc' => h c' (List.mem_cons_of_mem d hc'),
        List.mem_cons]
      tauto

theorem equal_iff (hi : ci.members.Nodup) (hj : cj.members.Nodup) :
    ci.equal cj ↔ ∀ v, v ∈ ci.members ↔ v ∈ cj.members := by
  simp only [CongruenceClass.equal, Bool.and_eq_true, beq_iff_eq, List.all_eq_true,
    decide_eq_true_eq]
  constructor
  · rintro ⟨⟨-, h⟩, h'⟩ v
    exact ⟨h v, h' v⟩
  · intro h
    have hperm := (List.perm_ext_iff_of_nodup hi hj).mpr h
    exact ⟨⟨hperm.length_eq, fun v hv => (h v).mp hv⟩, fun v hv => (h v).mpr hv⟩

/-- The class comes from the two classes. -/
def Meet (addr : Value → Nat) (ci cj cc : CongruenceClass) : Prop :=
  ∃ next, (intersect addr next ci cj).1 = some cc

/-- The classes have a member in common. -/
def Meets (ci cj : CongruenceClass) : Prop := ∃ v ∈ ci.members, v ∈ cj.members

theorem filter_isEmpty : (ci.members.filter (· ∈ cj.members)).isEmpty ↔ ¬ Meets ci cj := by
  simp [Meets, List.isEmpty_iff]

/-- The three exits of `intersect`. -/
theorem intersect_eq (hm : Meets ci cj) : intersect addr next ci cj =
    if ci.equal cj then (some ci, next)
    else if ci.leader = cj.leader then
      (some ⟨next, keptLeader addr ci.valueExpr (ci.members.filter (· ∈ cj.members)),
        ci.valueExpr, ci.valuePhi, ci.members.filter (· ∈ cj.members)⟩, next + 1)
    else (some ⟨next, (ci.members.filter (· ∈ cj.members)).argmin addr,
      .phi ci.valueExpr cj.valueExpr, some (ci.valueExpr, cj.valueExpr),
      ci.members.filter (· ∈ cj.members)⟩, next + 1) := by
  have hne : (ci.members.filter (· ∈ cj.members)).isEmpty = false := by
    rw [Bool.eq_false_iff, ne_eq, filter_isEmpty, not_not]
    exact hm
  simp only [intersect, hne, Bool.false_eq_true, if_false]

theorem intersect_of_not_meets (hi : ci.members ≠ []) (hm : ¬ Meets ci cj) :
    intersect addr next ci cj = (none, next) := by
  have hemp := filter_isEmpty.mpr hm
  have hne : ci.equal cj = false := by
    rw [Bool.eq_false_iff]
    intro he
    obtain ⟨v, hv⟩ := List.exists_mem_of_ne_nil _ hi
    simp only [CongruenceClass.equal, Bool.and_eq_true, List.all_eq_true, decide_eq_true_eq] at he
    exact hm ⟨v, hv, he.1.2 v hv⟩
  simp only [intersect, hne, hemp, Bool.false_eq_true, if_false, if_true]

theorem Meet.mem (hi : ci.members.Nodup) (hj : cj.members.Nodup) (hne : ci.members ≠ [])
    (h : Meet addr ci cj cc) : v ∈ cc.members ↔ v ∈ ci.members ∧ v ∈ cj.members := by
  obtain ⟨next, h⟩ := h
  by_cases hm : Meets ci cj
  · rw [intersect_eq hm] at h
    split at h
    · next he =>
      cases h
      rw [equal_iff hi hj] at he
      have := he v
      tauto
    · split at h <;> cases h <;> simp
  · rw [intersect_of_not_meets hne hm] at h
    cases h

theorem Meet.meets (hne : ci.members ≠ []) (h : Meet addr ci cj cc) : Meets ci cj := by
  obtain ⟨next, h⟩ := h
  by_contra hm
  rw [intersect_of_not_meets hne hm] at h
  cases h

/-- The classes that the remaining pairs add to the accumulated ones. -/
theorem joinPairs_spec (addr : Value → Nat) (p1 p2 : Partition)
    {pairs : List (CongruenceClass × CongruenceClass)}
    (htop : ∀ pair ∈ pairs, pair.1.index ≠ 0 ∧ pair.2.index ≠ 0 ∧ pair.1.members ≠ [])
    (hlt : ∀ pair ∈ pairs, pair.1.index < n) (hp : ∀ c ∈ p, c.index < n)
    (hfresh : ∀ pair ∈ pairs, pair.1.equal pair.2 → ∀ c ∈ p, c.index ≠ pair.1.index)
    (hpairs : pairs.Pairwise fun x y => x.1.equal x.2 → y.1.equal y.2 → x.1.index ≠ y.1.index) :
    (∀ c ∈ (joinPairs addr p1 p2 pairs p n).1, c ∈ p ∨ ∃ pair ∈ pairs, Meet addr pair.1 pair.2 c) ∧
      (∀ c ∈ p, c ∈ (joinPairs addr p1 p2 pairs p n).1) ∧
      ∀ pair ∈ pairs, Meets pair.1 pair.2 →
        ∃ c ∈ (joinPairs addr p1 p2 pairs p n).1, Meet addr pair.1 pair.2 c := by
  induction pairs generalizing p n with
  | nil => exact ⟨fun c hc => .inl hc, fun c hc => hc, by simp⟩
  | cons pair pairs ih =>
    obtain ⟨ci, cj⟩ := pair
    obtain ⟨h1, h2, hne⟩ := htop (ci, cj) (by simp)
    have hlti := hlt (ci, cj) (by simp)
    have htop' : ∀ pair ∈ pairs, pair.1.index ≠ 0 ∧ pair.2.index ≠ 0 ∧ pair.1.members ≠ [] :=
      fun pair hpair => htop pair (List.mem_cons_of_mem _ hpair)
    have hfresh' : ∀ pair ∈ pairs, pair.1.equal pair.2 → ∀ c ∈ p, c.index ≠ pair.1.index :=
      fun pair hpair => hfresh pair (List.mem_cons_of_mem _ hpair)
    obtain ⟨hhead, hpairs'⟩ := List.pairwise_cons.mp hpairs
    by_cases hm : Meets ci cj
    · -- the class of this pair is new to the accumulated ones
      obtain ⟨cc, n', hint, hle, hcc, hidx, hnew⟩ : ∃ cc n', intersect addr n ci cj = (some cc, n') ∧
          n ≤ n' ∧ cc.index < n' ∧ (∀ c ∈ p, c.index ≠ cc.index) ∧
          ∀ pair ∈ pairs, pair.1.equal pair.2 → cc.index ≠ pair.1.index := by
        rw [intersect_eq hm]
        split
        · next he =>
          exact ⟨ci, n, rfl, le_refl n, hlti, hfresh (ci, cj) (by simp) he,
            fun pair hpair => hhead pair hpair he⟩
        · split <;>
          · refine ⟨_, n + 1, rfl, Nat.le_succ n, Nat.lt_succ_self n, fun c hc => ?_,
              fun pair hpair _ => ?_⟩
            · have := hp c hc
              show c.index ≠ n
              omega
            · have := hlt pair (List.mem_cons_of_mem _ hpair)
              show n ≠ pair.1.index
              omega
      have hmeet : Meet addr ci cj cc := ⟨n, by rw [hint]⟩
      have hstep : joinPairs addr p1 p2 ((ci, cj) :: pairs) p n =
          joinPairs addr p1 p2 pairs (p.insert cc) n' := by
        simp only [joinPairs, if_neg h1, if_neg h2, hint]
      obtain ⟨ha, hb, hc⟩ := ih (p := p.insert cc) (n := n') htop'
        (fun pair hpair => (hlt pair (List.mem_cons_of_mem _ hpair)).trans_le hle)
        (fun c hc => by
          rcases (mem_insert hidx).mp hc with rfl | hc
          · exact hcc
          · exact (hp c hc).trans_le hle)
        (fun pair hpair he c hc => by
          rcases (mem_insert hidx).mp hc with rfl | hc
          · exact hnew pair hpair he
          · exact hfresh' pair hpair he c hc)
        hpairs'
      rw [hstep]
      refine ⟨fun c hcr => ?_, fun c hcp => hb c ((mem_insert hidx).mpr (.inr hcp)),
        fun pair hpair hpm => ?_⟩
      · rcases ha c hcr with hcp | ⟨pair, hpair, hpm⟩
        · rcases (mem_insert hidx).mp hcp with rfl | hcp
          · exact .inr ⟨(ci, cj), by simp, hmeet⟩
          · exact .inl hcp
        · exact .inr ⟨pair, List.mem_cons_of_mem _ hpair, hpm⟩
      · rcases List.mem_cons.mp hpair with rfl | hpair
        · exact ⟨cc, hb cc ((mem_insert hidx).mpr (.inl rfl)), hmeet⟩
        · exact hc pair hpair hpm
    · have hstep : joinPairs addr p1 p2 ((ci, cj) :: pairs) p n =
          joinPairs addr p1 p2 pairs p n := by
        simp only [joinPairs, if_neg h1, if_neg h2, intersect_of_not_meets hne hm]
      obtain ⟨ha, hb, hc⟩ := ih htop' (fun pair hpair => hlt pair (List.mem_cons_of_mem _ hpair)) hp
        hfresh' hpairs'
      rw [hstep]
      refine ⟨fun c hcr => ?_, hb, fun pair hpair hpm => ?_⟩
      · rcases ha c hcr with hcp | ⟨pair, hpair, hpm⟩
        · exact .inl hcp
        · exact .inr ⟨pair, List.mem_cons_of_mem _ hpair, hpm⟩
      · rcases List.mem_cons.mp hpair with rfl | hpair
        · exact absurd hpm hm
        · exact hc pair hpair hpm

theorem Valid.eq_of_mem (h : Valid p) (hi : ci ∈ p) (hj : cj ∈ p) (hvi : v ∈ ci.members)
    (hvj : v ∈ cj.members) : ci = cj := by
  by_contra hne
  exact h.disjoint ci hi cj hj hne hvi hvj

/-- The pairs of classes of two partitions. -/
theorem pairs_spec (h1 : Valid p1) (h2 : Valid p2) :
    (p1.flatMap fun cc1 => p2.map fun cc2 => (cc1, cc2)).Pairwise
      fun x y => x.1.equal x.2 → y.1.equal y.2 → x.1.index ≠ y.1.index := by
  have key : ∀ q : Partition, (∀ c ∈ q, c ∈ p1) → q.Pairwise (·.index < ·.index) →
      (q.flatMap fun cc1 => p2.map fun cc2 => (cc1, cc2)).Pairwise
        fun x y => x.1.equal x.2 → y.1.equal y.2 → x.1.index ≠ y.1.index := by
    intro q hq hs
    induction q with
    | nil => exact List.Pairwise.nil
    | cons ci q ih =>
      obtain ⟨hlt, hs'⟩ := List.pairwise_cons.mp hs
      have hci := hq ci (by simp)
      rw [List.flatMap_cons, List.pairwise_append]
      refine ⟨?_, ih (fun c hc => hq c (List.mem_cons_of_mem _ hc)) hs', ?_⟩
      · rw [List.pairwise_map, List.pairwise_iff_forall_sublist]
        intro cj ck hsub he he'
        exfalso
        -- two classes of the second partition have the members of `ci`
        obtain ⟨v, hv⟩ := List.exists_mem_of_ne_nil _ (h1.nonempty ci hci)
        have hj := hsub.subset (show cj ∈ [cj, ck] by simp)
        have hk := hsub.subset (show ck ∈ [cj, ck] by simp)
        have hvj := ((equal_iff (h1.nodup ci hci) (h2.nodup cj hj)).mp he v).mp hv
        have hvk := ((equal_iff (h1.nodup ci hci) (h2.nodup ck hk)).mp he' v).mp hv
        obtain rfl := h2.eq_of_mem hj hk hvj hvk
        have := h2.sorted.sublist hsub
        simp at this
      · intro x hx y hy _ _
        obtain ⟨cj, -, rfl⟩ := List.mem_map.mp hx
        obtain ⟨ck, hck, hy⟩ := List.mem_flatMap.mp hy
        obtain ⟨cl, -, rfl⟩ := List.mem_map.mp hy
        have := hlt ck hck
        show ci.index ≠ ck.index
        omega
  exact key p1 (fun _ hc => hc) h1.sorted

/-- The classes of a join are those that `intersect` makes of the pairs that meet. -/
theorem join_spec (addr : Value → Nat) (h1 : Valid p1) (h2 : Valid p2) (hn : ∀ c ∈ p1, c.index < next) :
    (∀ c ∈ (join addr next p1 p2).1, ∃ ci ∈ p1, ∃ cj ∈ p2, Meet addr ci cj c) ∧
      ∀ ci ∈ p1, ∀ cj ∈ p2, Meets ci cj → ∃ c ∈ (join addr next p1 p2).1, Meet addr ci cj c := by
  have hmem : ∀ ci cj, (ci, cj) ∈ (p1.flatMap fun cc1 => p2.map fun cc2 => (cc1, cc2)) ↔
      ci ∈ p1 ∧ cj ∈ p2 := by
    intro ci cj
    simp only [List.mem_flatMap, List.mem_map, Prod.mk.injEq]
    constructor
    · rintro ⟨a, ha, b, hb, rfl, rfl⟩
      exact ⟨ha, hb⟩
    · rintro ⟨ha, hb⟩
      exact ⟨ci, ha, cj, hb, rfl, rfl⟩
  obtain ⟨ha, -, hc⟩ := joinPairs_spec addr p1 p2 (p := []) (n := next)
    (fun pair hpair => by
      obtain ⟨hi, hj⟩ := (hmem pair.1 pair.2).mp hpair
      exact ⟨h1.noTop _ hi, h2.noTop _ hj, h1.nonempty _ hi⟩)
    (fun pair hpair => hn _ ((hmem pair.1 pair.2).mp hpair).1) (by simp) (by simp)
    (pairs_spec h1 h2)
  constructor
  · intro c hcr
    rcases ha c hcr with hc | ⟨pair, hpair, hm⟩
    · simp at hc
    · obtain ⟨hi, hj⟩ := (hmem pair.1 pair.2).mp hpair
      exact ⟨pair.1, hi, pair.2, hj, hm⟩
  · intro ci hi cj hj hm
    exact hc (ci, cj) ((hmem ci cj).mpr ⟨hi, hj⟩) hm

theorem shares_join (h1 : Valid p1) (h2 : Valid p2) (hn : ∀ c ∈ p1, c.index < next) :
    Shares (join addr next p1 p2).1 v w ↔ Shares p1 v w ∧ Shares p2 v w := by
  obtain ⟨ha, hb⟩ := join_spec addr h1 h2 hn
  constructor
  · rintro ⟨c, hc, hv, hw⟩
    obtain ⟨ci, hi, cj, hj, hm⟩ := ha c hc
    have hmem := fun u => hm.mem (v := u) (h1.nodup ci hi) (h2.nodup cj hj) (h1.nonempty ci hi)
    exact ⟨⟨ci, hi, ((hmem v).mp hv).1, ((hmem w).mp hw).1⟩,
      ⟨cj, hj, ((hmem v).mp hv).2, ((hmem w).mp hw).2⟩⟩
  · rintro ⟨⟨ci, hi, hvi, hwi⟩, ⟨cj, hj, hvj, hwj⟩⟩
    obtain ⟨c, hc, hm⟩ := hb ci hi cj hj ⟨v, hvi, hvj⟩
    have hmem := fun u => hm.mem (v := u) (h1.nodup ci hi) (h2.nodup cj hj) (h1.nonempty ci hi)
    exact ⟨c, hc, (hmem v).mpr ⟨hvi, hvj⟩, (hmem w).mpr ⟨hwi, hwj⟩⟩

/-- The lowest member of an intersection of variables is no constant. -/
theorem argmin_not_constant {members : List Value} (h : ∀ v ∈ members, v.isConstant = false)
    (hc : members.argmin addr = some v) : v.isConstant = false :=
  h v (List.argmin_mem (by simpa using hc))

theorem phi_ne_left (e e' : Expression) : e ≠ .phi e e' := by
  intro h
  have := congrArg sizeOf h
  simp only [Expression.phi.sizeOf_spec] at this
  omega

/-- What a class that is met asserts, in the three cases of `intersect`. -/
theorem Meet.assertsBoth_iff (hv : ∀ v ∈ ci.members, v.isConstant = false)
    (hm : Meets ci cj) (h : Meet addr ci cj cc) : AssertsBoth ci cj cc ↔
      if ci.equal cj then Carries ci cj else ci.leader = cj.leader → CarriesExpr ci cj := by
  have hvars : ∀ v ∈ ci.members.filter (· ∈ cj.members), v.isConstant = false :=
    fun v hvm => hv v (List.mem_filter.mp hvm).1
  obtain ⟨next, h⟩ := h
  rw [intersect_eq hm] at h
  split at h
  · next he =>
    cases h
    rw [if_pos he]
    constructor
    · rintro ⟨hc, hno⟩
      refine ⟨fun c hcc => (hc c hcc).2, fun hn => ?_⟩
      rcases hno hn with h | h
      · exact h.2
      · exact absurd h (phi_ne_left _ _)
    · rintro ⟨hc, hno⟩
      exact ⟨fun c hcc => ⟨hcc, hc c hcc⟩, fun hn => .inl ⟨rfl, hno hn⟩⟩
  · next he =>
    rw [if_neg he]
    split at h
    · next hl =>
      cases h
      have hconst : ∀ c, HasConstant ⟨next, keptLeader addr ci.valueExpr
          (ci.members.filter (· ∈ cj.members)), ci.valueExpr, ci.valuePhi,
          ci.members.filter (· ∈ cj.members)⟩ c ↔
            c.isConstant ∧ ci.valueExpr = .constant (some c) := by
        intro c
        simp only [HasConstant, keptLeader]
        refine and_congr_right fun hcc => ⟨fun h => ?_, .inr⟩
        rcases h with h | h
        · split at h
          · next c' hve => rw [hve, h]
          · have := argmin_not_constant hvars h
            rw [hcc] at this
            cases this
        · exact h
      constructor
      · rintro ⟨hc, hno⟩ -
        refine ⟨fun c hcc hve => (hc c ((hconst c).mpr ⟨hcc, hve⟩)).2, fun hn => ?_⟩
        rcases hno fun c hcc => hn c hcc.1 ((hconst c).mp hcc).2 with h | h
        · exact h.2
        · exact absurd h (phi_ne_left _ _)
      · intro hcar
        obtain ⟨hc, hno⟩ := hcar hl
        refine ⟨fun c hcc => ?_, fun hn => .inl ⟨rfl, hno fun c hcc hve => ?_⟩⟩
        · obtain ⟨hcc, hve⟩ := (hconst c).mp hcc
          exact ⟨⟨hcc, .inr hve⟩, hc c hcc hve⟩
        · exact hn c ((hconst c).mpr ⟨hcc, hve⟩)
    · next hl =>
      cases h
      constructor
      · intro _ hl'
        exact absurd hl' hl
      · intro _
        refine ⟨fun c hcc => ?_, fun _ => .inr rfl⟩
        obtain ⟨hcc, h | h⟩ := hcc
        · have := argmin_not_constant hvars h
          rw [hcc] at this
          cases this
        · cases h

/-- The join intersects, and it is sound exactly when classes with the same members, or with
the same leader, assert the same on both sides. -/
theorem join_sound_iff (h1 : Valid p1) (h2 : Valid p2) (hn : ∀ c ∈ p1, c.index < next) :
    SoundJoin p1 p2 (join addr next p1 p2).1 ↔ Compatible p1 p2 := by
  obtain ⟨ha, hb⟩ := join_spec addr h1 h2 hn
  constructor
  · intro hs ci hi cj hj hmeets
    obtain ⟨c, hc, hm⟩ := hb ci hi cj hj hmeets
    obtain ⟨v, hvi, hvj⟩ := hmeets
    have hvc := (hm.mem (h1.nodup ci hi) (h2.nodup cj hj) (h1.nonempty ci hi)).mpr ⟨hvi, hvj⟩
    exact (hm.assertsBoth_iff (h1.noConstants ci hi) ⟨v, hvi, hvj⟩).mp
      (hs.asserts c hc v hvc ci hi hvi cj hj hvj)
  · intro hcomp
    refine ⟨fun v w => shares_join h1 h2 hn, fun c hc v hv ci hi hvi cj hj hvj => ?_⟩
    obtain ⟨di, hdi, dj, hdj, hm⟩ := ha c hc
    obtain ⟨hvdi, hvdj⟩ := (hm.mem (h1.nodup di hdi) (h2.nodup dj hdj) (h1.nonempty di hdi)).mp hv
    obtain rfl := h1.eq_of_mem hi hdi hvi hvdi
    obtain rfl := h2.eq_of_mem hj hdj hvj hvdj
    exact (hm.assertsBoth_iff (h1.noConstants ci hi) ⟨v, hvi, hvj⟩).mpr
      (hcomp ci hi cj hj ⟨v, hvi, hvj⟩)

/-- The partition in which the instruction `i` is the constant `n`. -/
def constantPartition (i : Nat) (n : BitVec 32) : Partition :=
  [⟨1, some (.constInt n), .constant (some (.constInt n)), none, [.instruction i]⟩]

theorem constantPartition_valid (i : Nat) (n : BitVec 32) : Valid (constantPartition i n) := by
  constructor <;> simp [constantPartition, Value.isConstant]

/-- Classes at the ends of two blocks: an argument and its copy, a constant, and what is not
known. -/
def leftClasses : Partition :=
  [⟨1, some (.argument 0 0), .args 0 0, none, [.argument 0 0, .instruction 0]⟩,
    ⟨2, some (.constInt 5), .constant (some (.constInt 5)), none,
      [.instruction 1, .instruction 2, .instruction 3]⟩,
    ⟨3, some (.instruction 4), .other 1, none, [.instruction 4, .instruction 5]⟩]

def rightClasses : Partition :=
  [⟨1, some (.argument 0 0), .args 0 0, none, [.instruction 0, .argument 0 0]⟩,
    ⟨4, some (.constInt 5), .constant (some (.constInt 5)), none,
      [.instruction 1, .instruction 2]⟩,
    ⟨5, some (.instruction 3), .other 2, none, [.instruction 3, .instruction 4, .instruction 5]⟩]

/-- The argument keeps its class, the constant is one on both sides, and the others are phis. -/
theorem join_sound_iff_leftClasses :
    (SoundJoin leftClasses rightClasses (join (fun _ => 0) 6 leftClasses rightClasses).1 ↔
      Compatible leftClasses rightClasses) ∧
    (join (fun _ => 0) 6 leftClasses rightClasses).1.map (fun cc => (cc.valueExpr, cc.members)) =
      [(.args 0 0, [.argument 0 0, .instruction 0]),
        (.constant (some (.constInt 5)), [.instruction 1, .instruction 2]),
        (.phi (.constant (some (.constInt 5))) (.other 2), [.instruction 3]),
        (.phi (.other 1) (.other 2), [.instruction 4, .instruction 5])] := by
  have hleft : Valid leftClasses := by
    constructor <;> simp [leftClasses, Value.isConstant]
  have hright : Valid rightClasses := by
    constructor <;> simp [rightClasses, Value.isConstant]
  exact ⟨join_sound_iff hleft hright (by simp [leftClasses]), by decide⟩

/-- A phi of the constants 1 and 2 becomes the constant 1 when it has a class of its own in
both predecessors. -/
theorem join_constantPartition : Valid (constantPartition 0 1) ∧ Valid (constantPartition 0 2) ∧
    (∀ c ∈ constantPartition 0 1, c.index < 2) ∧
    ¬ SoundJoin (constantPartition 0 1) (constantPartition 0 2)
      (join (fun _ => 0) 2 (constantPartition 0 1) (constantPartition 0 2)).1 := by
  refine ⟨constantPartition_valid 0 1, constantPartition_valid 0 2, by simp [constantPartition], ?_⟩
  intro hs
  have hj : (join (fun _ => 0) 2 (constantPartition 0 1) (constantPartition 0 2)).1 =
      constantPartition 0 1 := by
    decide
  rw [hj] at hs
  obtain ⟨-, h | h⟩ := ((hs.asserts _ (List.mem_singleton.mpr rfl) (.instruction 0) (by simp) _
    (List.mem_singleton.mpr rfl) (by simp) _ (List.mem_singleton.mpr rfl) (by simp)).1
      (.constInt 1) ⟨rfl, .inl rfl⟩).2
  · exact absurd h (by decide)
  · exact absurd h (by decide)

end Gvn

end Cminusf
