import Cminusf.Optimization.Tidy

/-! `transferFunction` and `join` lose no value that has a class. -/

namespace Cminusf

namespace Gvn

variable {ctx : Context} {g g' : GVN} {addr : Value → Nat} {b bb n next x : Nat}
  {p p1 p2 pin pout : Partition} {v w : Value} {ve : Expression} {c cc ci cj : CongruenceClass}
  {s s' : Partition × GVN} {xs : List Nat}

theorem phiEdge_solid {op : BinaryOp} {v1 v2 e : Expression} {nested : Exec (Option (Expression × Expression))}
    (h1 : v1.Solid) (h2 : v2.Solid) (hn : ∀ l r, nested = .ok (some (l, r)) → l.Solid ∧ r.Solid)
    (h : phiEdge ctx x op v1 v2 pout nested = .ok e) : e = .null ∨ e.Solid := by
  unfold phiEdge at h
  split at h
  · obtain ⟨r, -, h⟩ := Exec.bind_eq_ok.mp h
    cases h
    exact .inr trivial
  · obtain ⟨b, -, h⟩ := Exec.bind_eq_ok.mp h
    split at h
    · cases h
      exact .inr ⟨h1, h2⟩
    · obtain ⟨o, ho, h⟩ := Exec.bind_eq_ok.mp h
      cases h
      rcases o with - | ⟨l, r⟩
      · exact .inl rfl
      · exact .inr (hn l r ho)

theorem valuePhiFunc_solid {pouts : Nat → Partition} {op : BinaryOp} {lhs rhs l r : Expression}
    (hl : lhs.Solid) (hr : rhs.Solid) (h : valuePhiFunc ctx pouts x op lhs rhs bb = .ok (some (l, r))) :
    l.Solid ∧ r.Solid := by
  induction lhs generalizing rhs bb l r with
  | phi i1 j1 ihi ihj =>
    cases rhs with
    | phi i2 j2 =>
      rw [valuePhiFunc] at h
      split at h
      · obtain ⟨vi, hi, h⟩ := Exec.bind_eq_ok.mp h
        obtain ⟨vj, hj, h⟩ := Exec.bind_eq_ok.mp h
        have hi := phiEdge_solid hl.1 hr.1 (fun _ _ => ihi hl.1 hr.1) hi
        have hj := phiEdge_solid hl.2 hr.2 (fun _ _ => ihj hl.2 hr.2) hj
        split at h
        · rename_i hne
          cases h
          exact ⟨hi.resolve_left hne.1, hj.resolve_left hne.2⟩
        · cases h
      · cases h
    | _ => cases h
  | _ => cases h

/-- What an assignment keeps of a tidy partition, and the class it gives to its value. -/
structure Kept (g : GVN) (p : Partition) (s : Partition × GVN) : Prop where
  tidy : Tidy s.1 s.2.nextValue
  next : g.nextValue ≤ s.2.nextValue
  pin : s.2.pin = g.pin
  pout : s.2.pout = g.pout
  member : ∀ v, Member p v → Member s.1 v
  informed : Informed s.1 ↔ Informed p

theorem assign_spec (hp : Tidy pout g.nextValue) (hpos : 0 < g.nextValue) (hve : ve = .null ∨ ve.Full)
    (h : assign ctx g x ve pout bb = .ok s) :
    Kept g pout s ∧ (ve ≠ .null → Member s.1 (.instruction x)) := by
  obtain ⟨vp, hvp, h⟩ := assign_eq_ok h
  have hsolid : ve ≠ .null → ∀ l r, vp = some (l, r) → l.Solid ∧ r.Solid := by
    rintro hne l r rfl
    have hfull := hve.resolve_left hne
    cases ve with
    | bin op lhs rhs => exact valuePhiFunc_solid hfull.1.solid hfull.2.solid hvp
    | _ => cases hvp
  rcases register_cases h with ⟨hnull, rfl⟩ | ⟨hnull, ⟨q, hq, rfl⟩ | rfl⟩
  · exact ⟨⟨hp, le_rfl, rfl, rfl, fun _ hv => hv, Iff.rfl⟩, fun hne => absurd hnull hne⟩
  · obtain ⟨h1, h2, h3, h4⟩ := joinClass_spec hp hq
    exact ⟨⟨h1, le_rfl, rfl, rfl, h2, h4⟩, fun _ => h3⟩
  · have hfull : CongruenceClass.Full ⟨g.nextValue, leaderOf x ve, ve, vp, [.instruction x]⟩ := by
      rw [CongruenceClass.Full, if_neg hpos.ne']
      exact ⟨hve.resolve_left hnull, hsolid hnull⟩
    refine ⟨⟨hp.insert (Nat.le_succ _) (Nat.lt_succ_self _) hfull, Nat.le_succ _, rfl, rfl,
      fun _ hv => hv.insert, informed_insert hpos.ne'⟩, fun _ => ?_⟩
    apply member_insert
    · intro c hc
      exact (hp.lt c hc).ne
    · exact List.mem_singleton_self _

/-- What the transfer of known instructions keeps, and the results that get a class. -/
theorem transferFunction_spec (hp : Tidy p g.nextValue) (hpos : 0 < g.nextValue)
    (hk : Known ctx p x bb) (h : transferFunction ctx g x p bb = .ok s) :
    Tidy s.1 s.2.nextValue ∧ g.nextValue ≤ s.2.nextValue ∧ s.2.pin = g.pin ∧ s.2.pout = g.pout ∧
      (∀ v, v ≠ .instruction x → Member p v → Member s.1 v) ∧
      (HasResult ctx.module x → Member s.1 (.instruction x)) ∧ (Informed s.1 ↔ Informed p) := by
  obtain ⟨ve, k, hve, h⟩ := transferFunction_eq_ok h
  have hk' : Known (ctx.forCall g.nextCall) p x bb := hk
  obtain ⟨hfull, hne⟩ := valueExpr_full hp.full hk' hve
  obtain ⟨hkept, hmem⟩ := assign_spec (g := { g with nextOther := k, nextCall := g.nextCall + 1 })
    hp.eraseMember hpos hfull h
  exact ⟨hkept.tidy, hkept.next, hkept.pin, hkept.pout,
    fun v hv hm => hkept.member v (hm.eraseMember hv), fun hr => hmem (hne hr),
    hkept.informed.trans (informed_eraseMember hp)⟩

section

theorem top_full : top.Full := by simp [CongruenceClass.Full, top]

theorem intersect_full (hi : ci.Full) (hj : cj.Full) (hi0 : ci.index ≠ 0) (hj0 : cj.index ≠ 0)
    (hn : next ≠ 0) (h : (intersect addr next ci cj).1 = some cc) : cc.Full := by
  have hif : ci.valueExpr.Full ∧ ∀ l r, ci.valuePhi = some (l, r) → l.Solid ∧ r.Solid := by
    rwa [CongruenceClass.Full, if_neg hi0] at hi
  have hjf : cj.valueExpr.Full ∧ ∀ l r, cj.valuePhi = some (l, r) → l.Solid ∧ r.Solid := by
    rwa [CongruenceClass.Full, if_neg hj0] at hj
  unfold intersect at h
  dsimp only at h
  split at h
  · cases h
    exact hi
  · split at h
    · cases h
    · split at h
      · cases h
        rw [CongruenceClass.Full, if_neg hn]
        exact hif
      · cases h
        rw [CongruenceClass.Full, if_neg hn]
        refine ⟨⟨hif.1, hjf.1⟩, ?_⟩
        rintro l r he
        cases he
        exact ⟨hif.1.solid, hjf.1.solid⟩

/-- The index and the members of an intersection. -/
theorem intersect_cases (h : intersect addr next ci cj = (some cc, n)) :
    (cc = ci ∧ n = next ∨ cc.index = next ∧ n = next + 1) ∧
      ∀ v ∈ ci.members, v ∈ cj.members → v ∈ cc.members := by
  unfold intersect at h
  dsimp only at h
  split at h
  · cases h
    exact ⟨.inl ⟨rfl, rfl⟩, fun _ hv _ => hv⟩
  · split at h
    · cases h
    · split at h <;>
      · cases h
        exact ⟨.inr ⟨rfl, rfl⟩, fun v hv hv' => List.mem_filter.mpr ⟨hv, by simpa using hv'⟩⟩

theorem intersect_none (h : intersect addr next ci cj = (none, n)) :
    n = next ∧ ∀ v ∈ ci.members, v ∉ cj.members := by
  unfold intersect at h
  dsimp only at h
  split at h
  · cases h
  · split at h
    · rename_i he
      cases h
      refine ⟨rfl, fun v hv hv' => ?_⟩
      have hmem : v ∈ ci.members.filter (· ∈ cj.members) :=
        List.mem_filter.mpr ⟨hv, by simpa using hv'⟩
      rw [List.isEmpty_iff.mp he] at hmem
      cases hmem
    · split at h <;> cases h

/-- The classes that the remaining pairs of two partitions without top classes add. -/
theorem joinPairs_tidy (addr : Value → Nat) (p2 : Partition) {n0 : Nat} (h1 : Tidy p1 n0) {pairs : List (CongruenceClass × CongruenceClass)}
    (hpairs : ∀ pair ∈ pairs, pair.1 ∈ p1 ∧ pair.1.index ≠ 0 ∧ pair.2.index ≠ 0 ∧ pair.2.Full)
    (hp : Tidy p n) (hn : n0 ≤ n) (hpos : 0 < n0) (hinf : Informed p)
    (hold : ∀ c ∈ p, c.index < n0 → c ∈ p1) :
    let r := joinPairs addr p1 p2 pairs p n
    Tidy r.1 r.2 ∧ n ≤ r.2 ∧ Informed r.1 ∧ (∀ v, Member p v → Member r.1 v) ∧
      ∀ pair ∈ pairs, ∀ v ∈ pair.1.members, v ∈ pair.2.members → Member r.1 v := by
  induction pairs generalizing p n with
  | nil => exact ⟨hp, le_rfl, hinf, fun _ hv => hv, by simp⟩
  | cons pair pairs ih =>
    obtain ⟨ci, cj⟩ := pair
    obtain ⟨hci, hi0, hj0, hjf⟩ := hpairs (ci, cj) List.mem_cons_self
    have hpairs' := fun pair hpair => hpairs pair (List.mem_cons_of_mem (ci, cj) hpair)
    dsimp only
    rw [joinPairs, if_neg hi0, if_neg hj0]
    rcases hint : intersect addr n ci cj with ⟨- | cc, n'⟩
    · obtain ⟨rfl, hno⟩ := intersect_none hint
      obtain ⟨ha, hb, hc, hd, he⟩ := ih hpairs' hp hn hinf hold
      refine ⟨ha, hb, hc, hd, fun pair hpair v hv hv' => ?_⟩
      rcases List.mem_cons.mp hpair with rfl | hpair
      · exact absurd hv' (hno v hv)
      · exact he pair hpair v hv hv'
    · obtain ⟨hidx, hmem⟩ := intersect_cases hint
      have hfull : cc.Full := intersect_full (h1.full ci hci) hjf hi0 hj0 (by omega : n ≠ 0)
        (by rw [hint])
      have hlt : cc.index < n' ∧ n ≤ n' ∧ cc.index ≠ 0 := by
        rcases hidx with ⟨rfl, rfl⟩ | ⟨h, rfl⟩
        · exact ⟨(h1.lt _ hci).trans_le hn, le_rfl, hi0⟩
        · omega
      have hcc : ∀ v ∈ ci.members, v ∈ cj.members → Member (p.insert cc) v := by
        intro v hv hv'
        have hvc := hmem v hv hv'
        rcases hidx with ⟨rfl, rfl⟩ | ⟨h, rfl⟩
        · -- A class of the first partition that is there already is the same one.
          obtain ⟨d, hd, hdi⟩ := exists_index_insert p cc
          have hd1 : d ∈ p1 := by
            rcases mem_of_mem_insert hd with rfl | hd'
            · exact hci
            · exact hold d hd' (by rw [hdi]; exact h1.lt _ hci)
          exact ⟨d, hd, by rw [h1.eq_of_index hd1 hci hdi]; exact hvc⟩
        · apply member_insert _ hvc
          intro d hd
          have := hp.lt d hd
          omega
      obtain ⟨ha, hb, hc, hd, he⟩ := ih hpairs' (hp.insert hlt.2.1 hlt.1 hfull) (hn.trans hlt.2.1)
        ((informed_insert hlt.2.2).mpr hinf) (fun d hd hdn => by
          rcases mem_of_mem_insert hd with rfl | hd
          · rcases hidx with ⟨rfl, -⟩ | ⟨h, -⟩
            · exact hci
            · omega
          · exact hold d hd hdn)
      refine ⟨ha, hlt.2.1.trans hb, hc, fun v hv => hd v hv.insert, fun pair hpair v hv hv' => ?_⟩
      rcases List.mem_cons.mp hpair with rfl | hpair
      · exact hd v (hcc v hv hv')
      · exact he pair hpair v hv hv'

theorem exists_top (h : p.Pairwise (·.index < ·.index)) (hi : ¬ Informed p) : ∃ c p', p = c :: p' ∧ c.index = 0 := by
  simp only [Informed, not_forall, ne_eq, not_not] at hi
  obtain ⟨c, hc, h0⟩ := hi
  cases p with
  | nil => cases hc
  | cons d p =>
    refine ⟨d, p, rfl, ?_⟩
    rcases List.mem_cons.mp hc with rfl | hc
    · exact h0
    · have := (List.pairwise_cons.mp h).1 c hc
      omega

/-- A join with a partition that has the top class is the other partition. -/
theorem join_of_not_informed_left (addr : Value → Nat) (next : Nat) (p2 : Partition)
    (h1 : p1.Pairwise (·.index < ·.index)) (hi : ¬ Informed p1) :
    join addr next p1 p2 = (p2, next) := by
  obtain ⟨c, p', rfl, h0⟩ := exists_top h1 hi
  cases p2 with
  | nil =>
    have hnil : ((c :: p').flatMap fun cc1 => ([] : Partition).map fun cc2 => (cc1, cc2)) = [] :=
      List.flatMap_eq_nil_iff.mpr (by simp)
    rw [join, hnil]
    rfl
  | cons d p2 => simp [join, joinPairs, h0]

theorem join_of_not_informed_right (addr : Value → Nat) (next : Nat)
    (h2 : p2.Pairwise (·.index < ·.index)) (hi1 : Informed p1) (hi : ¬ Informed p2) :
    join addr next p1 p2 = (p1, next) := by
  obtain ⟨d, p', rfl, h0⟩ := exists_top h2 hi
  cases p1 with
  | nil => simp [join, joinPairs]
  | cons c p1 =>
    have hc := hi1 c List.mem_cons_self
    simp [join, joinPairs, h0, hc]

theorem join_tidy (addr : Value → Nat) (h1 : Tidy p1 next) (h2 : Tidy p2 next) (hpos : 0 < next) (hi1 : Informed p1)
    (hi2 : Informed p2) :
    let r := join addr next p1 p2
    Tidy r.1 r.2 ∧ next ≤ r.2 ∧ Informed r.1 ∧
      ∀ v, Member p1 v → Member p2 v → Member r.1 v := by
  have hnil : Tidy [] next := ⟨List.Pairwise.nil, by simp, by simp⟩
  have hpairs : ∀ pair ∈ p1.flatMap fun cc1 => p2.map fun cc2 => (cc1, cc2),
      pair.1 ∈ p1 ∧ pair.1.index ≠ 0 ∧ pair.2.index ≠ 0 ∧ pair.2.Full := by
    intro pair hpair
    obtain ⟨c, hc, hpair⟩ := List.mem_flatMap.mp hpair
    obtain ⟨d, hd, rfl⟩ := List.mem_map.mp hpair
    exact ⟨hc, hi1 c hc, hi2 d hd, h2.full d hd⟩
  obtain ⟨ha, hb, hc, -, he⟩ :=
    joinPairs_tidy addr p2 h1 hpairs hnil le_rfl hpos (by simp [Informed]) (by simp)
  refine ⟨ha, hb, hc, ?_⟩
  rintro v ⟨c, hc, hvc⟩ ⟨d, hd, hvd⟩
  apply he (c, d) _ v hvc hvd
  exact List.mem_flatMap.mpr ⟨c, hc, List.mem_map.mpr ⟨d, hd, rfl⟩⟩

end

end Gvn

end Cminusf
