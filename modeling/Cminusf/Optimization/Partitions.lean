import Cminusf.Optimization.Redundancy
import Mathlib.Data.List.ProdSigma

/-! The partitions that `GVN` builds: their classes have different indices, so that no insertion is
lost, are not empty and have no member in common. -/

namespace Cminusf

namespace Gvn

variable {ctx : Context} {g g' : GVN} {addr : Value → Nat} {bb f n n' next nextOther fuel x : Nat}
  {p q p1 p2 before after : Partition} {u v w : Value} {ve : Expression}
  {vp : Option (Expression × Expression)} {c d cc ci cj : CongruenceClass}
  {s s' : Partition × GVN} {ms : List Value} {xs ks : List Nat}

/-- A partition in which the first `n` indices are in use. -/
structure Proper (p : Partition) (n : Nat) : Prop where
  sorted : p.Pairwise (·.index < ·.index)
  lt : ∀ c ∈ p, c.index < n
  top : ∀ c ∈ p, c.index = 0 → c = top
  nonempty : ∀ c ∈ p, c.index ≠ 0 → c.members ≠ []
  nodup : ∀ c ∈ p, c.members.Nodup
  disjoint : ∀ c ∈ p, ∀ d ∈ p, ∀ v ∈ c.members, v ∈ d.members → c = d
  noConstants : ∀ c ∈ p, ∀ v ∈ c.members, v.isConstant = false

/-- The class of `v` has index `i`. -/
def Numbered (p : Partition) (v : Value) (i : Nat) : Prop := ∃ c ∈ p, c.index = i ∧ v ∈ c.members

/-- `x` has one class when it has a value expression and no class else; the other members stay in
their classes. -/
structure Transferred (x : Value) (ve : Expression) (p q : Partition) : Prop where
  unique : ve ≠ .null → ∃ c ∈ q, x ∈ c.members ∧ ∀ d ∈ q, x ∈ d.members → d = c
  absent : ve = .null → ¬ Member q x
  others : ∀ v, v ≠ x → ∀ i, Numbered q v i ↔ Numbered p v i

/-- The classes of a join are the intersections of classes that meet. -/
structure Intersects (p1 p2 p : Partition) : Prop where
  of_mem : ∀ c ∈ p, ∃ ci ∈ p1, ∃ cj ∈ p2, ∀ v, v ∈ c.members ↔ v ∈ ci.members ∧ v ∈ cj.members
  exists_mem : ∀ ci ∈ p1, ∀ cj ∈ p2, Meets ci cj →
    ∃ c ∈ p, ∀ v, v ∈ c.members ↔ v ∈ ci.members ∧ v ∈ cj.members

theorem Proper.nil (n : Nat) : Proper [] n :=
  ⟨List.Pairwise.nil, by simp, by simp, by simp, by simp, by simp, by simp⟩

theorem Proper.top_only (hn : 0 < n) : Proper [Gvn.top] n where
  sorted := List.pairwise_singleton _ _
  lt c hc := by
    rw [List.mem_singleton.mp hc]
    exact hn
  top c hc _ := List.mem_singleton.mp hc
  nonempty c hc h := by
    rw [List.mem_singleton.mp hc] at h
    exact absurd rfl h
  nodup c hc := by
    rw [List.mem_singleton.mp hc]
    exact List.nodup_nil
  disjoint c hc d hd _ _ _ := by rw [List.mem_singleton.mp hc, List.mem_singleton.mp hd]
  noConstants c hc v hv := by
    rw [List.mem_singleton.mp hc] at hv
    cases hv

theorem Proper.mono (h : Proper p n) (hn : n ≤ n') : Proper p n' :=
  { h with lt := fun c hc => (h.lt c hc).trans_le hn }

theorem Proper.sublist (h : Proper p n) (hq : q.Sublist p) : Proper q n where
  sorted := h.sorted.sublist hq
  lt c hc := h.lt c (hq.subset hc)
  top c hc := h.top c (hq.subset hc)
  nonempty c hc := h.nonempty c (hq.subset hc)
  nodup c hc := h.nodup c (hq.subset hc)
  disjoint c hc d hd := h.disjoint c (hq.subset hc) d (hq.subset hd)
  noConstants c hc := h.noConstants c (hq.subset hc)

theorem Proper.index_ne_zero (h : Proper p n) (hc : c ∈ p) (hv : v ∈ c.members) : c.index ≠ 0 := by
  intro h0
  rw [h.top c hc h0] at hv
  cases hv

theorem Proper.valid (h : Proper p n) (hi : Informed p) : Valid p where
  sorted := h.sorted
  disjoint c hc d hd hne v hv hv' := hne (h.disjoint c hc d hd v hv hv')
  nonempty c hc := h.nonempty c hc (hi c hc)
  noTop := hi
  nodup := h.nodup
  noConstants := h.noConstants

/-- The members of one class are replaced. -/
theorem Proper.replace (h : Proper (before ++ d :: after) n) (h0 : d.index ≠ 0) (hne : ms ≠ [])
    (hnd : ms.Nodup) (hms : ∀ v ∈ ms, v.isConstant = false ∧
      ∀ c ∈ before ++ after, v ∉ c.members) :
    Proper (before ++ { d with members := ms } :: after) n := by
  have hmem : ∀ c ∈ before ++ { d with members := ms } :: after,
      c = { d with members := ms } ∨ c ∈ before ++ after := by
    intro c hc
    simp only [List.mem_append, List.mem_cons] at hc ⊢
    tauto
  have hold : ∀ c ∈ before ++ after, c ∈ before ++ d :: after := by
    intro c hc
    simp only [List.mem_append, List.mem_cons] at hc ⊢
    tauto
  refine ⟨?_, fun c hc => ?_, fun c hc => ?_, fun c hc => ?_, fun c hc => ?_,
    fun c hc c' hc' v hv hv' => ?_, fun c hc v hv => ?_⟩
  · have hs : ((before ++ d :: after).map CongruenceClass.index).Pairwise (· < ·) :=
      List.pairwise_map.mpr h.sorted
    have he : ((before ++ { d with members := ms } :: after).map CongruenceClass.index) =
        (before ++ d :: after).map CongruenceClass.index := by simp
    rw [← he] at hs
    exact List.pairwise_map.mp hs
  · rcases hmem c hc with rfl | hc
    · exact h.lt d (by simp)
    · exact h.lt c (hold c hc)
  · rcases hmem c hc with rfl | hc
    · exact fun hz => absurd hz h0
    · exact h.top c (hold c hc)
  · rcases hmem c hc with rfl | hc
    · exact fun _ => hne
    · exact h.nonempty c (hold c hc)
  · rcases hmem c hc with rfl | hc
    · exact hnd
    · exact h.nodup c (hold c hc)
  · rcases hmem c hc with rfl | hc
    · rcases hmem c' hc' with rfl | hc'
      · rfl
      · exact absurd hv' ((hms v hv).2 c' hc')
    · rcases hmem c' hc' with rfl | hc'
      · exact absurd hv ((hms v hv').2 c hc)
      · exact h.disjoint c (hold c hc) c' (hold c' hc') v hv hv'
  · rcases hmem c hc with rfl | hc
    · exact (hms v hv).1
    · exact h.noConstants c (hold c hc) v hv

theorem numbered_middle {i : Nat} : Numbered (before ++ d :: after) v i ↔
    (d.index = i ∧ v ∈ d.members) ∨ Numbered (before ++ after) v i := by
  simp only [Numbered, List.mem_append, List.mem_cons]
  constructor
  · rintro ⟨c, hc | rfl | hc, hi⟩
    · exact .inr ⟨c, .inl hc, hi⟩
    · exact .inl hi
    · exact .inr ⟨c, .inr hc, hi⟩
  · rintro (hi | ⟨c, hc, hi⟩)
    · exact ⟨d, .inr (.inl rfl), hi⟩
    · exact ⟨c, by tauto, hi⟩

/-- In a proper partition a member of one class is in no other. -/
theorem Proper.not_mem_others (h : Proper (before ++ d :: after) n) (hv : v ∈ d.members)
    (hc : c ∈ before ++ after) : v ∉ c.members := by
  intro hv'
  have hd : d ∉ before ++ after := by
    have hnd : (before ++ d :: after).Nodup := h.sorted.imp fun hlt he => by
      rw [he] at hlt
      exact absurd hlt (lt_irrefl _)
    exact (List.nodup_middle.mp hnd).notMem
  have hc' : c ∈ before ++ d :: after := by
    simp only [List.mem_append, List.mem_cons] at hc ⊢
    tauto
  rw [h.disjoint d (by simp) c hc' v hv hv'] at hd
  exact hd hc

theorem eraseMember_cases (v : Value) (p : Partition) :
    (¬ Member p v ∧ eraseMember v p = p) ∨ ∃ before d after, p = before ++ d :: after ∧
      v ∈ d.members ∧ (eraseMember v p = before ++ after ∧ d.members.erase v = [] ∨
        eraseMember v p = before ++ { d with members := d.members.erase v } :: after ∧
          d.members.erase v ≠ []) := by
  induction p with
  | nil => exact .inl ⟨by simp [Member], rfl⟩
  | cons c p ih =>
    by_cases hv : v ∈ c.members
    · refine .inr ⟨[], c, p, rfl, hv, ?_⟩
      rw [eraseMember, if_pos hv]
      by_cases he : c.members.erase v = []
      · exact .inl ⟨by rw [he]; rfl, he⟩
      · exact .inr ⟨if_neg (by simpa using he), he⟩
    · rw [eraseMember, if_neg hv]
      rcases ih with ⟨hno, he⟩ | ⟨before, d, after, rfl, hd, hcases⟩
      · refine .inl ⟨?_, by rw [he]⟩
        intro ⟨d, hd, hvd⟩
        rcases List.mem_cons.mp hd with rfl | hd
        · exact hv hvd
        · exact hno ⟨d, hd, hvd⟩
      · refine .inr ⟨c :: before, d, after, rfl, hd, ?_⟩
        rcases hcases with ⟨he, hnil⟩ | ⟨he, hne⟩
        · exact .inl ⟨by rw [he]; rfl, hnil⟩
        · exact .inr ⟨by rw [he]; rfl, hne⟩

/-- A value is erased from its class, and nothing else happens. -/
theorem Proper.eraseMember (h : Proper p n) (v : Value) : Proper (eraseMember v p) n ∧
    ¬ Member (Gvn.eraseMember v p) v ∧
    ∀ u, u ≠ v → ∀ i, Numbered (Gvn.eraseMember v p) u i ↔ Numbered p u i := by
  rcases eraseMember_cases v p with ⟨hno, he⟩ | ⟨before, d, after, rfl, hv, hcases⟩
  · rw [he]
    exact ⟨h, hno, fun _ _ _ => Iff.rfl⟩
  have hothers : ∀ c ∈ before ++ after, v ∉ c.members := fun c hc => h.not_mem_others hv hc
  have hnd := h.nodup d (by simp)
  rcases hcases with ⟨he, hnil⟩ | ⟨he, hne⟩
  · rw [he]
    refine ⟨h.sublist ((List.sublist_cons_self d after).append_left before), ?_, fun u hu i => ?_⟩
    · intro ⟨c, hc, hvc⟩
      exact hothers c hc hvc
    · rw [numbered_middle]
      have hu' : u ∉ d.members := by
        intro hmem
        rw [← List.mem_erase_of_ne hu, hnil] at hmem
        cases hmem
      simp [hu']
  · rw [he]
    refine ⟨h.replace (h.index_ne_zero (by simp) hv) hne (hnd.erase v) fun u hu => ?_, ?_,
      fun u hu i => ?_⟩
    · have hud := List.mem_of_mem_erase hu
      exact ⟨h.noConstants d (by simp) u hud, fun c hc => h.not_mem_others hud hc⟩
    · intro ⟨c, hc, hvc⟩
      simp only [List.mem_append, List.mem_cons] at hc
      rcases hc with hc | rfl | hc
      · exact hothers c (List.mem_append_left _ hc) hvc
      · exact (hnd.mem_erase_iff.mp hvc).1 rfl
      · exact hothers c (List.mem_append_right _ hc) hvc
    · rw [numbered_middle, numbered_middle]
      simp only [List.mem_erase_of_ne hu]

/-- The insertion of a class with a new index. -/
theorem Proper.insert (h : Proper p n) (hn : n ≤ n') (hlt : cc.index < n')
    (hnew : ∀ c ∈ p, c.index ≠ cc.index) (h0 : cc.index ≠ 0) (hne : cc.members ≠ [])
    (hnd : cc.members.Nodup) (hcc : ∀ v ∈ cc.members, v.isConstant = false ∧ ¬ Member p v) :
    Proper (p.insert cc) n' where
  sorted := insert_sorted h.sorted
  lt c hc := by
    rcases (mem_insert hnew).mp hc with rfl | hc
    · exact hlt
    · exact (h.lt c hc).trans_le hn
  top c hc := by
    rcases (mem_insert hnew).mp hc with rfl | hc
    · exact fun hz => absurd hz h0
    · exact h.top c hc
  nonempty c hc := by
    rcases (mem_insert hnew).mp hc with rfl | hc
    · exact fun _ => hne
    · exact h.nonempty c hc
  nodup c hc := by
    rcases (mem_insert hnew).mp hc with rfl | hc
    · exact hnd
    · exact h.nodup c hc
  disjoint c hc d hd v hv hv' := by
    rcases (mem_insert hnew).mp hc with hce | hcp
    · rcases (mem_insert hnew).mp hd with hde | hdp
      · rw [hce, hde]
      · exact absurd ⟨d, hdp, hv'⟩ (hcc v (hce ▸ hv)).2
    · rcases (mem_insert hnew).mp hd with hde | hdp
      · exact absurd ⟨c, hcp, hv⟩ (hcc v (hde ▸ hv')).2
      · exact h.disjoint c hcp d hdp v hv hv'
  noConstants c hc := by
    rcases (mem_insert hnew).mp hc with rfl | hc
    · exact fun v hv => (hcc v hv).1
    · exact h.noConstants c hc

theorem member_insert_iff (hnew : ∀ c ∈ p, c.index ≠ cc.index) :
    Member (p.insert cc) v ↔ Member p v ∨ v ∈ cc.members := by
  simp only [Member, mem_insert hnew]
  constructor
  · rintro ⟨c, rfl | hc, hv⟩
    · exact .inr hv
    · exact .inl ⟨c, hc, hv⟩
  · rintro (⟨c, hc, hv⟩ | hv)
    · exact ⟨c, .inr hc, hv⟩
    · exact ⟨cc, .inl rfl, hv⟩

theorem numbered_insert {i : Nat} (hnew : ∀ c ∈ p, c.index ≠ cc.index) :
    Numbered (p.insert cc) v i ↔ (cc.index = i ∧ v ∈ cc.members) ∨ Numbered p v i := by
  simp only [Numbered, mem_insert hnew]
  constructor
  · rintro ⟨c, rfl | hc, hi⟩
    · exact .inl hi
    · exact .inr ⟨c, hc, hi⟩
  · rintro (hi | ⟨c, hc, hi⟩)
    · exact ⟨cc, .inl rfl, hi⟩
    · exact ⟨c, .inr hc, hi⟩

/-- The class in which a fitting value is inserted has an expression, so it is not the top class. -/
theorem inClass_top {b : Bool} (h : inClass ve vp Gvn.top = .ok b) : b = false := by
  simp only [inClass, top, ne_eq, not_true_eq_false, if_false, and_false] at h
  cases h
  rfl

/-- What `register` does for a value without a class. -/
theorem register_proper (h : Proper p g.nextValue) (hpos : 0 < g.nextValue)
    (hno : ¬ Member p (.instruction x)) (hrun : register g x ve vp p = .ok s) :
    Proper s.1 s.2.nextValue ∧ g.nextValue ≤ s.2.nextValue ∧ s.2.pin = g.pin ∧ s.2.pout = g.pout ∧
      (ve ≠ .null → Member s.1 (.instruction x)) ∧ (ve = .null → s.1 = p) ∧
      ∀ u, u ≠ .instruction x → ∀ i, Numbered s.1 u i ↔ Numbered p u i := by
  rcases register_cases hrun with ⟨hnull, rfl⟩ | ⟨hne, ⟨q, hq, rfl⟩ | rfl⟩
  · exact ⟨h, le_rfl, rfl, rfl, fun hve => absurd hnull hve, fun _ => rfl, fun _ _ _ => Iff.rfl⟩
  · rcases joinClass_cases hq with ⟨hnone, -⟩ | ⟨before, d, after, rfl, hin, hsome⟩
    · cases hnone
    cases hsome
    have hd : d ∈ before ++ d :: after := by simp
    have h0 : d.index ≠ 0 := by
      intro hz
      rw [h.top d hd hz] at hin
      cases inClass_top hin
    have hxd : .instruction x ∉ d.members := fun hx => hno ⟨d, hd, hx⟩
    have hins : insertMember (.instruction x) d.members = d.members ++ [.instruction x] :=
      if_neg hxd
    refine ⟨h.replace h0 (by simp [hins]) ?_ fun u hu => ?_, le_rfl, rfl, rfl, fun _ => ?_,
      fun hve => absurd hve hne, fun u hu i => ?_⟩
    · rw [hins]
      exact List.nodup_append.mpr ⟨h.nodup d hd, List.nodup_singleton _, by
        rintro a ha b hb rfl
        rw [List.mem_singleton.mp hb] at ha
        exact hxd ha⟩
    · rcases mem_insertMember.mp hu with rfl | hu
      · refine ⟨rfl, fun c hc hx => hno ⟨c, ?_, hx⟩⟩
        simp only [List.mem_append, List.mem_cons] at hc ⊢
        tauto
      · exact ⟨h.noConstants d hd u hu, fun c hc => h.not_mem_others hu hc⟩
    · exact ⟨_, List.mem_append_right _ List.mem_cons_self, mem_insertMember.mpr (.inl rfl)⟩
    · rw [numbered_middle, numbered_middle]
      simp only [mem_insertMember, hu, false_or]
  · have hnew : ∀ c ∈ p, c.index ≠ g.nextValue := fun c hc => (h.lt c hc).ne
    refine ⟨h.insert (Nat.le_succ _) (Nat.lt_succ_self _) hnew hpos.ne' (by simp) (by simp) ?_,
      Nat.le_succ _, rfl, rfl, fun _ => ?_, fun hve => absurd hve hne, fun u hu i => ?_⟩
    · intro u hu
      rw [List.mem_singleton.mp hu]
      exact ⟨rfl, hno⟩
    · exact member_insert hnew (List.mem_singleton_self _)
    · rw [numbered_insert hnew]
      simp [hu]

/-- `transferFunction` keeps a partition proper and moves no member but its instruction. -/
theorem transferFunction_proper (h : Proper p g.nextValue) (hpos : 0 < g.nextValue)
    (hrun : transferFunction ctx g x p bb = .ok s) : Proper s.1 s.2.nextValue ∧
      g.nextValue ≤ s.2.nextValue ∧ s.2.pin = g.pin ∧ s.2.pout = g.pout ∧
      ∀ ve k, valueExpr (ctx.forCall g.nextCall) g.nextOther x p bb = .ok (ve, k) →
        Transferred (.instruction x) ve p s.1 := by
  obtain ⟨ve, k, hve, hrun⟩ := transferFunction_eq_ok hrun
  obtain ⟨vp, -, hrun⟩ := assign_eq_ok hrun
  obtain ⟨herased, hno, hothers⟩ := h.eraseMember (.instruction x)
  obtain ⟨hp, hle, hpin, hpout, hmem, hnull, hnum⟩ :=
    register_proper (g := { g with nextOther := k, nextCall := g.nextCall + 1 }) herased hpos hno
      hrun
  refine ⟨hp, hle, hpin, hpout, fun ve' k' hve' => ?_⟩
  rw [hve] at hve'
  cases hve'
  refine ⟨fun hne => ?_, fun he => ?_, fun u hu i => (hnum u hu i).trans (hothers u hu i)⟩
  · obtain ⟨c, hc, hx⟩ := hmem hne
    exact ⟨c, hc, hx, fun d hd hxd => hp.disjoint d hd c hc _ hxd hx⟩
  · rw [hnull he]
    exact hno

/-- The pairs of classes of two partitions have no member in common. -/
theorem pairs_disjoint (h1 : Valid p1) (h2 : Valid p2) :
    (p1.flatMap fun cc1 => p2.map fun cc2 => (cc1, cc2)).Pairwise fun a b =>
      ∀ v, v ∈ a.1.members → v ∈ a.2.members → v ∈ b.1.members → v ∉ b.2.members := by
  have hnodup : ∀ {r : Partition}, r.Pairwise (·.index < ·.index) → r.Nodup := fun hr =>
    hr.imp fun hlt he => by
      rw [he] at hlt
      exact absurd hlt (lt_irrefl _)
  have hprod : (p1.flatMap fun cc1 => p2.map fun cc2 => (cc1, cc2)).Nodup :=
    List.Nodup.product (hnodup h1.sorted) (hnodup h2.sorted)
  apply hprod.pairwise_of_forall_ne
  rintro ⟨ci, cj⟩ ha ⟨di, dj⟩ hb hne v hvi hvj hui huj
  obtain ⟨ci, hci, ha⟩ := List.mem_flatMap.mp ha
  obtain ⟨cj, hcj, ha⟩ := List.mem_map.mp ha
  obtain ⟨di, hdi, hb⟩ := List.mem_flatMap.mp hb
  obtain ⟨dj, hdj, hb⟩ := List.mem_map.mp hb
  cases ha
  cases hb
  rw [h1.eq_of_mem hci hdi hvi hui, h2.eq_of_mem hcj hdj hvj huj] at hne
  exact hne rfl

/-- The index of an intersection, and what it is made of. -/
theorem intersect_new (hi : ci.members.Nodup) (hj : cj.members.Nodup)
    (h : intersect addr next ci cj = (some cc, n)) :
    (cc = ci ∧ n = next ∧ (∀ v ∈ ci.members, v ∈ cj.members) ∨ cc.index = next ∧ n = next + 1) ∧
      cc.members.Nodup := by
  unfold intersect at h
  dsimp only at h
  split at h
  · rename_i he
    cases h
    exact ⟨.inl ⟨rfl, rfl, fun v hv => ((equal_iff hi hj).mp he v).mp hv⟩, hi⟩
  · split at h
    · cases h
    · split at h <;>
      · cases h
        exact ⟨.inr ⟨rfl, rfl⟩, hi.filter _⟩

/-- The class of an intersection is new where its members are in no class: an index that it keeps
belongs to a class of the first partition. -/
theorem insert_meet {n0 : Nat} (h1 : Valid p1) (h2 : Valid p2) (hn1 : ∀ c ∈ p1, c.index < n0)
    (hci : ci ∈ p1) (hcj : cj ∈ p2) (hint : intersect addr n ci cj = (some cc, n')) (hp : Proper p n)
    (hn : n0 ≤ n) (hpos : 0 < n) (hold : ∀ c ∈ p, c.index < n0 → c ∈ p1)
    (hfresh : ∀ v ∈ ci.members, v ∈ cj.members → ¬ Member p v) :
    Proper (p.insert cc) n' ∧ n ≤ n' ∧ (∀ c ∈ p.insert cc, c.index < n0 → c ∈ p1) ∧
      ∀ v, Member (p.insert cc) v ↔ Member p v ∨ v ∈ ci.members ∧ v ∈ cj.members := by
  have hmeet : Meet addr ci cj cc := ⟨n, by rw [hint]⟩
  have hmem : ∀ v, v ∈ cc.members ↔ v ∈ ci.members ∧ v ∈ cj.members := fun v =>
    hmeet.mem (h1.nodup ci hci) (h2.nodup cj hcj) (h1.nonempty ci hci)
  obtain ⟨hidx, hnd⟩ := intersect_new (h1.nodup ci hci) (h2.nodup cj hcj) hint
  have hne : cc.members ≠ [] := by
    obtain ⟨v, hvi, hvj⟩ := hmeet.meets (h1.nonempty ci hci)
    exact List.ne_nil_of_mem ((hmem v).mpr ⟨hvi, hvj⟩)
  have hnot : ∀ v ∈ cc.members, v.isConstant = false ∧ ¬ Member p v := by
    intro v hv
    obtain ⟨hvi, hvj⟩ := (hmem v).mp hv
    exact ⟨h1.noConstants ci hci v hvi, hfresh v hvi hvj⟩
  have hnew : ∀ c ∈ p, c.index ≠ cc.index := by
    intro c hc he
    rcases hidx with ⟨rfl, -, hsub⟩ | ⟨hnext, -⟩
    · -- a class with the index of `ci` is `ci`, whose members are in no class yet
      have hc1 := hold c hc (by rw [he]; exact hn1 cc hci)
      have hcc : c = cc := by
        have hnodup : (p1.map (·.index)).Nodup :=
          List.pairwise_map.mpr (h1.sorted.imp fun hlt => hlt.ne)
        exact List.inj_on_of_nodup_map hnodup hc1 hci he
      obtain ⟨v, hv⟩ := List.exists_mem_of_ne_nil _ hne
      exact (hnot v hv).2 ⟨c, hc, by rwa [hcc]⟩
    · have := hp.lt c hc
      omega
  have hlt : cc.index < n' ∧ n ≤ n' ∧ cc.index ≠ 0 := by
    rcases hidx with ⟨rfl, rfl, -⟩ | ⟨hnext, rfl⟩
    · exact ⟨(hn1 cc hci).trans_le hn, le_rfl, h1.noTop cc hci⟩
    · omega
  refine ⟨hp.insert hlt.2.1 hlt.1 hnew hlt.2.2 hne hnd hnot, hlt.2.1, fun c hc hcn => ?_,
    fun v => by rw [member_insert_iff hnew, hmem]⟩
  rcases (mem_insert hnew).mp hc with rfl | hc
  · rcases hidx with ⟨rfl, -⟩ | ⟨hnext, -⟩
    · exact hci
    · omega
  · exact hold c hc hcn

/-- The classes that the remaining pairs add. -/
theorem joinPairs_proper (addr : Value → Nat) {n0 : Nat} (h1 : Valid p1) (h2 : Valid p2)
    (hn1 : ∀ c ∈ p1, c.index < n0) {pairs : List (CongruenceClass × CongruenceClass)}
    (hpairs : ∀ pair ∈ pairs, pair.1 ∈ p1 ∧ pair.2 ∈ p2)
    (hdisj : pairs.Pairwise fun a b =>
      ∀ v, v ∈ a.1.members → v ∈ a.2.members → v ∈ b.1.members → v ∉ b.2.members)
    (hp : Proper p n) (hn : n0 ≤ n) (hpos : 0 < n) (hold : ∀ c ∈ p, c.index < n0 → c ∈ p1)
    (hfresh : ∀ pair ∈ pairs, ∀ v ∈ pair.1.members, v ∈ pair.2.members → ¬ Member p v) :
    Proper (joinPairs addr p1 p2 pairs p n).1 (joinPairs addr p1 p2 pairs p n).2 ∧
      n ≤ (joinPairs addr p1 p2 pairs p n).2 := by
  induction pairs generalizing p n with
  | nil => exact ⟨hp, le_rfl⟩
  | cons pair pairs ih =>
    obtain ⟨ci, cj⟩ := pair
    obtain ⟨hci, hcj⟩ := hpairs (ci, cj) List.mem_cons_self
    have hpairs' := fun pair hpair => hpairs pair (List.mem_cons_of_mem (ci, cj) hpair)
    obtain ⟨hhead, hdisj'⟩ := List.pairwise_cons.mp hdisj
    have hrest := fun pair hpair => hfresh pair (List.mem_cons_of_mem (ci, cj) hpair)
    rw [joinPairs, if_neg (h1.noTop ci hci), if_neg (h2.noTop cj hcj)]
    rcases hint : intersect addr n ci cj with ⟨- | cc, n'⟩
    · obtain ⟨rfl, -⟩ := intersect_none hint
      exact ih hpairs' hdisj' hp hn hpos hold hrest
    · obtain ⟨hins, hle, hold', hmem⟩ := insert_meet h1 h2 hn1 hci hcj hint hp hn hpos hold
        (hfresh (ci, cj) List.mem_cons_self)
      have hfresh' : ∀ pair ∈ pairs, ∀ v ∈ pair.1.members, v ∈ pair.2.members →
          ¬ Member (p.insert cc) v := by
        intro pair hpair v hv hv' hin
        rcases (hmem v).mp hin with hin | ⟨hvi, hvj⟩
        · exact hrest pair hpair v hv hv' hin
        · exact hhead pair hpair v hvi hvj hv hv'
      obtain ⟨hr, hle'⟩ := ih hpairs' hdisj' hins (hn.trans hle) (hpos.trans_le hle) hold' hfresh'
      exact ⟨hr, hle.trans hle'⟩

/-- `join` keeps partitions proper, and no intersection is lost. -/
theorem join_proper (addr : Value → Nat) (h1 : Proper p1 next) (h2 : Proper p2 next)
    (hpos : 0 < next) : Proper (join addr next p1 p2).1 (join addr next p1 p2).2 ∧
      next ≤ (join addr next p1 p2).2 ∧
      (Informed p1 → Informed p2 → Intersects p1 p2 (join addr next p1 p2).1) := by
  by_cases hi1 : Informed p1
  · by_cases hi2 : Informed p2
    · have hv1 := h1.valid hi1
      have hv2 := h2.valid hi2
      have hpairs : ∀ pair ∈ p1.flatMap fun cc1 => p2.map fun cc2 => (cc1, cc2),
          pair.1 ∈ p1 ∧ pair.2 ∈ p2 := by
        intro pair hpair
        obtain ⟨c, hc, hpair⟩ := List.mem_flatMap.mp hpair
        obtain ⟨d, hd, rfl⟩ := List.mem_map.mp hpair
        exact ⟨hc, hd⟩
      obtain ⟨hproper, hle⟩ := joinPairs_proper addr hv1 hv2 h1.lt hpairs (pairs_disjoint hv1 hv2)
        (Proper.nil next) le_rfl hpos (by simp) (by simp [Member])
      obtain ⟨hof, hex⟩ := join_spec addr hv1 hv2 h1.lt
      refine ⟨hproper, hle, fun _ _ => ⟨fun c hc => ?_, fun ci hci cj hcj hm => ?_⟩⟩
      · obtain ⟨ci, hci, cj, hcj, hmeet⟩ := hof c hc
        exact ⟨ci, hci, cj, hcj, fun v =>
          hmeet.mem (hv1.nodup ci hci) (hv2.nodup cj hcj) (hv1.nonempty ci hci)⟩
      · obtain ⟨c, hc, hmeet⟩ := hex ci hci cj hcj hm
        exact ⟨c, hc, fun v =>
          hmeet.mem (hv1.nodup ci hci) (hv2.nodup cj hcj) (hv1.nonempty ci hci)⟩
    · rw [join_of_not_informed_right addr next h2.sorted hi1 hi2]
      exact ⟨h1, le_rfl, fun _ hno => absurd hno hi2⟩
  · rw [join_of_not_informed_left addr next p2 h1.sorted hi1]
    exact ⟨h2, le_rfl, fun hno => absurd hno hi1⟩

/-- New classes, each with one value. -/
theorem foldl_insert_proper (val : Nat → Value) (hval : Function.Injective val)
    (hconst : ∀ k, (val k).isConstant = false) (ve : Nat → Expression) (hks : ks.Nodup)
    (h : Proper s.1 s.2.nextValue) (hpos : 0 < s.2.nextValue)
    (hno : ∀ k ∈ ks, ¬ Member s.1 (val k)) :
    let r := ks.foldl (fun s k => (s.1.insert ⟨s.2.nextValue, some (val k), ve k, none, [val k]⟩,
      { s.2 with nextValue := s.2.nextValue + 1 })) s
    Proper r.1 r.2.nextValue ∧ s.2.nextValue ≤ r.2.nextValue ∧ r.2.pin = s.2.pin ∧
      r.2.pout = s.2.pout ∧ ∀ v, Member r.1 v ↔ Member s.1 v ∨ ∃ k ∈ ks, v = val k := by
  induction ks generalizing s with
  | nil => exact ⟨h, le_rfl, rfl, rfl, by simp⟩
  | cons k ks ih =>
    obtain ⟨hk, hks⟩ := List.nodup_cons.mp hks
    have hnew : ∀ c ∈ s.1, c.index ≠ s.2.nextValue := fun c hc => (h.lt c hc).ne
    have hins : Proper (s.1.insert ⟨s.2.nextValue, some (val k), ve k, none, [val k]⟩)
        (s.2.nextValue + 1) := by
      apply h.insert (Nat.le_succ _) (Nat.lt_succ_self _) hnew hpos.ne' (by simp) (by simp)
      intro v hv
      rw [List.mem_singleton.mp hv]
      exact ⟨hconst k, hno k List.mem_cons_self⟩
    have hmem : ∀ v, Member (s.1.insert ⟨s.2.nextValue, some (val k), ve k, none, [val k]⟩) v ↔
        Member s.1 v ∨ v ∈ [val k] := fun v => member_insert_iff hnew
    obtain ⟨hp, hle, hpin, hpout, hv⟩ := ih
      (s := (s.1.insert ⟨s.2.nextValue, some (val k), ve k, none, [val k]⟩,
        { s.2 with nextValue := s.2.nextValue + 1 })) hks hins (Nat.succ_pos _) (by
      intro k' hk' hm
      rcases (hmem _).mp hm with hm | he
      · exact hno k' (List.mem_cons_of_mem _ hk') hm
      · rw [hval (List.mem_singleton.mp he)] at hk'
        exact hk hk')
    refine ⟨hp, (Nat.le_succ _).trans hle, hpin, hpout, fun v => ?_⟩
    rw [List.foldl_cons, hv, hmem]
    simp only [List.mem_cons, List.not_mem_nil, or_false, exists_eq_or_imp]
    tauto

/-- The fields at the beginning of `detectEquivalences`. -/
def start (ctx : Context) (f nextOther : Nat) : GVN :=
  ⟨nextOther, 1, ctx.made, fun _ => [],
    fun b => if b ∈ (ctx.module.functions f).basicBlocks then [top] else []⟩

/-- One round of `initial_gv`. -/
def insertGv (s : Partition × GVN) (gv : Nat) : Partition × GVN :=
  (s.1.insert ⟨s.2.nextValue, some (.globalVariable gv), .global gv, none, [.globalVariable gv]⟩,
    { s.2 with nextValue := s.2.nextValue + 1 })

/-- One round of `initial_args`. -/
def insertArg (f : Nat) (s : Partition × GVN) (n : Nat) : Partition × GVN :=
  (s.1.insert ⟨s.2.nextValue, some (.argument f n), .args f n, none, [.argument f n]⟩,
    { s.2 with nextValue := s.2.nextValue + 1 })

theorem initialGv_eq (m : Module) (s : Partition × GVN) :
    initialGv m s = (List.range m.numGlobals).foldl insertGv s := rfl

/-- The partitions that are built, with the fields that are left: by `initial`, by a transfer of any
instruction, when a block is left, and when it is entered from one or two of its predecessors or
none. -/
inductive Builds (ctx : Context) (addr : Value → Nat) (f nextOther : Nat) : Partition × GVN → Prop
  where
  | globals {n : Nat} : n ≤ ctx.module.numGlobals →
      Builds ctx addr f nextOther ((List.range n).foldl insertGv ([], start ctx f nextOther))
  | args {n : Nat} : n ≤ (ctx.module.functions f).paramTypes.length →
      Builds ctx addr f nextOther ((List.range n).foldl (insertArg f)
        (initialGv ctx.module ([], start ctx f nextOther)))
  | transfer {s s' : Partition × GVN} {x bb : Nat} : Builds ctx addr f nextOther s →
      transferFunction ctx s.2 x s.1 bb = .ok s' → Builds ctx addr f nextOther s'
  | leave {p : Partition} {g : GVN} (bb : Nat) : Builds ctx addr f nextOther (p, g) →
      Builds ctx addr f nextOther (p, { g with pout := Function.update g.pout bb p })
  | enter {p : Partition} {g : GVN} (bb q : Nat) : Builds ctx addr f nextOther (p, g) →
      Builds ctx addr f nextOther
        (g.pout q, { g with pin := Function.update g.pin bb (g.pout q) })
  | join {p : Partition} {g : GVN} (bb q q' : Nat) : Builds ctx addr f nextOther (p, g) →
      Builds ctx addr f nextOther ((join addr g.nextValue (g.pout q) (g.pout q')).1,
        joinInto addr bb (g.pout q) g q')
  | resume {p : Partition} {g : GVN} (bb : Nat) : Builds ctx addr f nextOther (p, g) →
      Builds ctx addr f nextOther (g.pin bb, g)

/-- The current partition and those of all blocks are proper. -/
structure AllProper (s : Partition × GVN) : Prop where
  pos : 0 < s.2.nextValue
  current : Proper s.1 s.2.nextValue
  pin : ∀ b, Proper (s.2.pin b) s.2.nextValue
  pout : ∀ b, Proper (s.2.pout b) s.2.nextValue

theorem AllProper.of_next {g' : GVN} (h : AllProper s) (hle : s.2.nextValue ≤ g'.nextValue)
    (hp : Proper p g'.nextValue) (hpin : g'.pin = s.2.pin) (hpout : g'.pout = s.2.pout) :
    AllProper (p, g') where
  pos := h.pos.trans_le hle
  current := hp
  pin b := by
    rw [hpin]
    exact (h.pin b).mono hle
  pout b := by
    rw [hpout]
    exact (h.pout b).mono hle

theorem allProper_start (ctx : Context) (f nextOther : Nat) : AllProper ([], start ctx f nextOther) where
  pos := Nat.one_pos
  current := .nil _
  pin _ := .nil _
  pout b := by
    unfold start
    dsimp only
    split
    · exact .top_only Nat.one_pos
    · exact .nil _

/-- The globals are in different classes. -/
theorem globals_proper (ctx : Context) (f nextOther n : Nat) :
    AllProper ((List.range n).foldl insertGv ([], start ctx f nextOther)) ∧
      ∀ v, Member ((List.range n).foldl insertGv ([], start ctx f nextOther)).1 v ↔
        ∃ gv < n, v = .globalVariable gv := by
  have h := allProper_start ctx f nextOther
  obtain ⟨hp, hle, hpin, hpout, hm⟩ := foldl_insert_proper (s := ([], start ctx f nextOther))
    Value.globalVariable (fun _ _ he => by cases he; rfl) (fun _ => rfl) Expression.global
    (List.nodup_range (n := n)) h.current h.pos (by simp [Member])
  refine ⟨h.of_next hle hp hpin hpout, fun v => (hm v).trans ?_⟩
  simp [Member]

/-- The arguments are in different classes, which are not those of the globals. -/
theorem args_proper (n : Nat) :
    AllProper ((List.range n).foldl (insertArg f)
      (initialGv ctx.module ([], start ctx f nextOther))) ∧
      ∀ v, Member ((List.range n).foldl (insertArg f)
        (initialGv ctx.module ([], start ctx f nextOther))).1 v ↔
        (∃ gv < ctx.module.numGlobals, v = .globalVariable gv) ∨ ∃ k < n, v = .argument f k := by
  obtain ⟨h, hg⟩ := globals_proper ctx f nextOther ctx.module.numGlobals
  rw [← initialGv_eq] at h
  obtain ⟨hp, hle, hpin, hpout, hm⟩ := foldl_insert_proper
    (s := initialGv ctx.module ([], start ctx f nextOther))
    (Value.argument f) (fun _ _ he => by cases he; rfl) (fun _ => rfl) (Expression.args f)
    (List.nodup_range (n := n)) h.current h.pos (by
      intro k _ hk
      rw [initialGv_eq, hg] at hk
      obtain ⟨gv, -, he⟩ := hk
      cases he)
  refine ⟨h.of_next hle hp hpin hpout, fun v => (hm v).trans ?_⟩
  rw [initialGv_eq, hg]
  simp

theorem Builds.allProper (h : Builds ctx addr f nextOther s) : AllProper s := by
  induction h with
  | globals _ => exact (globals_proper _ _ _ _).1
  | args _ => exact (args_proper _).1
  | transfer _ hrun ih =>
    obtain ⟨hp, hle, hpin, hpout, -⟩ := transferFunction_proper ih.current ih.pos hrun
    exact ih.of_next hle hp hpin hpout
  | leave bb _ ih =>
    refine ⟨ih.pos, ih.current, ih.pin, fun b => ?_⟩
    by_cases hb : b = bb
    · subst hb
      simpa using ih.current
    · simpa [hb] using ih.pout b
  | enter bb q _ ih =>
    refine ⟨ih.pos, ih.pout q, fun b => ?_, ih.pout⟩
    by_cases hb : b = bb
    · subst hb
      simpa using ih.pout q
    · simpa [hb] using ih.pin b
  | join bb q q' _ ih =>
    obtain ⟨hp, hle, -⟩ := join_proper addr (ih.pout q) (ih.pout q') ih.pos
    refine ⟨ih.pos.trans_le hle, hp, fun b => ?_, fun b => (ih.pout b).mono hle⟩
    by_cases hb : b = bb
    · subst hb
      simpa [joinInto] using hp
    · simpa [joinInto, hb] using (ih.pin b).mono hle
  | resume bb _ ih => exact ⟨ih.pos, ih.pin bb, ih.pin, ih.pout⟩

/-- The calls of a run are made with partitions that are built. -/
theorem Builds.eachCall (h : Builds ctx addr f nextOther s) (xs : List Nat) :
    EachCall ctx (fun g pin _ _ => Builds ctx addr f nextOther (pin, g)) bb xs s := by
  induction xs generalizing s with
  | nil => trivial
  | cons x xs ih => exact ⟨h, fun s' hs' => ih (h.transfer hs')⟩

theorem Builds.transferAll (h : Builds ctx addr f nextOther s)
    (hrun : transferAll ctx bb xs s = .ok s') : Builds ctx addr f nextOther s' := by
  induction xs generalizing s with
  | nil =>
    cases hrun
    exact h
  | cons x xs ih =>
    obtain ⟨t, ht, hrun⟩ := Exec.bind_eq_ok.mp ((List.foldlM_cons ..).symm.trans hrun)
    exact ih (h.transfer ht) hrun

theorem Builds.foldl_joinInto {q : Nat} (qs : List Nat) (h : Builds ctx addr f nextOther (p, g))
    (hpin : g.pin bb = p) :
    Builds ctx addr f nextOther ((qs.foldl (joinInto addr bb (g.pout q)) g).pin bb,
      qs.foldl (joinInto addr bb (g.pout q)) g) := by
  induction qs generalizing p g with
  | nil =>
    rw [← hpin] at h
    exact h
  | cons q' qs ih => exact ih (h.join bb q q') (by simp [joinInto])

theorem Builds.enterBlock (h : Builds ctx addr f nextOther (p, g)) (bb : Nat) :
    Builds ctx addr f nextOther ((enterBlock addr ctx.module bb g).pin bb,
      enterBlock addr ctx.module bb g) := by
  cases hpre : (ctx.module.blocks bb).preBbs with
  | nil =>
    have he : Gvn.enterBlock addr ctx.module bb g = g := by
      unfold Gvn.enterBlock
      rw [hpre]
    rw [he]
    exact h.resume bb
  | cons q qs =>
    rw [enterBlock_cons hpre]
    exact (h.enter bb q).foldl_joinInto (q := q) qs (by simp)

theorem Builds.eachVisit (h : Builds ctx addr f nextOther (p, g)) (bb : Nat) :
    EachVisit ctx addr (fun g pin _ _ => Builds ctx addr f nextOther (pin, g)) bb g ∧
      ∀ r, visitBlock ctx addr g bb = .ok r → ∃ p', Builds ctx addr f nextOther (p', r.2) := by
  have he := h.enterBlock bb
  refine ⟨⟨he.eachCall _, fun s hs => (he.transferAll hs).eachCall _⟩, fun r hr => ?_⟩
  obtain ⟨s₁, hs₁, hr⟩ := Exec.bind_eq_ok.mp hr
  obtain ⟨s₂, hs₂, hr⟩ := Exec.bind_eq_ok.mp hr
  cases hr
  exact ⟨s₂.1, ((he.transferAll hs₁).transferAll hs₂).leave bb⟩

theorem Builds.eachPass (blocks : List Nat) (changed : Bool)
    (h : Builds ctx addr f nextOther (p, g)) :
    EachPass ctx addr (fun g pin _ _ => Builds ctx addr f nextOther (pin, g)) blocks g ∧
      ∀ r, pass ctx addr blocks (changed, g) = .ok r →
        ∃ p', Builds ctx addr f nextOther (p', r.2) := by
  induction blocks generalizing p g changed with
  | nil =>
    refine ⟨trivial, fun r hr => ?_⟩
    cases hr
    exact ⟨p, h⟩
  | cons bb blocks ih =>
    obtain ⟨hvisit, hnext⟩ := h.eachVisit bb
    refine ⟨⟨hvisit, fun s hs => ?_⟩, fun r hr => ?_⟩
    · obtain ⟨p', hp'⟩ := hnext s hs
      exact (ih changed hp').1
    · rw [pass_cons] at hr
      obtain ⟨⟨changed', g'⟩, hs, hr⟩ := Exec.bind_eq_ok.mp hr
      obtain ⟨p', hp'⟩ := hnext _ hs
      exact (ih changed' hp').2 r hr

theorem Builds.eachIteration {blocks : List Nat} {changed : Bool}
    (h : Builds ctx addr f nextOther (p, g)) (fuel : Nat) :
    EachIteration ctx addr (fun g pin _ _ => Builds ctx addr f nextOther (pin, g)) blocks fuel
        (changed, g) ∧
      ∀ g', iterate ctx addr blocks fuel (changed, g) = .ok g' →
        ∃ p', Builds ctx addr f nextOther (p', g') := by
  induction fuel generalizing p g changed with
  | zero => exact ⟨trivial, fun g' hg' => by cases hg'⟩
  | succ fuel ih =>
    obtain ⟨hpass, hnext⟩ := h.eachPass blocks changed
    refine ⟨⟨hpass, fun s hs _ => ?_⟩, fun g' hg' => ?_⟩
    · obtain ⟨p', hp'⟩ := hnext s hs
      exact (ih hp').1
    · obtain ⟨⟨changed', g₁⟩, hs, hg'⟩ := Exec.bind_eq_ok.mp hg'
      obtain ⟨p', hp'⟩ := hnext _ hs
      cases changed' with
      | true => exact (ih hp').2 g' hg'
      | false =>
        cases hg'
        exact ⟨p', hp'⟩

theorem builds_initial {entry : Nat} (hrun : initial ctx f entry nextOther = .ok g) :
    ∃ p, Builds ctx addr f nextOther (p, g) := by
  obtain ⟨s₁, hs₁, hrun⟩ := Exec.bind_eq_ok.mp hrun
  obtain ⟨s₂, hs₂, hrun⟩ := Exec.bind_eq_ok.mp hrun
  cases hrun
  exact ⟨s₂.1, (((Builds.args le_rfl).transferAll hs₁).transferAll hs₂).leave entry⟩

/-- The run of `detectEquivalences` builds such partitions only. -/
theorem builds_detectEquivalences :
    EachOfRun ctx addr (fun g pin _ _ => Builds ctx addr f nextOther (pin, g)) f nextOther fuel ∧
      ∀ g, detectEquivalences ctx addr f nextOther fuel = .ok g →
        ∃ p, Builds ctx addr f nextOther (p, g) := by
  have hargs : Builds ctx addr f nextOther
      (initialArgs ctx.module f (initialGv ctx.module ([], start ctx f nextOther))) :=
    .args le_rfl
  refine ⟨fun entry blocks _ => ⟨hargs.eachCall _, fun s hs => (hargs.transferAll hs).eachCall _,
    fun g hg => ?_⟩, fun g hg => ?_⟩
  · obtain ⟨p, hp⟩ := builds_initial hg
    exact (hp.eachIteration fuel).1
  · unfold detectEquivalences at hg
    split at hg
    · cases hg
    · obtain ⟨g₁, hg₁, hg⟩ := Exec.bind_eq_ok.mp hg
      obtain ⟨p, hp⟩ := builds_initial hg₁
      exact (hp.eachIteration fuel).2 g hg

/-- All partitions that are built are proper, a transfer moves its instruction only, and no class is
lost: each global, each argument and each intersection has one. -/
theorem builds_proper (ctx : Context) (addr : Value → Nat) (f nextOther fuel : Nat) :
    (∀ s, Builds ctx addr f nextOther s → AllProper s ∧
      (∀ x bb ve k s', valueExpr (ctx.forCall s.2.nextCall) s.2.nextOther x s.1 bb = .ok (ve, k) →
        transferFunction ctx s.2 x s.1 bb = .ok s' →
          Transferred (.instruction x) ve s.1 s'.1) ∧
      ∀ q q', Informed (s.2.pout q) → Informed (s.2.pout q') →
        Intersects (s.2.pout q) (s.2.pout q')
          (join addr s.2.nextValue (s.2.pout q) (s.2.pout q')).1) ∧
    (∀ v, Member (initialArgs ctx.module f (initialGv ctx.module ([], start ctx f nextOther))).1 v ↔
      (∃ gv < ctx.module.numGlobals, v = .globalVariable gv) ∨
        ∃ k < (ctx.module.functions f).paramTypes.length, v = .argument f k) ∧
    EachOfRun ctx addr (fun g pin _ _ => Builds ctx addr f nextOther (pin, g)) f nextOther fuel ∧
    ∀ g, detectEquivalences ctx addr f nextOther fuel = .ok g →
      ∃ p, Builds ctx addr f nextOther (p, g) := by
  refine ⟨fun s hs => ?_, (args_proper _).2, builds_detectEquivalences⟩
  have h := hs.allProper
  refine ⟨h, fun x bb ve k s' hve hrun => ?_, fun q q' => ?_⟩
  · obtain ⟨-, -, -, -, htransferred⟩ := transferFunction_proper h.current h.pos hrun
    exact htransferred ve k hve
  · obtain ⟨-, -, hint⟩ := join_proper addr (h.pout q) (h.pout q') h.pos
    exact hint

end Gvn

end Cminusf
