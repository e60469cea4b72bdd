import Cminusf.Optimization.PostOrder

/-! `create_idom` terminates and computes the immediate dominators. -/

namespace Cminusf

namespace Dominators

/-- The pointers of the blocks of one function. -/
def idomOn (blocks : List Nat) (d : Dominators) (v : Nat) : Option Nat :=
  if v ∈ blocks then d.idom v else none

variable {m : Module} {blocks : List Nat} {entry : Nat} {d : Dominators} {cnt : Nat → Nat}
  {b b1 b2 : Nat}

theorem idomOn_isSome (h : (idomOn blocks d b).isSome) : b ∈ blocks := by
  by_contra hb
  simp [idomOn, hb] at h

theorem idomOn_eq (hb : b ∈ blocks) : idomOn blocks d b = d.idom b := by
  simp [idomOn, hb]

theorem idomOn_setIdom (hb : b ∈ blocks) (x : Option Nat) :
    idomOn blocks (d.setIdom b x) = Function.update (idomOn blocks d) b x := by
  funext v
  by_cases hv : v = b
  · subst hv
    simp [idomOn, setIdom, hb]
  · simp [idomOn, setIdom, hv]

/-- The invariant of the iteration for the function whose blocks are given. -/
abbrev Approx (m : Module) (blocks : List Nat) (entry : Nat) (d : Dominators) (cnt : Nat → Nat) :=
  Graph.IdomApprox (Succ m) entry d.postOrderId (idomOn blocks d) cnt

section

variable (hn : Graph.Numbering (Succ m) entry d.postOrderId) (h : Approx m blocks entry d cnt)
include hn h

theorem Approx.po_le (hb : (idomOn blocks d b).isSome) : d.postOrderId b ≤ d.postOrderId entry := by
  obtain ⟨x, hx⟩ := Option.isSome_iff_exists.mp hb
  exact hn.le_root (h.reaches b x hx)

theorem climb_spec {fuel : Nat} (h1 : (idomOn blocks d b1).isSome)
    (h2 : (idomOn blocks d b2).isSome)
    (hf : d.postOrderId entry - d.postOrderId b1 < fuel) :
    ∃ z, climb d fuel b1 b2 = .ok z ∧ Graph.Ancestor (idomOn blocks d) z b1 ∧
      (∀ w, Graph.Ancestor (idomOn blocks d) w b1 → d.postOrderId b2 ≤ d.postOrderId w →
        Graph.Ancestor (idomOn blocks d) w z) ∧
      d.postOrderId b1 ≤ d.postOrderId z ∧
      (d.postOrderId b1 < d.postOrderId b2 → d.postOrderId b1 < d.postOrderId z) := by
  induction fuel generalizing b1 with
  | zero => omega
  | succ fuel ih =>
    by_cases hlt : d.postOrderId b1 < d.postOrderId b2
    · have hb2 := Approx.po_le hn h h2
      have hne : b1 ≠ entry := fun he => by rw [he] at hlt; omega
      obtain ⟨c, hc⟩ := Option.isSome_iff_exists.mp h1
      obtain ⟨hpc, hcs⟩ := h.parent b1 c hc hne
      have hcd : d.idom b1 = some c := by rw [← idomOn_eq (idomOn_isSome h1), hc]
      obtain ⟨z, hz, hzc, hw, hle, _⟩ := ih hcs (by omega)
      refine ⟨z, by simp only [climb, hlt, if_true, hcd, hz], hzc.trans (.of_idom hc), ?_, by omega,
        fun _ => by omega⟩
      intro w hwb hpw
      have hwne : w ≠ b1 := fun he => by rw [he] at hpw; omega
      obtain ⟨c', hc', hwc⟩ := hwb.parent hwne
      rw [hc] at hc'
      cases hc'
      exact hw w hwc hpw
    · exact ⟨b1, by simp [climb, hlt]; rfl, .refl _ _, fun w hw _ => hw, le_rfl,
        fun hlt' => absurd hlt' hlt⟩

/-- `intersect` finds the nearest common ancestor. -/
theorem intersect_spec {bound fuel : Nat} (h1 : (idomOn blocks d b1).isSome)
    (h2 : (idomOn blocks d b2).isSome) (hb : d.postOrderId entry < bound)
    (hf : 2 * d.postOrderId entry - (d.postOrderId b1 + d.postOrderId b2) < fuel) :
    ∃ z, intersect d bound fuel b1 b2 = .ok z ∧ Graph.Ancestor (idomOn blocks d) z b1 ∧
      Graph.Ancestor (idomOn blocks d) z b2 ∧
      ∀ w, Graph.Ancestor (idomOn blocks d) w b1 → Graph.Ancestor (idomOn blocks d) w b2 →
        Graph.Ancestor (idomOn blocks d) w z := by
  induction fuel generalizing b1 b2 with
  | zero => omega
  | succ fuel ih =>
    by_cases he : b1 = b2
    · subst he
      exact ⟨b1, by simp [intersect]; rfl, .refl _ _, .refl _ _, fun w hw _ => hw⟩
    · obtain ⟨x, hx⟩ := Option.isSome_iff_exists.mp h1
      obtain ⟨y, hy⟩ := Option.isSome_iff_exists.mp h2
      have hne : d.postOrderId b1 ≠ d.postOrderId b2 := fun hp =>
        he (hn.injective b1 b2 (h.reaches b1 x hx) (h.reaches b2 y hy) hp)
      have hp1 := Approx.po_le hn h h1
      have hp2 := Approx.po_le hn h h2
      obtain ⟨z1, hz1, ha1, hw1, hle1, hlt1⟩ := climb_spec hn h h1 h2
        (show d.postOrderId entry - d.postOrderId b1 < bound by omega)
      have hs1 := h.ancestor_isSome ha1 h1
      obtain ⟨z2, hz2, ha2, hw2, hle2, hlt2⟩ := climb_spec hn h h2 hs1
        (show d.postOrderId entry - d.postOrderId b2 < bound by omega)
      have hs2 := h.ancestor_isSome ha2 h2
      have hpz1 := Approx.po_le hn h hs1
      have hpz2 := Approx.po_le hn h hs2
      have hsum : d.postOrderId b1 + d.postOrderId b2 < d.postOrderId z1 + d.postOrderId z2 := by
        by_cases hc : d.postOrderId b1 < d.postOrderId b2
        · have := hlt1 hc
          omega
        · have := hlt2 (by omega)
          omega
      obtain ⟨z, hz, hza, hzb, hw⟩ := ih hs1 hs2 (by omega)
      refine ⟨z, ?_, hza.trans ha1, hzb.trans ha2, fun w hwa hwb => ?_⟩
      · simp only [intersect, he, if_false, hz1]
        change climb d bound b2 z1 >>= intersect d bound fuel z1 = .ok z
        rw [hz2]
        exact hz
      · have h1 : Graph.Ancestor (idomOn blocks d) w z1 :=
          hw1 w hwa (h.ancestor_po hwb).1
        exact hw w h1 (hw2 w hwb (h.ancestor_po h1).1)

/-- The loop over the predecessors in `create_idom`. -/
theorem newIdom_fold {fuel : Nat} (pred : Nat) (hb : 2 * d.postOrderId entry < fuel) (ps : List Nat)
    (hps : ∀ p ∈ ps, p ∈ blocks) {new : Nat} (hnew : (idomOn blocks d new).isSome)
    (hpred : Graph.Ancestor (idomOn blocks d) new pred) :
    ∃ z, ps.foldlM (fun new p => if p = pred then pure new
        else if (d.idom p).isSome then intersect d fuel fuel p new else pure new) new = .ok z ∧
      Graph.Ancestor (idomOn blocks d) z new ∧
      (∀ p ∈ ps, (idomOn blocks d p).isSome → Graph.Ancestor (idomOn blocks d) z p) ∧
      ∀ w, Graph.Ancestor (idomOn blocks d) w new →
        (∀ p ∈ ps, (idomOn blocks d p).isSome → Graph.Ancestor (idomOn blocks d) w p) →
        Graph.Ancestor (idomOn blocks d) w z := by
  induction ps generalizing new with
  | nil => exact ⟨new, rfl, .refl _ _, by simp, fun w hw _ => hw⟩
  | cons p ps ih =>
    have hps' : ∀ q ∈ ps, q ∈ blocks := fun q hq => hps q (List.mem_cons_of_mem p hq)
    rw [List.foldlM_cons]
    have skip : (∀ z, Graph.Ancestor (idomOn blocks d) z new → (idomOn blocks d p).isSome →
        Graph.Ancestor (idomOn blocks d) z p) →
        ∃ z, ps.foldlM (fun new p => if p = pred then pure new
          else if (d.idom p).isSome then intersect d fuel fuel p new else pure new) new = .ok z ∧
        Graph.Ancestor (idomOn blocks d) z new ∧
        (∀ q ∈ p :: ps, (idomOn blocks d q).isSome → Graph.Ancestor (idomOn blocks d) z q) ∧
        ∀ w, Graph.Ancestor (idomOn blocks d) w new →
          (∀ q ∈ p :: ps, (idomOn blocks d q).isSome → Graph.Ancestor (idomOn blocks d) w q) →
          Graph.Ancestor (idomOn blocks d) w z := by
      intro hp
      obtain ⟨z, hz, hzn, hzp, hw⟩ := ih hps' hnew hpred
      refine ⟨z, hz, hzn, fun q hq hs => ?_, fun w hwn hwq => hw w hwn fun q hq =>
        hwq q (List.mem_cons_of_mem p hq)⟩
      rcases List.mem_cons.mp hq with rfl | hq
      · exact hp z hzn hs
      · exact hzp q hq hs
    by_cases hpp : p = pred
    · simp only [hpp, if_true]
      exact hpp ▸ skip (fun z hz _ => hpp ▸ hz.trans hpred)
    · by_cases hs : (d.idom p).isSome
      · have hs' : (idomOn blocks d p).isSome := by rwa [idomOn_eq (hps p List.mem_cons_self)]
        obtain ⟨y, hy, hyp, hyn, hyw⟩ := intersect_spec hn h hs' hnew
          (show d.postOrderId entry < fuel by omega)
          (show 2 * d.postOrderId entry - (d.postOrderId p + d.postOrderId new) < fuel by omega)
        obtain ⟨z, hz, hzy, hzp, hw⟩ := ih hps' (h.ancestor_isSome hyn hnew) (hyn.trans hpred)
        refine ⟨z, ?_, hzy.trans hyn, fun q hq hs => ?_, fun w hwn hwq => ?_⟩
        · simp only [hpp, hs, if_false, if_true, hy]
          exact hz
        · rcases List.mem_cons.mp hq with rfl | hq
          · exact hzy.trans hyp
          · exact hzp q hq hs
        · exact hw w (hyw w (hwq p List.mem_cons_self hs') hwn) fun q hq =>
            hwq q (List.mem_cons_of_mem p hq)
      · simp only [hpp, hs, if_false]
        refine skip fun z _ hs' => ?_
        rw [idomOn_eq (hps p List.mem_cons_self)] at hs'
        exact absurd hs' hs

/-- `new_idom` is the nearest common ancestor of the predecessors that have a pointer. -/
theorem newIdom_spec {fuel : Nat} (hcfg : Cfg m blocks entry)
    (hb : 2 * d.postOrderId entry < fuel) (hbb : b ∈ blocks)
    (hsome : ∃ p, Succ m p b ∧ (idomOn blocks d p).isSome) :
    ∃ z, newIdom m fuel d b = .ok z ∧ Graph.IsMeet (Succ m) (idomOn blocks d) b z := by
  have hpre : ∀ p ∈ (m.blocks b).preBbs, p ∈ blocks :=
    fun p hp => ((hcfg.pre b hbb p).mp hp).1
  have hmem : ∀ p, Succ m p b → (idomOn blocks d p).isSome → p ∈ (m.blocks b).preBbs :=
    fun p hp hs => (hcfg.pre b hbb p).mpr ⟨idomOn_isSome hs, hp⟩
  obtain ⟨p0, hp0, hs0⟩ := hsome
  cases hfind : (m.blocks b).preBbs.find? (fun p => (d.idom p).isSome) with
  | none =>
    have := List.find?_eq_none.mp hfind p0 (hmem p0 hp0 hs0)
    rw [idomOn_eq (idomOn_isSome hs0)] at hs0
    exact absurd hs0 this
  | some pred =>
    have hpm := List.mem_of_find?_eq_some hfind
    have hps : (idomOn blocks d pred).isSome := by
      rw [idomOn_eq (hpre pred hpm)]
      simpa using List.find?_some hfind
    obtain ⟨z, hz, hzp, hzq, hw⟩ := newIdom_fold hn h pred hb _ hpre hps (.refl _ _)
    refine ⟨z, by simp only [newIdom, hfind, hz], ⟨fun p hp hs => hzq p (hmem p hp hs) hs, ?_⟩⟩
    intro w hwp
    have hsucc : ∀ p ∈ (m.blocks b).preBbs, Succ m p b := fun p hp => ((hcfg.pre b hbb p).mp hp).2
    exact hw w (hwp pred (hsucc pred hpm) hps) fun q hq hs => hwp q (hsucc q hq) hs

end

/-- How often each block has been processed when `bbs` is left of a round. -/
def roundCnt (k : Nat) (bbs : List Nat) (v : Nat) : Nat := if v ∈ bbs then k else k + 1

/-- The iteration writes only the pointers of the blocks of the function. -/
structure IdomFrame (blocks : List Nat) (d d' : Dominators) : Prop where
  reversePostOrder : d'.reversePostOrder = d.reversePostOrder
  postOrderId : d'.postOrderId = d.postOrderId
  domFrontier : d'.domFrontier = d.domFrontier
  domTreeSuccBlocks : d'.domTreeSuccBlocks = d.domTreeSuccBlocks
  idom : ∀ v, v ∉ blocks → d'.idom v = d.idom v

theorem IdomFrame.refl (blocks : List Nat) (d : Dominators) : IdomFrame blocks d d :=
  ⟨rfl, rfl, rfl, rfl, fun _ _ => rfl⟩

theorem IdomFrame.trans {d' d'' : Dominators} (h : IdomFrame blocks d d')
    (h' : IdomFrame blocks d' d'') : IdomFrame blocks d d'' where
  reversePostOrder := h'.reversePostOrder.trans h.reversePostOrder
  postOrderId := h'.postOrderId.trans h.postOrderId
  domFrontier := h'.domFrontier.trans h.domFrontier
  domTreeSuccBlocks := h'.domTreeSuccBlocks.trans h.domTreeSuccBlocks
  idom v hv := (h'.idom v hv).trans (h.idom v hv)

theorem IdomFrame.setIdom (hb : b ∈ blocks) (x : Option Nat) :
    IdomFrame blocks d (d.setIdom b x) :=
  ⟨rfl, rfl, rfl, rfl, fun _ hv => Function.update_of_ne (ne_of_mem_of_not_mem hb hv).symm _ _⟩

theorem setIdom_self : d.setIdom b (d.idom b) = d := by
  simp [setIdom]

theorem roundAt {k : Nat} {bbs : List Nat} (hne : b ≠ entry)
    (hsorted : (b :: bbs).Pairwise (fun a c => d.postOrderId c < d.postOrderId a)) :
    Graph.RoundAt (Succ m) entry d.postOrderId (roundCnt k (b :: bbs)) k b where
  ne_root := hne
  count := by simp [roundCnt]
  le v _ := by
    unfold roundCnt
    split <;> omega
  forward p _ _ _ hp := by
    have hnot : p ∉ b :: bbs := by
      intro hmem
      rcases List.mem_cons.mp hmem with rfl | hmem
      · omega
      · have := (List.pairwise_cons.mp hsorted).1 p hmem
        omega
    simp [roundCnt, hnot]
  retreat p _ _ _ := by
    unfold roundCnt
    split <;> omega

theorem roundCnt_update {k : Nat} {bbs : List Nat} (hb : b ∉ bbs) :
    Function.update (roundCnt k (b :: bbs)) b (k + 1) = roundCnt k bbs := by
  funext v
  by_cases hv : v = b
  · subst hv
    simp [roundCnt, hb]
  · simp [roundCnt, hv]

/-- The counts of the entry block do not matter. -/
theorem Approx.congr {cnt' : Nat → Nat} (h : Approx m blocks entry d cnt)
    (hcnt : ∀ v, v ≠ entry → cnt' v = cnt v) : Approx m blocks entry d cnt' where
  root := h.root
  reaches := h.reaches
  parent := h.parent
  processed v hr hv := by rw [hcnt v hv, h.processed v hr hv]
  sound := h.sound
  bound v x k hv hk hx := by
    refine h.bound v x k hv ?_ hx
    by_cases he : v = entry
    · exact .inl he
    · rw [← hcnt v he]
      exact .inr (hk.resolve_left he)

/-- `K` retreating edges are enough for every path that avoids a block. -/
def EnoughRounds (m : Module) (blocks : List Nat) (entry : Nat) (d : Dominators) (K : Nat) :
    Prop :=
  ∀ x ∈ blocks, ∀ v ∈ blocks, Graph.Avoids (Succ m) entry x v →
    Graph.AvoidsWithin (Succ m) d.postOrderId entry x K v

theorem Approx.ancestor_iff {K : Nat} (h : Approx m blocks entry d cnt)
    (hK : EnoughRounds m blocks entry d K) (hcnt : ∀ v, v ≠ entry → K < cnt v) (x v : Nat)
    (hv : (idomOn blocks d v).isSome) :
    Graph.Ancestor (idomOn blocks d) x v ↔ Graph.Dominates (Succ m) entry x v :=
  Graph.IdomApprox.ancestor_iff h
    (fun x v hx hv => hK x (idomOn_isSome hx) v (idomOn_isSome hv)) (fun v hv _ => hcnt v hv) hv

/-- The next block of a round has a predecessor that has a pointer. -/
theorem Approx.exists_pred {k : Nat} {bbs : List Nat}
    (hn : Graph.Numbering (Succ m) entry d.postOrderId)
    (hsorted : (b :: bbs).Pairwise (fun a c => d.postOrderId c < d.postOrderId a))
    (hbr : Graph.Reaches (Succ m) entry b) (hbe : b ≠ entry)
    (h : Approx m blocks entry d (roundCnt k (b :: bbs))) :
    ∃ p, Succ m p b ∧ (idomOn blocks d p).isSome := by
  have hround := roundAt (m := m) (k := k) hbe hsorted
  obtain ⟨p, hpb, hp, hlt⟩ := hn.pred b hbr hbe
  refine ⟨p, hpb, ?_⟩
  by_cases hpe : p = entry
  · simp [hpe, h.root]
  · rw [h.processed p hp hpe, hround.forward p hpb hp hpe hlt]
    omega

/-- The body of the loop finds `new_idom`, and `set_idom` keeps the invariant. -/
theorem Approx.visit {fuel k : Nat} {bbs : List Nat} (hcfg : Cfg m blocks entry)
    (hb : 2 * d.postOrderId entry < fuel) (hn : Graph.Numbering (Succ m) entry d.postOrderId)
    (hsorted : (b :: bbs).Pairwise (fun a c => d.postOrderId c < d.postOrderId a))
    (hbr : Graph.Reaches (Succ m) entry b) (hbe : b ≠ entry)
    (h : Approx m blocks entry d (roundCnt k (b :: bbs))) :
    ∃ new, newIdom m fuel d b = .ok new ∧
      Approx m blocks entry (d.setIdom b (some new)) (roundCnt k bbs) := by
  have hbb := hcfg.reaches_mem hbr
  obtain ⟨new, hnew, hmeet⟩ := newIdom_spec hn h hcfg hb hbb (h.exists_pred hn hsorted hbr hbe)
  have hupd := Graph.IdomApprox.update h hn (roundAt (m := m) (k := k) hbe hsorted) hbr hmeet
  have hnot : b ∉ bbs := by
    intro hmem
    have := (List.pairwise_cons.mp hsorted).1 b hmem
    omega
  rw [← idomOn_setIdom hbb, roundCnt_update hnot] at hupd
  exact ⟨new, hnew, hupd⟩

/-- One round; when every chain is exact before it, it changes nothing. -/
theorem idomRound_spec {fuel k K : Nat} (changed : Bool) (hcfg : Cfg m blocks entry)
    (hb : 2 * d.postOrderId entry < fuel) (hK : EnoughRounds m blocks entry d K)
    (hn : Graph.Numbering (Succ m) entry d.postOrderId) (bbs : List Nat)
    (hsorted : bbs.Pairwise (fun a c => d.postOrderId c < d.postOrderId a))
    (hreach : ∀ b ∈ bbs, Graph.Reaches (Succ m) entry b)
    (h : Approx m blocks entry d (roundCnt k bbs)) :
    ∃ d' changed', idomRound m entry fuel bbs (d, changed) = .ok (d', changed') ∧
      Approx m blocks entry d' (fun _ => k + 1) ∧ IdomFrame blocks d d' ∧
      (changed' = false → d' = d ∧ changed = false) ∧ (K < k → changed' = changed) := by
  induction bbs generalizing d changed with
  | nil => exact ⟨d, changed, rfl, h.congr (by simp [roundCnt]), .refl _ _, fun hc => ⟨rfl, hc⟩,
      fun _ => rfl⟩
  | cons b bbs ih =>
    have hsorted' := (List.pairwise_cons.mp hsorted).2
    have hreach' : ∀ c ∈ bbs, Graph.Reaches (Succ m) entry c :=
      fun c hc => hreach c (List.mem_cons_of_mem b hc)
    by_cases hbe : b = entry
    · obtain ⟨d', changed', hrun, h'⟩ := ih changed hb hK hn hsorted' hreach'
        (h.congr fun v hv => by simp [roundCnt, hbe, hv])
      exact ⟨d', changed', by simp only [idomRound, hbe, if_true, hrun], h'⟩
    · have hbr := hreach b List.mem_cons_self
      have hbb := hcfg.reaches_mem hbr
      obtain ⟨new, hnew, hupd⟩ := Approx.visit hcfg hb hn hsorted hbr hbe h
      have hstep : ∀ c, idomRound m entry fuel bbs (d.setIdom b (some new), c) =
          if d.idom b ≠ some new then idomRound m entry fuel bbs (d.setIdom b (some new), c)
          else idomRound m entry fuel bbs (d, c) := by
        intro c
        split
        · rfl
        · rename_i he
          rw [not_not] at he
          rw [← he, setIdom_self]
      obtain ⟨d', changed', hrun, happ, hframe, hfalse, hstable⟩ := ih
        (d := d.setIdom b (some new)) (if d.idom b ≠ some new then true else changed) hb hK hn hsorted' hreach' hupd
      refine ⟨d', changed', ?_, happ, (IdomFrame.setIdom hbb _).trans hframe, ?_, ?_⟩
      · simp only [idomRound, hbe, if_false, hnew]
        rw [← hrun, hstep]
        change (if _ then _ else _) = _
        split <;> simp_all
      · intro hc
        obtain ⟨hd, hch⟩ := hfalse hc
        split at hch
        · cases hch
        · rename_i he
          rw [not_not] at he
          rw [← he, setIdom_self] at hd
          exact ⟨hd, hch⟩
      · intro hkK
        rw [hstable hkK, if_neg]
        -- Both pointers are the immediate dominator, since the chains are exact.
        have hle : ∀ bs v, K < roundCnt k bs v := by
          intro bs v
          unfold roundCnt
          split <;> omega
        have hbs : (idomOn blocks d b).isSome := by
          rw [h.processed b hbr hbe]
          exact lt_of_le_of_lt (Nat.zero_le K) (hle _ b)
        obtain ⟨c, hc⟩ := Option.isSome_iff_exists.mp hbs
        have h1 := Graph.IdomApprox.isIdom h (h.ancestor_iff hK fun v _ => hle _ v) hc hbe
        have h2 := Graph.IdomApprox.isIdom hupd
          (Approx.ancestor_iff (d := d.setIdom b (some new)) hupd hK fun v _ => hle _ v)
          (by rw [idomOn_setIdom hbb, Function.update_self]) hbe
        rw [← idomOn_eq hbb, hc, not_not, h1.unique hbr h2]

theorem Approx.roundCnt {k : Nat} (h : Approx m blocks entry d (fun _ => k))
    (hord : IsReversePostOrder m entry d) :
    Approx m blocks entry d (roundCnt k d.reversePostOrder) where
  root := h.root
  reaches := h.reaches
  parent := h.parent
  processed v hr hv := by
    rw [h.processed v hr hv, Dominators.roundCnt, if_pos ((hord.mem v).mpr hr)]
  sound := h.sound
  bound v x j hv hj hx := by
    obtain ⟨c, hc⟩ := Option.isSome_iff_exists.mp hv
    rw [Dominators.roundCnt, if_pos ((hord.mem v).mpr (h.reaches v c hc))] at hj
    exact h.bound v x j hv hj hx

/-- A round that changes nothing can be repeated. -/
theorem Approx.repeat {fuel k K : Nat} (hcfg : Cfg m blocks entry)
    (hord : IsReversePostOrder m entry d) (hb : 2 * d.postOrderId entry < fuel)
    (hK : EnoughRounds m blocks entry d K) (h : Approx m blocks entry d (fun _ => k))
    (hrun : idomRound m entry fuel d.reversePostOrder (d, false) = .ok (d, false)) (j : Nat) :
    Approx m blocks entry d (fun _ => k + j) := by
  induction j with
  | zero => exact h
  | succ j ih =>
    obtain ⟨d', changed', hrun', happ, _⟩ := idomRound_spec false hcfg hb hK
      hord.numbering _ hord.sorted (fun b hb => (hord.mem b).mp hb) (ih.roundCnt hord)
    rw [hrun] at hrun'
    cases hrun'
    exact happ

theorem IsReversePostOrder.frame {d' : Dominators} (h : IsReversePostOrder m entry d)
    (hf : IdomFrame blocks d d') : IsReversePostOrder m entry d' := by
  obtain ⟨h1, h2, h3, h4⟩ := h
  constructor <;> simpa only [hf.reversePostOrder, hf.postOrderId]

theorem idomLoop_spec {k K : Nat} (bound fuel : Nat) (hcfg : Cfg m blocks entry)
    (hord : IsReversePostOrder m entry d) (hb : 2 * d.postOrderId entry < bound)
    (hK : EnoughRounds m blocks entry d K) (h : Approx m blocks entry d (fun _ => k))
    (hf : 0 < fuel ∧ K + 2 ≤ k + fuel) :
    ∃ d', idomLoop m entry bound fuel d = .ok d' ∧ IdomFrame blocks d d' ∧
      ∃ k, K < k ∧ Approx m blocks entry d' (fun _ => k) := by
  induction fuel generalizing d k with
  | zero => omega
  | succ fuel ih =>
    obtain ⟨d', changed', hrun, happ, hframe, hfalse, hstable⟩ := idomRound_spec
      false hcfg hb hK hord.numbering _ hord.sorted (fun b hb => (hord.mem b).mp hb)
      (h.roundCnt hord)
    cases changed' with
    | false =>
      obtain ⟨rfl, _⟩ := hfalse rfl
      refine ⟨d', by rw [idomLoop, hrun]; rfl, hframe, k + (K + 1), by omega, ?_⟩
      exact Approx.repeat hcfg hord hb hK h hrun (K + 1)
    | true =>
      have hk : ¬ K < k := fun hk => by cases hstable hk
      obtain ⟨d'', hrun', hframe', hex⟩ := ih (hord.frame hframe)
        (by rw [hframe.postOrderId]; exact hb)
        (by unfold EnoughRounds; rw [hframe.postOrderId]; exact hK) happ (by omega)
      exact ⟨d'', by rw [idomLoop, hrun]; exact hrun', hframe.trans hframe', hex⟩

/-- The pointers of the blocks of a function point to the immediate dominators. -/
structure HasIdoms (m : Module) (blocks : List Nat) (entry : Nat) (d : Dominators) : Prop where
  root : d.idom entry = some entry
  isSome : ∀ v ∈ blocks, ((d.idom v).isSome ↔ Graph.Reaches (Succ m) entry v)
  isIdom : ∀ v ∈ blocks, v ≠ entry → ∀ c, d.idom v = some c → Graph.IsIdom (Succ m) entry c v
  ancestor : ∀ v, Graph.Reaches (Succ m) entry v → ∀ x,
    (Graph.Ancestor d.idom x v ↔ Graph.Dominates (Succ m) entry x v)

/-- The chain of a block of the function stays in the function. -/
theorem Approx.ancestor_idom (h : Approx m blocks entry d cnt) {x v : Nat}
    (hv : (idomOn blocks d v).isSome) :
    Graph.Ancestor d.idom x v ↔ Graph.Ancestor (idomOn blocks d) x v := by
  constructor
  · intro hx
    induction hx using Relation.ReflTransGen.head_induction_on with
    | refl => exact .refl _ _
    | head hac _ ih =>
      rw [← idomOn_eq (idomOn_isSome hv)] at hac
      exact (ih (h.ancestor_isSome (.of_idom hac) hv)).trans (.of_idom hac)
  · intro hx
    induction hx using Relation.ReflTransGen.head_induction_on with
    | refl => exact .refl _ _
    | head hac _ ih =>
      have hc := h.ancestor_isSome (.of_idom hac) hv
      rw [idomOn_eq (idomOn_isSome hv)] at hac
      exact (ih hc).trans (.of_idom hac)

theorem Approx.hasIdoms {k K : Nat} (hcfg : Cfg m blocks entry)
    (h : Approx m blocks entry d (fun _ => k)) (hK : EnoughRounds m blocks entry d K)
    (hk : K < k) : HasIdoms m blocks entry d := by
  have hexact := h.ancestor_iff hK fun _ _ => hk
  have hreach : ∀ v, Graph.Reaches (Succ m) entry v → (idomOn blocks d v).isSome := by
    intro v hv
    by_cases he : v = entry
    · simp [he, h.root]
    · rw [h.processed v hv he]
      omega
  refine ⟨?_, fun v hv => ?_, fun v hv hne c hc => ?_, fun v hv x =>
    (h.ancestor_idom (hreach v hv)).trans (hexact x v (hreach v hv))⟩
  · rw [← idomOn_eq hcfg.entry_mem, h.root]
  · rw [← idomOn_eq hv]
    refine ⟨fun hs => ?_, hreach v⟩
    obtain ⟨c, hc⟩ := Option.isSome_iff_exists.mp hs
    exact h.reaches v c hc
  · exact Graph.IdomApprox.isIdom h hexact (by rw [idomOn_eq hv, hc]) hne

theorem foldl_setIdom (bs : List Nat) (d : Dominators) :
    IdomFrame bs d (bs.foldl (fun d bb => d.setIdom bb none) d) ∧
      ∀ v ∈ bs, (bs.foldl (fun d bb => d.setIdom bb none) d).idom v = none := by
  induction bs generalizing d with
  | nil => exact ⟨.refl _ _, by simp⟩
  | cons b bs ih =>
    obtain ⟨hframe, hnone⟩ := ih (d.setIdom b none)
    rw [List.foldl_cons]
    refine ⟨⟨hframe.1, hframe.2, hframe.3, hframe.4, fun v hv => ?_⟩, fun v hv => ?_⟩
    · simp only [List.mem_cons, not_or] at hv
      rw [hframe.idom v hv.2]
      exact Function.update_of_ne hv.1 _ _
    · by_cases hvb : v ∈ bs
      · exact hnone v hvb
      · rw [hframe.idom v hvb, (List.mem_cons.mp hv).resolve_right hvb]
        exact Function.update_self _ _ _

/-- The initialization of `create_idom`. -/
theorem Approx.initial (hcfg : Cfg m blocks entry) (d : Dominators) :
    IdomFrame blocks d
        ((blocks.foldl (fun d bb => d.setIdom bb none) d).setIdom entry (some entry)) ∧
      Approx m blocks entry
        ((blocks.foldl (fun d bb => d.setIdom bb none) d).setIdom entry (some entry)) (fun _ => 0) := by
  obtain ⟨hframe, hnone⟩ := foldl_setIdom blocks d
  refine ⟨hframe.trans (IdomFrame.setIdom hcfg.entry_mem (some entry)), ?_⟩
  have hidom : idomOn blocks ((blocks.foldl (fun d bb => d.setIdom bb none) d).setIdom entry
      (some entry)) = Function.update (fun _ => none) entry (some entry) := by
    rw [idomOn_setIdom hcfg.entry_mem]
    congr 1
    funext v
    by_cases hv : v ∈ blocks
    · rw [idomOn_eq hv, hnone v hv]
    · simp [idomOn, hv]
  unfold Approx
  rw [hidom]
  exact Graph.IdomApprox.initial _ _ _

/-- `create_idom` terminates with the immediate dominators. -/
theorem createIdom_spec (hcfg : Cfg m blocks entry) (hord : IsReversePostOrder m entry d) :
    ∃ fuel d', createIdom m blocks entry fuel d = .ok d' ∧ IdomFrame blocks d d' ∧
      HasIdoms m blocks entry d' := by
  obtain ⟨K, hK⟩ := Graph.exists_within_bound (Succ m) d.postOrderId entry blocks
  obtain ⟨hframe', happ⟩ := Approx.initial hcfg d
  obtain ⟨d', hrun, hframe'', k, hk, h'⟩ := idomLoop_spec
    (2 * d.postOrderId entry + K + 2) (2 * d.postOrderId entry + K + 2) hcfg (hord.frame hframe')
    (by rw [hframe'.postOrderId]; omega)
    (by unfold EnoughRounds; rw [hframe'.postOrderId]; exact hK) happ (by omega)
  refine ⟨2 * d.postOrderId entry + K + 2, d', hrun, hframe'.trans hframe'', h'.hasIdoms hcfg ?_ hk⟩
  unfold EnoughRounds
  rw [(hframe'.trans hframe'').postOrderId]
  exact hK

end Dominators

end Cminusf
