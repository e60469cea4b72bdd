import Cminusf.Optimization.Idom

/-! `create_dominance_frontier` and `create_dom_tree_succ`. The runner of a predecessor
that the entry does not reach steps onto `nullptr` and never stops when the block has an
immediate dominator. -/

namespace Cminusf

namespace Dominators

variable {m : Module} {addr : Nat → Nat} {blocks : List Nat} {entry bb p x y : Nat}
  {d d' d'' : Dominators}

/-- No edge of the function leads from an unreachable block to a reachable one. -/
def NoDeadEdge (m : Module) (blocks : List Nat) (entry : Nat) : Prop :=
  ∀ p ∈ blocks, ∀ b, Succ m p b → Graph.Reaches (Succ m) entry b →
    Graph.Reaches (Succ m) entry p

/-- A part of `create_dominance_frontier` that adds the pairs `A` to the frontiers. -/
structure AddsFrontier (addr : Nat → Nat) (A : Nat → Nat → Prop) (d d' : Dominators) : Prop where
  reversePostOrder : d'.reversePostOrder = d.reversePostOrder
  postOrderId : d'.postOrderId = d.postOrderId
  idom : d'.idom = d.idom
  domTreeSuccBlocks : d'.domTreeSuccBlocks = d.domTreeSuccBlocks
  none : d'.domFrontier none = d.domFrontier none
  mem : ∀ x y, y ∈ d'.domFrontier (some x) ↔ y ∈ d.domFrontier (some x) ∨ A x y
  frame : ∀ x, (∀ y, ¬ A x y) → d'.domFrontier (some x) = d.domFrontier (some x)
  sorted : ∀ k, (d.domFrontier k).Pairwise (addr · < addr ·) →
    (d'.domFrontier k).Pairwise (addr · < addr ·)

theorem AddsFrontier.refl (addr : Nat → Nat) (d : Dominators) :
    AddsFrontier addr (fun _ _ => False) d d := by
  constructor <;> simp

theorem AddsFrontier.trans {A B : Nat → Nat → Prop} (h : AddsFrontier addr A d d')
    (h' : AddsFrontier addr B d' d'') :
    AddsFrontier addr (fun x y => A x y ∨ B x y) d d'' where
  reversePostOrder := h'.reversePostOrder.trans h.reversePostOrder
  postOrderId := h'.postOrderId.trans h.postOrderId
  idom := h'.idom.trans h.idom
  domTreeSuccBlocks := h'.domTreeSuccBlocks.trans h.domTreeSuccBlocks
  none := h'.none.trans h.none
  mem x y := by rw [h'.mem, h.mem, or_assoc]
  frame x hx := by
    simp only [not_or] at hx
    rw [h'.frame x fun y => (hx y).2, h.frame x fun y => (hx y).1]
  sorted k hk := h'.sorted k (h.sorted k hk)

theorem AddsFrontier.congr {A B : Nat → Nat → Prop} (h : AddsFrontier addr A d d')
    (hAB : ∀ x y, A x y ↔ B x y) : AddsFrontier addr B d d' := by
  have : A = B := by
    funext x y
    exact propext (hAB x y)
  exact this ▸ h

theorem addDominanceFrontier_adds (haddr : Function.Injective addr) :
    AddsFrontier addr (fun x' y' => x' = x ∧ y' = y) d (d.addDominanceFrontier addr (some x) y) := by
  refine ⟨rfl, rfl, rfl, rfl, ?_, fun x' y' => ?_, fun x' hx => ?_, fun k hk => ?_⟩
  · simp [addDominanceFrontier]
  · by_cases hx : x' = x
    · subst hx
      simp only [addDominanceFrontier, Function.update_self, mem_ptrInsert haddr, true_and]
      tauto
    · simp [addDominanceFrontier, hx]
  · have hne : x' ≠ x := fun he => hx y ⟨he, rfl⟩
    simp [addDominanceFrontier, hne]
  · by_cases hkx : k = some x
    · subst hkx
      simp only [addDominanceFrontier, Function.update_self]
      exact ptrInsert_sorted hk
    · simpa only [addDominanceFrontier, Function.update_of_ne hkx] using hk

/-- The blocks on the pointer chain of `p` strictly below `c`. -/
def Below (idom : Nat → Option Nat) (c p x : Nat) : Prop :=
  Graph.Ancestor idom x p ∧ Graph.Ancestor idom c x ∧ x ≠ c

theorem runUp_spec (haddr : Function.Injective addr) {idom : Nat → Option Nat} {c : Nat}
    (hidom : d.idom = idom) (hc : idom bb = some c)
    (hanti : ∀ x, Graph.Ancestor idom x c → Graph.Ancestor idom c x → x = c)
    (hp : Graph.Ancestor idom c p) :
    ∃ fuel d', runUp addr bb fuel (some p) d = .ok d' ∧
      AddsFrontier addr (fun x y => Below idom c p x ∧ y = bb) d d' := by
  induction hp using Relation.ReflTransGen.head_induction_on generalizing d with
  | refl =>
    refine ⟨1, d, by simp [runUp, hidom, hc]; rfl, (AddsFrontier.refl addr d).congr fun x y => ?_⟩
    simp only [false_iff]
    rintro ⟨⟨h1, h2, h3⟩, -⟩
    exact h3 (hanti x h1 h2)
  | @head a b hab hbc ih =>
    by_cases hac : a = c
    · refine ⟨1, d, by simp [runUp, hidom, hc, hac]; rfl, (AddsFrontier.refl addr d).congr fun x y => ?_⟩
      simp only [false_iff]
      rintro ⟨⟨h1, h2, h3⟩, -⟩
      exact h3 (hanti x (hac ▸ h1) h2)
    · have hadd := addDominanceFrontier_adds (d := d) (x := a) (y := bb) haddr
      obtain ⟨fuel, d', hrun, hadd'⟩ := ih (d := d.addDominanceFrontier addr (some a) bb) hidom
      refine ⟨fuel + 1, d', ?_, (hadd.trans hadd').congr fun x y => ?_⟩
      · have hne : some a ≠ d.idom bb := by
          rw [hidom, hc]
          exact fun he => hac (Option.some.inj he)
        rw [runUp, if_pos hne]
        simpa only [getIdom, hidom, hab] using hrun
      · constructor
        · rintro (⟨rfl, rfl⟩ | ⟨⟨h1, h2⟩, rfl⟩)
          · exact ⟨⟨.refl _ _, .head hab hbc, hac⟩, rfl⟩
          · exact ⟨⟨h1.trans (.of_idom hab), h2⟩, rfl⟩
        · rintro ⟨⟨h1, h2⟩, rfl⟩
          by_cases hxa : x = a
          · exact .inl ⟨hxa, rfl⟩
          · obtain ⟨b', hb', hx⟩ := h1.parent hxa
            rw [hab] at hb'
            cases hb'
            exact .inr ⟨⟨hx, h2⟩, rfl⟩

/-- The blocks that get `bb` into their frontier while its predecessor `p` is handled. -/
def RunnerAt (m : Module) (entry bb p x : Nat) : Prop :=
  (Graph.Reaches (Succ m) entry bb → Graph.Dominates (Succ m) entry x p ∧
      ¬ Graph.StrictlyDominates (Succ m) entry x bb) ∧
    (¬ Graph.Reaches (Succ m) entry bb → x = p)

theorem below_iff (h : HasIdoms m blocks entry d) {c : Nat} (hbb : Graph.IsIdom (Succ m) entry c bb)
    (hp : Graph.Reaches (Succ m) entry p) (hpb : Succ m p bb) :
    Below d.idom c p x ↔ Graph.Dominates (Succ m) entry x p ∧
      ¬ Graph.StrictlyDominates (Succ m) entry x bb := by
  have hb : Graph.Reaches (Succ m) entry bb := hp.tail hpb
  have hcp : Graph.Dominates (Succ m) entry c p := hbb.1.dominates_pred hpb
  have hc := hcp.reaches hp
  constructor
  · rintro ⟨hxp, hcx, hne⟩
    have hxp' := (h.ancestor p hp x).mp hxp
    have hcx' := (h.ancestor x (hxp'.reaches hp) c).mp hcx
    exact ⟨hxp', fun hs => hne (Graph.Dominates.antisymm (hxp'.reaches hp) (hbb.2 x hs) hcx')⟩
  · rintro ⟨hxp, hns⟩
    have hcx : Graph.Dominates (Succ m) entry c x := by
      rcases hxp.total hp hcp with hxc | hcx
      · exact absurd (hxc.trans_strictlyDominates hb hbb.1) hns
      · exact hcx
    refine ⟨(h.ancestor p hp x).mpr hxp, (h.ancestor x (hxp.reaches hp) c).mpr hcx, ?_⟩
    rintro rfl
    exact hns hbb.1

/-- The runner of one predecessor. -/
theorem runUp_pred (haddr : Function.Injective addr) (hcfg : FunctionCfg m blocks entry)
    (hdead : NoDeadEdge m blocks entry) (h : HasIdoms m blocks entry d) (hbb : bb ∈ blocks)
    (hp : p ∈ (m.blocks bb).preBbs) :
    ∃ fuel d', runUp addr bb fuel (some p) d = .ok d' ∧
      AddsFrontier addr (fun x y => RunnerAt m entry bb p x ∧ y = bb) d d' := by
  obtain ⟨hpb, hsucc⟩ := (hcfg.pre bb hbb p).mp hp
  by_cases hr : Graph.Reaches (Succ m) entry bb
  · have hpr := hdead p hpb bb hsucc hr
    have hne : bb ≠ entry := by
      rintro rfl
      rw [hcfg.entry_pre] at hp
      cases hp
    obtain ⟨c, hc⟩ := Option.isSome_iff_exists.mp ((h.isSome bb hbb).mpr hr)
    have hidom := h.isIdom bb hbb hne c hc
    have hcp := hidom.1.dominates_pred hsucc
    have hcr := hcp.reaches hpr
    have hanti : ∀ x, Graph.Ancestor d.idom x c → Graph.Ancestor d.idom c x → x = c := by
      intro x hxc hcx
      have hxc' := (h.ancestor c hcr x).mp hxc
      exact Graph.Dominates.antisymm (hxc'.reaches hcr) hxc'
        ((h.ancestor x (hxc'.reaches hcr) c).mp hcx)
    obtain ⟨fuel, d', hrun, hadd⟩ := runUp_spec haddr rfl hc hanti ((h.ancestor p hpr c).mpr hcp)
    refine ⟨fuel, d', hrun, hadd.congr fun x y => ?_⟩
    rw [below_iff h hidom hpr hsucc]
    simp [RunnerAt, hr]
  · have hpr : ¬ Graph.Reaches (Succ m) entry p := fun hpr => hr (hpr.tail hsucc)
    have hnone : ∀ v ∈ blocks, ¬ Graph.Reaches (Succ m) entry v → d.idom v = none := by
      intro v hv hnr
      rw [← h.isSome v hv, Option.not_isSome_iff_eq_none] at hnr
      exact hnr
    refine ⟨2, d.addDominanceFrontier addr (some p) bb, ?_,
      (addDominanceFrontier_adds haddr).congr fun x y => ?_⟩
    · simp [runUp, getIdom, addDominanceFrontier, hnone bb hbb hr, hnone p hpb hpr]
      rfl
    · simp [RunnerAt, hr]

theorem HasIdoms.congr (h : HasIdoms m blocks entry d) (he : d'.idom = d.idom) :
    HasIdoms m blocks entry d' := by
  obtain ⟨h1, h2, h3, h4⟩ := h
  constructor <;> simpa only [he]

/-- A loop of the pass whose passes all add to the frontiers. -/
theorem foldlM_adds (addr : Nat → Nat) (h : HasIdoms m blocks entry d) {f : Nat → Dominators → Nat → Exec Dominators}
    {A : Nat → Nat → Nat → Prop} (bs : List Nat)
    (hmono : ∀ n n', n ≤ n' → ∀ d b, Exec.Le (f n d b) (f n' d b))
    (hstep : ∀ b ∈ bs, ∀ d, HasIdoms m blocks entry d → ∃ fuel d', f fuel d b = .ok d' ∧
      AddsFrontier addr (A b) d d') :
    ∃ fuel d', bs.foldlM (f fuel) d = .ok d' ∧
      AddsFrontier addr (fun x y => ∃ b ∈ bs, A b x y) d d' := by
  induction bs generalizing d with
  | nil => exact ⟨0, d, rfl, (AddsFrontier.refl addr d).congr (by simp)⟩
  | cons b bs ih =>
    obtain ⟨n, d', hrun, hadd⟩ := hstep b List.mem_cons_self d h
    obtain ⟨n', d'', hrun', hadd'⟩ := ih (h.congr hadd.idom)
      fun c hc => hstep c (List.mem_cons_of_mem b hc)
    refine ⟨max n n', d'', ?_, (hadd.trans hadd').congr fun x y => ?_⟩
    · have h2 := Exec.Le.foldlM (hmono n' (max n n') (le_max_right n n')) bs d'
      rw [List.foldlM_cons, (hmono n (max n n') (le_max_left n n') d b).eq_ok hrun]
      exact h2.eq_ok hrun'
    · simp

theorem createDominanceFrontier_spec (haddr : Function.Injective addr)
    (hcfg : FunctionCfg m blocks entry) (hdead : NoDeadEdge m blocks entry)
    (h : HasIdoms m blocks entry d) :
    ∃ fuel d', createDominanceFrontier m addr blocks fuel d = .ok d' ∧
      AddsFrontier addr (fun x y => y ∈ blocks ∧ 2 ≤ (m.blocks y).preBbs.length ∧
        ∃ p ∈ (m.blocks y).preBbs, RunnerAt m entry y p x) d d' := by
  obtain ⟨fuel, d', hrun, hadd⟩ := foldlM_adds addr h
    (f := fun n d bb => if 2 ≤ (m.blocks bb).preBbs.length then
      (m.blocks bb).preBbs.foldlM (fun d p => runUp addr bb n (some p) d) d else pure d)
    (A := fun bb x y => y = bb ∧ 2 ≤ (m.blocks bb).preBbs.length ∧
      ∃ p ∈ (m.blocks bb).preBbs, RunnerAt m entry bb p x)
    blocks
    (fun n n' hn d bb => by
      split
      · exact Exec.Le.foldlM (fun d p => runUp_mono hn bb (some p) d) _ _
      · exact .refl _)
    (fun bb hbb d h => by
      by_cases hlen : 2 ≤ (m.blocks bb).preBbs.length
      · obtain ⟨fuel, d', hrun, hadd⟩ := foldlM_adds addr h
          (f := fun n d p => runUp addr bb n (some p) d)
          (A := fun p x y => RunnerAt m entry bb p x ∧ y = bb) (m.blocks bb).preBbs
          (fun n n' hn d p => runUp_mono hn bb (some p) d)
          (fun p hp d h => runUp_pred haddr hcfg hdead h hbb hp)
        refine ⟨fuel, d', by simpa only [hlen, if_true] using hrun, hadd.congr fun x y => ?_⟩
        simp only [hlen, true_and]
        constructor
        · rintro ⟨p, hp, hx, rfl⟩
          exact ⟨rfl, p, hp, hx⟩
        · rintro ⟨rfl, p, hp, hx⟩
          exact ⟨p, hp, hx, rfl⟩
      · refine ⟨0, d, by simp only [hlen, if_false]; rfl,
          (AddsFrontier.refl addr d).congr fun x y => ?_⟩
        simp [hlen])
  refine ⟨fuel, d', hrun, hadd.congr fun x y => ?_⟩
  constructor
  · rintro ⟨b, hb, rfl, h⟩
    exact ⟨hb, h⟩
  · rintro ⟨hb, h⟩
    exact ⟨y, hb, rfl, h⟩

/-- A block with one predecessor is in no frontier. -/
theorem two_le_preBbs (hcfg : FunctionCfg m blocks entry)
    (hxy : Graph.Frontier (Succ m) entry x y) : 2 ≤ (m.blocks y).preBbs.length := by
  obtain ⟨⟨p, hpy, hp, hxp⟩, hns⟩ := hxy
  have hy := hcfg.reaches_mem (hp.tail hpy)
  have hpm := (hcfg.pre y hy p).mpr ⟨hcfg.reaches_mem hp, hpy⟩
  have hne : y ≠ entry := by
    rintro rfl
    rw [hcfg.entry_pre] at hpm
    cases hpm
  by_contra hlen
  have honly : ∀ u, Succ m u y → Graph.Reaches (Succ m) entry u → u = p := by
    intro u huy hu
    have hum := (hcfg.pre y hy u).mpr ⟨hcfg.reaches_mem hu, huy⟩
    obtain ⟨q, hq⟩ : ∃ q, (m.blocks y).preBbs = [q] := by
      rw [← List.length_eq_one_iff]
      have := List.length_pos_of_mem hpm
      omega
    rw [hq, List.mem_singleton] at hpm hum
    rw [hum, hpm]
  have hxy : Graph.Dominates (Succ m) entry x y :=
    Graph.dominates_of_preds hne fun u huy hu => honly u huy hu ▸ hxp
  have he : x = y := by
    by_contra he
    exact hns ⟨hxy, he⟩
  subst he
  have havoid : ∀ v, Graph.Reaches (Succ m) entry v → Graph.Avoids (Succ m) entry x v := by
    intro v hv
    induction hv with
    | refl => exact .root (Ne.symm hne)
    | @tail u v hu huv ih =>
      refine .step ih huv ?_
      rintro rfl
      exact hxp (honly u huv hu ▸ ih)
  exact hxp (havoid p hp)

theorem frontier_iff (hcfg : FunctionCfg m blocks entry) (hdead : NoDeadEdge m blocks entry)
    (hx : Graph.Reaches (Succ m) entry x) :
    (y ∈ blocks ∧ 2 ≤ (m.blocks y).preBbs.length ∧
        ∃ p ∈ (m.blocks y).preBbs, RunnerAt m entry y p x) ↔
      Graph.Frontier (Succ m) entry x y := by
  constructor
  · rintro ⟨hy, -, p, hp, hr, hnr⟩
    obtain ⟨hpb, hpy⟩ := (hcfg.pre y hy p).mp hp
    by_cases hyr : Graph.Reaches (Succ m) entry y
    · exact ⟨⟨p, hpy, hdead p hpb y hpy hyr, (hr hyr).1⟩, (hr hyr).2⟩
    · exact absurd (hx.tail (hnr hyr ▸ hpy)) hyr
  · intro hf
    obtain ⟨⟨p, hpy, hp, hxp⟩, hns⟩ := id hf
    have hyr := hp.tail hpy
    have hy := hcfg.reaches_mem hyr
    refine ⟨hy, two_le_preBbs hcfg hf, p, (hcfg.pre y hy p).mpr ⟨hcfg.reaches_mem hp, hpy⟩, ?_⟩
    exact ⟨fun _ => ⟨hxp, hns⟩, fun h => absurd hyr h⟩

theorem runUp_none {c : Nat} (hc : d.idom bb = some c) (fuel : Nat) :
    runUp addr bb fuel none d = .error .outOfFuel := by
  induction fuel generalizing d with
  | zero => rfl
  | succ fuel ih =>
    have hne : none ≠ d.idom bb := by simp [hc]
    rw [runUp, if_pos hne]
    exact ih hc

theorem runUp_noFault (bb fuel : Nat) (r : Option Nat) (d : Dominators) :
    Exec.NoFault (runUp addr bb fuel r d) := by
  induction fuel generalizing r d with
  | zero => exact .outOfFuel
  | succ fuel ih =>
    simp only [runUp]
    split
    · exact ih _ _
    · exact .ok d

theorem runUp_idom {bb fuel : Nat} {r : Option Nat} (h : runUp addr bb fuel r d = .ok d') :
    d'.idom = d.idom := by
  induction fuel generalizing r d with
  | zero => cases h
  | succ fuel ih =>
    simp only [runUp] at h
    split at h
    · exact (ih h).trans rfl
    · cases h
      rfl

theorem createDominanceFrontier_noFault (blocks : List Nat) (fuel : Nat) (d : Dominators) :
    Exec.NoFault (createDominanceFrontier m addr blocks fuel d) := by
  refine Exec.NoFault.foldlM (fun d bb _ => ?_) d
  split
  · exact Exec.NoFault.foldlM (fun d p _ => runUp_noFault bb fuel _ d) d
  · exact .ok d

/-- A predecessor out of reach of the entry keeps the pass running. -/
theorem noDeadEdge_of_ok {fuel : Nat} (hcfg : FunctionCfg m blocks entry)
    (h : HasIdoms m blocks entry d)
    (hrun : createDominanceFrontier m addr blocks fuel d = .ok d') :
    NoDeadEdge m blocks entry := by
  intro p hp b hpb hb
  by_contra hpr
  have hbb := hcfg.reaches_mem hb
  have hpm := (hcfg.pre b hbb p).mpr ⟨hp, hpb⟩
  have hne : b ≠ entry := by
    rintro rfl
    rw [hcfg.entry_pre] at hpm
    cases hpm
  have hlen : 2 ≤ (m.blocks b).preBbs.length := by
    obtain ⟨q, hq, hqb⟩ := (Relation.ReflTransGen.cases_tail hb).resolve_left hne
    have hqm := (hcfg.pre b hbb q).mpr ⟨hcfg.reaches_mem hq, hqb⟩
    by_contra hlt
    obtain ⟨x, hx⟩ : ∃ x, (m.blocks b).preBbs = [x] := by
      rw [← List.length_eq_one_iff]
      have := List.length_pos_of_mem hpm
      omega
    rw [hx, List.mem_singleton] at hpm hqm
    exact hpr (hpm ▸ hqm ▸ hq)
  have hpreds : ∀ bb (xs : List Nat) (s s' : Dominators),
      xs.foldlM (fun d p => runUp addr bb fuel (some p) d) s = .ok s' → s.idom = d.idom →
      s'.idom = d.idom ∧ ∀ x ∈ xs, ∃ t t', t.idom = d.idom ∧
        runUp addr bb fuel (some x) t = .ok t' := by
    intro bb xs s s' hs hi
    exact Exec.foldlM_ok (P := fun t : Dominators => t.idom = d.idom)
      (fun t x t' ht hi => (runUp_idom ht).trans hi) hi hs
  obtain ⟨t, t', ht, hstep⟩ := (Exec.foldlM_ok (P := fun t : Dominators => t.idom = d.idom)
    (fun t bb t' ht hi => by
      split at ht
      · exact (hpreds bb _ t t' ht hi).1
      · cases ht
        exact hi) rfl hrun).2 b hbb
  rw [if_pos hlen] at hstep
  obtain ⟨u, u', hu, hup⟩ := (hpreds b _ t t' hstep ht).2 p hpm
  obtain ⟨c, hc⟩ := Option.isSome_iff_exists.mp ((h.isSome b hbb).mpr hb)
  have hpnone : d.idom p = none := by
    rw [← h.isSome p hp, Option.not_isSome_iff_eq_none] at hpr
    exact hpr
  have hcb := (h.isIdom b hbb hne c hc).1
  cases fuel with
  | zero => cases hup
  | succ fuel =>
    have hpc : some p ≠ u.idom b := by
      rw [hu, hc]
      rintro he
      rw [Option.some.inj he] at hpr
      exact hpr (hcb.1.reaches hb)
    have hup' : u.getIdom (some p) = none := by simp [getIdom, hu, hpnone]
    rw [runUp, if_pos hpc, hup', runUp_none (d := u.addDominanceFrontier addr (some p) b)
      ((congrFun hu b).trans hc)] at hup
    cases hup

/-- What `create_dom_tree_succ` adds for the blocks `bs`. -/
structure AddsTree (addr : Nat → Nat) (bs : List Nat) (d d' : Dominators) : Prop where
  reversePostOrder : d'.reversePostOrder = d.reversePostOrder
  postOrderId : d'.postOrderId = d.postOrderId
  idom : d'.idom = d.idom
  domFrontier : d'.domFrontier = d.domFrontier
  mem : ∀ k y, y ∈ d'.domTreeSuccBlocks k ↔
    y ∈ d.domTreeSuccBlocks k ∨ y ∈ bs ∧ d.idom y = k ∧ k ≠ some y
  frame : ∀ k, (∀ y ∈ bs, d.idom y = k → k = some y) →
    d'.domTreeSuccBlocks k = d.domTreeSuccBlocks k
  sorted : ∀ k, (d.domTreeSuccBlocks k).Pairwise (addr · < addr ·) →
    (d'.domTreeSuccBlocks k).Pairwise (addr · < addr ·)

theorem createDomTreeSucc_spec (haddr : Function.Injective addr) (bs : List Nat)
    (d : Dominators) : AddsTree addr bs d (createDomTreeSucc addr bs d) := by
  induction bs generalizing d with
  | nil => exact ⟨rfl, rfl, rfl, rfl, by simp [createDomTreeSucc], fun _ _ => rfl, fun _ hk => hk⟩
  | cons b bs ih =>
    by_cases hb : d.idom b ≠ some b
    · obtain ⟨h1, h2, h3, h4, h5, h6, h7⟩ := ih { d with
        domTreeSuccBlocks := Function.update d.domTreeSuccBlocks (d.idom b)
          (ptrInsert addr b (d.domTreeSuccBlocks (d.idom b))) }
      have hrun : createDomTreeSucc addr (b :: bs) d = createDomTreeSucc addr bs { d with
          domTreeSuccBlocks := Function.update d.domTreeSuccBlocks (d.idom b)
            (ptrInsert addr b (d.domTreeSuccBlocks (d.idom b))) } := by
        simp only [createDomTreeSucc, List.foldl_cons, if_pos hb]
      rw [hrun]
      refine ⟨h1, h2, h3, h4, fun k y => ?_, fun k hk => ?_, fun k hk => h7 k ?_⟩
      · rw [h5]
        by_cases hk : k = d.idom b
        · subst hk
          simp only [Function.update_self, mem_ptrInsert haddr, List.mem_cons]
          constructor
          · rintro ((rfl | h) | ⟨h, h', h''⟩)
            · exact .inr ⟨.inl rfl, rfl, hb⟩
            · exact .inl h
            · exact .inr ⟨.inr h, h', h''⟩
          · rintro (h | ⟨rfl | h, h', h''⟩)
            · exact .inl (.inr h)
            · exact .inl (.inl rfl)
            · exact .inr ⟨h, h', h''⟩
        · simp only [Function.update_of_ne hk, List.mem_cons]
          constructor
          · rintro (h | ⟨h, h'⟩)
            · exact .inl h
            · exact .inr ⟨.inr h, h'⟩
          · rintro (h | ⟨rfl | h, h', h''⟩)
            · exact .inl h
            · exact absurd h'.symm hk
            · exact .inr ⟨h, h', h''⟩
      · rw [h6 k fun y hy => hk y (List.mem_cons_of_mem b hy)]
        have hne : k ≠ d.idom b := fun he => hb (he ▸ hk b List.mem_cons_self he.symm)
        exact Function.update_of_ne hne _ _
      · by_cases hk' : k = d.idom b
        · subst hk'
          simp only [Function.update_self]
          exact ptrInsert_sorted hk
        · simpa only [Function.update_of_ne hk'] using hk
    · have hrun : createDomTreeSucc addr (b :: bs) d = createDomTreeSucc addr bs d := by
        simp only [createDomTreeSucc, List.foldl_cons, if_neg hb]
      obtain ⟨h1, h2, h3, h4, h5, h6, h7⟩ := ih d
      rw [hrun]
      refine ⟨h1, h2, h3, h4, fun k y => ?_,
        fun k hk => h6 k fun y hy => hk y (List.mem_cons_of_mem b hy), h7⟩
      rw [h5]
      simp only [List.mem_cons]
      constructor
      · rintro (h | ⟨h, h'⟩)
        · exact .inl h
        · exact .inr ⟨.inr h, h'⟩
      · rintro (h | ⟨rfl | h, h', h''⟩)
        · exact .inl h
        · exact absurd (h' ▸ h'') hb
        · exact .inr ⟨h, h', h''⟩

end Dominators

end Cminusf
