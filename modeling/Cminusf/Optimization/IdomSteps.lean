import Cminusf.Optimization.Placement

/-! `create_idom` step by step. Every pointer leads to a block that the traversal has
numbered higher, whatever the order in which the predecessors are chosen. -/

namespace Cminusf

namespace Dominators

/-- The loops of `create_idom` between two blocks: `rest` is left of the round. -/
structure IdomState where
  dominators : Dominators
  rest : List Nat
  changed : Bool

/-- The state in which the loops are entered. -/
def idomStart (blocks : List Nat) (root : Nat) (d : Dominators) : IdomState where
  dominators := (blocks.foldl (fun d bb => d.setIdom bb none) d).setIdom root (some root)
  rest := d.reversePostOrder
  changed := false

/-- The end of the body of the inner loop, where `new_idom` is known. -/
def afterBlock (d : Dominators) (bb new : Nat) (bbs : List Nat) (changed : Bool) : IdomState :=
  if d.idom bb ≠ some new then ⟨d.setIdom bb (some new), bbs, true⟩ else ⟨d, bbs, changed⟩

/-- One block of a round, or the start of the next round. -/
inductive IdomStep (m : Module) (root : Nat) : IdomState → IdomState → Prop where
  | root {d : Dominators} {bbs : List Nat} {changed : Bool} :
      IdomStep m root ⟨d, root :: bbs, changed⟩ ⟨d, bbs, changed⟩
  | block {d : Dominators} {bb new fuel : Nat} {bbs : List Nat} {changed : Bool} : bb ≠ root →
      newIdom m fuel d bb = .ok new →
      IdomStep m root ⟨d, bb :: bbs, changed⟩ (afterBlock d bb new bbs changed)
  | round {d : Dominators} : IdomStep m root ⟨d, [], true⟩ ⟨d, d.reversePostOrder, false⟩

abbrev IdomSteps (m : Module) (root : Nat) := Relation.ReflTransGen (IdomStep m root)

variable {m : Module} {blocks bbs : List Nat} {entry root bound fuel b : Nat} {d d' : Dominators}
  {changed changed' : Bool} {s s' : IdomState}

theorem idomRound_steps (h : idomRound m root fuel bbs (d, changed) = .ok (d', changed')) :
    IdomSteps m root ⟨d, bbs, changed⟩ ⟨d', [], changed'⟩ := by
  induction bbs generalizing d changed with
  | nil =>
    cases h
    exact .refl
  | cons bb bbs ih =>
    simp only [idomRound] at h
    by_cases hroot : bb = root
    · subst hroot
      rw [if_pos rfl] at h
      exact .head .root (ih h)
    · rw [if_neg hroot] at h
      obtain ⟨new, hnew, h⟩ := Exec.bind_eq_ok.mp h
      refine .head (.block hroot hnew) ?_
      unfold afterBlock
      by_cases hidom : d.idom bb ≠ some new
      · rw [if_pos hidom] at h ⊢
        exact ih h
      · rw [if_neg hidom] at h ⊢
        exact ih h

theorem idomLoop_steps (h : idomLoop m root bound fuel d = .ok d') :
    IdomSteps m root ⟨d, d.reversePostOrder, false⟩ ⟨d', [], false⟩ := by
  induction fuel generalizing d with
  | zero => cases h
  | succ fuel ih =>
    obtain ⟨⟨d1, changed⟩, hround, h⟩ := Exec.bind_eq_ok.mp h
    have hsteps := idomRound_steps hround
    cases changed with
    | false =>
      cases h
      exact hsteps
    | true => exact hsteps.trans (.head .round (ih h))

/-- A run of `create_idom` that returns is a run of the steps. -/
theorem createIdom_steps (h : createIdom m blocks root fuel d = .ok d') :
    IdomSteps m root (idomStart blocks root d) ⟨d', [], false⟩ := by
  have hrest : ((blocks.foldl (fun d bb => d.setIdom bb none) d).setIdom root
      (some root)).reversePostOrder = d.reversePostOrder := (foldl_setIdom blocks d).1.reversePostOrder
  have hsteps := idomLoop_steps h
  rw [hrest] at hsteps
  exact hsteps

/-- The invariant of the steps, with the pointers of `d` at the start. -/
structure IdomInv (m : Module) (blocks : List Nat) (entry : Nat) (d : Dominators) (s : IdomState) :
    Prop where
  frame : IdomFrame blocks d s.dominators
  rest : s.rest <:+ d.reversePostOrder
  approx : ∃ k, Approx m blocks entry s.dominators (roundCnt k s.rest)

theorem IdomInv.start (hcfg : Cfg m blocks entry) (hord : IsReversePostOrder m entry d) :
    IdomInv m blocks entry d (idomStart blocks entry d) := by
  obtain ⟨hframe, happ⟩ := Approx.initial hcfg d
  refine ⟨hframe, List.suffix_refl _, 0, ?_⟩
  have hinit := happ.roundCnt (hord.frame hframe)
  rw [hframe.reversePostOrder] at hinit
  exact hinit

/-- The next block of a round can be reached, and has the highest number of those left. -/
theorem IdomInv.next (hord : IsReversePostOrder m entry d) (h : IdomInv m blocks entry d s)
    (hrest : s.rest = b :: bbs) :
    Graph.Reaches (Succ m) entry b ∧ (b :: bbs).Pairwise
      (fun a c => s.dominators.postOrderId c < s.dominators.postOrderId a) := by
  have hsuffix := h.rest
  rw [hrest] at hsuffix
  rw [h.frame.postOrderId]
  exact ⟨(hord.mem b).mp (hsuffix.subset List.mem_cons_self), hord.sorted.sublist hsuffix.sublist⟩

theorem IdomStep.inv (hcfg : Cfg m blocks entry) (hord : IsReversePostOrder m entry d)
    (hs : IdomStep m entry s s') (h : IdomInv m blocks entry d s) : IdomInv m blocks entry d s' := by
  obtain ⟨k, happ⟩ := h.approx
  have hframe := h.frame
  have hsuffix := h.rest
  cases hs with
  | @root d1 bbs changed =>
    refine ⟨hframe, (List.suffix_cons _ _).trans hsuffix, k, ?_⟩
    exact happ.congr fun v hv => by simp [roundCnt, hv]
  | @block d1 bb new fuel bbs changed hne hnew =>
    obtain ⟨hbr, hsorted⟩ := h.next hord rfl
    obtain ⟨new', hnew', happ'⟩ := Approx.visit hcfg (Nat.lt_succ_self _)
      (hord.frame hframe).numbering hsorted hbr hne happ
    obtain rfl : new = new' :=
      Exec.ok_unique (fun _ _ hn => newIdom_mono hn d1 bb) hnew hnew'
    have hrest : bbs <:+ d.reversePostOrder := (List.suffix_cons _ _).trans hsuffix
    have hset : IdomInv m blocks entry d ⟨d1.setIdom bb (some new), bbs, true⟩ :=
      ⟨hframe.trans (.setIdom (hcfg.reaches_mem hbr) _), hrest, k, happ'⟩
    unfold afterBlock
    by_cases hidom : d1.idom bb ≠ some new
    · rw [if_pos hidom]
      exact hset
    · rw [if_neg hidom]
      rw [not_not] at hidom
      rw [← hidom, setIdom_self] at happ'
      exact ⟨hframe, hrest, k, happ'⟩
  | @round d1 =>
    have hround : Approx m blocks entry d1 (fun _ => k + 1) := happ.congr fun v _ => by simp [roundCnt]
    refine ⟨hframe, ?_, k + 1, hround.roundCnt (hord.frame hframe)⟩
    rw [hframe.reversePostOrder]

theorem IdomSteps.inv (hcfg : Cfg m blocks entry) (hord : IsReversePostOrder m entry d)
    (hs : IdomSteps m entry (idomStart blocks entry d) s) : IdomInv m blocks entry d s := by
  induction hs with
  | refl => exact .start hcfg hord
  | tail _ hstep ih => exact hstep.inv hcfg hord ih

/-- What the loops rely on between two blocks. -/
structure IdomState.Supports (m : Module) (blocks : List Nat) (entry : Nat) (s : IdomState) :
    Prop where
  higher : ∀ b ∈ blocks, b ≠ entry → ∀ c, s.dominators.idom b = some c →
    s.dominators.postOrderId b < s.dominators.postOrderId c
  pred : ∀ b bbs, s.rest = b :: bbs → b ≠ entry →
    ∃ p ∈ (m.blocks b).preBbs, (s.dominators.idom p).isSome
  newIdom : ∀ b bbs, s.rest = b :: bbs → b ≠ entry →
    ∃ n new, ∀ fuel, n ≤ fuel → newIdom m fuel s.dominators b = .ok new
  intersect : ∀ b1 ∈ blocks, ∀ b2 ∈ blocks, (s.dominators.idom b1).isSome →
    (s.dominators.idom b2).isSome → ∃ n z,
      (∀ bound fuel, n ≤ bound → n ≤ fuel → intersect s.dominators bound fuel b1 b2 = .ok z) ∧
        Graph.IsNearestCommon s.dominators.idom b1 b2 z

theorem IdomInv.supports (hcfg : Cfg m blocks entry) (hord : IsReversePostOrder m entry d)
    (h : IdomInv m blocks entry d s) : s.Supports m blocks entry := by
  obtain ⟨k, happ⟩ := h.approx
  have hn := (hord.frame h.frame).numbering
  refine ⟨fun b hb hne c hc => ?_, fun b bbs hrest hne => ?_, fun b bbs hrest hne => ?_,
    fun b1 hb1 b2 hb2 h1 h2 => ?_⟩
  · rw [← idomOn_eq hb] at hc
    exact (happ.parent b c hc hne).1
  · obtain ⟨hbr, hsorted⟩ := h.next hord hrest
    rw [hrest] at happ
    obtain ⟨p, hpb, hp⟩ := happ.exists_pred hn hsorted hbr hne
    have hpm := idomOn_isSome hp
    rw [idomOn_eq hpm] at hp
    exact ⟨p, (hcfg.pre b (hcfg.reaches_mem hbr) p).mpr ⟨hpm, hpb⟩, hp⟩
  · obtain ⟨hbr, hsorted⟩ := h.next hord hrest
    rw [hrest] at happ
    obtain ⟨new, hnew, -⟩ := Approx.visit hcfg (Nat.lt_succ_self _) hn hsorted hbr hne happ
    exact ⟨_, new, fun fuel hf => (newIdom_mono hf _ b).eq_ok hnew⟩
  · rw [← idomOn_eq hb1] at h1
    rw [← idomOn_eq hb2] at h2
    let k := 2 * s.dominators.postOrderId entry + 1
    obtain ⟨z, hz, hz1, hz2, hw⟩ := intersect_spec hn happ h1 h2
      (show s.dominators.postOrderId entry < k by omega)
      (show 2 * s.dominators.postOrderId entry -
        (s.dominators.postOrderId b1 + s.dominators.postOrderId b2) < k by omega)
    refine ⟨_, z, fun bound fuel hb hf => (intersect_mono hb hf _ b1 b2).eq_ok hz, ?_⟩
    refine ⟨(happ.ancestor_idom h1).mpr hz1, (happ.ancestor_idom h2).mpr hz2, fun w hw1 hw2 => ?_⟩
    exact (happ.ancestor_idom (happ.ancestor_isSome hz1 h1)).mpr
      (hw w ((happ.ancestor_idom h1).mp hw1) ((happ.ancestor_idom h2).mp hw2))

/-- A block of the order has a predecessor further ahead. -/
theorem IsReversePostOrder.pred_before (h : IsReversePostOrder m entry d) {before after : List Nat}
    (hsplit : d.reversePostOrder = before ++ b :: after) (hne : b ≠ entry) :
    ∃ p ∈ before, Succ m p b := by
  have hb : b ∈ d.reversePostOrder := by simp [hsplit]
  obtain ⟨p, hpb, hp, hlt⟩ := h.numbering.pred b ((h.mem b).mp hb) hne
  have hpm := (h.mem p).mpr hp
  have hsorted := h.sorted
  rw [hsplit] at hpm hsorted
  refine ⟨p, (List.mem_append.mp hpm).resolve_right fun hmem => ?_, hpb⟩
  rcases List.mem_cons.mp hmem with rfl | hmem
  · omega
  · have := (List.pairwise_cons.mp (List.pairwise_append.mp hsorted).2.1).1 p hmem
    omega

/-- `create_reverse_post_order` lists the reachable blocks in an order in which every step of
`create_idom` finds the pointers it needs. -/
theorem createReversePostOrder_supports (hcfg : Cfg m blocks entry) (d : Dominators) :
    ∃ n d₁ d₂, (∀ fuel, n ≤ fuel → createReversePostOrder m entry fuel d = .ok d₁) ∧
      d₁.reversePostOrder.Nodup ∧
      (∀ b, b ∈ d₁.reversePostOrder ↔ Graph.Reaches (Succ m) entry b) ∧
      d₁.reversePostOrder.head? = some entry ∧
      (∀ b ∈ d₁.reversePostOrder, b ≠ entry → d₁.postOrderId b < d₁.postOrderId entry) ∧
      (∀ before b after, d₁.reversePostOrder = before ++ b :: after → b ≠ entry →
        ∃ p ∈ before, p ∈ (m.blocks b).preBbs) ∧
      (∀ s, IdomSteps m entry (idomStart blocks entry d₁) s → s.Supports m blocks entry) ∧
      (∀ fuel, n ≤ fuel → createIdom m blocks entry fuel d₁ = .ok d₂) ∧
      IdomSteps m entry (idomStart blocks entry d₁) ⟨d₂, [], false⟩ := by
  obtain ⟨d₁, h₁, hord, -⟩ := createReversePostOrder_spec (d := d) hcfg
    (Nat.lt_succ_self blocks.length)
  obtain ⟨n, d₂, h₂, -⟩ := createIdom_spec hcfg hord
  refine ⟨max (blocks.length + 1) n, d₁, d₂, fun fuel hf => ?_, ?_, hord.mem, hord.head,
    fun b hb hne => ?_, fun before b after hsplit hne => ?_, fun s hs => ?_, fun fuel hf => ?_,
    createIdom_steps h₂⟩
  · exact (createReversePostOrder_mono (by omega) entry d).eq_ok h₁
  · exact hord.sorted.imp fun {a b} hlt he => by subst he; omega
  · have hle := hord.numbering.le_root ((hord.mem b).mp hb)
    have hinj := hord.numbering.injective b entry ((hord.mem b).mp hb) .refl
    exact lt_of_le_of_ne hle fun he => hne (hinj he)
  · obtain ⟨p, hp, hpb⟩ := hord.pred_before hsplit hne
    have hpr := (hord.mem p).mp (by rw [hsplit]; exact List.mem_append_left _ hp)
    have hbm := hcfg.reaches_mem ((hord.mem b).mp (by simp [hsplit]))
    exact ⟨p, hp, (hcfg.pre b hbm p).mpr ⟨hcfg.reaches_mem hpr, hpb⟩⟩
  · exact (IdomSteps.inv hcfg hord hs).supports hcfg hord
  · exact (createIdom_mono (by omega) blocks entry d₁).eq_ok h₂

theorem createReversePostOrder_supports_countProgram :
    ∃ m, buildModule countProgram = some m ∧ ∃ n d₁ d₂,
      (∀ fuel, n ≤ fuel → createReversePostOrder m 0 fuel empty = .ok d₁) ∧
      d₁.reversePostOrder.head? = some 0 ∧
      (∀ s, IdomSteps m 0 (idomStart [0, 1, 2, 3] 0 d₁) s → s.Supports m [0, 1, 2, 3] 0) ∧
      IdomSteps m 0 (idomStart [0, 1, 2, 3] 0 d₁) ⟨d₂, [], false⟩ := by
  obtain ⟨m, hm, h4, hblocks, -⟩ := countProgram_module
  have hcfg := (moduleCfg_of_buildModule hm).function 4 h4 0 (by rw [hblocks]; rfl)
  rw [hblocks] at hcfg
  obtain ⟨n, d₁, d₂, h₁, -, -, hhead, -, -, hsupports, -, hsteps⟩ :=
    createReversePostOrder_supports hcfg.cfg empty
  exact ⟨m, hm, n, d₁, d₂, h₁, hhead, hsupports, hsteps⟩

end Dominators

end Cminusf
