import Cminusf.Optimization.Mem2RegRun
import Cminusf.Optimization.Placement

/-! What a call of `re_name` leaves in `var_val_stack`. Each call takes off what it has
pushed, unless it stops at a vector that an earlier call has emptied. -/

namespace Cminusf

namespace Renaming

/-- Steps 3 to 6 for a block. -/
theorem Simulates.arrive {live : Value → Prop} {m : Module} {r : Renaming} {s : Mem2Reg}
    (h : Simulates live m r s) (hm : Walkable live m) (b : Nat) :
    Exec.Rel (fun x y => Simulates live m y.1 x.1 ∧ x.2 = y.2) (Mem2Reg.enterReName b s)
      (Renaming.arrive m b r) := by
  have h1 := h.enter.foldl_pushPhi (r := r.enter b) (r.instrList m b)
  simp only [Mem2Reg.enterReName, Renaming.arrive]
  rw [h.instrList_eq b, h1.instrList_eq b]
  refine (h1.renameInstrs hm b).bind ?_
  rintro ⟨s2, wait⟩ ⟨r2, wait'⟩ ⟨h2, -, hw, -⟩
  dsimp only at h2 hw ⊢
  rw [h2.succBbs_eq b]
  exact (h2.completePhis hm b _).bind fun s3 r3 h3 => .pure ⟨h3.1, hw⟩

end Renaming

namespace Mem2Reg

open Renaming Builder Dominators

/-- The calls that the call `re_name(bb)` in state `s` makes, itself included. -/
inductive Calls (d : Dominators) (bb : Nat) (s : Mem2Reg) : Nat → Mem2Reg → Prop where
  | self : Calls d bb s bb s
  | child {b c fuel : Nat} {before after waitDelete : List Nat} {s1 s2 s3 : Mem2Reg} :
      Calls d bb s b s1 → enterReName b s1 = .ok (s2, waitDelete) →
      d.children b = before ++ c :: after →
      before.foldlM (fun s c => reName d fuel c s) s2 = .ok s3 → Calls d bb s c s3

/-- `run` over `m` comes to function `f`, for which `generate_phi` returns `m1`, and calls
`re_name(b)` in state `s`. -/
inductive RunCalls (m : Module) (addr : Value → Nat) (d : Dominators) (f entry : Nat) (m1 : Module)
    (b : Nat) (s : Mem2Reg) : Prop where
  | call {fuel : Nat} {s0 : Mem2Reg} :
      Dominators.run m (fun bb => addr (.basicBlock bb)) fuel = .ok d →
      (List.range f).foldlM (runOnFunction addr d fuel) ⟨m, fun _ => none⟩ = .ok s0 →
      (s0.module.functions f).basicBlocks.head? = some entry →
      generatePhi addr d fuel (s0.module.functions f).basicBlocks s0.module = .ok m1 →
      Calls d entry { s0 with module := m1 } b s → RunCalls m addr d f entry m1 b s

/-- The vectors hold what they held before. -/
def SameStacks (s s' : Mem2Reg) : Prop :=
  ∀ v, (s'.varValStack v).getD [] = (s.varValStack v).getD []

/-- The call `re_name(b)` returns with the vectors as they were, or an assertion fails. -/
def Restores (d : Dominators) (b : Nat) (s : Mem2Reg) : Prop :=
  ∃ n, ∀ fuel, n ≤ fuel → reName d fuel b s = .error .assertion ∨
    ∃ s', reName d fuel b s = .ok s' ∧ SameStacks s s'

/-- A block below `b` reads from an emptied vector only when a block below `b` that comes before
it completes a phi from one. -/
def ReadsFound (m : Module) (d : Dominators) (n entry b : Nat) : Prop :=
  ∀ pre c post, Graph.preorder d.children n entry = pre ++ c :: post →
    c ∈ Graph.preorder d.children n b →
    ReadsFrom m (Emptied m d.idom (fun _ => False) pre c) c →
    ∃ pre' c' post', pre = pre' ++ c' :: post' ∧ c' ∈ Graph.preorder d.children n b ∧
      CompletesFrom m (Emptied m d.idom (fun _ => False) pre' c') c'

variable {m m1 : Module} {b c f n entry fuel : Nat} {d : Dominators} {s s' : Mem2Reg} {r : Renaming}
  {S : Nat → Prop} {keys : Value → Prop} {live : Value → Prop} {pre post : List Nat}

theorem split_cases {α : Type*} {pre post pre' post' : List α} {x y : α}
    (h : pre ++ x :: post = pre' ++ y :: post') :
    (pre = pre' ∧ x = y) ∨ (∃ mid, pre' = pre ++ x :: mid) ∨ ∃ mid, pre = pre' ++ y :: mid := by
  rcases List.append_eq_append_iff.mp h with ⟨mid, rfl, hmid⟩ | ⟨mid, rfl, hmid⟩
  · cases mid with
    | nil =>
      simp only [List.nil_append, List.cons.injEq] at hmid
      exact .inl ⟨by simp, hmid.1⟩
    | cons z mid =>
      simp only [List.cons_append, List.cons.injEq] at hmid
      exact .inr (.inl ⟨mid, by rw [hmid.1]⟩)
  · cases mid with
    | nil =>
      simp only [List.nil_append, List.cons.injEq] at hmid
      exact .inl ⟨by simp, hmid.1.symm⟩
    | cons z mid =>
      simp only [List.cons_append, List.cons.injEq] at hmid
      exact .inr (.inr ⟨mid, by rw [hmid.1]⟩)

/-- In a list without repetition the part before a member is determined. -/
theorem split_of_mem {α : Type*} {l rest pre post : List α} {x : α} (hnd : (l ++ rest).Nodup)
    (h : l ++ rest = pre ++ x :: post) (hx : x ∈ l) : ∃ post', l = pre ++ x :: post' := by
  obtain ⟨l1, l2, rfl⟩ := List.append_of_mem hx
  have hsplit : pre ++ x :: post = l1 ++ x :: (l2 ++ rest) := by
    rw [← h]
    simp
  rw [h] at hnd
  rcases split_cases hsplit with ⟨rfl, -⟩ | ⟨mid, rfl⟩ | ⟨mid, rfl⟩
  · exact ⟨l2, rfl⟩
  · rw [hsplit] at hnd
    simp [List.nodup_append] at hnd
  · simp [List.nodup_append] at hnd

/-- The keys of the functions before play no part for a block that does not load them. -/
theorem readsFrom_keys {idom : Nat → Option Nat}
    (hload : ∀ i ∈ (m.blocks c).instrList, ∀ v, loadedVar m i = some v → ¬ keys v) :
    ReadsFrom m (Emptied m idom keys pre c) c ↔
      ReadsFrom m (Emptied m idom (fun _ => False) pre c) c := by
  refine exists_congr fun v => and_congr_left ?_
  rintro ⟨-, is, i, js, hlist, hi, -⟩
  have hno := hload i (by rw [hlist]; simp) v hi
  simp [Emptied, hno]

theorem completesFrom_keys {idom : Nat → Option Nat}
    (hphi : ∀ s ∈ (m.blocks c).succBbs, ∀ p ∈ (m.blocks s).instrList, ∀ v,
      phiVar m p = some v → ¬ keys v) :
    CompletesFrom m (Emptied m idom keys pre c) c ↔
      CompletesFrom m (Emptied m idom (fun _ => False) pre c) c := by
  refine exists_congr fun v => and_congr_left ?_
  rintro ⟨-, s, hs, p, hp, hpv⟩
  have hno := hphi s hs p hp v hpv
  simp [Emptied, hno]

/-- The walk has come to the call `re_name(b)` on its way from `root`. -/
structure AtCall (live : Value → Prop) (m : Module) (d : Dominators) (S : Nat → Prop) (root : Nat)
    (keys : Value → Prop) (n b : Nat) (s : Mem2Reg) (r : Renaming) (post : List Nat) : Prop where
  simulates : Simulates live m r s
  walked : Walked m d.idom S root keys r
  enters : Enters m d.idom S root b r
  order : Graph.preorder d.children n root = r.order ++ Graph.preorder d.children n b ++ post

section

variable {rank : Nat → Nat} (hm : Walkable live m) (ha : Arranged m d.idom S)
  (htree : Graph.IsTree d.idom d.children S) (hroot : d.idom entry = some entry) (hentry : S entry)
  (hrank : ∀ b, S b → ∀ c ∈ d.children b, rank c < rank b) (hn : ∀ b, S b → rank b < n)
include htree hentry

theorem AtCall.fresh (h : AtCall live m d S entry keys n b s r post) :
    ∀ c ∈ Graph.preorder d.children n b, c ∉ r.order := by
  intro c hc hr
  have hnd := htree.nodup_preorder hentry (n := n)
  rw [h.order] at hnd
  exact (List.nodup_append.mp (List.nodup_append.mp hnd).1).2.2 c hr c hc rfl

include hm ha hroot hrank hn

/-- The walk below the block of a call. -/
theorem AtCall.walk_meets (h : AtCall live m d S entry keys n b s r post) :
    Exec.Meets (fun s' => ∃ r', Simulates live m r' s' ∧
        Spans m d.idom S entry keys (Graph.preorder d.children n b) r r')
      (FirstBlame m d.idom keys (r.order ++ Graph.preorder d.children n b))
      (reName d n b s) := by
  have hwalk := walk_spec ha htree hroot hrank n b r h.walked h.enters (h.fresh htree hentry)
  refine ((reName_simulates hm d n b r s h.simulates).meets hwalk).mono (fun _ h => h) ?_
  rintro fault (⟨-, hle⟩ | hfl)
  · have := hn b h.enters.mem
    omega
  · exact hfl

omit hm in
/-- The walk below the first children of the block of a call. -/
theorem AtCall.children (h : AtCall live m d S entry keys n b s r post) {k : Nat} (hk : n ≤ k)
    {r3 : Renaming} {wait before after : List Nat}
    (h3 : Arrived m d.idom S entry keys b r r3 wait) (hcs : d.children b = before ++ c :: after) :
    Exec.Meets (Spans m d.idom S entry keys (before.flatMap (Graph.preorder d.children k)) r3)
      (fun _ => True) (before.foldlM (fun r c => walk m d k c r) r3) ∧
    ∀ r4, Spans m d.idom S entry keys (before.flatMap (Graph.preorder d.children k)) r3 r4 →
      Enters m d.idom S entry c r4 ∧ Graph.preorder d.children n entry = r4.order ++
        Graph.preorder d.children n c ++ (after.flatMap (Graph.preorder d.children k) ++ post) := by
  have hpre : ∀ x, S x → Graph.preorder d.children k x = Graph.preorder d.children n x := by
    intro x hx
    have := hn x hx
    exact htree.preorder_eq hrank hx (by omega) (by omega)
  have hpre' : Graph.preorder d.children (k + 1) b = Graph.preorder d.children n b := by
    have := hn b h.enters.mem
    exact htree.preorder_eq hrank h.enters.mem (by omega) (by omega)
  have hfresh : ∀ y ∈ Graph.preorder d.children (k + 1) b, y ∉ r.order := by
    rw [hpre']
    exact h.fresh htree hentry
  have hpos : ∀ x ∈ d.children b, S x ∧ 0 < k := by
    intro x hx
    have hS := (htree.child b h.enters.mem x hx).2.2
    have := hn x hS
    exact ⟨hS, by omega⟩
  constructor
  · refine Exec.Meets.foldlM (I := fun done s => Spans m d.idom S entry keys
      (done.flatMap (Graph.preorder d.children k)) r3 s) (fun done x rest s hsplit hs => ?_)
      (.refl h3.walked)
    have hcs' : d.children b = done ++ x :: (rest ++ c :: after) := by
      rw [hcs, hsplit]
      simp
    obtain ⟨-, hdisj, henters⟩ := h3.next htree ha h.enters hfresh hcs' hs
    have hx := hpos x (by rw [hcs']; simp)
    refine (walk_spec ha htree hroot hrank k x s hs.walked (henters hx.2) hdisj).mono
      (fun s' hs' => ?_) fun _ _ => trivial
    rw [List.flatMap_append, List.flatMap_singleton]
    refine hs.trans ha hs' fun y hy hy' => hdisj y hy' ?_
    rw [hs.order]
    exact List.mem_append_right _ hy
  · intro r4 h4
    obtain ⟨horder, -, henters⟩ := h3.next htree ha h.enters hfresh hcs h4
    have hc := hpos c (by rw [hcs]; simp)
    change r.order ++ Graph.preorder d.children (k + 1) b = r4.order ++
      Graph.preorder d.children k c ++ after.flatMap (Graph.preorder d.children k) at horder
    refine ⟨henters hc.2, ?_⟩
    rw [h.order, ← hpre', horder, hpre c hc.1]
    simp

/-- From a call to the calls that it makes. -/
theorem AtCall.child (h : AtCall live m d S entry keys n b s r post) {s2 s3 : Mem2Reg}
    {waitDelete before after : List Nat} (harrive : enterReName b s = .ok (s2, waitDelete))
    (hcs : d.children b = before ++ c :: after)
    (hfold : before.foldlM (fun s c => reName d fuel c s) s2 = .ok s3) :
    ∃ r' post', AtCall live m d S entry keys n c s3 r' post' := by
  have harrived := (h.simulates.arrive hm b).meets
    (arrive_spec ha hroot htree.antisymm h.walked h.enters)
  rw [harrive] at harrived
  obtain ⟨⟨r3, wait⟩, ⟨hsim3, -⟩, h3⟩ : ∃ y : Renaming × List Nat,
      (Simulates live m y.1 s2 ∧ waitDelete = y.2) ∧
        Arrived m d.idom S entry keys b r y.1 y.2 := by
    cases harrived with
    | ok h => exact h
  dsimp only at hsim3 h3
  -- with fuel for the whole tree the walk below the children before is the same
  have hfold' := (Exec.Le.foldlM (fun s c => reName_mono (d := d) (le_max_left fuel n) c s)
    before s2).eq_ok hfold
  have hrel : Exec.Rel (fun x y => Simulates live m y x)
      (before.foldlM (fun s c => reName d (max fuel n) c s) s2)
      (before.foldlM (fun r c => walk m d (max fuel n) c r) r3) :=
    Exec.Rel.foldlM (fun x y hxy c _ => reName_simulates hm d _ c y x hxy) hsim3
  obtain ⟨hwalk, hnext⟩ :=
    h.children ha htree hroot hentry hrank hn (le_max_right fuel n) h3 hcs
  have hmeets := hrel.meets hwalk
  rw [hfold'] at hmeets
  obtain ⟨r4, hsim4, h4⟩ : ∃ r4, Simulates live m r4 s3 ∧ Spans m d.idom S entry keys
      (before.flatMap (Graph.preorder d.children (max fuel n))) r3 r4 := by
    cases hmeets with
    | ok h => exact h
  obtain ⟨henters, horder⟩ := hnext r4 h4
  exact ⟨r4, _, hsim4, h4.walked, henters, horder⟩

theorem AtCall.calls {s0 : Mem2Reg} {r0 : Renaming}
    (h0 : AtCall live m d S entry keys n entry s0 r0 []) (h : Calls d entry s0 b s) :
    ∃ r post, AtCall live m d S entry keys n b s r post := by
  induction h with
  | self => exact ⟨r0, [], h0⟩
  | child _ harrive hcs hfold ih =>
    obtain ⟨r, post, hr⟩ := ih
    exact hr.child hm ha htree hroot hentry hrank hn harrive hcs hfold

/-- With fuel for the whole tree a call returns, or finds a vector empty. -/
theorem AtCall.result (h : AtCall live m d S entry keys n b s r post) :
    (∃ s' r', (∀ fuel, n ≤ fuel → reName d fuel b s = .ok s') ∧ SameStacks s s' ∧
        Spans m d.idom S entry keys (Graph.preorder d.children n b) r r') ∨
      ∃ fault, (∀ fuel, n ≤ fuel → reName d fuel b s = .error fault) ∧
        FirstBlame m d.idom keys (r.order ++ Graph.preorder d.children n b) fault := by
  have hmeets := h.walk_meets hm ha htree hroot hentry hrank hn
  cases hres : reName d n b s with
  | ok s' =>
    rw [hres] at hmeets
    cases hmeets with
    | ok h' =>
      obtain ⟨r', hsim, hspan⟩ := h'
      refine .inl ⟨s', r', fun fuel hf => (reName_mono hf b s).eq_ok hres, fun v => ?_, hspan⟩
      rw [hsim.stack, hspan.stack v, h.simulates.stack]
  | error fault =>
    rw [hres] at hmeets
    cases hmeets with
    | error hfl =>
      refine .inr ⟨fault, fun fuel hf => ?_, hfl⟩
      rw [(reName_mono hf b s).eq ?_, hres]
      rw [hres]
      rintro ⟨⟩
      exact hfl.ne_outOfFuel rfl

/-- A call that returns has restored the vectors. -/
theorem AtCall.sameStacks (h : AtCall live m d S entry keys n b s r post)
    (hrun : reName d fuel b s = .ok s') : SameStacks s s' := by
  have hmax := (reName_mono (le_max_left fuel n) b s).eq_ok hrun
  rcases h.result hm ha htree hroot hentry hrank hn with ⟨s1, r1, hok, hsame, -⟩ | ⟨fault, herr, -⟩
  · rw [hok _ (le_max_right fuel n)] at hmax
    cases hmax
    exact hsame
  · rw [herr _ (le_max_right fuel n)] at hmax
    cases hmax

/-- A call restores the vectors, or stops at an assertion, when every block below it that would
read from an emptied vector comes after the end of the walk. -/
theorem AtCall.restores_iff (h : AtCall live m d S entry keys n b s r post)
    (hload : ∀ c, S c → ∀ i ∈ (m.blocks c).instrList, ∀ v, loadedVar m i = some v → ¬ keys v)
    (hphi : ∀ c, S c → ∀ p ∈ (m.blocks c).instrList, ∀ v, phiVar m p = some v → ¬ keys v) :
    Restores d b s ↔ ReadsFound m d n entry b := by
  have hnd := htree.nodup_preorder hentry (n := n)
  have hmem : ∀ c ∈ Graph.preorder d.children n b, S c :=
    fun c hc => (htree.of_mem_preorder h.enters.mem hc).2
  have hreads : ∀ pre, ∀ c ∈ Graph.preorder d.children n b,
      ReadsFrom m (Emptied m d.idom keys pre c) c ↔
        ReadsFrom m (Emptied m d.idom (fun _ => False) pre c) c :=
    fun pre c hc => readsFrom_keys (hload c (hmem c hc))
  have hcompletes : ∀ pre, ∀ c ∈ Graph.preorder d.children n b,
      CompletesFrom m (Emptied m d.idom keys pre c) c ↔
        CompletesFrom m (Emptied m d.idom (fun _ => False) pre c) c :=
    fun pre c hc => completesFrom_keys fun s hs => hphi s (ha.succ c (hmem c hc) s hs)
  -- a block that finds a vector empty is below `b`, since the walk has come past those before
  have hbelow : ∀ pre c post', r.order ++ Graph.preorder d.children n b = pre ++ c :: post' →
      (ReadsFrom m (Emptied m d.idom keys pre c) c ∨
        CompletesFrom m (Emptied m d.idom keys pre c) c) → c ∈ Graph.preorder d.children n b := by
    intro pre c post' hsplit hcause
    have hc : c ∈ r.order ++ Graph.preorder d.children n b := by rw [hsplit]; simp
    refine (List.mem_append.mp hc).resolve_left fun hr => ?_
    rw [h.order] at hnd
    obtain ⟨post'', hord⟩ := split_of_mem (List.nodup_append.mp hnd).1 hsplit hr
    have hfound := h.walked.found ha hroot htree.antisymm hord
    exact hcause.elim hfound.1 hfound.2
  rcases h.result hm ha htree hroot hentry hrank hn with
    ⟨s1, r1, hok, hsame, hspan⟩ | ⟨fault, herr, pre0, b0, post0, hsplit0, hfirst, hfault⟩
  · refine ⟨fun _ pre c post' hsplit hc hread => ?_, fun _ => ⟨n, fun fuel hf =>
      .inr ⟨s1, hok fuel hf, hsame⟩⟩⟩
    rw [h.order] at hsplit hnd
    obtain ⟨post'', hord⟩ := split_of_mem hnd hsplit (List.mem_append_right _ hc)
    rw [← hspan.order] at hord
    exact absurd ((hreads pre c hc).mpr hread) (hspan.walked.found ha hroot htree.antisymm hord).1
  · rcases hfault with ⟨rfl, hread⟩ | ⟨rfl, hnread, hcomp⟩
    · have hb0 := hbelow pre0 b0 post0 hsplit0 (.inl hread)
      constructor
      · rintro ⟨k, hk⟩
        rcases hk (max k n) (le_max_left k n) with he | ⟨s1, he, -⟩
        · rw [herr _ (le_max_right k n)] at he
          cases he
        · rw [herr _ (le_max_right k n)] at he
          cases he
      · intro hfound
        obtain ⟨pre', c', post', hpre, hc', hcomp⟩ := hfound pre0 b0 (post0 ++ post)
          (by rw [h.order, hsplit0]; simp) hb0 ((hreads pre0 b0 hb0).mp hread)
        exact absurd ((hcompletes pre' c' hc').mpr hcomp) (hfirst pre' c' post' hpre).2
    · have hb0 := hbelow pre0 b0 post0 hsplit0 (.inr hcomp)
      refine ⟨fun _ pre c post' hsplit hc hread => ?_, fun _ => ⟨n, fun fuel hf =>
        .inl (herr fuel hf)⟩⟩
      have hread' := (hreads pre c hc).mpr hread
      rw [h.order, hsplit0, List.append_assoc, List.cons_append] at hsplit
      rcases split_cases hsplit with ⟨rfl, rfl⟩ | ⟨mid, rfl⟩ | ⟨mid, rfl⟩
      · exact absurd hread' hnread
      · exact ⟨pre0, b0, mid, rfl, hb0, (hcompletes pre0 b0 hb0).mp hcomp⟩
      · exact absurd hread' (hfirst pre c mid rfl).1

end

/-- What is known of the run when it comes to function `f`. -/
theorem RunCalls.prepared {addr : Value → Nat} {origin : Nat → Option Nat} (hm : Inv m origin)
    (haddr : Function.Injective addr) (hf : f < m.numFunctions)
    (h : RunCalls m addr d f entry m1 b s) :
    (m.functions f).basicBlocks.head? = some entry ∧
      IsAnalysed m (fun bb => addr (.basicBlock bb)) (m.functions f).basicBlocks entry d ∧
      ∃ s0 phis, Idle m (· < f) s0 ∧ Prepared m d f (· < f) s0 m1 phis ∧
        Calls d entry { s0 with module := m1 } b s := by
  cases h with
  | @call fuel s0 hrun hfold hh hphi hcalls =>
    have han := run_analysed (fun x y h => Value.basicBlock.inj (haddr h)) hm.moduleCfg hrun
    have hidle := runFold_spec hm haddr han fuel (Nat.le_of_lt hf)
    rw [hfold] at hidle
    have hs : Idle m (· < f) s0 := by
      cases hidle with
      | ok h => exact h.1
    rw [hs.between.functions] at hh hphi
    have hd := han f (List.mem_range.mpr hf) entry hh
    have hprep := hs.generatePhi_spec hm haddr hf hd (lt_irrefl f) fuel
    rw [hphi] at hprep
    obtain ⟨phis, hphis⟩ : ∃ phis, Prepared m d f (· < f) s0 m1 phis := by
      cases hprep with
      | ok h => exact h
    exact ⟨hh, hd, s0, phis, hs, hphis, hcalls⟩

/-- In the runs over the modules that the visitors build, a call that returns has restored the
vectors. It returns, or stops at an assertion, exactly when the blocks below it find a value
wherever they load one. -/
theorem reName_restores_iff {program : ASTProgram} {addr : Value → Nat}
    (h : buildModule program = some m) (haddr : Function.Injective addr) (hf : f < m.numFunctions)
    (hcall : RunCalls m addr d f entry m1 b s) :
    (∀ fuel s', reName d fuel b s = .ok s' → SameStacks s s') ∧
      (Restores d b s ↔ ReadsFound m1 d ((m.functions f).basicBlocks.length + 1) entry b) := by
  obtain ⟨origin, hm⟩ := CminusfBuilder.buildModule_inv h
  obtain ⟨hh, hd, s0, phis, hs, hprep, hcalls⟩ := hcall.prepared hm haddr hf
  have hcfg := hm.functionCfg hf hh
  have ha := hprep.laid.arranged hm hf hh hd
  have htree := hd.hasTree.isTree hcfg
  obtain ⟨rank, hrank, hle⟩ := hd.hasTree.exists_rank hcfg
  have hn : ∀ c, Graph.Reaches (Succ m) entry c → rank c < (m.functions f).basicBlocks.length + 1 :=
    fun c _ => Nat.lt_succ_of_le (hle c)
  have h0 : AtCall m1.Present m1 d (Graph.Reaches (Succ m) entry) entry
      (fun v => (s0.varValStack v).isSome) ((m.functions f).basicBlocks.length + 1) entry
      { s0 with module := m1 } (initial s0.varValStack) [] :=
    ⟨hprep.between.simulates s0.varValStack, walked_initial (fun _ => Iff.rfl) hs.stack, hs.enters hd,
      by simp [initial]⟩
  obtain ⟨r, post, hr⟩ :=
    h0.calls hprep.between.walkable ha htree hd.idoms.root .refl hrank hn hcalls
  have hkeys : ∀ v, (∃ j, v = .instruction j ∧ m.functionOf j = f) → ¬ (s0.varValStack v).isSome := by
    rintro v ⟨j, rfl, hj⟩ hv
    obtain ⟨j', hj', hne⟩ := hs.keys_ne (lt_irrefl f) hv
    cases hj'
    exact hne hj
  refine ⟨fun fuel s' hrun =>
    hr.sameStacks hprep.between.walkable ha htree hd.idoms.root .refl hrank hn hrun, ?_⟩
  refine hr.restores_iff hprep.between.walkable ha htree hd.idoms.root .refl hrank hn ?_ ?_
  · exact fun c hc i hi v hv =>
      hkeys v (hprep.laid.loadedVar_local hm hf (hcfg.reaches_mem hc) hi hv)
  · exact fun c hc p hp v hv =>
      hkeys v (hprep.laid.phiVar_local hm hf (hcfg.reaches_mem hc) hp hv)

/-- What `run` has computed when it calls `re_name` for function `f`. -/
def entryCall (m : Module) (addr : Value → Nat) (fuel f : Nat) :
    Exec (Dominators × Nat × Mem2Reg) := do
  let d ← Dominators.run m (fun bb => addr (.basicBlock bb)) fuel
  let s ← (List.range f).foldlM (runOnFunction addr d fuel) ⟨m, fun _ => none⟩
  (s.module.functions f).basicBlocks.head?.elim (throw .outOfFuel) fun entry => do
    let m1 ← generatePhi addr d fuel (s.module.functions f).basicBlocks s.module
    return (d, entry, { s with module := m1 })

theorem runCalls_of_entryCall {addr : Value → Nat}
    (h : entryCall m addr fuel f = .ok (d, entry, s)) :
    RunCalls m addr d f entry s.module entry s := by
  obtain ⟨d', hrun, h⟩ := Exec.bind_eq_ok.mp h
  obtain ⟨s0, hfold, h⟩ := Exec.bind_eq_ok.mp h
  cases hh : (s0.module.functions f).basicBlocks.head? with
  | none =>
    rw [hh] at h
    cases h
  | some b =>
    rw [hh] at h
    obtain ⟨m1, hphi, h⟩ := Exec.bind_eq_ok.mp h
    cases h
    exact .call hrun hfold hh hphi .self

/-- `int main(void) { int x; int y; if (input()) x = 1; else { y = x; x = 2; } return 0; }`. -/
def emptiedProgram : ASTProgram :=
  let x : ASTExpression := .simple (.ofTerm (.ofFactor (.var (.scalar "x"))))
  let input : ASTExpression := .simple (.ofTerm (.ofFactor (.call "input" [])))
  ⟨[.fun ⟨.int, "main", [], [⟨.int, "x", none⟩, ⟨.int, "y", none⟩],
    [.selectionElse input (.expressionStmt (some (.assign (.scalar "x") (Dominators.literal 1))))
      (.compound [] [.expressionStmt (some (.assign (.scalar "y") x)),
        .expressionStmt (some (.assign (.scalar "x") (Dominators.literal 2)))]),
      .return (some (Dominators.literal 0))]⟩]⟩

/-- `re_name` reads the back of an empty vector. -/
def isUndefined : Exec Mem2Reg → Bool
  | .error .undefinedBehaviour => true
  | _ => false

theorem emptiedProgram_call : ∃ m, buildModule emptiedProgram = some m ∧ 4 < m.numFunctions ∧
    ∃ d entry s, RunCalls m Value.code d 4 entry s.module entry s ∧
      reName d 20 entry s = .error .undefinedBehaviour := by
  obtain ⟨m, hm, h4, h⟩ := exists_buildModule emptiedProgram
    (fun m => 4 < m.numFunctions ∧ (entryCall m Value.code 20 4).toOption.any fun x =>
      isUndefined (reName x.1 20 x.2.1 x.2.2)) (by decide +kernel)
  obtain ⟨x, hcall, h⟩ := (Option.any_eq_true _ _).mp h
  obtain ⟨d, entry, s⟩ := x
  refine ⟨m, hm, h4, d, entry, s, runCalls_of_entryCall (Exec.ok_of_toOption hcall), ?_⟩
  dsimp only at h
  cases hrun : reName d 20 entry s with
  | ok s' =>
    rw [hrun] at h
    cases h
  | error fault =>
    rw [hrun] at h
    cases fault <;> first | rfl | cases h

theorem reName_restores_iff_emptiedProgram : ∃ m, buildModule emptiedProgram = some m ∧
    ∃ d entry s, RunCalls m Value.code d 4 entry s.module entry s ∧
      (Restores d entry s ↔
        ReadsFound s.module d ((m.functions 4).basicBlocks.length + 1) entry entry) := by
  obtain ⟨m, hm, h4, d, entry, s, hcall, -⟩ := emptiedProgram_call
  exact ⟨m, hm, d, entry, s, hcall, (reName_restores_iff hm Value.code_injective h4 hcall).2⟩

/-- One arm has emptied the vector of `x` when the other one loads `x`. -/
theorem not_restores_emptiedProgram : ∃ m, buildModule emptiedProgram = some m ∧
    ∃ addr, Function.Injective addr ∧ ∃ d f entry m1 b s, f < m.numFunctions ∧
      RunCalls m addr d f entry m1 b s ∧ ¬ Restores d b s := by
  obtain ⟨m, hm, h4, d, entry, s, hcall, hrun⟩ := emptiedProgram_call
  refine ⟨m, hm, Value.code, Value.code_injective, d, 4, entry, s.module, entry, s, h4, hcall, ?_⟩
  rintro ⟨n, hn⟩
  have hmax := (reName_mono (le_max_right n 20) entry s).eq (by rw [hrun]; simp)
  rw [hrun] at hmax
  rcases hn (max n 20) (le_max_left n 20) with he | ⟨s', he, -⟩
  · rw [hmax] at he
    cases he
  · rw [hmax] at he
    cases he

end Mem2Reg

end Cminusf
