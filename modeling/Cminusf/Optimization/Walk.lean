import Cminusf.Optimization.ReName

/-! The recursion of `re_name` over the dominator tree: the top of each stack is the last
value given to the variable by a block above, and a fault has a cause in the module. -/

namespace Cminusf

namespace Renaming

variable {m : Module} {r r' r'' : Renaming} {a b i j p root : Nat} {v w x : Value} {is js : List Nat}
  {idom : Nat → Option Nat} {S : Nat → Prop} {keys : Value → Prop}

/-- The loads of block `b` have been replaced by the last value given to their variable. -/
def LoadsDone (m : Module) (r : Renaming) (b : Nat) : Prop :=
  ∀ is i js, (m.blocks b).instrList = is ++ i :: js → ∀ v, Mem2Reg.loadedVar m i = some v →
    (∀ x, (valsAfter m r b is v).head? = some x → r.sub (.instruction i) = x) ∧
    (valsAfter m r b is v = [] → r.sub (.instruction i) = .instruction i ∧ r.entryStack b v = none)

/-- The substitute of a load is a value of its variable. -/
theorem LoadsDone.mem_vals (h : LoadsDone m r b) (hlist : (m.blocks b).instrList = is ++ j :: js)
    (hv : Mem2Reg.loadedVar m j = some v) (hsub : r.sub (.instruction j) ≠ .instruction j) :
    r.sub (.instruction j) ∈ valsAfter m r b is v := by
  obtain ⟨hhead, hnil⟩ := h is j js hlist v hv
  cases hvals : valsAfter m r b is v with
  | nil => exact absurd (hnil hvals).1 hsub
  | cons y ys =>
    rw [hhead y (by rw [hvals]; rfl)]
    exact List.mem_cons_self

/-- The phis of the successors of `b` have their pairs for `b`. -/
def EdgesDone (m : Module) (r : Renaming) (b : Nat) : Prop :=
  ∀ s ∈ (m.blocks b).succBbs, ∀ p ∈ (m.blocks s).instrList, ∀ v, Mem2Reg.phiVar m p = some v →
    (∀ x, (valsAtEnd m r b v).head? = some x → (x, b) ∈ r.incoming p) ∧
    (valsAtEnd m r b v = [] → r.entryStack b v = none)

/-- The instructions that `re_name` erases. -/
def Erasable (m : Module) (r : Renaming) (i : Nat) : Prop :=
  (Mem2Reg.storedVar m i).isSome ∨
    (Mem2Reg.loadedVar m i).isSome ∧ r.sub (.instruction i) ≠ .instruction i

/-- The state of the walk when the blocks of `r.order` have been entered. -/
structure Walked (m : Module) (idom : Nat → Option Nat) (S : Nat → Prop) (root : Nat)
    (keys : Value → Prop) (r : Renaming) : Prop where
  settled : Settled m (fun j => (m.instrs j).parent ∉ r.order) r
  above : ∀ b ∈ r.order, S b ∧ ∀ a, Graph.Ancestor idom a b → a ∈ r.order
  stackKeys : ∀ v, (r.stack v).isSome ↔ keys v ∨ ∃ d ∈ r.order, Def m v d
  entryKeys : ∀ pre b post, r.order = pre ++ b :: post → ∀ v,
    (r.entryStack b v).isSome ↔ keys v ∨ ∃ d ∈ pre, Def m v d
  entry : ∀ pre b post, r.order = pre ++ b :: post →
    (b = root ∧ ∀ v, (r.entryStack b v).getD [] = []) ∨
    ∃ a ∈ pre, idom b = some a ∧ a ≠ b ∧ ∀ v, (r.entryStack b v).getD [] = valsAtEnd m r a v
  loads : ∀ b ∈ r.order, LoadsDone m r b
  edges : ∀ b ∈ r.order, EdgesDone m r b
  incoming : ∀ p, ∀ pair ∈ r.incoming p, pair.2 ∈ r.order ∧
    ∃ s ∈ (m.blocks pair.2).succBbs, p ∈ (m.blocks s).instrList ∧
      ∃ v, Mem2Reg.phiVar m p = some v ∧ (valsAtEnd m r pair.2 v).head? = some pair.1
  incoming_nodup : ∀ p, ((r.incoming p).map Prod.snd).Nodup
  erased : ∀ i ∈ r.erased, (m.instrs i).parent ∈ r.order ∧ Mem2Reg.phiVar m i = none

/-- What the rest of the walk keeps. -/
structure Later (m : Module) (r r' : Renaming) : Prop where
  order : ∀ b ∈ r.order, b ∈ r'.order
  sub : ∀ w, Done m (fun j => (m.instrs j).parent ∉ r.order) w → r'.sub w = r.sub w
  entryStack : ∀ b ∈ r.order, r'.entryStack b = r.entryStack b

theorem Later.refl (m : Module) (r : Renaming) : Later m r r :=
  ⟨fun _ h => h, fun _ _ => rfl, fun _ _ => rfl⟩

theorem Later.trans (h : Later m r r') (h' : Later m r' r'') : Later m r r'' where
  order b hb := h'.order b (h.order b hb)
  sub w hw := by
    rw [h'.sub w (hw.mono fun j hj hj' => hj (h.order _ hj')), h.sub w hw]
  entryStack b hb := (h'.entryStack b (h.order b hb)).trans (h.entryStack b hb)

theorem Later.valsAfter (ha : Arranged m idom S) (h : Later m r r') (hb : b ∈ r.order) (hS : S b)
    (habove : ∀ a, Graph.Ancestor idom a b → a ∈ r.order)
    (hlist : (m.blocks b).instrList = is ++ js) (v : Value) :
    valsAfter m r' b is v = valsAfter m r b is v := by
  have hvals : storedVals m r'.sub is v = storedVals m r.sub is v :=
    ha.storedVals_eq hS habove hlist
      (fun w hw => h.sub w (hw.mono fun j hj => .inl hj)) (List.append_nil is).symm v
  rw [Renaming.valsAfter, Renaming.valsAfter, hvals, h.entryStack b hb]

theorem Later.valsAtEnd (ha : Arranged m idom S) (h : Later m r r') (hb : b ∈ r.order) (hS : S b)
    (habove : ∀ a, Graph.Ancestor idom a b → a ∈ r.order) (v : Value) :
    valsAtEnd m r' b v = valsAtEnd m r b v :=
  h.valsAfter ha hb hS habove (List.append_nil _).symm v

/-- The load `i` of a block entered before keeps its substitute. -/
theorem Later.sub_instruction (h : Later m r r') (hi : (m.instrs i).parent ∈ r.order) :
    r'.sub (.instruction i) = r.sub (.instruction i) := by
  refine h.sub _ fun j hj _ hn => ?_
  cases hj
  exact hn hi

theorem Later.loadsDone (ha : Arranged m idom S) (h : Later m r r') (hb : b ∈ r.order) (hS : S b)
    (habove : ∀ a, Graph.Ancestor idom a b → a ∈ r.order) (hl : LoadsDone m r b) :
    LoadsDone m r' b := by
  intro is i js hlist v hi
  have hp : (m.instrs i).parent ∈ r.order := by
    rw [ha.parent b i (by rw [hlist]; simp)]
    exact hb
  rw [h.valsAfter ha hb hS habove hlist, h.sub_instruction hp, h.entryStack b hb]
  exact hl is i js hlist v hi

theorem Later.erasable (h : Later m r r') (hi : (m.instrs i).parent ∈ r.order) :
    Erasable m r' i ↔ Erasable m r i := by
  rw [Erasable, Erasable, h.sub_instruction hi]

theorem valsAtEnd_eq_nil (ha : Arranged m idom S) (hS : S b) :
    valsAtEnd m r b v = [] ↔ ¬ Def m v b ∧ (r.entryStack b v).getD [] = [] := by
  have hst : ∀ k ∈ (m.blocks b).instrList, ∀ v, Mem2Reg.storedVar m k = some v →
      ((m.instrs k).getOperand 0).isSome := by
    intro k hk v hkv
    obtain ⟨is, js, hlist⟩ := List.append_of_mem hk
    obtain ⟨w, hw, -⟩ := ha.stored b hS is k js hlist v hkv
    simp [hw]
  rw [valsAtEnd, valsAfter, List.append_eq_nil_iff, List.append_eq_nil_iff, storedVals_eq_nil hst,
    phiVals_eq_nil]
  constructor
  · rintro ⟨h1, h2, h3⟩
    refine ⟨?_, h3⟩
    rintro ⟨k, hk, hkv | hkv⟩
    · exact h1 k hk hkv
    · exact h2 k hk hkv
  · rintro ⟨h1, h2⟩
    exact ⟨fun k hk hkv => h1 ⟨k, hk, .inl hkv⟩, fun k hk hkv => h1 ⟨k, hk, .inr hkv⟩, h2⟩

/-- To prove `Q` of the blocks of a walk, prove it of each one from those entered before it. -/
theorem rec_order {order : List Nat} {Q : List Nat → Nat → Prop}
    (step : ∀ pre b post, order = pre ++ b :: post →
      (∀ pre1 c pre2, pre = pre1 ++ c :: pre2 → Q pre1 c) → Q pre b) :
    ∀ pre b post, order = pre ++ b :: post → Q pre b := by
  intro pre
  induction hn : pre.length using Nat.strong_induction_on generalizing pre with
  | _ n ih =>
    intro b post hord
    refine step pre b post hord fun pre1 c pre2 hpre => ?_
    refine ih pre1.length ?_ pre1 rfl c (pre2 ++ b :: post) ?_
    · rw [← hn, hpre]
      simp
    · rw [hord, hpre]
      simp

/-- A stack is empty at the end of a block when no block above gives a value. -/
theorem Walked.vals_eq_nil (ha : Arranged m idom S) (hroot : idom root = some root)
    (h : Walked m idom S root keys r) (hb : b ∈ r.order) :
    valsAtEnd m r b v = [] ↔ ∀ a, Graph.Ancestor idom a b → ¬ Def m v a := by
  constructor
  · intro hnil a hab
    induction hab using Relation.ReflTransGen.head_induction_on with
    | refl => exact ((valsAtEnd_eq_nil ha (h.above a hb).1).mp hnil).1
    | @head b c hbc _ ih =>
      obtain ⟨pre, post, hord⟩ := List.append_of_mem hb
      have hentry := ((valsAtEnd_eq_nil ha (h.above b hb).1).mp hnil).2
      rcases h.entry pre b post hord with ⟨rfl, -⟩ | ⟨a', ha', hidom, -, hvals⟩
      · rw [hroot] at hbc
        cases hbc
        exact ih hb hnil
      · rw [hbc] at hidom
        cases hidom
        exact ih (by rw [hord]; simp [ha']) (by rw [← hvals v, hentry])
  · obtain ⟨pre, post, hord⟩ := List.append_of_mem hb
    refine rec_order (Q := fun _ b => (∀ a, Graph.Ancestor idom a b → ¬ Def m v a) →
      valsAtEnd m r b v = []) ?_ pre b post hord
    intro pre b post hord ih hno
    have hb : b ∈ r.order := by
      rw [hord]
      simp
    refine (valsAtEnd_eq_nil ha (h.above b hb).1).mpr ⟨hno b (.refl _ _), ?_⟩
    rcases h.entry pre b post hord with ⟨-, hnil⟩ | ⟨a, hmem, hidom, -, hvals⟩
    · exact hnil v
    · rw [hvals v]
      obtain ⟨pre1, pre2, hpre⟩ := List.append_of_mem hmem
      exact ih pre1 a pre2 hpre fun c hc => hno c (hc.trans (.of_idom hidom))

/-- A block is entered with an empty stack when no block properly above it gives a value. -/
theorem Walked.entry_eq_nil (ha : Arranged m idom S) (hroot : idom root = some root)
    (hanti : ∀ x y, S y → Graph.Ancestor idom x y → Graph.Ancestor idom y x → x = y)
    (h : Walked m idom S root keys r) (hb : b ∈ r.order) :
    (r.entryStack b v).getD [] = [] ↔ ∀ a, Graph.Ancestor idom a b → a ≠ b → ¬ Def m v a := by
  obtain ⟨pre, post, hord⟩ := List.append_of_mem hb
  rcases h.entry pre b post hord with ⟨rfl, hnil⟩ | ⟨c, hc, hidom, hne, hvals⟩
  · simp only [hnil v, true_iff]
    intro a hab hne
    exact absurd (hab.eq_of_fixed hroot) hne
  · rw [hvals v, h.vals_eq_nil ha hroot (by rw [hord]; simp [hc])]
    constructor
    · intro hno a hab hab'
      obtain ⟨c', hc', hac⟩ := hab.parent hab'
      rw [hidom] at hc'
      cases hc'
      exact hno a hac
    · intro hno a hac
      by_cases hab : a = b
      · subst hab
        exact absurd (hanti c a (h.above a hb).1 (.of_idom hidom) hac) hne
      · exact hno a (hac.trans (.of_idom hidom)) hab

/-- The blocks above a block come before it. -/
theorem Walked.mem_pre (hroot : idom root = some root) (h : Walked m idom S root keys r)
    {pre post : List Nat} (hord : r.order = pre ++ b :: post) (hab : Graph.Ancestor idom a b)
    (hne : a ≠ b) : a ∈ pre := by
  refine rec_order (Q := fun pre b => Graph.Ancestor idom a b → a ≠ b → a ∈ pre) ?_ pre b post hord
    hab hne
  intro pre b post hord ih hab hne
  rcases h.entry pre b post hord with ⟨rfl, -⟩ | ⟨c, hc, hidom, -, -⟩
  · exact absurd (hab.eq_of_fixed hroot) hne
  · obtain ⟨c', hc', hac⟩ := hab.parent hne
    rw [hidom] at hc'
    cases hc'
    by_cases hac' : a = c
    · rwa [hac']
    · obtain ⟨pre1, pre2, hpre⟩ := List.append_of_mem hc
      rw [hpre]
      exact List.mem_append_left _ (ih pre1 c pre2 hpre hac hac')

/-- A value that has been replaced is a load of a block that has been entered. -/
theorem Walked.sub_ne (h : Walked m idom S root keys r) (hs : Shaped m r) (hsub : r.sub v ≠ v) :
    ∃ j, v = .instruction j ∧ (Mem2Reg.loadedVar m j).isSome ∧ (m.instrs j).parent ∈ r.order := by
  obtain ⟨j, rfl, hj⟩ := hs.sub_load v hsub
  refine ⟨j, rfl, hj, ?_⟩
  by_contra hno
  exact hsub ((h.settled.sub_iff j hj hno _).mpr rfl)

/-- A load whose value is stored stands before the store, in its block or in one above. -/
theorem Walked.load_before (ha : Arranged m idom S) (hroot : idom root = some root)
    (h : Walked m idom S root keys r) {pre post : List Nat} (hord : r.order = pre ++ b :: post)
    (hlist : (m.blocks b).instrList = is ++ i :: js) (hi : Mem2Reg.storedVar m i = some v)
    (hw : (m.instrs i).getOperand 0 = some (.instruction j))
    (hj : (Mem2Reg.loadedVar m j).isSome) :
    j ∈ is ∨ ∃ a ∈ pre, Graph.Ancestor idom a b ∧ a ≠ b ∧ j ∈ (m.blocks a).instrList := by
  have hb : b ∈ r.order := by
    rw [hord]
    simp
  obtain ⟨w', hw', hdone⟩ := ha.stored b (h.above b hb).1 is i js hlist v hi
  rw [hw] at hw'
  cases hw'
  rcases hdone j rfl hj with hmem | ⟨hmem, hanc, hne⟩
  · exact .inl hmem
  · exact .inr ⟨_, h.mem_pre hroot hord hanc hne, hanc, hne, hmem⟩

/-- Where a value on a stack comes from: a phi, a value stored as it is, or the value
that has replaced a load stored later. -/
theorem Walked.vals_rec (ha : Arranged m idom S) (hs : Shaped m r)
    (hroot : idom root = some root) (h : Walked m idom S root keys r)
    {P : Nat → List Nat → Value → Value → Prop}
    (phi : ∀ b ∈ r.order, ∀ p ∈ (m.blocks b).instrList, ∀ v, Mem2Reg.phiVar m p = some v →
      P b [] v (.instruction p))
    (stored : ∀ b ∈ r.order, ∀ is i js, (m.blocks b).instrList = is ++ i :: js → ∀ v w,
      Mem2Reg.storedVar m i = some v → (m.instrs i).getOperand 0 = some w → r.sub w = w →
      P b (is ++ [i]) v w)
    (replaced : ∀ b ∈ r.order, ∀ is i js, (m.blocks b).instrList = is ++ i :: js → ∀ v j u,
      Mem2Reg.storedVar m i = some v → (m.instrs i).getOperand 0 = some (.instruction j) →
      Mem2Reg.loadedVar m j = some u →
      ∀ b' ∈ r.order, ∀ is' js', (m.blocks b').instrList = is' ++ j :: js' →
        (b' = b ∧ j ∈ is ∨ Graph.Ancestor idom b' b ∧ b' ≠ b) →
        ∀ x, P b' is' u x → P b (is ++ [i]) v x)
    (grow : ∀ b ∈ r.order, ∀ is js ks, (m.blocks b).instrList = is ++ js ++ ks → ∀ v x,
      P b is v x → P b (is ++ js) v x)
    (down : ∀ a ∈ r.order, ∀ b ∈ r.order, idom b = some a → a ≠ b → ∀ v x,
      P a (m.blocks a).instrList v x → P b [] v x) :
    ∀ b ∈ r.order, ∀ is js, (m.blocks b).instrList = is ++ js → ∀ v, ∀ x ∈ valsAfter m r b is v,
      P b is v x := by
  intro b hb
  obtain ⟨pre, post, hord⟩ := List.append_of_mem hb
  clear hb
  -- by induction on the position of the block, then on the length of the prefix
  refine rec_order (Q := fun _ b => ∀ is js, (m.blocks b).instrList = is ++ js → ∀ v,
    ∀ x ∈ valsAfter m r b is v, P b is v x) ?_ pre b post hord
  intro pre b post hord ihb is
  have hb : b ∈ r.order := by
    rw [hord]
    simp
  have hmem : ∀ {a}, a ∈ pre → a ∈ r.order := by
    intro a hap
    rw [hord]
    exact List.mem_append_left _ hap
  have habove : ∀ a ∈ pre, ∀ is js, (m.blocks a).instrList = is ++ js → ∀ v,
      ∀ x ∈ valsAfter m r a is v, P a is v x := by
    intro a hap
    obtain ⟨pre1, pre2, hpre⟩ := List.append_of_mem hap
    exact ihb pre1 a pre2 hpre
  induction hk : is.length using Nat.strong_induction_on generalizing is with
  | _ k ihk =>
    intro js hlist v x hx
    rcases List.mem_append.mp hx with hx | hx
    · obtain ⟨i, hi, hiv, w, hw, rfl⟩ := mem_storedVals.mp hx
      obtain ⟨is1, is2, rfl⟩ := List.append_of_mem hi
      have hlist1 : (m.blocks b).instrList = is1 ++ i :: (is2 ++ js) := by
        rw [hlist]
        simp
      rw [List.append_cons]
      refine grow b hb (is1 ++ [i]) is2 js (by rw [hlist]; simp) v _ ?_
      by_cases hsub : r.sub w = w
      · rw [hsub]
        exact stored b hb is1 i _ hlist1 v w hiv hw hsub
      · obtain ⟨j, rfl, hj⟩ := hs.sub_load w hsub
        obtain ⟨u, hu⟩ := Option.isSome_iff_exists.mp hj
        -- the value that has replaced the load is on a stack before the store
        have hload : ∀ b' ∈ r.order, ∀ is' js', (m.blocks b').instrList = is' ++ j :: js' →
            r.sub (.instruction j) ∈ valsAfter m r b' is' u :=
          fun b' hb' is' js' hlist' => (h.loads b' hb').mem_vals hlist' hu hsub
        rcases h.load_before ha hroot hord hlist1 hiv hw hj with hjs | ⟨a, hap, hanc, hne, hjs⟩
        · obtain ⟨is', js', rfl⟩ := List.append_of_mem hjs
          have hlist' : (m.blocks b).instrList = is' ++ j :: (js' ++ i :: (is2 ++ js)) := by
            rw [hlist1]
            simp
          refine replaced b hb _ i _ hlist1 v j u hiv hw hu b hb is' _ hlist' (.inl ⟨rfl, hjs⟩) _ ?_
          refine ihk is'.length ?_ is' rfl _ hlist' u _ (hload b hb is' _ hlist')
          rw [← hk]
          simp
        · obtain ⟨is', js', hlist'⟩ := List.append_of_mem hjs
          refine replaced b hb is1 i _ hlist1 v j u hiv hw hu a (hmem hap) is' js' hlist'
            (.inr ⟨hanc, hne⟩) _ ?_
          exact habove a hap is' _ hlist' u _ (hload a (hmem hap) is' js' hlist')
    · rw [← List.nil_append is]
      refine grow b hb [] is js (by rw [hlist]; rfl) v x ?_
      rcases List.mem_append.mp hx with hx | hx
      · obtain ⟨p, hp, hpv, rfl⟩ := mem_phiVals.mp hx
        exact phi b hb p hp v hpv
      · rcases h.entry pre b post hord with ⟨-, hnil⟩ | ⟨a, hap, hidom, hne, hvals⟩
        · rw [hnil v] at hx
          cases hx
        · rw [hvals v] at hx
          refine down a (hmem hap) b hb hidom hne v x ?_
          exact habove a hap _ [] (List.append_nil _).symm v x hx

section

variable {r1 r2 : Renaming} {wait ps : List Nat} {c : Nat}

theorem Walked.instrList_eq (ha : Arranged m idom S) (h : Walked m idom S root keys r)
    (hb : b ∉ r.order) : r.instrList m b = (m.blocks b).instrList := by
  refine List.filter_eq_self.mpr fun i hi => ?_
  simp only [decide_eq_true_eq]
  intro he
  exact hb (ha.parent b i hi ▸ (h.erased i he).1)

/-- What is known of a block when it is entered. -/
structure Enters (m : Module) (idom : Nat → Option Nat) (S : Nat → Prop) (root : Nat) (b : Nat)
    (r : Renaming) : Prop where
  mem : S b
  fresh : b ∉ r.order
  above : ∀ a, Graph.Ancestor idom a b → a ≠ b → a ∈ r.order
  vals : (b = root ∧ ∀ v, (r.stack v).getD [] = []) ∨
    ∃ a ∈ r.order, idom b = some a ∧ a ≠ b ∧ ∀ v, (r.stack v).getD [] = valsAtEnd m r a v

/-- The state after step 3 on block `b`. -/
structure Entered (m : Module) (b : Nat) (r r1 : Renaming) : Prop where
  sub : r1.sub = r.sub
  incoming : r1.incoming = r.incoming
  erased : r1.erased = r.erased
  order : r1.order = r.order ++ [b]
  entryStack : r1.entryStack = Function.update r.entryStack b r.stack
  stack : ∀ v, (r1.stack v).getD [] =
    phiVals m (m.blocks b).instrList v ++ (r.stack v).getD []
  stackKeys : ∀ v, (r1.stack v).isSome ↔ (r.stack v).isSome ∨
    ∃ i ∈ (m.blocks b).instrList, Mem2Reg.phiVar m i = some v

theorem entered (m : Module) (r : Renaming) (b : Nat) :
    Entered m b r ((m.blocks b).instrList.foldl (pushPhi m) (r.enter b)) := by
  obtain ⟨h1, h2, h3⟩ := foldl_pushPhi (m := m) (r := r.enter b) (m.blocks b).instrList
  rw [h1]
  exact ⟨rfl, rfl, rfl, rfl, rfl, h2, h3⟩

theorem phiVar_of_loadedVar (h : Mem2Reg.loadedVar m i = some v) : Mem2Reg.phiVar m i = none := by
  have hl := isLoad_of_loadedVar h
  revert hl
  simp only [Instruction.isLoad, Mem2Reg.phiVar]
  cases (m.instrs i).opId <;> simp

theorem Entered.settled (h1 : Entered m b r r1) (h : Walked m idom S root keys r)
    (hb : b ∉ r.order) :
    Settled m (fun j => (m.instrs j).parent ∉ r1.order ∨ (m.instrs j).parent = b) r1 := by
  have hset : Settled m (fun j => (m.instrs j).parent ∉ r1.order ∨ (m.instrs j).parent = b) r :=
    h.settled.mono fun j hj => by
      rcases hj with hj | hj
      · rw [h1.order, List.mem_append, not_or] at hj
        exact hj.1
      · rw [hj]
        exact hb
  refine ⟨fun j hj ht w => by rw [h1.sub]; exact hset.sub_iff j hj ht w, fun v x hx => ?_,
    by rw [h1.incoming]; exact hset.incoming⟩
  rw [h1.stack v] at hx
  rcases List.mem_append.mp hx with hx | hx
  · intro j hj hl
    obtain ⟨k, -, hkv, rfl⟩ := mem_phiVals.mp hx
    cases hj
    obtain ⟨u, hu⟩ := Option.isSome_iff_exists.mp hl
    rw [phiVar_of_loadedVar hu] at hkv
    cases hkv
  · exact hset.stack v x hx

/-- Steps 3, 4 and 5 on a block that the walk enters. -/
structure Loaded (m : Module) (b : Nat) (r r2 : Renaming) : Prop where
  later : Later m r r2
  order : r2.order = r.order ++ [b]
  erased : r2.erased = r.erased
  incoming : r2.incoming = r.incoming
  entryStack : r2.entryStack b = r.stack
  settled : Settled m (fun j => (m.instrs j).parent ∉ r2.order) r2
  stack : ∀ v, (r2.stack v).getD [] = valsAtEnd m r2 b v
  stackKeys : ∀ v, (r2.stack v).isSome ↔ (r.stack v).isSome ∨ Def m v b
  loads : LoadsDone m r2 b

theorem Renamed.loaded (h1 : Entered m b r r1) (hb : b ∉ r.order)
    (h2 : Renamed m b r1 (m.blocks b).instrList (r2, wait)) : Loaded m b r r2 where
  later := by
    refine ⟨fun c hc => ?_, fun w hw => ?_, fun c hc => ?_⟩
    · rw [h2.order, h1.order]
      exact List.mem_append_left _ hc
    · rw [h2.sub w (hw.mono fun j hj => ?_), h1.sub]
      rcases hj with hj | hj
      · rw [h1.order, List.mem_append, not_or] at hj
        exact hj.1
      · rw [hj]
        exact hb
    · rw [h2.entryStack, h1.entryStack, Function.update_of_ne]
      rintro rfl
      exact hb hc
  order := h2.order.trans h1.order
  erased := h2.erased.trans h1.erased
  incoming := h2.incoming.trans h1.incoming
  entryStack := by
    rw [h2.entryStack, h1.entryStack, Function.update_self]
  settled := h2.settled.mono fun j hj => .inl (by rw [← h2.order]; exact hj)
  stack v := by
    rw [valsAtEnd, valsAfter, h2.entryStack, h1.entryStack, Function.update_self, ← h1.stack v]
    exact h2.stack v
  stackKeys v := by
    refine (h2.keys v).trans ?_
    rw [h1.stackKeys v, or_assoc]
    refine or_congr_right ?_
    constructor
    · rintro (⟨i, hi, hiv⟩ | ⟨i, hi, hiv⟩)
      · exact ⟨i, hi, .inr hiv⟩
      · exact ⟨i, hi, .inl hiv⟩
    · rintro ⟨i, hi, hiv | hiv⟩
      · exact .inr ⟨i, hi, hiv⟩
      · exact .inl ⟨i, hi, hiv⟩
  loads is i js hlist v hi := by
    have hafter : valsAfter m r2 b is v = storedVals m r2.sub is v ++ (r1.stack v).getD [] := by
      rw [valsAfter, h2.entryStack, h1.entryStack, Function.update_self, ← h1.stack v]
    rw [hafter, h2.entryStack, h1.entryStack, Function.update_self]
    obtain ⟨hhead, hnil⟩ := h2.loads is i js hlist v hi
    refine ⟨hhead, fun he => ⟨(hnil he).1, ?_⟩⟩
    have hkeys := h1.stackKeys v
    simp only [(hnil he).2, Option.isSome_none, Bool.false_eq_true, false_iff, not_or] at hkeys
    exact Option.not_isSome_iff_eq_none.mp hkeys.1

theorem mem_newPair {stack : VarValStack} {pair : Value × Nat} :
    pair ∈ newPair m stack b p ↔ ∃ v, Mem2Reg.phiVar m p = some v ∧
      ((stack v).getD []).head? = some pair.1 ∧ pair.2 = b := by
  obtain ⟨x, c⟩ := pair
  unfold newPair
  cases Mem2Reg.phiVar m p with
  | none => simp
  | some v =>
    simp only [Option.some.injEq, exists_eq_left', Option.mem_toList, Option.map_eq_some_iff,
      Prod.mk.injEq]
    constructor
    · rintro ⟨y, hy, rfl, rfl⟩
      exact ⟨hy, rfl⟩
    · rintro ⟨hx, rfl⟩
      exact ⟨x, hx, rfl, rfl⟩

theorem nodup_newPair (stack : VarValStack) (b p : Nat) :
    ((newPair m stack b p).map Prod.snd).Nodup := by
  unfold newPair
  cases Mem2Reg.phiVar m p with
  | none => exact .nil
  | some v =>
    dsimp only
    cases ((stack v).getD []).head? <;> simp

theorem Loaded.mem (h2 : Loaded m b r r2) : c ∈ r2.order ↔ c ∈ r.order ∨ c = b := by
  rw [h2.order]
  simp

theorem Loaded.split (h2 : Loaded m b r r2) {pre post : List Nat}
    (hord : r2.order = pre ++ c :: post) :
    (pre = r.order ∧ c = b) ∨ ∃ post', r.order = pre ++ c :: post' := by
  rw [h2.order] at hord
  rcases append_split hord with ⟨h1, h2, -⟩ | ⟨post', h1, -⟩
  · exact .inl ⟨h1, h2⟩
  · exact .inr ⟨post', h1⟩

theorem Loaded.vals (ha : Arranged m idom S) (h : Walked m idom S root keys r)
    (h2 : Loaded m b r r2) (hc : c ∈ r.order) (v : Value) :
    valsAtEnd m r2 c v = valsAtEnd m r c v :=
  h2.later.valsAtEnd ha hc (h.above c hc).1 (h.above c hc).2 v

theorem Loaded.above (h : Walked m idom S root keys r) (he : Enters m idom S root b r)
    (h2 : Loaded m b r r2) (hc : c ∈ r2.order) :
    S c ∧ ∀ a, Graph.Ancestor idom a c → a ∈ r2.order := by
  rcases h2.mem.mp hc with hc | rfl
  · exact ⟨(h.above c hc).1, fun a hac => h2.later.order a ((h.above c hc).2 a hac)⟩
  · refine ⟨he.mem, fun a hac => h2.mem.mpr ?_⟩
    by_cases hne : a = c
    · exact .inr hne
    · exact .inl (he.above a hac hne)

theorem Loaded.stackKeys_order (h : Walked m idom S root keys r) (h2 : Loaded m b r r2)
    (v : Value) : (r2.stack v).isSome ↔ keys v ∨ ∃ d ∈ r2.order, Def m v d := by
  refine (h2.stackKeys v).trans ?_
  rw [h.stackKeys v, or_assoc]
  refine or_congr_right ?_
  simp [h2.order, or_and_right, exists_or]

theorem Loaded.entryKeys (h : Walked m idom S root keys r) (h2 : Loaded m b r r2)
    {pre post : List Nat} (hord : r2.order = pre ++ c :: post) (v : Value) :
    (r2.entryStack c v).isSome ↔ keys v ∨ ∃ d ∈ pre, Def m v d := by
  rcases h2.split hord with ⟨rfl, rfl⟩ | ⟨post', hord'⟩
  · rw [h2.entryStack]
    exact h.stackKeys v
  · rw [h2.later.entryStack c (by rw [hord']; simp)]
    exact h.entryKeys pre c post' hord' v

theorem Loaded.entry (ha : Arranged m idom S) (h : Walked m idom S root keys r)
    (he : Enters m idom S root b r) (h2 : Loaded m b r r2) {pre post : List Nat}
    (hord : r2.order = pre ++ c :: post) :
    (c = root ∧ ∀ v, (r2.entryStack c v).getD [] = []) ∨
      ∃ a ∈ pre, idom c = some a ∧ a ≠ c ∧ ∀ v, (r2.entryStack c v).getD [] = valsAtEnd m r2 a v := by
  rcases h2.split hord with ⟨rfl, rfl⟩ | ⟨post', hord'⟩
  · rw [h2.entryStack]
    refine he.vals.imp_right ?_
    rintro ⟨a, hao, hidom, hne, hv⟩
    exact ⟨a, hao, hidom, hne, fun v => (hv v).trans (h2.vals ha h hao v).symm⟩
  · rw [h2.later.entryStack c (by rw [hord']; simp)]
    refine (h.entry pre c post' hord').imp_right ?_
    rintro ⟨a, hao, hidom, hne, hv⟩
    have har : a ∈ r.order := by
      rw [hord']
      exact List.mem_append_left _ hao
    exact ⟨a, hao, hidom, hne, fun v => (hv v).trans (h2.vals ha h har v).symm⟩

theorem Loaded.loadsDone (ha : Arranged m idom S) (h : Walked m idom S root keys r)
    (h2 : Loaded m b r r2) (hc : c ∈ r2.order) : LoadsDone m r2 c := by
  rcases h2.mem.mp hc with hc | rfl
  · exact h2.later.loadsDone ha hc (h.above c hc).1 (h.above c hc).2 (h.loads c hc)
  · exact h2.loads

/-- `re_name` erases no phi, so step 6 comes past all of them. -/
theorem Loaded.mem_phis (h : Walked m idom S root keys r) (h2 : Loaded m b r r2) {s : Nat}
    (hs : s ∈ (m.blocks b).succBbs) (hp : p ∈ (m.blocks s).instrList)
    (hv : Mem2Reg.phiVar m p = some v) :
    p ∈ (m.blocks b).succBbs.flatMap (r2.instrList m) := by
  refine List.mem_flatMap.mpr ⟨s, hs, List.mem_filter.mpr ⟨hp, ?_⟩⟩
  simp only [decide_eq_true_eq]
  intro her
  rw [h2.erased] at her
  rw [(h.erased p her).2] at hv
  cases hv

theorem Loaded.edges_old (ha : Arranged m idom S) (h : Walked m idom S root keys r)
    (h2 : Loaded m b r r2) (ps : List Nat) (hc : c ∈ r.order) :
    EdgesDone m (withPairs m r2 b ps) c := by
  intro s hs p hp v hv
  obtain ⟨h3, h4⟩ := h.edges c hc s hs p hp v hv
  change (∀ x, (valsAtEnd m r2 c v).head? = some x → _) ∧ (valsAtEnd m r2 c v = [] → _)
  rw [h2.vals ha h hc v]
  refine ⟨fun x hx => List.mem_append_left _ ?_, fun hnil => ?_⟩
  · rw [h2.incoming]
    exact h3 x hx
  · exact (congrFun (h2.later.entryStack c hc) v).trans (h4 hnil)

theorem Loaded.edges_new (h2 : Loaded m b r r2) {ps : List Nat}
    (hps : ∀ s ∈ (m.blocks b).succBbs, ∀ p ∈ (m.blocks s).instrList, ∀ v,
      Mem2Reg.phiVar m p = some v → p ∈ ps)
    (hok : ∀ p ∈ ps, ∀ v, Mem2Reg.phiVar m p = some v → r2.stack v ≠ some []) :
    EdgesDone m (withPairs m r2 b ps) b := by
  intro s hs p hp v hv
  have hpm := hps s hs p hp v hv
  change (∀ x, (valsAtEnd m r2 b v).head? = some x → _) ∧ (valsAtEnd m r2 b v = [] → _)
  rw [← h2.stack v]
  refine ⟨fun x hx => List.mem_append_right _ ?_, fun hnil => ?_⟩
  · rw [if_pos hpm]
    exact mem_newPair.mpr ⟨v, hv, hx, rfl⟩
  · change r2.entryStack b v = none
    rw [h2.entryStack]
    have hnone : r2.stack v = none := by
      cases hst : r2.stack v with
      | none => rfl
      | some vals =>
        rw [hst, Option.getD_some] at hnil
        exact absurd (by rw [hst, hnil]) (hok p hpm v hv)
    have hkeys := h2.stackKeys v
    simp only [hnone, Option.isSome_none, Bool.false_eq_true, false_iff, not_or] at hkeys
    exact Option.not_isSome_iff_eq_none.mp hkeys.1

theorem Loaded.mem_incoming (ha : Arranged m idom S) (h : Walked m idom S root keys r)
    (h2 : Loaded m b r r2) {pair : Value × Nat}
    (hp : pair ∈ (withPairs m r2 b ((m.blocks b).succBbs.flatMap (r2.instrList m))).incoming p) :
    pair.2 ∈ r2.order ∧ ∃ s ∈ (m.blocks pair.2).succBbs, p ∈ (m.blocks s).instrList ∧
      ∃ v, Mem2Reg.phiVar m p = some v ∧ (valsAtEnd m r2 pair.2 v).head? = some pair.1 := by
  rcases List.mem_append.mp hp with hp | hp
  · rw [h2.incoming] at hp
    obtain ⟨hpo, s, hs, hps, v, hv, hx⟩ := h.incoming p pair hp
    refine ⟨h2.later.order _ hpo, s, hs, hps, v, hv, ?_⟩
    rw [h2.vals ha h hpo]
    exact hx
  · split at hp
    · rename_i hpm
      obtain ⟨s, hs, hps⟩ := List.mem_flatMap.mp hpm
      obtain ⟨v, hv, hx, hpb⟩ := mem_newPair.mp hp
      rw [hpb]
      refine ⟨h2.mem.mpr (.inr rfl), s, hs, List.mem_of_mem_filter hps, v, hv, ?_⟩
      rw [← h2.stack v]
      exact hx
    · cases hp

/-- No phi has a pair for `b` before step 6 on `b`. -/
theorem Loaded.incoming_nodup (h : Walked m idom S root keys r) (he : Enters m idom S root b r)
    (h2 : Loaded m b r r2) (ps : List Nat) (p : Nat) :
    (((withPairs m r2 b ps).incoming p).map Prod.snd).Nodup := by
  have hold : b ∉ (r2.incoming p).map Prod.snd := by
    rw [h2.incoming]
    intro hmem
    obtain ⟨pair, hp, hpb⟩ := List.mem_map.mp hmem
    exact he.fresh (hpb ▸ (h.incoming p pair hp).1)
  have hnd : ((r2.incoming p).map Prod.snd).Nodup := by
    rw [h2.incoming]
    exact h.incoming_nodup p
  change ((r2.incoming p ++ _).map Prod.snd).Nodup
  split
  · rw [List.map_append]
    refine hnd.append (nodup_newPair _ _ _) ?_
    intro c hc hc'
    obtain ⟨pair, hp, rfl⟩ := List.mem_map.mp hc'
    obtain ⟨v, -, -, hpb⟩ := mem_newPair.mp hp
    exact hold (hpb ▸ hc)
  · rw [List.append_nil]
    exact hnd

/-- The state when step 6 on `b` is complete. -/
theorem Loaded.walked (ha : Arranged m idom S) (h : Walked m idom S root keys r)
    (he : Enters m idom S root b r) (h2 : Loaded m b r r2)
    (hok : ∀ p ∈ (m.blocks b).succBbs.flatMap (r2.instrList m), ∀ v,
      Mem2Reg.phiVar m p = some v → r2.stack v ≠ some []) :
    Walked m idom S root keys
      (withPairs m r2 b ((m.blocks b).succBbs.flatMap (r2.instrList m))) where
  settled := by
    refine ⟨h2.settled.sub_iff, h2.settled.stack, fun p pair hp => ?_⟩
    rcases List.mem_append.mp hp with hp | hp
    · exact h2.settled.incoming p pair hp
    · split at hp
      · obtain ⟨v, -, hv, -⟩ := mem_newPair.mp hp
        exact h2.settled.stack v _ (List.mem_of_mem_head? hv)
      · cases hp
  above c hc := by
    have habove := h2.above h he hc
    exact habove
  stackKeys v := h2.stackKeys_order h v
  entryKeys _ _ _ hord v := h2.entryKeys h hord v
  entry _ _ _ hord := h2.entry ha h he hord
  loads c hc := by
    have hloads := h2.loadsDone ha h hc
    exact hloads
  edges c hc := by
    rcases h2.mem.mp hc with hc | rfl
    · exact h2.edges_old ha h _ hc
    · exact h2.edges_new (fun s hs p hp v hv => h2.mem_phis h hs hp hv) hok
  incoming _ _ hp := h2.mem_incoming ha h hp
  incoming_nodup p := h2.incoming_nodup h he _ p
  erased i hi := by
    change i ∈ r2.erased at hi
    rw [h2.erased] at hi
    exact ⟨h2.later.order _ (h.erased i hi).1, (h.erased i hi).2⟩

end

section

variable {children : Nat → List Nat} {L L' : List Nat} {r1 r2 r3 r4 : Renaming} {wait : List Nat}

/-- The cause of a fault: on the way to a block no value of a variable is left, although
the walk has come past one before. -/
def Blame (m : Module) (idom : Nat → Option Nat) (keys : Value → Prop) (order : List Nat)
    (fault : Fault) : Prop :=
  ∃ pre b post v, order = pre ++ b :: post ∧ (keys v ∨ ∃ d ∈ pre, Def m v d) ∧
    (∀ a, Graph.Ancestor idom a b → a ≠ b → ¬ Def m v a) ∧
    (fault = .assertion ∧ ¬ Def m v b ∧
        (∃ s ∈ (m.blocks b).succBbs, ∃ p ∈ (m.blocks s).instrList, Mem2Reg.phiVar m p = some v) ∨
      fault = .undefinedBehaviour ∧ (∀ p ∈ (m.blocks b).instrList, Mem2Reg.phiVar m p ≠ some v) ∧
        ∃ is i js, (m.blocks b).instrList = is ++ i :: js ∧ Mem2Reg.loadedVar m i = some v ∧
          ∀ k ∈ is, Mem2Reg.storedVar m k ≠ some v)

/-- On the way to block `b` the walk has come past the blocks `pre`, and the vector of `v` is
left without a value. -/
def Emptied (m : Module) (idom : Nat → Option Nat) (keys : Value → Prop) (pre : List Nat) (b : Nat)
    (v : Value) : Prop :=
  (keys v ∨ ∃ d ∈ pre, Def m v d) ∧ ∀ a, Graph.Ancestor idom a b → a ≠ b → ¬ Def m v a

/-- A load of block `b` takes the value of a variable of `E` that the block has not given one. -/
def ReadsFrom (m : Module) (E : Value → Prop) (b : Nat) : Prop :=
  ∃ v, E v ∧ (∀ p ∈ (m.blocks b).instrList, Mem2Reg.phiVar m p ≠ some v) ∧
    ∃ is i js, (m.blocks b).instrList = is ++ i :: js ∧ Mem2Reg.loadedVar m i = some v ∧
      ∀ k ∈ is, Mem2Reg.storedVar m k ≠ some v

/-- A phi behind block `b` takes the value of a variable of `E` that the block gives none. -/
def CompletesFrom (m : Module) (E : Value → Prop) (b : Nat) : Prop :=
  ∃ v, E v ∧ ¬ Def m v b ∧
    ∃ s ∈ (m.blocks b).succBbs, ∃ p ∈ (m.blocks s).instrList, Mem2Reg.phiVar m p = some v

/-- The first block of the walk that finds a vector empty where it takes a value. -/
def FirstBlame (m : Module) (idom : Nat → Option Nat) (keys : Value → Prop) (order : List Nat)
    (fault : Fault) : Prop :=
  ∃ pre b post, order = pre ++ b :: post ∧
    (∀ pre' c post', pre = pre' ++ c :: post' → ¬ ReadsFrom m (Emptied m idom keys pre' c) c ∧
      ¬ CompletesFrom m (Emptied m idom keys pre' c) c) ∧
    (fault = .undefinedBehaviour ∧ ReadsFrom m (Emptied m idom keys pre b) b ∨
      fault = .assertion ∧ ¬ ReadsFrom m (Emptied m idom keys pre b) b ∧
        CompletesFrom m (Emptied m idom keys pre b) b)

theorem FirstBlame.append {order : List Nat} {fault : Fault}
    (h : FirstBlame m idom keys order fault) (rest : List Nat) :
    FirstBlame m idom keys (order ++ rest) fault := by
  obtain ⟨pre, b, post, hord, hrest⟩ := h
  exact ⟨pre, b, post ++ rest, by rw [hord]; simp, hrest⟩

theorem FirstBlame.ne_outOfFuel {order : List Nat} {fault : Fault}
    (h : FirstBlame m idom keys order fault) : fault ≠ .outOfFuel := by
  obtain ⟨pre, b, post, -, -, ⟨rfl, -⟩ | ⟨rfl, -⟩⟩ := h
  · simp
  · simp

theorem FirstBlame.blame {order : List Nat} {fault : Fault}
    (h : FirstBlame m idom keys order fault) : Blame m idom keys order fault := by
  obtain ⟨pre, b, post, hord, -, ⟨hfault, v, hv, hload⟩ | ⟨hfault, -, v, hv, hphi⟩⟩ := h
  · exact ⟨pre, b, post, v, hord, hv.1, hv.2, .inr ⟨hfault, hload⟩⟩
  · exact ⟨pre, b, post, v, hord, hv.1, hv.2, .inl ⟨hfault, hphi⟩⟩

/-- The blocks that the walk has come past have found a value wherever they take one. -/
theorem Walked.found (ha : Arranged m idom S) (hroot : idom root = some root)
    (hanti : ∀ x y, S y → Graph.Ancestor idom x y → Graph.Ancestor idom y x → x = y)
    (h : Walked m idom S root keys r) {pre post : List Nat} {c : Nat}
    (hord : r.order = pre ++ c :: post) :
    ¬ ReadsFrom m (Emptied m idom keys pre c) c ∧
      ¬ CompletesFrom m (Emptied m idom keys pre c) c := by
  have hc : c ∈ r.order := by rw [hord]; simp
  have hsome : ∀ v, Emptied m idom keys pre c v → r.entryStack c v ≠ none := by
    intro v hv he
    have := (h.entryKeys pre c post hord v).mpr hv.1
    rw [he] at this
    cases this
  have hnil : ∀ v, Emptied m idom keys pre c v → (r.entryStack c v).getD [] = [] :=
    fun v hv => (h.entry_eq_nil ha hroot hanti hc).mpr hv.2
  constructor
  · rintro ⟨v, hv, hphi, is, i, js, hlist, hload, hst⟩
    refine hsome v hv (((h.loads c hc) is i js hlist v hload).2 ?_).2
    rw [valsAfter, phiVals_eq_nil.mpr hphi, hnil v hv]
    simpa [storedVals] using fun k hk hkv => absurd hkv (hst k hk)
  · rintro ⟨v, hv, hdef, s, hs, p, hp, hpv⟩
    refine hsome v hv ((h.edges c hc s hs p hp v hpv).2 ?_)
    exact (valsAtEnd_eq_nil ha (h.above c hc).1).mpr ⟨hdef, hnil v hv⟩

/-- A block is entered with an empty vector when no block properly above it gives a value. -/
theorem Enters.stack_eq_nil (ha : Arranged m idom S) (hroot : idom root = some root)
    (hanti : ∀ x y, S y → Graph.Ancestor idom x y → Graph.Ancestor idom y x → x = y)
    (h : Walked m idom S root keys r) (he : Enters m idom S root b r) :
    (r.stack v).getD [] = [] ↔ ∀ a, Graph.Ancestor idom a b → a ≠ b → ¬ Def m v a := by
  rcases he.vals with ⟨rfl, hnil⟩ | ⟨c, hc, hidom, hne, hvals⟩
  · simp only [hnil v, true_iff]
    intro a hab hne
    exact absurd (hab.eq_of_fixed hroot) hne
  · rw [hvals v, h.vals_eq_nil ha hroot hc]
    constructor
    · intro hno a hab hne'
      obtain ⟨c', hc', hac⟩ := hab.parent hne'
      rw [hidom] at hc'
      cases hc'
      exact hno a hac
    · intro hno a hac
      refine hno a (hac.trans (.of_idom hidom)) ?_
      rintro rfl
      exact hne (hanti c a he.mem (.of_idom hidom) hac)

/-- The walk has come from `r` to `r'` past the blocks `L`. -/
structure Spans (m : Module) (idom : Nat → Option Nat) (S : Nat → Prop) (root : Nat)
    (keys : Value → Prop) (L : List Nat) (r r' : Renaming) : Prop where
  walked : Walked m idom S root keys r'
  later : Later m r r'
  order : r'.order = r.order ++ L
  stack : ∀ v, (r'.stack v).getD [] = (r.stack v).getD []
  erased : ∀ c ∈ L, ∀ i ∈ (m.blocks c).instrList, i ∈ r'.erased ↔ Erasable m r' i
  kept : ∀ i, (m.instrs i).parent ∉ L → (i ∈ r'.erased ↔ i ∈ r.erased)

theorem Spans.refl (h : Walked m idom S root keys r) : Spans m idom S root keys [] r r :=
  ⟨h, .refl m r, by simp, fun _ => rfl, by simp, fun _ _ => Iff.rfl⟩

theorem Spans.trans (ha : Arranged m idom S) (h : Spans m idom S root keys L r r')
    (h' : Spans m idom S root keys L' r' r'') (hdisj : ∀ c ∈ L, c ∉ L') :
    Spans m idom S root keys (L ++ L') r r'' where
  walked := h'.walked
  later := h.later.trans h'.later
  order := by rw [h'.order, h.order, List.append_assoc]
  stack v := (h'.stack v).trans (h.stack v)
  erased c hc i hi := by
    rcases List.mem_append.mp hc with hc | hc
    · have hp : (m.instrs i).parent ∈ L := by rwa [ha.parent c i hi]
      have ho : (m.instrs i).parent ∈ r'.order := by
        rw [h.order]
        exact List.mem_append_right _ hp
      rw [h'.kept i (hdisj _ hp), h.erased c hc i hi, h'.later.erasable ho]
    · exact h'.erased c hc i hi
  kept i hi := by
    rw [List.mem_append, not_or] at hi
    rw [h'.kept i hi.2, h.kept i hi.1]

/-- Step 8 and the erasures of block `b`. -/
theorem leave_spec (ha : Arranged m idom S) (h : Walked m idom S root keys r)
    (he : Enters m idom S root b r) (h2 : Loaded m b r r2)
    (hwait : ∀ i, i ∈ wait ↔ i ∈ (m.blocks b).instrList ∧ Erasable m r2 i)
    (h4 : Spans m idom S root keys L r3 r4) (hb : b ∉ L)
    (hsub : r3.sub = r2.sub) (hentry : r3.entryStack = r2.entryStack)
    (hstack : r3.stack = r2.stack) (herased : r3.erased = r2.erased)
    (horder : r3.order = r2.order) :
    ∃ stack, (r4.instrList m b).foldlM (Mem2Reg.popInstr m) r4.stack = .ok stack ∧
      Spans m idom S root keys (b :: L) r
        { r4 with erased := r4.erased ++ wait, stack := stack } := by
  have hlater : Later m r r3 := by
    refine ⟨fun c hc => ?_, fun w hw => ?_, fun c hc => ?_⟩
    · rw [horder]
      exact h2.later.order c hc
    · rw [hsub]
      exact h2.later.sub w hw
    · rw [hentry]
      exact h2.later.entryStack c hc
  have horder4 : r4.order = r.order ++ b :: L := by
    rw [h4.order, horder, h2.order]
    simp
  have hbo : b ∈ r4.order := by simp [horder4]
  have hnot : ∀ i ∈ (m.blocks b).instrList, i ∉ r4.erased := by
    intro i hi hie
    rw [h4.kept i (by rwa [ha.parent b i hi]), herased, h2.erased] at hie
    exact he.fresh (ha.parent b i hi ▸ (h.erased i hie).1)
  have hlist : r4.instrList m b = (m.blocks b).instrList := by
    refine List.filter_eq_self.mpr fun i hi => ?_
    simpa using hnot i hi
  have hst : ∀ k ∈ (m.blocks b).instrList, ∀ v, Mem2Reg.storedVar m k = some v →
      ((m.instrs k).getOperand 0).isSome := by
    intro k hk v hkv
    obtain ⟨is, js, hl⟩ := List.append_of_mem hk
    obtain ⟨w, hw, -⟩ := ha.stored b he.mem is k js hl v hkv
    simp [hw]
  obtain ⟨stack, hpop, hbase, hsome⟩ := popInstrs_spec r2.sub r4.stack
    (fun v => (r.stack v).getD []) (m.blocks b).instrList hst fun v => by
      refine ⟨storedVals m r2.sub (m.blocks b).instrList v ++ phiVals m (m.blocks b).instrList v, ?_,
        by rw [List.length_append]⟩
      rw [h4.stack v, hstack, h2.stack v, valsAtEnd, valsAfter, h2.entryStack, List.append_assoc]
  rw [hlist]
  refine ⟨stack, hpop, ⟨⟨?_, h4.walked.above, fun v => (hsome v).trans (h4.walked.stackKeys v),
    h4.walked.entryKeys, h4.walked.entry, h4.walked.loads, h4.walked.edges, h4.walked.incoming,
    h4.walked.incoming_nodup, fun i hi => ?_⟩, ?_, horder4, hbase, fun c hc i hi => ?_, fun i hi => ?_⟩⟩
  · refine ⟨h4.walked.settled.sub_iff, fun v x hx => ?_, h4.walked.settled.incoming⟩
    have hx' : x ∈ (r.stack v).getD [] := by rw [← hbase v]; exact hx
    refine (h.settled.stack v x hx').mono fun j hj hj' => hj ?_
    change _ ∈ r4.order
    rw [horder4]
    exact List.mem_append_left _ hj'
  · rcases List.mem_append.mp hi with hi | hi
    · exact h4.walked.erased i hi
    · obtain ⟨hi, her⟩ := (hwait i).mp hi
      refine ⟨by change _ ∈ r4.order; rw [ha.parent b i hi]; exact hbo, ?_⟩
      rcases her with her | ⟨her, -⟩
      · obtain ⟨v, hv⟩ := Option.isSome_iff_exists.mp her
        exact phiVar_of_storedVar hv
      · obtain ⟨v, hv⟩ := Option.isSome_iff_exists.mp her
        exact phiVar_of_loadedVar hv
  · have hl := hlater.trans h4.later
    exact ⟨hl.order, hl.sub, hl.entryStack⟩
  · have hp : (m.instrs i).parent = c := ha.parent c i hi
    change i ∈ r4.erased ++ wait ↔ Erasable m r4 i
    rcases List.mem_cons.mp hc with rfl | hc
    · have hsub4 : r4.sub (.instruction i) = r2.sub (.instruction i) := by
        rw [h4.later.sub_instruction (by rw [hp, horder, h2.order]; simp), hsub]
      rw [List.mem_append, hwait i, Erasable, Erasable, hsub4]
      simp [hnot i hi, hi]
    · have hnw : i ∉ wait := by
        intro hw
        rw [hwait i] at hw
        exact hb (ha.parent b i hw.1 ▸ hp ▸ hc)
      rw [List.mem_append, h4.erased c hc i hi]
      simp [hnw]
  · change i ∈ r4.erased ++ wait ↔ _
    rw [List.mem_cons, not_or] at hi
    have hnw : i ∉ wait := by
      intro hw
      rw [hwait i] at hw
      exact hi.1 (ha.parent b i hw.1)
    rw [List.mem_append, h4.kept i hi.2, herased, h2.erased]
    simp [hnw]

theorem Arranged.nodup_succ (ha : Arranged m idom S) (hb : S b) (r : Renaming) :
    ((m.blocks b).succBbs.flatMap (r.instrList m)).Nodup := by
  rw [List.nodup_flatMap]
  refine ⟨fun s hs => (ha.nodup s (ha.succ b hb s hs)).filter _,
    (ha.succ_nodup b hb).imp fun {s s'} hne i hi hi' => hne ?_⟩
  rw [← ha.parent s i (List.mem_of_mem_filter hi), ha.parent s' i (List.mem_of_mem_filter hi')]

/-- Steps 3 to 6 on block `b`, with `wait_delete`. -/
def arrive (m : Module) (b : Nat) (r : Renaming) : Exec (Renaming × List Nat) := do
  let r := (r.instrList m b).foldl (pushPhi m) (r.enter b)
  let (r, waitDelete) ← (r.instrList m b).foldlM (renameInstr m) (r, [])
  let r ← (m.blocks b).succBbs.foldlM
    (fun r succ => (r.instrList m succ).foldlM (completePhi m b) r) r
  return (r, waitDelete)

theorem walk_succ (d : Dominators) (fuel b : Nat) (r : Renaming) :
    walk m d (fuel + 1) b r = (do
      let (r, waitDelete) ← arrive m b r
      let r ← (d.domTreeSuccBlocks (some b)).foldlM (fun r succ => walk m d fuel succ r) r
      let stack ← (r.instrList m b).foldlM (Mem2Reg.popInstr m) r.stack
      return { r with erased := r.erased ++ waitDelete, stack := stack }) := by
  simp only [walk, arrive, bind_assoc, pure_bind]

/-- The walk has completed steps 3 to 6 on block `b`. -/
structure Arrived (m : Module) (idom : Nat → Option Nat) (S : Nat → Prop) (root : Nat)
    (keys : Value → Prop) (b : Nat) (r r3 : Renaming) (wait : List Nat) : Prop where
  walked : Walked m idom S root keys r3
  above : ∀ a, Graph.Ancestor idom a b → a ∈ r3.order
  loaded : ∃ r2, Loaded m b r r2 ∧
    r3 = withPairs m r2 b ((m.blocks b).succBbs.flatMap (r2.instrList m)) ∧
    ∀ i, i ∈ wait ↔ i ∈ (m.blocks b).instrList ∧ Erasable m r2 i

theorem Arrived.order (h : Arrived m idom S root keys b r r3 wait) : r3.order = r.order ++ [b] := by
  obtain ⟨r2, h2, rfl, -⟩ := h.loaded
  exact h2.order

theorem Arrived.stack (h : Arrived m idom S root keys b r r3 wait) (v : Value) :
    (r3.stack v).getD [] = valsAtEnd m r3 b v := by
  obtain ⟨r2, h2, rfl, -⟩ := h.loaded
  exact h2.stack v

/-- Steps 3 to 6 fail only where the vector of a variable has been emptied. -/
theorem arrive_spec (ha : Arranged m idom S) (hroot : idom root = some root)
    (hanti : ∀ x y, S y → Graph.Ancestor idom x y → Graph.Ancestor idom y x → x = y)
    (h : Walked m idom S root keys r) (he : Enters m idom S root b r) :
    Exec.Meets (fun x => Arrived m idom S root keys b r x.1 x.2)
      (fun fault => fault = .undefinedBehaviour ∧ ReadsFrom m (Emptied m idom keys r.order b) b ∨
        fault = .assertion ∧ ¬ ReadsFrom m (Emptied m idom keys r.order b) b ∧
          CompletesFrom m (Emptied m idom keys r.order b) b)
      (arrive m b r) := by
  have hlist := h.instrList_eq ha he.fresh
  have h1 := entered m r b
  have habove : ∀ a, Graph.Ancestor idom a b →
      a ∈ ((m.blocks b).instrList.foldl (pushPhi m) (r.enter b)).order := by
    intro a hab
    rw [h1.order]
    by_cases hne : a = b
    · simp [hne]
    · exact List.mem_append_left _ (he.above a hab hne)
  have hlist1 : ((m.blocks b).instrList.foldl (pushPhi m) (r.enter b)).instrList m b =
      (m.blocks b).instrList := by
    rw [instrList, h1.erased]
    exact hlist
  have hemptied : ∀ v, (r.stack v).isSome → (r.stack v).getD [] = [] →
      Emptied m idom keys r.order b v :=
    fun v hsome hnil => ⟨(h.stackKeys v).mp hsome, (he.stack_eq_nil ha hroot hanti h).mp hnil⟩
  simp only [arrive]
  rw [hlist, hlist1]
  refine (renameInstrs_spec ha he.mem habove (h1.settled h he.fresh)
    fun is i js v hsplit hload hno hst => ?_).bind ?_
  · have hvals := h1.stack v
    rw [hst, Option.getD_some] at hvals
    obtain ⟨hphi, hnil⟩ := List.append_eq_nil_iff.mp hvals.symm
    have hphi' := phiVals_eq_nil.mp hphi
    have hsome : (r.stack v).isSome := by
      rcases (h1.stackKeys v).mp (by simp [hst]) with hs | ⟨k, hk, hkv⟩
      · exact hs
      · exact absurd hkv (hphi' k hk)
    exact .inl ⟨rfl, v, hemptied v hsome hnil, hphi', is, i, js, hsplit, hload, hno⟩
  rintro ⟨r2, wait⟩ hren
  have h2 := hren.loaded h1 he.fresh
  dsimp only
  refine (completePhis_spec (r := r2) (b := b) (ha.nodup_succ he.mem r2)
    fun p hp v hv hst => ?_).bind ?_
  · have hvals := h2.stack v
    rw [hst, Option.getD_some] at hvals
    obtain ⟨hdef, hnil⟩ := (valsAtEnd_eq_nil ha he.mem).mp hvals.symm
    rw [h2.entryStack] at hnil
    have hsome : (r.stack v).isSome := by
      rcases (h2.stackKeys v).mp (by simp [hst]) with hs | hs
      · exact hs
      · exact absurd hs hdef
    obtain ⟨s, hs, hps⟩ := List.mem_flatMap.mp hp
    refine .inr ⟨rfl, ?_, v, hemptied v hsome hnil, hdef, s, hs, p, List.mem_of_mem_filter hps, hv⟩
    -- the loads of the block have found their values
    rintro ⟨u, hu, hphi, is, i, js, hsplit, hload, hno⟩
    have hnil' := (he.stack_eq_nil ha hroot hanti h).mpr hu.2
    have hnone : r2.entryStack b u = none := by
      refine ((h2.loads is i js hsplit u hload).2 ?_).2
      rw [valsAfter, phiVals_eq_nil.mpr hphi, h2.entryStack, hnil']
      simpa [storedVals] using fun k hk hkv => absurd hkv (hno k hk)
    have hsome' := (h.stackKeys u).mpr hu.1
    rw [← h2.entryStack, hnone] at hsome'
    cases hsome'
  rintro r3 ⟨rfl, hok⟩
  refine .pure ⟨h2.walked ha h he hok, fun a hab => ?_, r2, h2, rfl, hren.wait⟩
  change a ∈ r2.order
  rw [h2.order, ← h1.order]
  exact habove a hab

section

variable {d : Dominators} {fuel c : Nat}
  (htree : Graph.IsTree idom (fun b => d.domTreeSuccBlocks (some b)) S)
include htree

/-- The walk goes down from `b` to its child `c`. -/
theorem Arrived.enters (ha : Arranged m idom S) (he : Enters m idom S root b r)
    (h : Arrived m idom S root keys b r r3 wait) (hs : Spans m idom S root keys L r3 r4)
    (hc : c ∈ d.domTreeSuccBlocks (some b)) (hfresh : c ∉ r4.order) :
    Enters m idom S root c r4 := by
  obtain ⟨hidom, hne, hSc⟩ := htree.child b he.mem c hc
  have hb := h.above b (.refl _ _)
  refine ⟨hSc, hfresh, fun a hac hne' => ?_,
    .inr ⟨b, hs.later.order b hb, hidom, hne.symm, fun v => ?_⟩⟩
  · obtain ⟨p, hp, hap⟩ := hac.parent hne'
    rw [hidom] at hp
    cases hp
    exact hs.later.order a (h.above a hap)
  · rw [hs.stack v, hs.later.valsAtEnd ha hb he.mem h.above v]
    exact h.stack v

/-- The walk has come to the child `c` of `b`: the blocks below `c` are still to come. -/
theorem Arrived.next (ha : Arranged m idom S) (he : Enters m idom S root b r)
    (h : Arrived m idom S root keys b r r3 wait)
    (hfresh : ∀ y ∈ Graph.preorder (fun b => d.domTreeSuccBlocks (some b)) (fuel + 1) b, y ∉ r.order)
    {before after : List Nat} (hcs : d.domTreeSuccBlocks (some b) = before ++ c :: after)
    (hs : Spans m idom S root keys
      (before.flatMap (Graph.preorder (fun b => d.domTreeSuccBlocks (some b)) fuel)) r3 r4) :
    r.order ++ Graph.preorder (fun b => d.domTreeSuccBlocks (some b)) (fuel + 1) b =
        r4.order ++ Graph.preorder (fun b => d.domTreeSuccBlocks (some b)) fuel c ++
          after.flatMap (Graph.preorder (fun b => d.domTreeSuccBlocks (some b)) fuel) ∧
      (∀ y ∈ Graph.preorder (fun b => d.domTreeSuccBlocks (some b)) fuel c, y ∉ r4.order) ∧
      (0 < fuel → Enters m idom S root c r4) := by
  have hflat : Graph.preorder (fun b => d.domTreeSuccBlocks (some b)) (fuel + 1) b =
      (b :: before.flatMap (Graph.preorder (fun b => d.domTreeSuccBlocks (some b)) fuel)) ++
        Graph.preorder (fun b => d.domTreeSuccBlocks (some b)) fuel c ++
          after.flatMap (Graph.preorder (fun b => d.domTreeSuccBlocks (some b)) fuel) := by
    rw [Graph.preorder, hcs]
    simp
  have horder : r4.order = r.order ++
      b :: before.flatMap (Graph.preorder (fun b => d.domTreeSuccBlocks (some b)) fuel) := by
    rw [hs.order, h.order]
    simp
  have hnd := htree.nodup_preorder he.mem (n := fuel + 1)
  rw [hflat] at hnd
  have hdisj : ∀ y ∈ Graph.preorder (fun b => d.domTreeSuccBlocks (some b)) fuel c,
      y ∉ r4.order := by
    intro y hy
    rw [horder, List.mem_append, not_or]
    refine ⟨hfresh y (by rw [hflat]; simp [hy]), fun hy' => ?_⟩
    exact (List.nodup_append.mp (List.nodup_append.mp hnd).1).2.2 y hy' y hy rfl
  refine ⟨by rw [hflat, horder]; simp, hdisj, fun hfuel => ?_⟩
  obtain ⟨k, rfl⟩ := Nat.exists_eq_succ_of_ne_zero (Nat.pos_iff_ne_zero.mp hfuel)
  exact h.enters htree ha he hs (by rw [hcs]; simp) (hdisj c List.mem_cons_self)

end

/-- The walk below `b`: it comes past the blocks below `b` in preorder. -/
theorem walk_spec (ha : Arranged m idom S) {d : Dominators}
    (htree : Graph.IsTree idom (fun b => d.domTreeSuccBlocks (some b)) S)
    (hroot : idom root = some root) {rank : Nat → Nat}
    (hrank : ∀ b, S b → ∀ c ∈ d.domTreeSuccBlocks (some b), rank c < rank b) (fuel : Nat) :
    ∀ b r, Walked m idom S root keys r → Enters m idom S root b r →
      (∀ c ∈ Graph.preorder (fun b => d.domTreeSuccBlocks (some b)) fuel b, c ∉ r.order) →
      Exec.Meets
        (Spans m idom S root keys (Graph.preorder (fun b => d.domTreeSuccBlocks (some b)) fuel b) r)
        (fun fault => fault = .outOfFuel ∧ fuel ≤ rank b ∨ FirstBlame m idom keys
          (r.order ++ Graph.preorder (fun b => d.domTreeSuccBlocks (some b)) fuel b) fault)
        (walk m d fuel b r) := by
  induction fuel with
  | zero => exact fun b r _ _ _ => .throw (.inl ⟨rfl, Nat.zero_le _⟩)
  | succ fuel ih =>
    intro b r h he hfresh
    rw [walk_succ]
    refine ((arrive_spec ha hroot htree.antisymm h he).mono (fun _ h => h) fun fault hf => ?_).bind ?_
    · exact .inr ⟨r.order, b, _, rfl, fun pre c post => h.found ha hroot htree.antisymm, hf⟩
    rintro ⟨r3, wait⟩ h3
    dsimp only at h3 ⊢
    refine (Exec.Meets.foldlM (I := fun before s => Spans m idom S root keys
      (before.flatMap (Graph.preorder (fun b => d.domTreeSuccBlocks (some b)) fuel)) r3 s)
      (fun before c after s hcs hs => ?_) (.refl h3.walked)).bind fun r4 h4 => ?_
    · obtain ⟨horder, hdisj, henter⟩ := h3.next htree ha he hfresh hcs hs
      have hrankc := hrank b he.mem c (by rw [hcs]; simp)
      by_cases h0 : fuel = 0
      · subst h0
        exact .throw (.inl ⟨rfl, by omega⟩)
      · refine (ih c s hs.walked (henter (Nat.pos_iff_ne_zero.mpr h0)) hdisj).mono
          (fun s' hs' => ?_) fun fault hf => ?_
        · rw [List.flatMap_append, List.flatMap_singleton]
          refine hs.trans ha hs' fun y hy hy' => hdisj y hy' ?_
          rw [hs.order]
          exact List.mem_append_right _ hy
        · rcases hf with ⟨hf, hle⟩ | hf
          · exact .inl ⟨hf, by omega⟩
          · rw [horder]
            exact .inr (hf.append _)
    · obtain ⟨r2, h2, rfl, hwait⟩ := h3.loaded
      have hnd := htree.nodup_preorder he.mem (n := fuel + 1)
      obtain ⟨stack, hpop, hspan⟩ := leave_spec ha h he h2 hwait h4
        (List.nodup_cons.mp hnd).1 rfl rfl rfl rfl rfl
      rw [hpop]
      exact .ok hspan

end

end Renaming

end Cminusf
