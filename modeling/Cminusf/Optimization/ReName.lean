import Cminusf.Graph.Preorder
import Cminusf.Optimization.Renaming

/-! The loops of `re_name` over one block. A load is to do as long as the walk has not
come to it; values that have been stored, pushed or passed to a phi are no such load. -/

namespace Cminusf

namespace Renaming

variable {m : Module} {r r' : Renaming} {b i j : Nat} {v w x : Value} {is js : List Nat}
  {T T' : Nat → Prop} {sub sub' : Value → Value}

/-- Block `b` gives `v` a new value. -/
def Def (m : Module) (v : Value) (b : Nat) : Prop :=
  ∃ i ∈ (m.blocks b).instrList, Mem2Reg.storedVar m i = some v ∨ Mem2Reg.phiVar m i = some v

/-- The values that the instructions `is` store to `v`, the last one first. -/
def storedVals (m : Module) (sub : Value → Value) (is : List Nat) (v : Value) : List Value :=
  (is.filterMap fun i =>
    if Mem2Reg.storedVar m i = some v then ((m.instrs i).getOperand 0).map sub else none).reverse

/-- The phis of `v` among the instructions `is`, the last one first. -/
def phiVals (m : Module) (is : List Nat) (v : Value) : List Value :=
  (is.filterMap fun i => if Mem2Reg.phiVar m i = some v then some (.instruction i) else none).reverse

/-- The values of `v` after the first instructions `is` of block `b`. -/
def valsAfter (m : Module) (r : Renaming) (b : Nat) (is : List Nat) (v : Value) : List Value :=
  storedVals m r.sub is v ++ (phiVals m (m.blocks b).instrList v ++ (r.entryStack b v).getD [])

abbrev valsAtEnd (m : Module) (r : Renaming) (b : Nat) (v : Value) : List Value :=
  valsAfter m r b (m.blocks b).instrList v

/-- The value is no load of a local variable that is still to do. -/
def Done (m : Module) (T : Nat → Prop) (w : Value) : Prop :=
  ∀ j, w = .instruction j → (Mem2Reg.loadedVar m j).isSome → ¬ T j

theorem Done.mono (h : Done m T w) (hT : ∀ j, T' j → T j) : Done m T' w :=
  fun j hj hl ht => h j hj hl (hT j ht)

/-- How the module is laid out along the tree of `idom`. -/
structure Arranged (m : Module) (idom : Nat → Option Nat) (S : Nat → Prop) : Prop where
  parent : ∀ b, ∀ i ∈ (m.blocks b).instrList, (m.instrs i).parent = b
  nodup : ∀ b, S b → (m.blocks b).instrList.Nodup
  succ : ∀ b, S b → ∀ s ∈ (m.blocks b).succBbs, S s
  succ_nodup : ∀ b, S b → (m.blocks b).succBbs.Nodup
  stored : ∀ b, S b → ∀ is i js, (m.blocks b).instrList = is ++ i :: js →
    ∀ v, Mem2Reg.storedVar m i = some v → ∃ w, (m.instrs i).getOperand 0 = some w ∧
      ∀ j, w = .instruction j → (Mem2Reg.loadedVar m j).isSome → j ∈ is ∨
        j ∈ (m.blocks (m.instrs j).parent).instrList ∧
          Graph.Ancestor idom (m.instrs j).parent b ∧ (m.instrs j).parent ≠ b

/-- No value in use is a load that is still to do. -/
structure Settled (m : Module) (T : Nat → Prop) (r : Renaming) : Prop where
  sub_iff : ∀ j, (Mem2Reg.loadedVar m j).isSome → T j →
    ∀ w, r.sub w = .instruction j ↔ w = .instruction j
  stack : ∀ v, ∀ x ∈ (r.stack v).getD [], Done m T x
  incoming : ∀ p, ∀ pair ∈ r.incoming p, Done m T pair.1

theorem Settled.mono (h : Settled m T r) (hT : ∀ j, T' j → T j) : Settled m T' r where
  sub_iff j hj ht := h.sub_iff j hj (hT j ht)
  stack v x hx := (h.stack v x hx).mono hT
  incoming p pair hp := (h.incoming p pair hp).mono hT

theorem Settled.done_sub (h : Settled m T r) (hw : Done m T w) : Done m T (r.sub w) := by
  intro j hj hl ht
  exact hw j ((h.sub_iff j hl ht w).mp hj) hl ht

/-- Replacing a load that is to do by a value in use. -/
theorem Settled.replace (h : Settled m T r) (hi : (Mem2Reg.loadedVar m i).isSome) (hT : T i)
    (hx : Done m T x) :
    Settled m (fun j => T j ∧ j ≠ i) (r.replace i x) ∧ (r.replace i x).incoming = r.incoming ∧
      (r.replace i x).sub (.instruction i) = x ∧
      ∀ w, w ≠ .instruction i → (r.replace i x).sub w = r.sub w := by
  have hsub : ∀ w, (r.replace i x).sub w = if w = .instruction i then x else r.sub w := by
    intro w
    simp only [Renaming.replace, h.sub_iff i hi hT w]
  have hinc : (r.replace i x).incoming = r.incoming := by
    funext p
    have hkeep : ∀ pair ∈ r.incoming p,
        ((if pair.1 = .instruction i then x else pair.1, pair.2) : Value × Nat) = id pair := by
      intro pair hp
      rw [if_neg fun he => h.incoming p pair hp i he hi hT]
      rfl
    exact (List.map_congr_left hkeep).trans (List.map_id _)
  refine ⟨⟨fun j hj ht w => ?_, fun v y hy => (h.stack v y hy).mono fun _ h => h.1, ?_⟩, hinc, ?_, ?_⟩
  · rw [hsub]
    by_cases hw : w = .instruction i
    · subst hw
      simp only [if_true]
      constructor
      · intro hxj
        exact absurd ht.1 (hx j hxj hj)
      · intro hij
        cases hij
        exact absurd rfl ht.2
    · rw [if_neg hw]
      exact h.sub_iff j hj ht.1 w
  · rw [hinc]
    exact fun p pair hp => (h.incoming p pair hp).mono fun _ h => h.1
  · rw [hsub, if_pos rfl]
  · intro w hw
    rw [hsub, if_neg hw]

theorem storedVals_append (is js : List Nat) :
    storedVals m sub (is ++ js) v = storedVals m sub js v ++ storedVals m sub is v := by
  simp [storedVals]

theorem storedVals_singleton :
    storedVals m sub [i] v =
      if Mem2Reg.storedVar m i = some v then (((m.instrs i).getOperand 0).map sub).toList else [] := by
  by_cases h : Mem2Reg.storedVar m i = some v
  · cases ho : (m.instrs i).getOperand 0 <;> simp [storedVals, h, ho]
  · simp [storedVals, h]

theorem storedVals_congr (h : ∀ k ∈ is, ∀ v w, Mem2Reg.storedVar m k = some v →
    (m.instrs k).getOperand 0 = some w → sub' w = sub w) (v : Value) :
    storedVals m sub' is v = storedVals m sub is v := by
  simp only [storedVals]
  congr 1
  refine List.filterMap_congr fun k hk => ?_
  by_cases hs : Mem2Reg.storedVar m k = some v
  · cases ho : (m.instrs k).getOperand 0 with
    | none => simp [hs]
    | some w => simp [hs, h k hk v w hs ho]
  · simp [hs]

theorem storedVals_eq_nil (h : ∀ k ∈ is, ∀ v, Mem2Reg.storedVar m k = some v →
    ((m.instrs k).getOperand 0).isSome) :
    storedVals m sub is v = [] ↔ ∀ k ∈ is, Mem2Reg.storedVar m k ≠ some v := by
  simp only [storedVals, List.reverse_eq_nil_iff, List.filterMap_eq_nil_iff]
  refine forall₂_congr fun k hk => ?_
  by_cases hs : Mem2Reg.storedVar m k = some v
  · obtain ⟨w, hw⟩ := Option.isSome_iff_exists.mp (h k hk v hs)
    simp [hs, hw]
  · simp [hs]

theorem mem_storedVals : x ∈ storedVals m sub is v ↔ ∃ i ∈ is, Mem2Reg.storedVar m i = some v ∧
    ∃ w, (m.instrs i).getOperand 0 = some w ∧ sub w = x := by
  simp only [storedVals, List.mem_reverse, List.mem_filterMap]
  refine exists_congr fun i => and_congr_right fun _ => ?_
  by_cases hiv : Mem2Reg.storedVar m i = some v <;> simp [hiv]

theorem mem_phiVals : x ∈ phiVals m is v ↔ ∃ p ∈ is, Mem2Reg.phiVar m p = some v ∧
    x = .instruction p := by
  simp only [phiVals, List.mem_reverse, List.mem_filterMap]
  refine exists_congr fun p => and_congr_right fun _ => ?_
  by_cases hpv : Mem2Reg.phiVar m p = some v <;> simp [hpv, eq_comm]

theorem phiVals_eq_nil : phiVals m is v = [] ↔ ∀ k ∈ is, Mem2Reg.phiVar m k ≠ some v := by
  simp [phiVals]

theorem loadedVar_storedVar (h : Mem2Reg.loadedVar m i = some v) : Mem2Reg.storedVar m i = none := by
  have hl := isLoad_of_loadedVar h
  cases hs : Mem2Reg.storedVar m i with
  | none => rfl
  | some w =>
    have hst := isStore_of_storedVar hs
    revert hl hst
    simp only [Instruction.isLoad, Instruction.isStore]
    cases (m.instrs i).opId <;> simp

@[simp] theorem getD_push (stack : VarValStack) (u v x : Value) :
    (stack.push u x v).getD [] = if v = u then x :: (stack u).getD [] else (stack v).getD [] := by
  by_cases hv : v = u
  · subst hv
    simp [VarValStack.push]
  · simp [VarValStack.push, hv]

@[simp] theorem isSome_push (stack : VarValStack) (u v x : Value) :
    (stack.push u x v).isSome ↔ v = u ∨ (stack v).isSome := by
  by_cases hv : v = u
  · subst hv
    simp [VarValStack.push]
  · simp [VarValStack.push, hv]

/-- Step 3 for the instructions `is`. -/
theorem foldl_pushPhi (is : List Nat) :
    (is.foldl (pushPhi m) r) = { r with stack := (is.foldl (pushPhi m) r).stack } ∧
      (∀ v, ((is.foldl (pushPhi m) r).stack v).getD [] =
        phiVals m is v ++ (r.stack v).getD []) ∧
      ∀ v, ((is.foldl (pushPhi m) r).stack v).isSome ↔
        (r.stack v).isSome ∨ ∃ i ∈ is, Mem2Reg.phiVar m i = some v := by
  induction is generalizing r with
  | nil => simp [phiVals]
  | cons i is ih =>
    obtain ⟨h1, h2, h3⟩ := ih (r := pushPhi m r i)
    rw [List.foldl_cons]
    cases hp : Mem2Reg.phiVar m i with
    | none =>
      have hr : pushPhi m r i = r := by simp [pushPhi, hp]
      rw [hr] at h1 h2 h3 ⊢
      refine ⟨h1, fun v => ?_, fun v => ?_⟩
      · rw [h2]
        simp [phiVals, hp]
      · rw [h3]
        simp [hp]
    | some u =>
      have hr : pushPhi m r i = { r with stack := r.stack.push u (.instruction i) } := by
        simp [pushPhi, hp]
      rw [hr] at h1 h2 h3 ⊢
      refine ⟨h1, fun v => ?_, fun v => ?_⟩
      · rw [h2]
        simp only [getD_push, phiVals, List.filterMap_cons, hp, Option.some.injEq]
        by_cases hv : u = v
        · subst hv
          simp
        · simp [hv, Ne.symm hv]
      · rw [h3]
        simp only [isSome_push, List.mem_cons, exists_eq_or_imp, hp, Option.some.injEq]
        rw [eq_comm (a := v)]
        tauto

/-- Steps 4 and 5 have come past the instructions `is` of block `b`. -/
structure Renamed (m : Module) (b : Nat) (r : Renaming) (is : List Nat) (s : Renaming × List Nat) :
    Prop where
  order : s.1.order = r.order
  erased : s.1.erased = r.erased
  entryStack : s.1.entryStack = r.entryStack
  incoming : s.1.incoming = r.incoming
  settled : Settled m (fun j => (m.instrs j).parent ∉ r.order ∨ (m.instrs j).parent = b ∧ j ∉ is) s.1
  sub : ∀ w, Done m (fun j => (m.instrs j).parent ∉ r.order ∨ (m.instrs j).parent = b) w →
    s.1.sub w = r.sub w
  stack : ∀ v, (s.1.stack v).getD [] = storedVals m s.1.sub is v ++ (r.stack v).getD []
  keys : ∀ v, (s.1.stack v).isSome ↔
    (r.stack v).isSome ∨ ∃ i ∈ is, Mem2Reg.storedVar m i = some v
  loads : ∀ is' i js', is = is' ++ i :: js' → ∀ v, Mem2Reg.loadedVar m i = some v →
    (∀ x, (storedVals m s.1.sub is' v ++ (r.stack v).getD []).head? = some x →
      s.1.sub (.instruction i) = x) ∧
    (storedVals m s.1.sub is' v ++ (r.stack v).getD [] = [] →
      s.1.sub (.instruction i) = .instruction i ∧ r.stack v = none)
  wait : ∀ i, i ∈ s.2 ↔ i ∈ is ∧ ((Mem2Reg.storedVar m i).isSome ∨
    (Mem2Reg.loadedVar m i).isSome ∧ s.1.sub (.instruction i) ≠ .instruction i)

section

variable {idom : Nat → Option Nat} {S : Nat → Prop} {r2 : Renaming} {wait : List Nat}

theorem append_split {is' js' : List Nat} (h : is ++ [i] = is' ++ j :: js') :
    (is' = is ∧ j = i ∧ js' = []) ∨ ∃ js'', is = is' ++ j :: js'' ∧ js' = js'' ++ [i] := by
  rcases List.eq_nil_or_concat js' with rfl | ⟨js'', k, rfl⟩
  · have h' := List.append_inj' h rfl
    simp only [List.cons.injEq, and_true] at h'
    exact .inl ⟨h'.1.symm, h'.2.symm, rfl⟩
  · rw [show is' ++ j :: js''.concat k = (is' ++ j :: js'') ++ [k] by simp] at h
    have h' := List.append_inj' h rfl
    simp only [List.cons.injEq, and_true] at h'
    exact .inr ⟨js'', h'.1, by rw [h'.2]; simp⟩

/-- A stored value is computed before the store. -/
theorem Arranged.done_stored (ha : Arranged m idom S) (hb : S b)
    (hanc : ∀ a, Graph.Ancestor idom a b → a ∈ r.order)
    (hlist : (m.blocks b).instrList = is ++ i :: js) (hi : Mem2Reg.storedVar m i = some v)
    (hw : (m.instrs i).getOperand 0 = some w) :
    Done m (fun j => (m.instrs j).parent ∉ r.order ∨ (m.instrs j).parent = b ∧ j ∉ is) w := by
  intro j hj hl ht
  obtain ⟨w', hw', hdone⟩ := ha.stored b hb is i js hlist v hi
  rw [hw] at hw'
  cases hw'
  rcases hdone j hj hl with hmem | ⟨-, hjb, hne⟩
  · have hp : (m.instrs j).parent = b := ha.parent b j (by rw [hlist]; simp [hmem])
    rcases ht with ht | ht
    · exact ht (hp ▸ hanc b (.refl _ _))
    · exact ht.2 hmem
  · rcases ht with ht | ht
    · exact ht (hanc _ hjb)
    · exact hne ht.1

/-- The stored values of a passed prefix keep their substitutes. -/
theorem Arranged.storedVals_eq (ha : Arranged m idom S) (hb : S b)
    (hanc : ∀ a, Graph.Ancestor idom a b → a ∈ r.order)
    (hlist : (m.blocks b).instrList = is ++ js)
    (hsub : ∀ w, Done m (fun j => (m.instrs j).parent ∉ r.order ∨ (m.instrs j).parent = b ∧ j ∉ is) w →
      sub' w = sub w) {is' js' : List Nat} (hpre : is = is' ++ js') (v : Value) :
    storedVals m sub' is' v = storedVals m sub is' v := by
  refine storedVals_congr (fun k hk v w hs hw => hsub w ?_) v
  obtain ⟨is1, js1, rfl⟩ := List.append_of_mem hk
  have hlist' : (m.blocks b).instrList = is1 ++ k :: (js1 ++ js' ++ js) := by
    rw [hlist, hpre]
    simp
  refine (ha.done_stored hb hanc hlist' hs hw).mono ?_
  · rintro j (ht | ⟨ht, hj⟩)
    · exact .inl ht
    · exact .inr ⟨ht, fun hmem => hj (by rw [hpre]; simp [hmem])⟩

theorem Renamed.skip (h : Renamed m b r is (r2, wait)) (hstore : Mem2Reg.storedVar m i = none)
    (hi : (m.instrs i).parent = b) (hnot : i ∉ is)
    (hload : ∀ v, Mem2Reg.loadedVar m i = some v → r2.stack v = none) :
    Renamed m b r (is ++ [i]) (r2, wait) where
  order := h.order
  erased := h.erased
  entryStack := h.entryStack
  incoming := h.incoming
  settled := h.settled.mono fun j hj => hj.imp_right fun hj => ⟨hj.1, fun hm => hj.2 (by simp [hm])⟩
  sub := h.sub
  stack v := by
    rw [storedVals_append, storedVals_singleton, if_neg (by simp [hstore])]
    exact h.stack v
  keys v := by
    rw [h.keys v]
    simp [or_and_right, exists_or, hstore]
  loads is' j js' hsplit v hj := by
    rcases append_split hsplit with ⟨rfl, rfl, rfl⟩ | ⟨js'', hsplit, -⟩
    · have hnone := hload v hj
      have hnil : storedVals m r2.sub is' v ++ (r.stack v).getD [] = [] := by
        rw [← h.stack v, hnone]
        rfl
      refine ⟨fun x hx => ?_, fun _ => ⟨?_, ?_⟩⟩
      · rw [hnil] at hx
        cases hx
      · exact (h.settled.sub_iff j (by simp [hj]) (.inr ⟨hi, hnot⟩) _).mpr rfl
      · have hk := h.keys v
        simp only [hnone, Option.isSome_none, Bool.false_eq_true, false_iff, not_or] at hk
        exact Option.not_isSome_iff_eq_none.mp hk.1
    · exact h.loads is' j js'' hsplit v hj
  wait j := by
    rw [h.wait j, List.mem_append, List.mem_singleton]
    constructor
    · rintro ⟨hj, hk⟩
      exact ⟨.inl hj, hk⟩
    · rintro ⟨hj | rfl, hk⟩
      · exact ⟨hj, hk⟩
      · rcases hk with hk | ⟨hl, hne⟩
        · simp [hstore] at hk
        · exact absurd ((h.settled.sub_iff j hl (.inr ⟨hi, hnot⟩) _).mpr rfl) hne

theorem Renamed.load (ha : Arranged m idom S) (hb : S b)
    (hanc : ∀ a, Graph.Ancestor idom a b → a ∈ r.order)
    (hlist : (m.blocks b).instrList = is ++ i :: js) (h : Renamed m b r is (r2, wait))
    (hload : Mem2Reg.loadedVar m i = some v) {xs : List Value} (hx : r2.stack v = some (x :: xs)) :
    x ≠ .instruction i ∧ Renamed m b r (is ++ [i]) (r2.replace i x, wait ++ [i]) := by
  have hi : (m.instrs i).parent = b := ha.parent b i (by rw [hlist]; simp)
  have hnot : i ∉ is := by
    have hnd := ha.nodup b hb
    rw [hlist] at hnd
    exact fun hmem => (List.nodup_append.mp hnd).2.2 i hmem i (by simp) rfl
  have hls : (Mem2Reg.loadedVar m i).isSome := by simp [hload]
  have hdone := h.settled.stack v x (by simp [hx])
  obtain ⟨hset, hinc, hself, hother⟩ := h.settled.replace hls (.inr ⟨hi, hnot⟩) hdone
  have hne : x ≠ .instruction i := fun he => hdone i he hls (.inr ⟨hi, hnot⟩)
  have hsub : ∀ w, Done m (fun j => (m.instrs j).parent ∉ r.order ∨ (m.instrs j).parent = b ∧ j ∉ is) w →
      (r2.replace i x).sub w = r2.sub w :=
    fun w hw => hother w fun he => hw i he hls (.inr ⟨hi, hnot⟩)
  have hvals : ∀ is' js', is = is' ++ js' → ∀ v, storedVals m (r2.replace i x).sub is' v =
      storedVals m r2.sub is' v :=
    fun is' js' hpre v => ha.storedVals_eq hb hanc hlist hsub hpre v
  refine ⟨hne, ⟨h.order, h.erased, h.entryStack, hinc.trans h.incoming, hset.mono ?_, fun w hw => ?_,
    fun u => ?_, fun u => ?_, fun is' j js' hsplit u hj => ?_, fun j => ?_⟩⟩
  · rintro j (hj | ⟨hj, hmem⟩)
    · exact ⟨.inl hj, fun he => hj (by rw [he, hi]; exact hanc b (.refl _ _))⟩
    · exact ⟨.inr ⟨hj, fun hm => hmem (by simp [hm])⟩, fun he => hmem (by simp [he])⟩
  · rw [← h.sub w hw]
    refine hother w fun he => hw i he hls (.inr hi)
  · rw [storedVals_append, storedVals_singleton, if_neg (by simp [loadedVar_storedVar hload]),
      hvals is [] (by simp)]
    exact h.stack u
  · refine (h.keys u).trans ?_
    simp [or_and_right, exists_or, loadedVar_storedVar hload]
  · rcases append_split hsplit with ⟨rfl, rfl, rfl⟩ | ⟨js'', hsplit, -⟩
    · rw [hload] at hj
      cases hj
      rw [hvals is' [] (by simp), ← h.stack v]
      simp only [hx, Option.getD_some, List.head?_cons, Option.some.injEq, List.cons_ne_nil,
        false_implies, and_true]
      rintro y rfl
      exact hself
    · rw [hvals is' _ hsplit u, hother (.instruction j) fun he => hnot ?_]
      · exact h.loads is' j js'' hsplit u hj
      · cases he
        rw [hsplit]
        simp
  · have hj := h.wait j
    dsimp only at hj ⊢
    rw [List.mem_append, List.mem_singleton, hj, List.mem_append, List.mem_singleton]
    by_cases hji : j = i
    · subst hji
      simp [hself, hne, hls]
    · rw [hother (.instruction j) fun he => hji (Value.instruction.inj he)]
      simp [hji]

theorem Renamed.store (ha : Arranged m idom S) (hb : S b)
    (hanc : ∀ a, Graph.Ancestor idom a b → a ∈ r.order)
    (hlist : (m.blocks b).instrList = is ++ i :: js) (h : Renamed m b r is (r2, wait))
    (hstore : Mem2Reg.storedVar m i = some v) (hload : Mem2Reg.loadedVar m i = none)
    (hw : (m.instrs i).getOperand 0 = some w) :
    Renamed m b r (is ++ [i]) ({ r2 with stack := r2.stack.push v (r2.sub w) }, wait ++ [i]) where
  order := h.order
  erased := h.erased
  entryStack := h.entryStack
  incoming := h.incoming
  settled := by
    have hmono : Settled m (fun j => (m.instrs j).parent ∉ r.order ∨
        (m.instrs j).parent = b ∧ j ∉ is ++ [i]) r2 :=
      h.settled.mono fun j hj => hj.imp_right fun hj => ⟨hj.1, fun hm => hj.2 (by simp [hm])⟩
    refine ⟨hmono.sub_iff, fun u y hy => ?_, hmono.incoming⟩
    rw [getD_push] at hy
    by_cases hu : u = v
    · rw [if_pos hu] at hy
      rcases List.mem_cons.mp hy with rfl | hy
      · refine (h.settled.done_sub (ha.done_stored hb hanc hlist hstore hw)).mono ?_
        exact fun j hj => hj.imp_right fun hj => ⟨hj.1, fun hm => hj.2 (by simp [hm])⟩
      · exact hmono.stack v y hy
    · rw [if_neg hu] at hy
      exact hmono.stack u y hy
  sub := h.sub
  stack u := by
    have hst := h.stack
    dsimp only at hst ⊢
    rw [getD_push, storedVals_append, storedVals_singleton, hw, hstore]
    by_cases hu : u = v
    · subst hu
      simp [hst]
    · simp [hu, Ne.symm hu, hst]
  keys u := by
    have hk := h.keys u
    dsimp only at hk ⊢
    rw [isSome_push, hk]
    simp only [List.mem_append, List.mem_singleton, or_and_right, exists_or, exists_eq_left, hstore,
      Option.some.injEq]
    rw [eq_comm (a := u), or_comm, or_assoc]
  loads is' j js' hsplit u hj := by
    rcases append_split hsplit with ⟨rfl, rfl, rfl⟩ | ⟨js'', hsplit, -⟩
    · rw [hload] at hj
      cases hj
    · exact h.loads is' j js'' hsplit u hj
  wait j := by
    have hj := h.wait j
    dsimp only at hj ⊢
    rw [List.mem_append, List.mem_singleton, hj, List.mem_append, List.mem_singleton]
    by_cases hji : j = i
    · subst hji
      simp [hstore]
    · simp [hji]

/-- Steps 4 and 5 on block `b`; a load fails only when no value of its variable is left. -/
theorem renameInstrs_spec (ha : Arranged m idom S) (hb : S b)
    (hanc : ∀ a, Graph.Ancestor idom a b → a ∈ r.order)
    (hset : Settled m (fun j => (m.instrs j).parent ∉ r.order ∨ (m.instrs j).parent = b) r)
    {B : Fault → Prop}
    (hB : ∀ is i js v, (m.blocks b).instrList = is ++ i :: js → Mem2Reg.loadedVar m i = some v →
      (∀ k ∈ is, Mem2Reg.storedVar m k ≠ some v) → r.stack v = some [] → B .undefinedBehaviour) :
    Exec.Meets (Renamed m b r (m.blocks b).instrList) B
      ((m.blocks b).instrList.foldlM (renameInstr m) (r, [])) := by
  refine Exec.Meets.foldlM (I := Renamed m b r) (fun is i js s hlist h => ?_) ?_
  · obtain ⟨r2, wait⟩ := s
    have hi : (m.instrs i).parent = b := ha.parent b i (by rw [hlist]; simp)
    have hnot : i ∉ is := by
      have hnd := ha.nodup b hb
      rw [hlist] at hnd
      exact fun hmem => (List.nodup_append.mp hnd).2.2 i hmem i (by simp) rfl
    simp only [renameInstr]
    cases hload : Mem2Reg.loadedVar m i with
    | some v =>
      have hstore := loadedVar_storedVar hload
      dsimp only
      cases hst : r2.stack v with
      | none =>
        refine .pure (h.skip hstore hi hnot fun u hu => ?_)
        rw [hload] at hu
        cases hu
        exact hst
      | some vals =>
        cases vals with
        | nil =>
          have hnil := h.stack v
          simp only [hst, Option.getD_some] at hnil
          obtain ⟨h1, h2⟩ := List.append_eq_nil_iff.mp hnil.symm
          have hno : ∀ k ∈ is, Mem2Reg.storedVar m k ≠ some v := by
            refine (storedVals_eq_nil fun k hk u hu => ?_).mp h1
            obtain ⟨is1, js1, rfl⟩ := List.append_of_mem hk
            obtain ⟨w, hw, -⟩ := ha.stored b hb is1 k (js1 ++ i :: js) (by rw [hlist]; simp) u hu
            simp [hw]
          refine .throw (hB is i js v hlist hload hno ?_)
          have hk := (h.keys v).mp (by simp [hst])
          rcases hk with hk | ⟨k, hk, hkv⟩
          · obtain ⟨vals, hvals⟩ := Option.isSome_iff_exists.mp hk
            rw [hvals, Option.getD_some] at h2
            rw [hvals, h2]
          · exact absurd hkv (hno k hk)
        | cons x xs =>
          obtain ⟨hne, hr⟩ := h.load ha hb hanc hlist hload hst
          dsimp only
          rw [if_neg hne]
          exact .pure hr
    | none =>
      cases hstore : Mem2Reg.storedVar m i with
      | none => exact .pure (h.skip hstore hi hnot fun u hu => by rw [hload] at hu; cases hu)
      | some v =>
        obtain ⟨w, hw, -⟩ := ha.stored b hb is i js hlist v hstore
        simp only [hw]
        exact .pure (h.store ha hb hanc hlist hstore hload hw)
  · refine ⟨rfl, rfl, rfl, rfl, hset.mono ?_, fun _ _ => rfl, fun v => ?_, by simp, by simp, by simp⟩
    · exact fun j hj => hj.imp_right fun hj => hj.1
    · simp [storedVals]

end

section

variable {stack : VarValStack} {succs : List Nat} {p : Nat}

/-- The pair that step 6 adds to the phi `p` for the edge from `b`. -/
def newPair (m : Module) (stack : VarValStack) (b p : Nat) : List (Value × Nat) :=
  match Mem2Reg.phiVar m p with
  | none => []
  | some v => (((stack v).getD []).head?.map fun x => (x, b)).toList

def withPairs (m : Module) (r : Renaming) (b : Nat) (ps : List Nat) : Renaming :=
  { r with incoming := fun p => r.incoming p ++ if p ∈ ps then newPair m r.stack b p else [] }

theorem completePhi_spec {ps : List Nat} (hp : p ∉ ps) {B : Fault → Prop}
    (hB : ∀ v, Mem2Reg.phiVar m p = some v → r.stack v = some [] → B .assertion) :
    Exec.Meets (fun s => s = withPairs m r b (ps ++ [p]) ∧
        ∀ v, Mem2Reg.phiVar m p = some v → r.stack v ≠ some []) B
      (completePhi m b (withPairs m r b ps) p) := by
  have hskip : newPair m r.stack b p = [] → withPairs m r b ps = withPairs m r b (ps ++ [p]) := by
    intro hn
    simp only [withPairs, Renaming.mk.injEq, true_and, and_true]
    funext q
    by_cases hq : q = p
    · simp [hq, hn, hp]
    · simp [hq]
  simp only [completePhi]
  cases hv : Mem2Reg.phiVar m p with
  | none => exact .pure ⟨hskip (by simp [newPair, hv]), by simp⟩
  | some v =>
    dsimp only
    cases hst : r.stack v with
    | none =>
      have hst' : (withPairs m r b ps).stack v = none := hst
      simp only [hst']
      exact .pure ⟨hskip (by simp [newPair, hv, hst]), fun u hu => by cases hu; simp [hst]⟩
    | some vals =>
      have hst' : (withPairs m r b ps).stack v = some vals := hst
      simp only [hst']
      cases vals with
      | nil => exact .throw (hB v hv hst)
      | cons x xs =>
        refine .pure ⟨?_, fun u hu => by cases hu; simp [hst]⟩
        simp only [withPairs, addPair, Renaming.mk.injEq, true_and, and_true]
        funext q
        by_cases hq : q = p
        · subst hq
          simp [hp, newPair, hv, hst]
        · simp [hq]

/-- Step 6 for block `b`; it fails only on a variable none of whose values is left. -/
theorem completePhis_spec (hnd : (succs.flatMap (r.instrList m)).Nodup) {B : Fault → Prop}
    (hB : ∀ p ∈ succs.flatMap (r.instrList m), ∀ v, Mem2Reg.phiVar m p = some v →
      r.stack v = some [] → B .assertion) :
    Exec.Meets (fun s => s = withPairs m r b (succs.flatMap (r.instrList m)) ∧
        ∀ p ∈ succs.flatMap (r.instrList m), ∀ v, Mem2Reg.phiVar m p = some v →
          r.stack v ≠ some []) B
      (succs.foldlM (fun r succ => (r.instrList m succ).foldlM (completePhi m b) r) r) := by
  refine Exec.Meets.foldlM (I := fun before s => s = withPairs m r b (before.flatMap (r.instrList m)) ∧
    ∀ p ∈ before.flatMap (r.instrList m), ∀ v, Mem2Reg.phiVar m p = some v → r.stack v ≠ some [])
    (fun before succ after s hsuccs h => ?_) ⟨by simp [withPairs], by simp⟩
  obtain ⟨rfl, hok⟩ := h
  rw [show (withPairs m r b (before.flatMap (r.instrList m))).instrList m succ = r.instrList m succ
    from rfl]
  have hflat : succs.flatMap (r.instrList m) =
      before.flatMap (r.instrList m) ++ r.instrList m succ ++ after.flatMap (r.instrList m) := by
    rw [hsuccs]
    simp
  rw [hflat] at hnd
  rw [List.flatMap_append, List.flatMap_singleton]
  refine Exec.Meets.foldlM (I := fun is s =>
      s = withPairs m r b (before.flatMap (r.instrList m) ++ is) ∧
      ∀ p ∈ before.flatMap (r.instrList m) ++ is, ∀ v, Mem2Reg.phiVar m p = some v →
        r.stack v ≠ some [])
    (fun is p js s hlist h => ?_) ⟨by simp, by simpa using hok⟩
  obtain ⟨rfl, hok⟩ := h
  have hp : p ∉ before.flatMap (r.instrList m) ++ is := by
    rw [hlist] at hnd
    have hnd' := (List.nodup_append.mp hnd).1
    rw [← List.append_assoc] at hnd'
    exact fun hmem => (List.nodup_append.mp hnd').2.2 p hmem p (by simp) rfl
  have hmem : p ∈ succs.flatMap (r.instrList m) := by
    rw [hflat, hlist]
    simp
  rw [← List.append_assoc]
  refine (completePhi_spec hp (hB p hmem)).mono (fun s hs => ⟨hs.1, fun q hq v hv => ?_⟩) fun _ h => h
  rcases List.mem_append.mp hq with hq | hq
  · exact hok q hq v hv
  · exact hs.2 v (List.mem_singleton.mp hq ▸ hv)

theorem phiVar_of_storedVar (h : Mem2Reg.storedVar m i = some v) : Mem2Reg.phiVar m i = none := by
  have hst := isStore_of_storedVar h
  revert hst
  simp only [Instruction.isStore, Mem2Reg.phiVar]
  cases (m.instrs i).opId <;> simp

theorem pop_spec {x : Value} {xs : List Value}
    (hst : (stack v).getD [] = x :: xs) :
    ∃ stack', stack.pop v = .ok stack' ∧ (stack' v).getD [] = xs ∧
      (∀ u, u ≠ v → stack' u = stack u) ∧ ∀ u, (stack' u).isSome ↔ (stack u).isSome := by
  cases hv : stack v with
  | none => simp [hv] at hst
  | some vals =>
    rw [hv, Option.getD_some] at hst
    subst hst
    refine ⟨Function.update stack v (some xs), by simp only [VarValStack.pop, hv]; rfl, by simp,
      fun u hu => Function.update_of_ne hu _ _, fun u => ?_⟩
    by_cases hu : u = v
    · subst hu
      simp [hv]
    · rw [Function.update_of_ne hu]

/-- Step 8 takes off what steps 3 and 5 have pushed. -/
theorem popInstrs_spec (sub : Value → Value) (stack : VarValStack) (base : Value → List Value)
    (is : List Nat)
    (hstored : ∀ k ∈ is, ∀ v, Mem2Reg.storedVar m k = some v → ((m.instrs k).getOperand 0).isSome)
    (h : ∀ v, ∃ vals, (stack v).getD [] = vals ++ base v ∧
      vals.length = (storedVals m sub is v).length + (phiVals m is v).length) :
    ∃ stack', is.foldlM (Mem2Reg.popInstr m) stack = .ok stack' ∧
      (∀ v, (stack' v).getD [] = base v) ∧ ∀ v, (stack' v).isSome ↔ (stack v).isSome := by
  induction is generalizing stack with
  | nil =>
    refine ⟨stack, rfl, fun v => ?_, fun _ => Iff.rfl⟩
    obtain ⟨vals, hv, hlen⟩ := h v
    have hnil : vals = [] := List.length_eq_zero_iff.mp (by simpa [storedVals, phiVals] using hlen)
    rw [hv, hnil, List.nil_append]
  | cons i is ih =>
    have hstored' := fun k hk => hstored k (List.mem_cons_of_mem i hk)
    have hcons : ∀ v, (storedVals m sub (i :: is) v).length + (phiVals m (i :: is) v).length =
        (storedVals m sub is v).length + (phiVals m is v).length +
          if Mem2Reg.storedVar m i = some v ∨ Mem2Reg.phiVar m i = some v then 1 else 0 := by
      intro v
      by_cases hs : Mem2Reg.storedVar m i = some v
      · obtain ⟨w, hw⟩ := Option.isSome_iff_exists.mp (hstored i List.mem_cons_self v hs)
        simp [storedVals, phiVals, hs, hw, phiVar_of_storedVar hs]
        omega
      · by_cases hp : Mem2Reg.phiVar m i = some v
        · simp [storedVals, phiVals, hs, hp]
          omega
        · simp [storedVals, phiVals, hs, hp]
    have hpop : ∀ u, (Mem2Reg.storedVar m i = some u ∨ Mem2Reg.phiVar m i = some u) →
        (∀ v, v ≠ u → Mem2Reg.storedVar m i ≠ some v ∧ Mem2Reg.phiVar m i ≠ some v) →
        Mem2Reg.popInstr m stack i = stack.pop u → ∃ stack',
          (i :: is).foldlM (Mem2Reg.popInstr m) stack = .ok stack' ∧
          (∀ v, (stack' v).getD [] = base v) ∧ ∀ v, (stack' v).isSome ↔ (stack v).isSome := by
      intro u hu hother hrun
      obtain ⟨vals, hv, hlen⟩ := h u
      rw [hcons, if_pos hu] at hlen
      cases vals with
      | nil => simp at hlen
      | cons x xs =>
        rw [List.cons_append] at hv
        obtain ⟨stack1, hp, hxs, hne, hsome⟩ := pop_spec hv
        obtain ⟨stack2, h2, hb, hs2⟩ := ih stack1 hstored' fun v => by
          by_cases hvu : v = u
          · subst hvu
            exact ⟨xs, hxs, by simpa using hlen⟩
          · obtain ⟨vals, hv, hlen⟩ := h v
            have hno := hother v hvu
            rw [hcons, if_neg (by simp [hno])] at hlen
            exact ⟨vals, by rw [hne v hvu, hv], by simpa using hlen⟩
        refine ⟨stack2, ?_, hb, fun v => (hs2 v).trans (hsome v)⟩
        rw [List.foldlM_cons, hrun, hp]
        exact h2
    cases hs : Mem2Reg.storedVar m i with
    | some u =>
      refine hpop u (.inl hs) (fun v hv => ⟨?_, by simp [phiVar_of_storedVar hs]⟩) ?_
      · rw [hs]
        exact fun he => hv (Option.some.inj he).symm
      · simp [Mem2Reg.popInstr, hs]
    | none =>
      cases hp : Mem2Reg.phiVar m i with
      | some u =>
        refine hpop u (.inr hp) (fun v hv => ⟨by simp [hs], ?_⟩) ?_
        · rw [hp]
          exact fun he => hv (Option.some.inj he).symm
        · obtain ⟨vals, hv, hlen⟩ := h u
          rw [hcons, if_pos (.inr hp)] at hlen
          have hsome : (stack u).isSome := by
            cases hu : stack u with
            | some _ => rfl
            | none =>
              simp only [hu, Option.getD_none, List.nil_eq, List.append_eq_nil_iff] at hv
              simp [hv.1] at hlen
          simp [Mem2Reg.popInstr, hs, hp, hsome]
      | none =>
        obtain ⟨stack2, h2, hb, hs2⟩ := ih stack hstored' fun v => by
          obtain ⟨vals, hv, hlen⟩ := h v
          rw [hcons, if_neg (by simp [hs, hp])] at hlen
          exact ⟨vals, hv, by simpa using hlen⟩
        refine ⟨stack2, ?_, hb, hs2⟩
        rw [List.foldlM_cons, show Mem2Reg.popInstr m stack i = .ok stack by
          simp only [Mem2Reg.popInstr, hs, hp]; rfl]
        exact h2

end

end Renaming

end Cminusf
