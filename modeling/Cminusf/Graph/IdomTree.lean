import Cminusf.Graph.Dominance

/-! Iterative computation of immediate dominators over one tree of pointers. The
vertices are numbered so that each one but the root has a predecessor with a larger
number; an edge that does not lower the number retreats. At every moment the pointer
chain of a vertex contains its dominators, and after `k + 1` rounds it contains only
vertices that lie on every path with at most `k` retreating edges. -/

namespace Graph

variable {α : Type*} {E : α → α → Prop} {po : α → Nat} {r d e u v w x y b : α}

/-- `x` lies on the pointer chain of `y`. -/
def Ancestor (idom : α → Option α) (x y : α) : Prop :=
  Relation.ReflTransGen (fun a c => idom a = some c) y x

theorem Ancestor.refl (idom : α → Option α) (x : α) : Ancestor idom x x :=
  Relation.ReflTransGen.refl

theorem Ancestor.trans {idom : α → Option α} (h : Ancestor idom x y) (h' : Ancestor idom y w) :
    Ancestor idom x w := Relation.ReflTransGen.trans h' h

theorem Ancestor.of_idom {idom : α → Option α} (h : idom y = some x) : Ancestor idom x y :=
  Relation.ReflTransGen.single h

/-- A proper ancestor is an ancestor of the parent. -/
theorem Ancestor.parent {idom : α → Option α} (h : Ancestor idom x y) (hne : x ≠ y) :
    ∃ c, idom y = some c ∧ Ancestor idom x c := by
  rcases Relation.ReflTransGen.cases_head h with rfl | ⟨c, hc, hx⟩
  · exact absurd rfl hne
  · exact ⟨c, hc, hx⟩

theorem Ancestor.total {idom : α → Option α} (h : Ancestor idom x y) (h' : Ancestor idom w y) :
    Ancestor idom x w ∨ Ancestor idom w x := by
  induction h using Relation.ReflTransGen.head_induction_on with
  | refl => exact .inr h'
  | head hac hcx ih =>
    rcases Relation.ReflTransGen.cases_head h' with rfl | ⟨c', hc', hw⟩
    · exact .inl (Relation.ReflTransGen.head hac hcx)
    · rw [hac] at hc'
      cases hc'
      exact ih hw

/-- `z` is the nearest common ancestor of `x` and `y`. -/
structure IsNearestCommon (idom : α → Option α) (x y z : α) : Prop where
  left : Ancestor idom z x
  right : Ancestor idom z y
  nearest : ∀ w, Ancestor idom w x → Ancestor idom w y → Ancestor idom w z

/-- `Avoids`, along at most `k` retreating edges. -/
inductive AvoidsWithin (E : α → α → Prop) (po : α → Nat) (r d : α) : Nat → α → Prop where
  | root {k : Nat} : r ≠ d → AvoidsWithin E po r d k r
  | forward {k : Nat} {u v : α} :
      AvoidsWithin E po r d k u → E u v → po v < po u → v ≠ d → AvoidsWithin E po r d k v
  | retreat {k : Nat} {u v : α} :
      AvoidsWithin E po r d k u → E u v → v ≠ d → AvoidsWithin E po r d (k + 1) v

theorem AvoidsWithin.mono {k l : Nat} (h : AvoidsWithin E po r d k v) (hkl : k ≤ l) :
    AvoidsWithin E po r d l v := by
  induction h generalizing l with
  | root h => exact .root h
  | forward _ he hp hv ih => exact .forward (ih hkl) he hp hv
  | retreat _ he hv ih =>
    obtain ⟨l, rfl⟩ : ∃ l', l = l' + 1 := ⟨l - 1, by omega⟩
    exact .retreat (ih (by omega)) he hv

theorem AvoidsWithin.ne {k : Nat} (h : AvoidsWithin E po r d k v) : v ≠ d := by
  cases h with
  | root h => exact h
  | forward _ _ _ h => exact h
  | retreat _ _ h => exact h

theorem AvoidsWithin.avoids {k : Nat} (h : AvoidsWithin E po r d k v) : Avoids E r d v := by
  induction h with
  | root h => exact .root h
  | forward _ he _ hv ih => exact .step ih he hv
  | retreat _ he hv ih => exact .step ih he hv

theorem Avoids.within (po : α → Nat) (h : Avoids E r d v) : ∃ k, AvoidsWithin E po r d k v := by
  induction h with
  | root h => exact ⟨0, .root h⟩
  | step _ he hv ih =>
    obtain ⟨k, hk⟩ := ih
    exact ⟨k + 1, .retreat hk he hv⟩

theorem AvoidsWithin.split {k : Nat} (h : AvoidsWithin E po r d k v) (e : α) :
    AvoidsWithin E po r e k v ∨ AvoidsWithin E po r d k e := by
  induction h with
  | root hr =>
    by_cases he : r = e
    · exact .inr (he ▸ .root hr)
    · exact .inl (.root he)
  | @forward k u v hu huv hp hv ih =>
    by_cases hve : v = e
    · exact .inr (hve ▸ .forward hu huv hp hv)
    · exact ih.imp_left (fun ha => .forward ha huv hp hve)
  | @retreat k u v hu huv hv ih =>
    by_cases hve : v = e
    · exact .inr (hve ▸ .retreat hu huv hv)
    · exact ih.imp (fun ha => .retreat ha huv hve) (fun ha => ha.mono (by omega))

/-- On finitely many vertices one number of retreating edges is enough. -/
theorem exists_within_bound (E : α → α → Prop) (po : α → Nat) (r : α) (vs : List α) :
    ∃ k, ∀ d ∈ vs, ∀ v ∈ vs, Avoids E r d v → AvoidsWithin E po r d k v := by
  have inner : ∀ (d : α) (ws : List α),
      ∃ k, ∀ v ∈ ws, Avoids E r d v → AvoidsWithin E po r d k v := by
    intro d ws
    induction ws with
    | nil => exact ⟨0, by simp⟩
    | cons w ws ih =>
      obtain ⟨k, hk⟩ := ih
      by_cases hw : Avoids E r d w
      · obtain ⟨l, hl⟩ := hw.within po
        refine ⟨max k l, fun v hv ha => ?_⟩
        rcases List.mem_cons.mp hv with rfl | hv
        · exact hl.mono (le_max_right k l)
        · exact (hk v hv ha).mono (le_max_left k l)
      · refine ⟨k, fun v hv ha => ?_⟩
        rcases List.mem_cons.mp hv with rfl | hv
        · exact absurd ha hw
        · exact hk v hv ha
  have outer : ∀ ds : List α,
      ∃ k, ∀ d ∈ ds, ∀ v ∈ vs, Avoids E r d v → AvoidsWithin E po r d k v := by
    intro ds
    induction ds with
    | nil => exact ⟨0, by simp⟩
    | cons d ds ih =>
      obtain ⟨k, hk⟩ := ih
      obtain ⟨l, hl⟩ := inner d vs
      refine ⟨max k l, fun e he v hv ha => ?_⟩
      rcases List.mem_cons.mp he with rfl | he
      · exact (hl v hv ha).mono (le_max_right k l)
      · exact (hk e he v hv ha).mono (le_max_left k l)
  exact outer vs

/-- What a depth-first numbering gives. -/
structure Numbering (E : α → α → Prop) (r : α) (po : α → Nat) : Prop where
  root_max : ∀ v, Reaches E r v → v ≠ r → po v < po r
  pred : ∀ v, Reaches E r v → v ≠ r → ∃ u, E u v ∧ Reaches E r u ∧ po v < po u
  injective : ∀ u v, Reaches E r u → Reaches E r v → po u = po v → u = v

abbrev Forward (E : α → α → Prop) (po : α → Nat) (u v : α) : Prop := E u v ∧ po v < po u

theorem Numbering.le_root (hn : Numbering E r po) (hv : Reaches E r v) : po v ≤ po r := by
  by_cases h : v = r
  · rw [h]
  · exact (hn.root_max v hv h).le

theorem Numbering.forward_path (hn : Numbering E r po) (hv : Reaches E r v) :
    Reaches (Forward E po) r v := by
  induction hk : po r - po v using Nat.strong_induction_on generalizing v with
  | _ k ih =>
    by_cases h : v = r
    · rw [h]
    · obtain ⟨u, huv, hu, hp⟩ := hn.pred v hv h
      have hur := hn.le_root hu
      exact (ih (po r - po u) (by omega) hu rfl).tail ⟨huv, hp⟩

theorem forward_le (h : Reaches (Forward E po) u v) : po v ≤ po u := by
  induction h with
  | refl => exact le_rfl
  | tail _ hbc ih => exact hbc.2.le.trans ih

/-- A forward path to `y` meets every vertex that forward paths cannot avoid. -/
theorem forward_through (h : Reaches (Forward E po) r y)
    (hb : ¬ AvoidsWithin E po r b 0 y) : Reaches (Forward E po) b y := by
  induction h with
  | refl =>
    by_cases hrb : r = b
    · rw [hrb]
    · exact absurd (.root hrb) hb
  | @tail u v _ huv ih =>
    by_cases hvb : v = b
    · rw [hvb]
    · exact (ih (fun ha => hb (.forward ha huv.1 huv.2 hvb))).tail huv

/-- A path around `d` to a vertex below it goes on along forward edges. -/
theorem Avoids.along_forward (hb : Avoids E r d b) (hpo : po b < po d)
    (hfwd : Reaches (Forward E po) b v) : Avoids E r d v := by
  refine hb.along ?_
  clear hb
  induction hfwd with
  | refl => exact .refl
  | @tail a c hba hac ih =>
    refine ih.tail ⟨hac.1, fun he => ?_⟩
    have h1 := forward_le hba
    have h2 := hac.2
    rw [he] at h2
    omega

/-- The state of the iteration: `cnt v` rounds have processed `v`. -/
structure IdomApprox (E : α → α → Prop) (r : α) (po : α → Nat) (idom : α → Option α)
    (cnt : α → Nat) : Prop where
  root : idom r = some r
  reaches : ∀ v d, idom v = some d → Reaches E r v
  parent : ∀ v d, idom v = some d → v ≠ r → po v < po d ∧ (idom d).isSome
  processed : ∀ v, Reaches E r v → v ≠ r → ((idom v).isSome ↔ 0 < cnt v)
  sound : ∀ v d, (idom v).isSome → Dominates E r d v → Ancestor idom d v
  bound : ∀ v d k, (idom v).isSome → (v = r ∨ k < cnt v) → Ancestor idom d v →
    ¬ AvoidsWithin E po r d k v

namespace IdomApprox

variable {idom : α → Option α} {cnt : α → Nat}

theorem ancestor_po (h : IdomApprox E r po idom cnt) (hxy : Ancestor idom x y) :
    po y ≤ po x ∧ (x ≠ y → po y < po x) := by
  induction hxy using Relation.ReflTransGen.head_induction_on with
  | refl => exact ⟨le_rfl, fun hne => absurd rfl hne⟩
  | @head a c hac _ ih =>
    by_cases har : a = r
    · subst har
      rw [h.root] at hac
      cases hac
      exact ih
    · have hp := (h.parent a c hac har).1
      exact ⟨by omega, fun _ => by omega⟩

theorem ancestor_isSome (h : IdomApprox E r po idom cnt) (hxy : Ancestor idom x y)
    (hy : (idom y).isSome) : (idom x).isSome := by
  induction hxy using Relation.ReflTransGen.head_induction_on with
  | refl => exact hy
  | @head a c hac _ ih =>
    refine ih ?_
    by_cases har : a = r
    · subst har
      rw [h.root] at hac
      cases hac
      exact hy
    · exact (h.parent a c hac har).2

theorem ancestor_root (h : IdomApprox E r po idom cnt) (hx : Ancestor idom x r) : x = r := by
  induction hx with
  | refl => rfl
  | tail _ hbc ih =>
    subst ih
    rw [h.root] at hbc
    exact (Option.some.inj hbc).symm

theorem ancestor_antisymm (h : IdomApprox E r po idom cnt) (hxy : Ancestor idom x y)
    (hyx : Ancestor idom y x) : x = y := by
  by_contra hne
  have h1 := (h.ancestor_po hxy).2 hne
  have h2 := (h.ancestor_po hyx).1
  omega

theorem not_ancestor (h : IdomApprox E r po idom cnt)
    (hpo : po b < po w) : ¬ Ancestor idom b w := by
  intro ha
  have := (h.ancestor_po ha).1
  omega

theorem ne_root_of_ancestor (h : IdomApprox E r po idom cnt) (hb : b ≠ r)
    (hbv : Ancestor idom b v) : v ≠ r :=
  fun he => hb (h.ancestor_root (he ▸ hbv))

/-- The dominators of a vertex below `b` that are above `b` dominate `b`: a path around one to `b`
would go on along the forward path to the vertex. -/
theorem dominates_above (h : IdomApprox E r po idom cnt) (hn : Numbering E r po)
    (hb : b ≠ r) (hv : (idom v).isSome) (hbv : Ancestor idom b v) (hdb : Ancestor idom d b)
    (hd : Dominates E r d v) : Dominates E r d b := by
  by_contra hab
  simp only [Dominates, not_not] at hab
  obtain ⟨dv, hdv⟩ := Option.isSome_iff_exists.mp hv
  have hreach : Reaches E r v := h.reaches v dv hdv
  have hcv : 0 < cnt v := (h.processed v hreach (h.ne_root_of_ancestor hb hbv)).mp hv
  have hfwd : Reaches (Forward E po) b v :=
    forward_through (hn.forward_path hreach) (h.bound v b 0 hv (.inr hcv) hbv)
  have hpd : po b < po d := (h.ancestor_po hdb).2 (Ne.symm hab.ne)
  exact hd (hab.along_forward hpd hfwd)

/-- When every vertex has been processed more often than a path retreats, the chains are
the chains of dominators. -/
theorem ancestor_iff (h : IdomApprox E r po idom cnt) {k : Nat}
    (hk : ∀ x v, (idom x).isSome → (idom v).isSome → Avoids E r x v → AvoidsWithin E po r x k v)
    (hcnt : ∀ v, v ≠ r → (idom v).isSome → k < cnt v) (hv : (idom v).isSome) :
    Ancestor idom x v ↔ Dominates E r x v := by
  refine ⟨fun hx ha => ?_, h.sound v x hv⟩
  have hcv : v = r ∨ k < cnt v := by
    by_cases hvr : v = r
    · exact .inl hvr
    · exact .inr (hcnt v hvr hv)
  exact h.bound v x k hv hcv hx (hk x v (h.ancestor_isSome hx hv) hv ha)

theorem isIdom (h : IdomApprox E r po idom cnt)
    (hexact : ∀ x v, (idom v).isSome → (Ancestor idom x v ↔ Dominates E r x v))
    (hv : idom v = some d) (hne : v ≠ r) : IsIdom E r d v := by
  have hsome : (idom v).isSome := by simp [hv]
  obtain ⟨hpo, hd⟩ := h.parent v d hv hne
  refine ⟨⟨(hexact d v hsome).mp (.of_idom hv), ?_⟩, fun e he => ?_⟩
  · rintro rfl
    omega
  · obtain ⟨c, hc, hec⟩ := ((hexact e v hsome).mpr he.1).parent he.2
    rw [hv] at hc
    cases hc
    exact (hexact e d hd).mp hec

end IdomApprox

section Update

variable {idom : α → Option α} {cnt : α → Nat} {k : Nat} [DecidableEq α]

/-- `new` is the nearest common ancestor of the predecessors of `b` that have a pointer. -/
structure IsMeet (E : α → α → Prop) (idom : α → Option α) (b new : α) : Prop where
  ancestor : ∀ p, E p b → (idom p).isSome → Ancestor idom new p
  greatest : ∀ d, (∀ p, E p b → (idom p).isSome → Ancestor idom d p) → Ancestor idom d new

/-- The order of a round: the predecessors with a larger number have been processed in it. -/
structure RoundAt (E : α → α → Prop) (r : α) (po : α → Nat) (cnt : α → Nat) (k : Nat) (b : α) :
    Prop where
  ne_root : b ≠ r
  count : cnt b = k
  le : ∀ v, Reaches E r v → cnt v ≤ k + 1
  forward : ∀ p, E p b → Reaches E r p → p ≠ r → po b < po p → cnt p = k + 1
  retreat : ∀ p, E p b → Reaches E r p → p ≠ r → k ≤ cnt p

theorem ancestor_update_of_not {new : α} (hb : ¬ Ancestor idom b y) :
    Ancestor (Function.update idom b (some new)) x y ↔ Ancestor idom x y := by
  constructor
  · intro h
    induction h using Relation.ReflTransGen.head_induction_on with
    | refl => exact .refl _ _
    | @head a c hac _ ih =>
      have hab : a ≠ b := fun he => hb (he ▸ Ancestor.refl idom a)
      rw [Function.update_of_ne hab] at hac
      exact (ih (fun hbc => hb (hbc.trans (.of_idom hac)))).trans (.of_idom hac)
  · intro h
    induction h using Relation.ReflTransGen.head_induction_on with
    | refl => exact .refl _ _
    | @head a c hac _ ih =>
      have hab : a ≠ b := fun he => hb (he ▸ Ancestor.refl idom a)
      have hac' : Function.update idom b (some new) a = some c := by
        rw [Function.update_of_ne hab, hac]
      exact (ih (fun hbc => hb (hbc.trans (.of_idom hac)))).trans (.of_idom hac')

/-- The new chain of a vertex is a part of the old one, or goes through the moved pointer. -/
theorem ancestor_update_elim {new : α} (h : Ancestor (Function.update idom b (some new)) x y) :
    Ancestor idom x y ∨
      Ancestor idom b y ∧ Ancestor (Function.update idom b (some new)) x b := by
  induction h using Relation.ReflTransGen.head_induction_on with
  | refl => exact .inl (.refl _ _)
  | @head a c hac hcx ih =>
    by_cases hab : a = b
    · subst hab
      exact .inr ⟨.refl _ _, Relation.ReflTransGen.head hac hcx⟩
    · rw [Function.update_of_ne hab] at hac
      exact ih.imp (fun h => h.trans (.of_idom hac)) (fun h => ⟨h.1.trans (.of_idom hac), h.2⟩)

/-- An old ancestor at or below the moved vertex stays one. -/
theorem ancestor_update_below {new : α} (hx : Ancestor idom x y)
    (hbx : Ancestor idom b x ∨ ¬ Ancestor idom b y)
    (hanti : ∀ z, Ancestor idom z b → Ancestor idom b z → z = b) :
    Ancestor (Function.update idom b (some new)) x y := by
  induction hx using Relation.ReflTransGen.head_induction_on with
  | refl => exact .refl _ _
  | @head a c hac hcx ih =>
    have hcx' : Ancestor idom x c := hcx
    by_cases hab : a = b
    · subst hab
      rcases hbx with hbx | hbx
      · have : x = a := hanti x (hcx'.trans (.of_idom hac)) hbx
        exact this ▸ .refl _ _
      · exact absurd (.refl _ _) hbx
    · have hac' : Function.update idom b (some new) a = some c := by
        rw [Function.update_of_ne hab, hac]
      refine (ih (hbx.imp_right fun hb hbc => hb (hbc.trans (.of_idom hac)))).trans (.of_idom hac')

/-- The new chain of the moved vertex is the vertex and the chain of its new parent. -/
theorem ancestor_update_self {new : α} (hbnew : ¬ Ancestor idom b new) :
    Ancestor (Function.update idom b (some new)) x b ↔ x = b ∨ Ancestor idom x new := by
  constructor
  · intro hx
    by_cases hxb : x = b
    · exact .inl hxb
    · obtain ⟨c, hc, hxc⟩ := hx.parent hxb
      rw [Function.update_self] at hc
      cases hc
      exact .inr ((ancestor_update_of_not hbnew).mp hxc)
  · rintro (rfl | hx)
    · exact .refl _ _
    · exact ((ancestor_update_of_not hbnew).mpr hx).trans
        (.of_idom (Function.update_self b (some new) idom))

theorem isSome_update {new : α} (hv : (idom v).isSome) :
    (Function.update idom b (some new) v).isSome := by
  by_cases hvb : v = b
  · simp [hvb]
  · rwa [Function.update_of_ne hvb]

theorem IdomApprox.meet_po {new : α} (h : IdomApprox E r po idom cnt) (hn : Numbering E r po)
    (hb : RoundAt E r po cnt k b) (hbr : Reaches E r b) (hm : IsMeet E idom b new) :
    po b < po new ∧ (idom new).isSome := by
  obtain ⟨u, hub, hu, hp⟩ := hn.pred b hbr hb.ne_root
  have hsome : (idom u).isSome := by
    by_cases hur : u = r
    · simp [hur, h.root]
    · rw [h.processed u hu hur, hb.forward u hub hu hur hp]
      omega
  have hanc := hm.ancestor u hub hsome
  have := (h.ancestor_po hanc).1
  exact ⟨by omega, h.ancestor_isSome hanc hsome⟩

/-- The dominators of `b` are on the chain of every predecessor, so on that of the meet. -/
theorem IdomApprox.meet_sound {new : α} (h : IdomApprox E r po idom cnt)
    (hm : IsMeet E idom b new) (hbnew : ¬ Ancestor idom b new) (hd : Dominates E r d b) :
    Ancestor (Function.update idom b (some new)) d b := by
  rw [ancestor_update_self hbnew]
  by_cases hdb : d = b
  · exact .inl hdb
  · exact .inr (hm.greatest d fun p hpb hp =>
      h.sound p d hp (StrictlyDominates.dominates_pred ⟨hd, hdb⟩ hpb))

/-- No path around a vertex on the chain of the meet ends with an edge to `b`. -/
theorem IdomApprox.meet_pred {new : α} {l : Nat} (h : IdomApprox E r po idom cnt)
    (hm : IsMeet E idom b new) (hd : Ancestor idom d new) (hub : E u b)
    (hl : u = r ∨ l < cnt u) : ¬ AvoidsWithin E po r d l u := by
  intro ha
  have hu : Reaches E r u := ha.avoids.reaches
  have hus : (idom u).isSome := by
    by_cases hur : u = r
    · simp [hur, h.root]
    · rw [h.processed u hu hur]
      exact lt_of_le_of_lt (Nat.zero_le l) (hl.resolve_left hur)
  exact h.bound u d l hus hl (hd.trans (hm.ancestor u hub hus)) ha

theorem IdomApprox.meet_bound {new : α} {j : Nat} (h : IdomApprox E r po idom cnt)
    (hb : RoundAt E r po cnt k b) (hm : IsMeet E idom b new) (hbnew : ¬ Ancestor idom b new)
    (hj : j ≤ k) (hd : Ancestor (Function.update idom b (some new)) d b) :
    ¬ AvoidsWithin E po r d j b := by
  intro ha
  rcases (ancestor_update_self hbnew).mp hd with rfl | hd
  · exact ha.ne rfl
  · cases ha with
    | root _ => exact hb.ne_root rfl
    | @forward _ u _ hu hub hp _ =>
      refine h.meet_pred hm hd hub ?_ hu
      by_cases hur : u = r
      · exact .inl hur
      · have := hb.forward u hub hu.avoids.reaches hur hp
        exact .inr (by omega)
    | @retreat j u _ hu hub _ =>
      refine h.meet_pred hm hd hub ?_ hu
      by_cases hur : u = r
      · exact .inl hur
      · have := hb.retreat u hub hu.avoids.reaches hur
        exact .inr (by omega)

theorem IdomApprox.update_sound {new : α} (h : IdomApprox E r po idom cnt)
    (hn : Numbering E r po) (hb : b ≠ r) (hm : IsMeet E idom b new)
    (hbnew : ¬ Ancestor idom b new) (hv : (idom v).isSome)
    (hd : Dominates E r d v) : Ancestor (Function.update idom b (some new)) d v := by
  have hanti : ∀ z, Ancestor idom z b → Ancestor idom b z → z = b :=
    fun z hz hz' => h.ancestor_antisymm hz hz'
  have hold : Ancestor idom d v := h.sound v d hv hd
  by_cases hbv : Ancestor idom b v
  · rcases hbv.total hold with hbd | hdb
    · exact ancestor_update_below hold (.inl hbd) hanti
    · have hbv' : Ancestor (Function.update idom b (some new)) b v :=
        ancestor_update_below hbv (.inl (.refl _ _)) hanti
      exact (h.meet_sound hm hbnew (h.dominates_above hn hb hv hbv hdb hd)).trans hbv'
  · exact (ancestor_update_of_not hbv).mpr hold

theorem IdomApprox.update_bound {new : α} {j : Nat} (h : IdomApprox E r po idom cnt)
    (hb : RoundAt E r po cnt k b) (hm : IsMeet E idom b new) (hbnew : ¬ Ancestor idom b new)
    (hv : (idom v).isSome) (hj : v = r ∨ j < cnt v)
    (hd : Ancestor (Function.update idom b (some new)) d v) : ¬ AvoidsWithin E po r d j v := by
  rcases ancestor_update_elim hd with hd | ⟨hbv, hdb⟩
  · exact h.bound v d j hv hj hd
  · intro ha
    have hjk : j ≤ k := by
      obtain ⟨dv, hdv⟩ := Option.isSome_iff_exists.mp hv
      have hle := hb.le v (h.reaches v dv hdv)
      have hlt := hj.resolve_left (h.ne_root_of_ancestor hb.ne_root hbv)
      omega
    rcases ha.split b with ha | ha
    · exact h.bound v b j hv hj hbv ha
    · exact h.meet_bound hb hm hbnew hjk hdb ha

theorem IdomApprox.update {new : α} (h : IdomApprox E r po idom cnt) (hn : Numbering E r po)
    (hb : RoundAt E r po cnt k b) (hbr : Reaches E r b) (hm : IsMeet E idom b new) :
    IdomApprox E r po (Function.update idom b (some new)) (Function.update cnt b (k + 1)) := by
  obtain ⟨hpo, hnew⟩ := h.meet_po hn hb hbr hm
  have hbnew : ¬ Ancestor idom b new := h.not_ancestor hpo
  refine ⟨?_, ?_, ?_, ?_, ?_, ?_⟩
  · rw [Function.update_of_ne hb.ne_root.symm, h.root]
  · intro v d hv
    by_cases hvb : v = b
    · rwa [hvb]
    · rw [Function.update_of_ne hvb] at hv
      exact h.reaches v d hv
  · intro v d hv hvr
    by_cases hvb : v = b
    · subst hvb
      rw [Function.update_self] at hv
      cases hv
      exact ⟨hpo, isSome_update hnew⟩
    · rw [Function.update_of_ne hvb] at hv
      exact ⟨(h.parent v d hv hvr).1, isSome_update (h.parent v d hv hvr).2⟩
  · intro v hv hvr
    by_cases hvb : v = b
    · simp [hvb]
    · rw [Function.update_of_ne hvb, Function.update_of_ne hvb]
      exact h.processed v hv hvr
  · intro v d hv hd
    by_cases hvb : v = b
    · rw [hvb] at hd ⊢
      exact h.meet_sound hm hbnew hd
    · rw [Function.update_of_ne hvb] at hv
      exact h.update_sound hn hb.ne_root hm hbnew hv hd
  · intro v d j hv hj hd
    by_cases hvb : v = b
    · subst hvb
      rw [Function.update_self] at hj
      have hlt := hj.resolve_left hb.ne_root
      exact h.meet_bound hb hm hbnew (by omega) hd
    · rw [Function.update_of_ne hvb] at hv
      rw [Function.update_of_ne hvb] at hj
      exact h.update_bound hb hm hbnew hv hj hd

theorem IdomApprox.initial (E : α → α → Prop) (r : α) (po : α → Nat) :
    IdomApprox E r po (Function.update (fun _ => none) r (some r)) (fun _ => 0) := by
  have hroot : ∀ v c, Function.update (fun _ => none) r (some r) v = some c → v = r ∧ c = r := by
    intro v c hv
    by_cases hvr : v = r
    · rw [hvr, Function.update_self] at hv
      exact ⟨hvr, (Option.some.inj hv).symm⟩
    · rw [Function.update_of_ne hvr] at hv
      cases hv
  have hsome : ∀ v, (Function.update (fun _ => none) r (some r) v).isSome → v = r := by
    intro v hv
    obtain ⟨c, hc⟩ := Option.isSome_iff_exists.mp hv
    exact (hroot v c hc).1
  have hchain : ∀ x, Ancestor (Function.update (fun _ => none) r (some r)) x r → x = r := by
    intro x hx
    induction hx with
    | refl => rfl
    | tail _ hbc _ => exact (hroot _ _ hbc).2
  refine ⟨Function.update_self _ _ _, fun v c hv => ?_, fun v c hv hne => ?_,
    fun v _ hne => ?_, fun v x hv hx => ?_, fun v x k hv _ hx => ?_⟩
  · rw [(hroot v c hv).1]
  · exact absurd (hroot v c hv).1 hne
  · simp [Function.update_of_ne hne]
  · rw [hsome v hv] at hx ⊢
    have : x = r := by
      by_contra hne
      exact hx (.root (Ne.symm hne))
    rw [this]
    exact .refl _ _
  · rw [hsome v hv] at hx ⊢
    rw [hchain x hx]
    exact fun ha => ha.ne rfl

end Update

end Graph
