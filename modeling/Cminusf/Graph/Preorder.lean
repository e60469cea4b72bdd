import Cminusf.Graph.IdomTree
import Mathlib.Data.List.Nodup
import Mathlib.Data.List.Flatten

/-! Walks over the tree of parent pointers that visit a vertex before its children. -/

namespace Graph

variable {α : Type*} {idom : α → Option α} {children : α → List α} {S : α → Prop} {x y z c : α}
  {n : Nat}

/-- The vertices below `x` in the order of the walk, down to depth `n`. -/
def preorder (children : α → List α) : Nat → α → List α
  | 0, _ => []
  | n + 1, x => x :: (children x).flatMap (preorder children n)

/-- `children` lists, for the vertices of `S`, their children in the tree of `idom`. -/
structure IsTree (idom : α → Option α) (children : α → List α) (S : α → Prop) : Prop where
  child : ∀ x, S x → ∀ c ∈ children x, idom c = some x ∧ c ≠ x ∧ S c
  nodup : ∀ x, S x → (children x).Nodup
  antisymm : ∀ x y, S y → Ancestor idom x y → Ancestor idom y x → x = y

theorem Ancestor.eq_of_fixed (hx : idom x = some x) (h : Ancestor idom y x) : y = x := by
  induction h with
  | refl => rfl
  | tail _ hbc ih =>
    subst ih
    rw [hx] at hbc
    exact (Option.some.inj hbc).symm

namespace IsTree

variable (h : IsTree idom children S)
include h

theorem of_mem_preorder (hx : S x) (hy : y ∈ preorder children n x) :
    Ancestor idom x y ∧ S y := by
  induction n generalizing x with
  | zero => cases hy
  | succ n ih =>
    rcases List.mem_cons.mp hy with rfl | hy
    · exact ⟨.refl _ _, hx⟩
    · obtain ⟨c, hc, hy⟩ := List.mem_flatMap.mp hy
      obtain ⟨hcx, -, hS⟩ := h.child x hx c hc
      obtain ⟨h1, h2⟩ := ih hS hy
      exact ⟨(Ancestor.of_idom hcx).trans h1, h2⟩

theorem not_ancestor_child (hx : S x) (hc : c ∈ children x) : ¬ Ancestor idom c x := by
  intro ha
  obtain ⟨hcx, hne, -⟩ := h.child x hx c hc
  exact hne (h.antisymm c x hx ha (.of_idom hcx))

theorem not_ancestor_sibling (hx : S x) {c' : α} (hc : c ∈ children x) (hc' : c' ∈ children x)
    (hne : c ≠ c') : ¬ Ancestor idom c c' := by
  intro ha
  obtain ⟨p, hp, hcp⟩ := ha.parent hne
  rw [(h.child x hx c' hc').1] at hp
  cases hp
  exact h.not_ancestor_child hx hc hcp

/-- The vertices below two children of one vertex are different. -/
theorem disjoint_preorder (hx : S x) {c' : α} (hc : c ∈ children x) (hc' : c' ∈ children x)
    (hne : c ≠ c') : List.Disjoint (preorder children n c) (preorder children n c') := by
  intro y hy hy'
  have h1 := (h.of_mem_preorder (h.child x hx c hc).2.2 hy).1
  have h2 := (h.of_mem_preorder (h.child x hx c' hc').2.2 hy').1
  rcases h1.total h2 with h3 | h3
  · exact h.not_ancestor_sibling hx hc hc' hne h3
  · exact h.not_ancestor_sibling hx hc' hc hne.symm h3

theorem nodup_preorder (hx : S x) : (preorder children n x).Nodup := by
  induction n generalizing x with
  | zero => exact .nil
  | succ n ih =>
    rw [preorder, List.nodup_cons]
    constructor
    · intro hmem
      obtain ⟨c, hc, hxc⟩ := List.mem_flatMap.mp hmem
      exact h.not_ancestor_child hx hc (h.of_mem_preorder (h.child x hx c hc).2.2 hxc).1
    · rw [List.nodup_flatMap]
      refine ⟨fun c hc => ih (h.child x hx c hc).2.2, ?_⟩
      refine (h.nodup x hx).imp_of_mem fun {c c'} hc hc' hne => ?_
      exact h.disjoint_preorder hx hc hc' hne

/-- A vertex comes after those above it. -/
theorem pairwise_preorder (hx : S x) :
    (preorder children n x).Pairwise fun u w => ¬ Ancestor idom w u := by
  induction n generalizing x with
  | zero => exact .nil
  | succ n ih =>
    rw [preorder, List.pairwise_cons]
    constructor
    · intro w hw hwx
      obtain ⟨c, hc, hw⟩ := List.mem_flatMap.mp hw
      exact h.not_ancestor_child hx hc ((h.of_mem_preorder (h.child x hx c hc).2.2 hw).1.trans hwx)
    · rw [List.pairwise_flatMap]
      refine ⟨fun c hc => ih (h.child x hx c hc).2.2, ?_⟩
      refine (h.nodup x hx).imp_of_mem fun {c c'} hc hc' hne u hu w hw hwu => ?_
      have hcu := (h.of_mem_preorder (h.child x hx c hc).2.2 hu).1
      have hcu' := (h.of_mem_preorder (h.child x hx c' hc').2.2 hw).1.trans hwu
      rcases hcu.total hcu' with ha | ha
      · exact h.not_ancestor_sibling hx hc hc' hne ha
      · exact h.not_ancestor_sibling hx hc' hc hne.symm ha

/-- Walks that are deep enough are the same. -/
theorem preorder_eq {rank : α → Nat} (hrank : ∀ x, S x → ∀ c ∈ children x, rank c < rank x)
    (hx : S x) {k : Nat} (hn : rank x < n) (hk : rank x < k) :
    preorder children n x = preorder children k x := by
  induction n generalizing x k with
  | zero => omega
  | succ n ih =>
    obtain ⟨k, rfl⟩ : ∃ j, k = j + 1 := ⟨k - 1, by omega⟩
    have hflat : (children x).map (preorder children n) = (children x).map (preorder children k) := by
      refine List.map_congr_left fun c hc => ?_
      have := hrank x hx c hc
      exact ih (h.child x hx c hc).2.2 (by omega) (by omega)
    rw [preorder, preorder, List.flatMap_def, List.flatMap_def, hflat]

/-- When the children above `y` come first, `y` comes before the vertices beside it. -/
theorem sublist_preorder (hx : S x)
    (hfirst : ∀ v, S v → (children v).Pairwise fun c c' => Ancestor idom c' y → Ancestor idom c y)
    (hy : y ∈ preorder children n x) (hz : z ∈ preorder children n x) (hyz : ¬ Ancestor idom y z)
    (hzy : ¬ Ancestor idom z y) : [y, z].Sublist (preorder children n x) := by
  induction n generalizing x with
  | zero => cases hy
  | succ n ih =>
    have hxy := (h.of_mem_preorder hx hy).1
    have hxz := (h.of_mem_preorder hx hz).1
    rw [preorder] at hy hz ⊢
    have hy' := (List.mem_cons.mp hy).resolve_left fun he => hyz (he ▸ hxz)
    have hz' := (List.mem_cons.mp hz).resolve_left fun he => hzy (he ▸ hxy)
    obtain ⟨c, hc, hyc⟩ := List.mem_flatMap.mp hy'
    obtain ⟨c', hc', hzc⟩ := List.mem_flatMap.mp hz'
    refine List.Sublist.cons _ ?_
    by_cases hne : c = c'
    · subst hne
      obtain ⟨l, l', hl⟩ := List.append_of_mem hc
      rw [hl, List.flatMap_append, List.flatMap_cons]
      exact ((ih (h.child x hx c hc).2.2 hyc hzc).trans (List.sublist_append_left _ _)).trans
        (List.sublist_append_right _ _)
    · have hcy := (h.of_mem_preorder (h.child x hx c hc).2.2 hyc).1
      have hcy' : ¬ Ancestor idom c' y := by
        intro ha
        rcases hcy.total ha with ha | ha
        · exact h.not_ancestor_sibling hx hc hc' hne ha
        · exact h.not_ancestor_sibling hx hc' hc (Ne.symm hne) ha
      obtain ⟨l, l', hl⟩ := List.append_of_mem hc
      have hp := hfirst x hx
      rw [hl] at hc' hp ⊢
      have hmem : c' ∈ l' := by
        rcases List.mem_append.mp hc' with hm | hm
        · exact absurd ((List.pairwise_append.mp hp).2.2 c' hm c List.mem_cons_self hcy) hcy'
        · exact (List.mem_cons.mp hm).resolve_left (Ne.symm hne)
      rw [List.flatMap_append, List.flatMap_cons]
      refine List.Sublist.trans ?_ (List.sublist_append_right _ _)
      exact (List.singleton_sublist.mpr hyc).append
        (List.singleton_sublist.mpr (List.mem_flatMap.mpr ⟨c', hmem, hzc⟩))

end IsTree

/-- A walk that is deep enough meets every vertex below `x`. -/
theorem mem_preorder {rank : α → Nat}
    (hrank : ∀ z, Ancestor idom z y → ∀ c ∈ children z, rank c < rank z)
    (hchild : ∀ z, Ancestor idom z y → ∀ p, idom z = some p → p ≠ z → z ∈ children p)
    (hn : rank x < n) (hxy : Ancestor idom x y) : y ∈ preorder children n x := by
  induction hxy generalizing n with
  | refl =>
    obtain ⟨k, rfl⟩ : ∃ k, n = k + 1 := ⟨n - 1, by omega⟩
    exact List.mem_cons_self
  | @tail c z hcy hzc ih =>
    obtain ⟨k, rfl⟩ : ∃ k, n = k + 1 := ⟨n - 1, by omega⟩
    by_cases hne : z = c
    · exact hne ▸ ih (hne ▸ hn)
    · have hc := hchild c hcy z hzc hne
      have := hrank z ((Ancestor.of_idom hzc).trans hcy) c hc
      exact List.mem_cons_of_mem _ (List.mem_flatMap.mpr ⟨c, hc, ih (by omega)⟩)

end Graph
