import Mathlib.Logic.Relation
import Mathlib.Data.Nat.Basic
import Mathlib.Order.Lattice
import Mathlib.Tactic.Common

/-! Dominance in a directed graph with a root. A vertex `d` dominates `v` when no
path from the root reaches `v` without passing through `d`. -/

namespace Graph

variable {α : Type*} {E : α → α → Prop} {r d e u v w x y : α}

/-- Some path from the root reaches the vertex and never visits `d`. -/
inductive Avoids (E : α → α → Prop) (r d : α) : α → Prop where
  | root : r ≠ d → Avoids E r d r
  | step {u v : α} : Avoids E r d u → E u v → v ≠ d → Avoids E r d v

abbrev Reaches (E : α → α → Prop) : α → α → Prop := Relation.ReflTransGen E

def Dominates (E : α → α → Prop) (r d v : α) : Prop := ¬ Avoids E r d v

def StrictlyDominates (E : α → α → Prop) (r d v : α) : Prop := Dominates E r d v ∧ d ≠ v

theorem Avoids.reaches (h : Avoids E r d v) : Reaches E r v := by
  induction h with
  | root _ => exact .refl
  | step _ he _ ih => exact ih.tail he

theorem Avoids.ne (h : Avoids E r d v) : v ≠ d := by
  cases h with
  | root h => exact h
  | step _ _ h => exact h

theorem dominates_refl (E : α → α → Prop) (r v : α) : Dominates E r v v := fun h => h.ne rfl

theorem dominates_root (E : α → α → Prop) (r v : α) : Dominates E r r v := by
  intro h
  induction h with
  | root h => exact h rfl
  | step _ _ _ ih => exact ih

theorem Dominates.trans (hde : Dominates E r d e) (hev : Dominates E r e v) :
    Dominates E r d v := by
  intro h
  have : Avoids E r e v ∨ Avoids E r d e := by
    induction h with
    | root hr =>
      by_cases he : r = e
      · exact .inr (he ▸ .root hr)
      · exact .inl (.root he)
    | @step u v hu huv hv ih =>
      by_cases hve : v = e
      · exact .inr (hve ▸ .step hu huv hv)
      · exact (ih (fun ha => hev (.step ha huv hve))).imp_left (fun ha => .step ha huv hve)
  exact this.elim hev hde

/-- A path into a strictly dominated vertex has passed the dominator before. -/
theorem StrictlyDominates.dominates_pred (h : StrictlyDominates E r d v) (huv : E u v) :
    Dominates E r d u := fun ha => h.1 (.step ha huv (Ne.symm h.2))

theorem dominates_of_preds (hv : v ≠ r) (h : ∀ u, E u v → Reaches E r u → Dominates E r d u) :
    Dominates E r d v := by
  intro ha
  cases ha with
  | root _ => exact hv rfl
  | step hu huv _ => exact h _ huv hu.reaches hu

/-- The first visit to a vertex comes over an edge from a vertex that it does not dominate. -/
theorem exists_avoids_pred (hv : Reaches E r v) (hne : v ≠ r) : ∃ u, E u v ∧ Avoids E r v u := by
  have key : ∀ w, Reaches E r w → Avoids E r v w ∨ ∃ u, E u v ∧ Avoids E r v u := by
    intro w hw
    induction hw with
    | refl => exact .inl (.root (Ne.symm hne))
    | @tail u w _ huw ih =>
      rcases ih with h | h
      · by_cases hwv : w = v
        · exact .inr ⟨u, hwv ▸ huw, h⟩
        · exact .inl (.step h huw hwv)
      · exact .inr h
  rcases key v hv with h | h
  · exact absurd rfl h.ne
  · exact h

theorem Dominates.antisymm (hd : Reaches E r d) (hde : Dominates E r d e)
    (hed : Dominates E r e d) : d = e := by
  by_contra hne
  -- A path to `d` meets one of the two vertices first, and avoids the other up to there.
  have key : ∀ v, Reaches E r v →
      (Avoids E r d v ∧ Avoids E r e v) ∨ Avoids E r d e ∨ Avoids E r e d := by
    intro v hv
    induction hv with
    | refl =>
      by_cases h : r = d
      · exact .inr (.inr (h ▸ .root (fun he => hne (h.symm.trans he))))
      · by_cases h' : r = e
        · exact .inr (.inl (h' ▸ .root h))
        · exact .inl ⟨.root h, .root h'⟩
    | @tail u v _ huv ih =>
      rcases ih with ⟨h, h'⟩ | h
      · by_cases hvd : v = d
        · exact .inr (.inr (hvd ▸ .step h' huv (fun he => hne (hvd.symm.trans he))))
        · by_cases hve : v = e
          · exact .inr (.inl (hve ▸ .step h huv hvd))
          · exact .inl ⟨.step h huv hvd, .step h' huv hve⟩
      · exact .inr h
  rcases key d hd with h | h | h
  · exact h.1.ne rfl
  · exact hde h
  · exact hed h

/-- The dominators of a reachable vertex form a chain. -/
theorem Dominates.total (hv : Reaches E r v) (hd : Dominates E r d v) (he : Dominates E r e v) :
    Dominates E r d e ∨ Dominates E r e d := by
  by_contra hne
  simp only [not_or, Dominates, not_not] at hne
  have key : Avoids E r d v ∨ Avoids E r e v := by
    clear hd he
    induction hv with
    | refl =>
      by_cases h : r = d
      · exact .inr (.root (fun he => hne.1.ne (he.symm.trans h)))
      · exact .inl (.root h)
    | @tail u v _ huv ih =>
      rcases ih with h | h
      · by_cases hvd : v = d
        · exact .inr (hvd ▸ hne.2)
        · exact .inl (.step h huv hvd)
      · by_cases hve : v = e
        · exact .inl (hve ▸ hne.1)
        · exact .inr (.step h huv hve)
  exact key.elim hd he

theorem Dominates.reaches (hv : Reaches E r v) (h : Dominates E r d v) : Reaches E r d := by
  by_contra hd
  refine h ?_
  have key : ∀ v, Reaches E r v → Avoids E r d v := by
    intro v hv
    induction hv with
    | refl => exact .root (fun he => hd (he ▸ .refl))
    | tail hu huv ih => exact .step ih huv (fun he => hd (he ▸ hu.tail huv))
  exact key v hv

/-- A path from a dominator. -/
theorem Dominates.path (hv : Reaches E r v) (h : Dominates E r d v) : Reaches E d v := by
  induction hv with
  | refl =>
    by_cases hd : r = d
    · subst hd
      exact .refl
    · exact absurd (.root hd) h
  | @tail u v hu huv ih =>
    by_cases hd : v = d
    · subst hd
      exact .refl
    · apply Relation.ReflTransGen.tail _ huv
      apply ih
      intro ha
      exact h (.step ha huv hd)

theorem StrictlyDominates.path (hv : Reaches E r v) (h : StrictlyDominates E r d v) :
    Relation.TransGen E d v := by
  rcases Relation.reflTransGen_iff_eq_or_transGen.mp (h.1.path hv) with he | ht
  · exact absurd he.symm h.2
  · exact ht

theorem StrictlyDominates.trans_dominates (hv : Reaches E r v) (hde : StrictlyDominates E r d e)
    (hev : Dominates E r e v) : StrictlyDominates E r d v := by
  refine ⟨hde.1.trans hev, ?_⟩
  rintro rfl
  exact hde.2 (Dominates.antisymm hv hde.1 hev)

theorem Dominates.trans_strictlyDominates (hv : Reaches E r v) (hde : Dominates E r d e)
    (hev : StrictlyDominates E r e v) : StrictlyDominates E r d v := by
  refine ⟨hde.trans hev.1, ?_⟩
  rintro rfl
  exact hev.2 (Dominates.antisymm (Dominates.reaches hv hev.1) hev.1 hde)

theorem strictlyDominates_irrefl : ¬ StrictlyDominates E r d d := fun h => h.2 rfl

theorem Avoids.along (h : Avoids E r d u) (huv : Reaches (fun a b => E a b ∧ b ≠ d) u v) :
    Avoids E r d v := by
  induction huv with
  | refl => exact h
  | tail _ hbc ih => exact .step ih hbc.1 hbc.2

def IsIdom (E : α → α → Prop) (r d v : α) : Prop :=
  StrictlyDominates E r d v ∧ ∀ e, StrictlyDominates E r e v → Dominates E r e d

theorem IsIdom.unique (hv : Reaches E r v) (hd : IsIdom E r d v) (he : IsIdom E r e v) : d = e :=
  Dominates.antisymm (hd.1.1.reaches hv) (he.2 d hd.1) (hd.2 e he.1)

/-- `y` is in the dominance frontier of `x`. -/
def Frontier (E : α → α → Prop) (r x y : α) : Prop :=
  (∃ p, E p y ∧ Reaches E r p ∧ Dominates E r x p) ∧ ¬ StrictlyDominates E r x y

/-- The iterated frontier of the vertices satisfying `S`, for a frontier relation `F`. -/
inductive IteratedFrontier (F : α → α → Prop) (S : α → Prop) : α → Prop where
  | base {x y : α} : S x → F x y → IteratedFrontier F S y
  | step {x y : α} : IteratedFrontier F S x → F x y → IteratedFrontier F S y

/-- A vertex of the iterated frontier is reached from a vertex of `S`. -/
theorem IteratedFrontier.exists_path {S : α → Prop} (h : IteratedFrontier (Frontier E r) S v) :
    ∃ x, S x ∧ Relation.TransGen E x v := by
  induction h with
  | base hx hf =>
    obtain ⟨⟨p, hpy, hp, hxp⟩, -⟩ := hf
    exact ⟨_, hx, .tail' (hxp.path hp) hpy⟩
  | step _ hf ih =>
    obtain ⟨x, hx, hxz⟩ := ih
    obtain ⟨⟨p, hpy, hp, hzp⟩, -⟩ := hf
    exact ⟨x, hx, hxz.trans (.tail' (hzp.path hp) hpy)⟩

/-- The vertices of `S` and of its iterated dominance frontier. -/
def Defines (E : α → α → Prop) (r : α) (S : α → Prop) (x : α) : Prop :=
  S x ∨ IteratedFrontier (Frontier E r) S x

theorem Defines.frontier {S : α → Prop} (h : Defines E r S x) (hxy : Frontier E r x y) :
    IteratedFrontier (Frontier E r) S y := h.elim (.base · hxy) (.step · hxy)

/-- An edge keeps a defining dominator, unless it enters a block of the frontier. -/
theorem Defines.edge {S : α → Prop} (h : Defines E r S x) (hxu : Dominates E r x u)
    (hu : Reaches E r u) (huv : E u v) :
    StrictlyDominates E r x v ∨ IteratedFrontier (Frontier E r) S v := by
  by_cases hs : StrictlyDominates E r x v
  · exact .inl hs
  · exact .inr (h.frontier ⟨⟨u, huv, hu, hxu⟩, hs⟩)

/-- Every vertex reachable from a defining vertex has a defining dominator; if the path
is not empty, the dominator is proper or the vertex is in the frontier itself. -/
theorem Defines.reaches {S : α → Prop} (h : Defines E r S x) (hx : Reaches E r x)
    (hxv : Relation.TransGen E x v) :
    (∃ z, Defines E r S z ∧ StrictlyDominates E r z v) ∨
      IteratedFrontier (Frontier E r) S v := by
  induction hxv with
  | single hxv => exact (h.edge (dominates_refl E r x) hx hxv).imp_left (fun hs => ⟨x, h, hs⟩)
  | tail hxu huv ih =>
    have hu := hx.trans hxu.to_reflTransGen
    rcases ih with ⟨z, hz, hzu⟩ | hf
    · exact (hz.edge hzu.1 hu huv).imp_left (fun hs => ⟨z, hz, hs⟩)
    · have hd : Defines E r S _ := .inr hf
      exact (hd.edge (dominates_refl E r _) hu huv).imp_left (fun hs => ⟨_, hd, hs⟩)

end Graph
