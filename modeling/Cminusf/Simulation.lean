import Mathlib.Logic.Relation

/-! Simulations between two systems that take steps, where the second one may wait while the size of
the first one's state gets smaller. -/

variable {S S' : Type*}

/-- The second system follows each step of the first one, or waits. -/
def Follows (step : S → Option S) (step' : S' → Option S') (R : S → S' → Prop) (size : S → Nat) :
    Prop :=
  ∀ s s' t, R s s' → step s = some t →
    (∃ t', step' s' = some t' ∧ R t t') ∨ R t s' ∧ size t < size s

namespace Follows

variable {step : S → Option S} {step' : S' → Option S'} {R : S → S' → Prop} {size : S → Nat}
  {s t : S} {s' t' : S'}

/-- What the first system reaches, the second one does. -/
theorem reaches (h : Follows step step' R size) (hR : R s s')
    (hs : Relation.ReflTransGen (fun s t => step s = some t) s t) :
    ∃ t', Relation.ReflTransGen (fun s t => step' s = some t) s' t' ∧ R t t' := by
  induction hs with
  | refl => exact ⟨s', .refl, hR⟩
  | tail _ hst ih =>
    obtain ⟨u', hu, hR⟩ := ih
    rcases h _ _ _ hR hst with ⟨t', ht, hR⟩ | ⟨hR, -⟩
    · exact ⟨t', hu.tail ht, hR⟩
    · exact ⟨u', hu, hR⟩

/-- A step of the second system is one of the first one, after those for which it has waited. -/
theorem step_back (h : Follows step step' R size)
    (hstop : ∀ s s', R s s' → step s = none → step' s' = none) (hR : R s s')
    (hs : step' s' = some t') :
    ∃ t, Relation.ReflTransGen (fun s t => step s = some t) s t ∧ R t t' := by
  induction hn : size s using Nat.strongRecOn generalizing s with
  | ind n ih =>
    cases hst : step s with
    | none =>
      rw [hstop s s' hR hst] at hs
      cases hs
    | some u =>
      rcases h s s' u hR hst with ⟨u', hu, hR⟩ | ⟨hR, hlt⟩
      · obtain rfl : u' = t' := Option.some.inj (hu.symm.trans hs)
        exact ⟨u, .single hst, hR⟩
      · obtain ⟨t, ht, hR⟩ := ih (size u) (hn ▸ hlt) hR rfl
        exact ⟨t, .head hst ht, hR⟩

/-- The second system reaches nothing else, if the first one stops only where both do. -/
theorem reaches_back (h : Follows step step' R size)
    (hstop : ∀ u u', Relation.ReflTransGen (fun s t => step s = some t) s u → R u u' →
      step u = none → step' u' = none)
    (hR : R s s') (hs : Relation.ReflTransGen (fun s t => step' s = some t) s' t') :
    ∃ t, Relation.ReflTransGen (fun s t => step s = some t) s t ∧ R t t' := by
  -- the relation on the states that the first system reaches
  let Q : S → S' → Prop := fun u u' => Relation.ReflTransGen (fun s t => step s = some t) s u ∧ R u u'
  have hQ : Follows step step' Q size := by
    intro u u' v hu huv
    rcases h u u' v hu.2 huv with ⟨v', hv, hR⟩ | ⟨hR, hlt⟩
    · exact .inl ⟨v', hv, hu.1.tail huv, hR⟩
    · exact .inr ⟨⟨hu.1.tail huv, hR⟩, hlt⟩
  induction hs with
  | refl => exact ⟨s, .refl, hR⟩
  | tail _ hst ih =>
    obtain ⟨u, hu, hR⟩ := ih
    obtain ⟨t, -, ht, hR⟩ := hQ.step_back (fun u u' hu => hstop u u' hu.1 hu.2) ⟨hu, hR⟩ hst
    exact ⟨t, ht, hR⟩

end Follows
