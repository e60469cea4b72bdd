import Mathlib.Logic.Basic

/-! Runs over a state that may fail, and that are shown to end. -/

namespace Cminusf

/-- A run that ends, with `Q`. -/
def Succeeds {S α : Type} (x : StateT S Option α) (σ : S) (Q : α → S → Prop) : Prop :=
  ∃ a σ', x σ = some (a, σ') ∧ Q a σ'

variable {S α β : Type} {x : StateT S Option α} {k : α → StateT S Option β} {σ σ' : S} {a : α}
  {Q Q' : α → S → Prop} {R : β → S → Prop}

theorem bind_run (h : x σ = some (a, σ')) : (x >>= k) σ = k a σ' := by
  have hb : (x >>= k) σ = (x σ).bind fun r => k r.1 r.2 := rfl
  rw [hb, h]
  rfl

theorem discard_run (h : x σ = some (a, σ')) : discard x σ = some ((), σ') :=
  (bind_run (k := fun _ => pure ()) h).trans rfl

theorem Succeeds.of_run (h : x σ = some (a, σ')) (hq : Q a σ') : Succeeds x σ Q := ⟨a, σ', h, hq⟩

theorem Succeeds.step (h : x σ = some (a, σ')) (hk : Succeeds (k a) σ' R) :
    Succeeds (x >>= k) σ R := by
  rw [Succeeds, bind_run h]
  exact hk

theorem Succeeds.bind (hx : Succeeds x σ Q) (hk : ∀ a σ', Q a σ' → Succeeds (k a) σ' R) :
    Succeeds (x >>= k) σ R := by
  obtain ⟨a, σ', hrun, ha⟩ := hx
  exact .step hrun (hk a σ' ha)

theorem Succeeds.mono (h : Succeeds x σ Q) (hq : ∀ a σ', Q a σ' → Q' a σ') : Succeeds x σ Q' := by
  obtain ⟨a, σ', hrun, ha⟩ := h
  exact ⟨a, σ', hrun, hq a σ' ha⟩

end Cminusf
