import Cminusf.Exec
import Mathlib.Order.Filter.AtTopBot.Basic

/-! Runs with fuel that return just when a condition holds. -/

namespace Cminusf

namespace Exec

open Filter

variable {α β γ : Type} {x : Nat → Exec α} {p p' q : Prop} {Q Q' : α → Prop} {R : β → Prop} {a : α}

/-- If `p` holds the run returns with enough fuel, else with none. What it returns has `Q`. -/
structure Settles (x : Nat → Exec α) (p : Prop) (Q : α → Prop) : Prop where
  returns : p → ∃ a, Q a ∧ ∀ᶠ fuel in atTop, x fuel = pure a
  of_ok : ∀ fuel a, x fuel = pure a → p ∧ Q a

theorem Settles.pure (h : Q a) : Settles (fun _ => Pure.pure a) True Q where
  returns _ := ⟨a, h, .of_forall fun _ => rfl⟩
  of_ok fuel b hb := by
    cases hb
    exact ⟨trivial, h⟩

theorem Settles.mono (h : Settles x p Q) (hp : p' ↔ p) (hQ : ∀ a, Q a → Q' a) :
    Settles x p' Q' where
  returns hp' := by
    obtain ⟨a, ha, hx⟩ := h.returns (hp.mp hp')
    exact ⟨a, hQ a ha, hx⟩
  of_ok fuel a hx := by
    obtain ⟨hp', ha⟩ := h.of_ok fuel a hx
    exact ⟨hp.mpr hp', hQ a ha⟩

theorem Settles.iff (h : Settles x p Q) (hp : p' ↔ p) : Settles x p' Q := h.mono hp fun _ ha => ha

theorem Settles.bind {f : α → Nat → Exec β} (h : Settles x p Q)
    (hf : ∀ a, Q a → Settles (f a) q R) :
    Settles (fun fuel => x fuel >>= fun a => f a fuel) (p ∧ q) R where
  returns hpq := by
    obtain ⟨a, ha, hx⟩ := h.returns hpq.1
    obtain ⟨b, hb, hfb⟩ := (hf a ha).returns hpq.2
    refine ⟨b, hb, ?_⟩
    filter_upwards [hx, hfb] with fuel hx hfb
    rw [hx]
    exact hfb
  of_ok fuel b hb := by
    obtain ⟨a, hx, hfb⟩ := Exec.bind_eq_ok.mp hb
    obtain ⟨hp, ha⟩ := h.of_ok fuel a hx
    obtain ⟨hq, hb⟩ := (hf a ha).of_ok fuel b hfb
    exact ⟨⟨hp, hq⟩, hb⟩

/-- The last step of a run. -/
theorem Settles.map {f : α → Exec β} (h : Settles x p Q)
    (hf : ∀ a, Q a → ∃ b, f a = Pure.pure b ∧ R b) : Settles (fun fuel => x fuel >>= f) p R := by
  refine (h.bind (f := fun a _ => f a) (q := True) fun a ha => ?_).iff (iff_of_eq (and_true p).symm)
  obtain ⟨b, hb, hR⟩ := hf a ha
  rw [hb]
  exact .pure hR

/-- A run that needs fuel to begin with. -/
theorem Settles.of_succ (h : Settles (fun fuel => x (fuel + 1)) p Q)
    (hzero : x 0 = .error .outOfFuel) : Settles x p Q where
  returns hp := by
    obtain ⟨a, ha, hx⟩ := h.returns hp
    refine ⟨a, ha, ?_⟩
    obtain ⟨bound, hbound⟩ := eventually_atTop.mp hx
    refine eventually_atTop.mpr ⟨bound + 1, fun fuel hf => ?_⟩
    obtain ⟨k, rfl⟩ := Nat.exists_eq_add_of_le' (show 1 ≤ fuel by omega)
    exact hbound k (by omega)
  of_ok fuel a ha := by
    cases fuel with
    | zero =>
      rw [hzero] at ha
      cases ha
    | succ fuel => exact h.of_ok fuel a ha

/-- A run that returns one value only, with enough fuel. -/
theorem Settles.of_eventually (h : ∀ᶠ fuel in atTop, x fuel = Pure.pure a)
    (hx : ∀ fuel fuel', fuel ≤ fuel' → Le (x fuel) (x fuel')) : Settles x True (· = a) where
  returns _ := ⟨a, rfl, h⟩
  of_ok fuel b hb := by
    obtain ⟨bound, hbound⟩ := eventually_atTop.mp h
    exact ⟨trivial, ok_unique hx hb (hbound bound le_rfl)⟩

theorem Settles.mapM {f : γ → Nat → Exec α} {xs : List γ} {ps : List Prop}
    (h : List.Forall₂ (fun c p => Settles (f c) p fun _ => True) xs ps) :
    Settles (fun fuel => xs.mapM fun c => f c fuel) (∀ p ∈ ps, p) fun _ => True := by
  induction h with
  | nil => exact (Settles.pure trivial).iff (by simp)
  | @cons c p xs ps hc _ ih =>
    simp only [List.mapM_cons]
    refine (hc.bind fun b _ => ih.map fun bs _ => ⟨b :: bs, rfl, trivial⟩).iff ?_
    exact List.forall_mem_cons

end Exec

end Cminusf
