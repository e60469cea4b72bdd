import Mathlib.Logic.Relation

/-! A machine that follows an evaluation with a state, which may stop with an exception. -/

variable {S ε σ α β : Type} {step : S → Option S}

/-- So many steps. -/
def Takes (step : S → Option S) : Nat → S → S → Prop
  | 0, s, t => s = t
  | n + 1, s, t => ∃ u, step s = some u ∧ Takes step n u t

variable {n k : Nat} {s t u : S}

theorem Takes.reaches (h : Takes step n s t) :
    Relation.ReflTransGen (fun s s' => step s = some s') s t := by
  induction n generalizing s with
  | zero =>
    subst h
    exact .refl
  | succ n ih =>
    obtain ⟨u, hu, hn⟩ := h
    exact .head hu (ih hn)

theorem exists_takes (h : Relation.ReflTransGen (fun s s' => step s = some s') s t) :
    ∃ n, Takes step n s t := by
  induction h using Relation.ReflTransGen.head_induction_on with
  | refl => exact ⟨0, rfl⟩
  | head hu _ ih =>
    obtain ⟨n, hn⟩ := ih
    exact ⟨n + 1, _, hu, hn⟩

/-- Of two runs from one state the shorter is the beginning of the longer. -/
theorem Takes.prefix (h : Takes step n s t) (h' : Takes step (n + k) s u) : Takes step k t u := by
  induction n generalizing s with
  | zero =>
    subst h
    rwa [Nat.zero_add] at h'
  | succ n ih =>
    rw [Nat.add_right_comm] at h'
    obtain ⟨v, hv, hn⟩ := h
    obtain ⟨v', hv', hn'⟩ := h'
    obtain rfl : v = v' := Option.some.inj (hv.symm.trans hv')
    exact ih hn hn'

section

variable {x : ExceptT ε (StateM σ) α} {f : α → ExceptT ε (StateM σ) β} {a : α} {e : ε} {v v' : σ}

theorem bind_of_ok (h : x v = (.ok a, v')) : (x >>= f) v = f a v' := by
  have hb : (x >>= f) v = (ExceptT.bindCont f (x v).1) (x v).2 := rfl
  rw [hb, h]
  rfl

theorem bind_of_error (h : x v = (.error e, v')) : (x >>= f) v = (.error e, v') := by
  have hb : (x >>= f) v = (ExceptT.bindCont f (x v).1) (x v).2 := rfl
  rw [hb, h]
  rfl

end

/-- From `s` the machine gets to a state that fits the value of the evaluation, or does what fits
the exception that the evaluation stops with. -/
def Emulates (step : S → Option S) (Q : α → σ → S → Prop) (E : ε → σ → S → Prop) (s : S) :
    Except ε α × σ → Prop
  | (.ok a, v) => ∃ s', Relation.ReflTransGen (fun s s' => step s = some s') s s' ∧ Q a v s'
  | (.error e, v) => E e v s

/-- What a state does, the state before it does as well. -/
def Backward (step : S → Option S) (E : ε → σ → S → Prop) : Prop :=
  ∀ e v s s', step s = some s' → E e v s' → E e v s

namespace Emulates

variable {Q Q' : α → σ → S → Prop} {R : β → σ → S → Prop} {E E' : ε → σ → S → Prop}
  {x : ExceptT ε (StateM σ) α} {f : α → ExceptT ε (StateM σ) β} {r : Except ε α × σ} {v : σ}

theorem of_now {a : α} (h : Q a v s) : Emulates step Q E s (.ok a, v) := ⟨s, .refl, h⟩

theorem steps (hE : Backward step E)
    (h : Relation.ReflTransGen (fun s s' => step s = some s') s t) (hr : Emulates step Q E t r) :
    Emulates step Q E s r := by
  obtain ⟨a | a, v⟩ := r
  · show E a v s
    replace hr : E a v t := hr
    induction h using Relation.ReflTransGen.head_induction_on with
    | refl => exact hr
    | head hu _ ih => exact hE a v _ _ hu ih
  · obtain ⟨u, hu, hq⟩ := hr
    exact ⟨u, h.trans hu, hq⟩

theorem of_step (hE : Backward step E) (h : step s = some t) (hr : Emulates step Q E t r) :
    Emulates step Q E s r := steps hE (.single h) hr

/-- A step that counts for the exceptions. -/
theorem after_step (h : step s = some t) (hE : ∀ e v, E' e v t → E e v s)
    (hr : Emulates step Q E' t r) : Emulates step Q E s r := by
  obtain ⟨a | a, v⟩ := r
  · exact hE a v hr
  · obtain ⟨u, hu, hq⟩ := hr
    exact ⟨u, .head h hu, hq⟩

theorem bind (hE : Backward step E) (hx : Emulates step Q E s (x v))
    (hf : ∀ a v' s', Q a v' s' → Emulates step R E s' (f a v')) :
    Emulates step R E s ((x >>= f) v) := by
  cases hr : x v with
  | mk r v' =>
    rw [hr] at hx
    cases r with
    | error e =>
      rw [bind_of_error hr]
      exact hx
    | ok a =>
      obtain ⟨s', hs, hq⟩ := hx
      rw [bind_of_ok hr]
      exact steps hE hs (hf a v' s' hq)

theorem mono (hr : Emulates step Q E s r) (hQ : ∀ a v s', Q a v s' → Q' a v s')
    (hE : ∀ e v, E e v s → E' e v s) : Emulates step Q' E' s r := by
  obtain ⟨a | a, v⟩ := r
  · exact hE a v hr
  · obtain ⟨s', hs, hq⟩ := hr
    exact ⟨s', hs, hQ a v s' hq⟩

/-- The machine goes on when the evaluation has ended. -/
theorem extend (hr : Emulates step Q E s r) (hQ : ∀ a v s', Q a v s' →
    ∃ s'', Relation.ReflTransGen (fun s s' => step s = some s') s' s'' ∧ Q' a v s'') :
    Emulates step Q' E s r := by
  obtain ⟨a | a, v⟩ := r
  · exact hr
  · obtain ⟨s', hs, hq⟩ := hr
    obtain ⟨s'', hs', hq'⟩ := hQ a v s' hq
    exact ⟨s'', hs.trans hs', hq'⟩

end Emulates
