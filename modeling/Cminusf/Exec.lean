import Mathlib.Data.List.Basic
import Mathlib.Tactic.Common

/-! Executions of the compiler. A loop or recursion of the source that carries no
bound of its own is run with fuel; sets of pointers are kept in the order of the
addresses. -/

namespace Cminusf

inductive Fault where
  | outOfFuel
  | assertion
  | undefinedBehaviour
deriving DecidableEq

abbrev Exec := Except Fault

namespace Exec

variable {α β : Type} {e e' e'' : Exec α}

/-- `e'` is the result of `e`, unless `e` ran out of fuel. -/
def Le (e e' : Exec α) : Prop := e = .error .outOfFuel ∨ e' = e

theorem Le.refl (e : Exec α) : Le e e := .inr rfl

theorem Le.of_outOfFuel (e : Exec α) : Le (.error .outOfFuel) e := .inl rfl

theorem Le.eq (h : Le e e') (he : e ≠ .error .outOfFuel) : e' = e := h.resolve_left he

theorem Le.eq_ok {x : α} (h : Le e e') (he : e = .ok x) : e' = .ok x := by
  rw [h.eq (by simp [he]), he]

theorem Le.bind {f g : α → Exec β} (h : Le e e') (hfg : ∀ x, Le (f x) (g x)) :
    Le (e >>= f) (e' >>= g) := by
  rcases h with rfl | rfl
  · exact .inl rfl
  · cases e' with
    | error _ => exact .inr rfl
    | ok x => exact hfg x

theorem Le.foldlM {f g : β → α → Exec β} (h : ∀ s x, Le (f s x) (g s x)) (xs : List α) (s : β) :
    Le (xs.foldlM f s) (xs.foldlM g s) := by
  induction xs generalizing s with
  | nil => exact .refl _
  | cons x xs ih =>
    simp only [List.foldlM_cons]
    exact (h s x).bind ih

/-- Two runs that both return agree. -/
theorem ok_unique {f : Nat → Exec α} (hf : ∀ n n', n ≤ n' → Le (f n) (f n')) {n n' : Nat} {x y : α}
    (hx : f n = .ok x) (hy : f n' = .ok y) : x = y := by
  have h1 := (hf n (max n n') (Nat.le_max_left n n')).eq_ok hx
  have h2 := (hf n' (max n n') (Nat.le_max_right n n')).eq_ok hy
  exact Except.ok.inj (h1.symm.trans h2)

/-- The run ends in no other fault than the end of its fuel. -/
def NoFault (e : Exec α) : Prop := ∀ fault, e = .error fault → fault = .outOfFuel

theorem NoFault.ok (x : α) : NoFault (.ok x) := by simp [NoFault]

theorem NoFault.outOfFuel : NoFault (.error .outOfFuel : Exec α) := by simp [NoFault]

theorem NoFault.of_le (h : Le e e') (he : NoFault e') : NoFault e := by
  rcases h with rfl | rfl
  · exact .outOfFuel
  · exact he

theorem NoFault.of_ok {f : Nat → Exec α} (hf : ∀ n n', n ≤ n' → Le (f n) (f n')) {n : Nat} {x : α}
    (hx : f n = .ok x) (n' : Nat) : NoFault (f n') := by
  refine .of_le (hf n' (max n n') (Nat.le_max_right n n')) ?_
  rw [(hf n (max n n') (Nat.le_max_left n n')).eq_ok hx]
  exact .ok x

theorem NoFault.bind {f : α → Exec β} (h : NoFault e) (hf : ∀ x, e = .ok x → NoFault (f x)) :
    NoFault (e >>= f) := by
  cases e with
  | error fault =>
    rw [h fault rfl]
    exact .outOfFuel
  | ok x => exact hf x rfl

theorem NoFault.foldlM {f : β → α → Exec β} {xs : List α} (h : ∀ s, ∀ x ∈ xs, NoFault (f s x))
    (s : β) : NoFault (xs.foldlM f s) := by
  induction xs generalizing s with
  | nil => exact .ok s
  | cons x xs ih =>
    rw [List.foldlM_cons]
    exact (h s x List.mem_cons_self).bind fun s' _ =>
      ih (fun s y hy => h s y (List.mem_cons_of_mem x hy)) s'

theorem NoFault.eq_outOfFuel (h : NoFault e) (hne : ∀ x, e ≠ .ok x) : e = .error .outOfFuel := by
  cases e with
  | error fault => rw [h fault rfl]
  | ok x => exact absurd rfl (hne x)

/-- What holds at every pass of a loop that returns. -/
theorem foldlM_ok {f : β → α → Exec β} {P : β → Prop} (hP : ∀ s x s', f s x = .ok s' → P s → P s')
    {xs : List α} {s s' : β} (hs : P s) (h : xs.foldlM f s = .ok s') :
    P s' ∧ ∀ x ∈ xs, ∃ t t', P t ∧ f t x = .ok t' := by
  induction xs generalizing s with
  | nil =>
    cases h
    exact ⟨hs, by simp⟩
  | cons x xs ih =>
    rw [List.foldlM_cons] at h
    cases hx : f s x with
    | error fault =>
      rw [hx] at h
      cases h
    | ok t =>
      rw [hx] at h
      obtain ⟨hs', hxs⟩ := ih (hP s x t hx hs) h
      refine ⟨hs', fun y hy => ?_⟩
      rcases List.mem_cons.mp hy with rfl | hy
      · exact ⟨s, t, hs, hx⟩
      · exact hxs y hy

/-- Two runs that end in the same way, with related results. -/
inductive Rel {α β : Type} (R : α → β → Prop) : Exec α → Exec β → Prop where
  | ok {x : α} {y : β} : R x y → Rel R (.ok x) (.ok y)
  | error (fault : Fault) : Rel R (.error fault) (.error fault)

theorem Rel.pure {R : α → β → Prop} {x : α} {y : β} (h : R x y) :
    Rel R (Pure.pure x) (Pure.pure y) := .ok h

theorem Rel.throw {R : α → β → Prop} (fault : Fault) :
    Rel R (MonadExcept.throw fault) (MonadExcept.throw fault) := .error fault

theorem Rel.mono {R S : α → β → Prop} {e : Exec α} {e' : Exec β} (h : Rel R e e')
    (hRS : ∀ x y, R x y → S x y) : Rel S e e' := by
  cases h with
  | ok h => exact .ok (hRS _ _ h)
  | error fault => exact .error fault

theorem Rel.bind {γ δ : Type} {R : α → β → Prop} {S : γ → δ → Prop} {e : Exec α} {e' : Exec β}
    {f : α → Exec γ} {g : β → Exec δ} (h : Rel R e e')
    (hfg : ∀ x y, R x y → Rel S (f x) (g y)) : Rel S (e >>= f) (e' >>= g) := by
  cases h with
  | ok h => exact hfg _ _ h
  | error fault => exact .error fault

theorem Rel.foldlM {γ : Type} {R : α → β → Prop} {f : α → γ → Exec α} {g : β → γ → Exec β}
    {xs : List γ} (h : ∀ s t, R s t → ∀ x ∈ xs, Rel R (f s x) (g t x)) {s : α} {t : β}
    (hst : R s t) : Rel R (xs.foldlM f s) (xs.foldlM g t) := by
  induction xs generalizing s t with
  | nil => exact .ok hst
  | cons x xs ih =>
    simp only [List.foldlM_cons]
    exact (h s t hst x List.mem_cons_self).bind fun s' t' h' =>
      ih (fun s t hst y hy => h s t hst y (List.mem_cons_of_mem x hy)) h'

/-- The run returns a value for which `Q` holds, or ends in a fault for which `B` holds. -/
inductive Meets {α : Type} (Q : α → Prop) (B : Fault → Prop) : Exec α → Prop where
  | ok {x : α} : Q x → Meets Q B (.ok x)
  | error {fault : Fault} : B fault → Meets Q B (.error fault)

theorem Meets.pure {Q : α → Prop} {B : Fault → Prop} {x : α} (h : Q x) :
    Meets Q B (Pure.pure x) := .ok h

theorem Meets.throw {Q : α → Prop} {B : Fault → Prop} {fault : Fault} (h : B fault) :
    Meets Q B (MonadExcept.throw fault) := .error h

theorem Meets.mono {Q Q' : α → Prop} {B B' : Fault → Prop} (h : Meets Q B e)
    (hQ : ∀ x, Q x → Q' x) (hB : ∀ fault, B fault → B' fault) : Meets Q' B' e := by
  cases h with
  | ok h => exact .ok (hQ _ h)
  | error h => exact .error (hB _ h)

theorem Meets.bind {Q : α → Prop} {Q' : β → Prop} {B : Fault → Prop} {f : α → Exec β}
    (h : Meets Q B e) (hf : ∀ x, Q x → Meets Q' B (f x)) : Meets Q' B (e >>= f) := by
  cases h with
  | ok h => exact hf _ h
  | error h => exact .error h

/-- A loop, with an invariant on the part of the list that has been passed. -/
theorem Meets.foldlM {I : List α → β → Prop} {B : Fault → Prop} {f : β → α → Exec β} {xs : List α}
    (hstep : ∀ before x after s, xs = before ++ x :: after → I before s →
      Meets (I (before ++ [x])) B (f s x)) {s : β} (hs : I [] s) :
    Meets (I xs) B (xs.foldlM f s) := by
  have key : ∀ after before s, xs = before ++ after → I before s →
      Meets (I xs) B (after.foldlM f s) := by
    intro after
    induction after with
    | nil =>
      intro before s hxs hI
      rw [List.append_nil] at hxs
      exact .ok (hxs ▸ hI)
    | cons x after ih =>
      intro before s hxs hI
      rw [List.foldlM_cons]
      exact (hstep before x after s hxs hI).bind fun s' hs' =>
        ih (before ++ [x]) s' (by rw [hxs]; simp) hs'
  exact key xs [] s rfl hs

theorem Rel.meets {R : α → β → Prop} {Q : β → Prop} {B : Fault → Prop} {e : Exec α} {e' : Exec β}
    (h : Rel R e e') (hm : Meets Q B e') : Meets (fun x => ∃ y, R x y ∧ Q y) B e := by
  cases h with
  | ok h =>
    cases hm with
    | ok hq => exact .ok ⟨_, h, hq⟩
  | error fault =>
    cases hm with
    | error hb => exact .error hb

theorem bind_congr {f g : α → Exec β} (h : ∀ x, e = .ok x → f x = g x) : e >>= f = e >>= g := by
  cases e with
  | error _ => rfl
  | ok x => exact h x rfl

theorem ite_throw_eq_ok {p : Prop} [Decidable p] {fault : Fault} {x : α} :
    (if p then e else throw fault) = .ok x ↔ p ∧ e = .ok x := by
  by_cases hp : p
  · simp [hp]
  · simp only [hp, if_false, false_and, iff_false]
    exact nofun

theorem ok_of_toOption {x : α} (h : e.toOption = some x) : e = .ok x := by
  cases e with
  | error fault => cases h
  | ok y =>
    cases h
    rfl

theorem bind_eq_ok {f : α → Exec β} {y : β} :
    e >>= f = .ok y ↔ ∃ x, e = .ok x ∧ f x = .ok y := by
  cases e with
  | error _ => simp [Bind.bind, Except.bind]
  | ok x => simp [Bind.bind, Except.bind]

end Exec

/-- `std::set<T *>::insert`, with the address of each object. -/
def ptrInsert {α : Type*} (addr : α → Nat) (x : α) : List α → List α
  | [] => [x]
  | y :: ys =>
    if addr x < addr y then x :: y :: ys
    else if addr x = addr y then y :: ys
    else y :: ptrInsert addr x ys

/-- The set with the given elements. -/
def ptrSet {α : Type*} (addr : α → Nat) (xs : List α) : List α :=
  xs.foldl (fun s x => ptrInsert addr x s) []

section

variable {α : Type*} {addr : α → Nat} {x y : α} {s : List α}

theorem mem_ptrInsert (haddr : Function.Injective addr) :
    y ∈ ptrInsert addr x s ↔ y = x ∨ y ∈ s := by
  induction s with
  | nil => simp [ptrInsert]
  | cons z s ih =>
    by_cases hlt : addr x < addr z
    · simp [ptrInsert, hlt]
    · by_cases he : addr x = addr z
      · have := haddr he
        subst this
        simp [ptrInsert]
      · simp only [ptrInsert, hlt, he, if_false, List.mem_cons, ih]
        tauto

theorem mem_ptrSet (haddr : Function.Injective addr) (xs : List α) :
    y ∈ ptrSet addr xs ↔ y ∈ xs := by
  have key : ∀ s, y ∈ xs.foldl (fun s x => ptrInsert addr x s) s ↔ y ∈ s ∨ y ∈ xs := by
    induction xs with
    | nil => simp
    | cons x xs ih =>
      intro s
      simp only [List.foldl_cons, ih, mem_ptrInsert haddr, List.mem_cons]
      tauto
  simpa [ptrSet] using key []

theorem ptrInsert_sorted (hs : s.Pairwise (addr · < addr ·)) :
    (ptrInsert addr x s).Pairwise (addr · < addr ·) := by
  have hmem : ∀ t : List α, ∀ z ∈ ptrInsert addr x t, z = x ∨ z ∈ t := by
    intro t
    induction t with
    | nil => simp [ptrInsert]
    | cons w t ih =>
      intro z hz
      simp only [ptrInsert] at hz
      split at hz
      · simpa using hz
      · split at hz
        · exact .inr hz
        · rcases List.mem_cons.mp hz with rfl | hz
          · exact .inr (by simp)
          · exact (ih z hz).imp_right (List.mem_cons_of_mem _)
  induction s with
  | nil => simp [ptrInsert]
  | cons w s ih =>
    obtain ⟨hw, hs'⟩ := List.pairwise_cons.mp hs
    simp only [ptrInsert]
    split
    · refine List.pairwise_cons.mpr ⟨fun z hz => ?_, hs⟩
      rcases List.mem_cons.mp hz with rfl | hz
      · assumption
      · have := hw z hz
        omega
    · split
      · exact hs
      · refine List.pairwise_cons.mpr ⟨fun z hz => ?_, ih hs'⟩
        rcases hmem s z hz with rfl | hz
        · omega
        · exact hw z hz

theorem ptrSet_sorted (xs : List α) : (ptrSet addr xs).Pairwise (addr · < addr ·) := by
  have key : ∀ s, s.Pairwise (addr · < addr ·) →
      (xs.foldl (fun s x => ptrInsert addr x s) s).Pairwise (addr · < addr ·) := by
    induction xs with
    | nil => exact fun s hs => hs
    | cons x xs ih => exact fun s hs => ih _ (ptrInsert_sorted hs)
  exact key [] List.Pairwise.nil

end

end Cminusf
