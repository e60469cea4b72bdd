import Mathlib.Data.List.Basic
import Mathlib.Logic.Function.Basic

/-! Executions of programs in SSA form. What an instruction computes and which way a block
branches is left open, and so is the state that is no value. -/

namespace Flow

/-- The blocks of a program: the values that a block computes in order, its phis, and the
value that a phi copies on the edge from a block. -/
structure Program (V B : Type) where
  body : B → List V
  phis : B → List V
  source : V → B → Option V

/-- The values, the block from which each block was last entered, and the rest of the state. -/
structure State (V B D S : Type) where
  env : V → D
  last : B → Option B
  rest : S

structure Semantics (V B D S : Type) where
  start : B → State V B D S → Prop
  compute : V → State V B D S → D → S → Prop
  branch : B → State V B D S → B → Prop

variable {V B D S : Type} [DecidableEq V] {σ : Semantics V B D S} {s s' : State V B D S}
  {xs ys : List V} {v : V}

/-- The instructions `xs` one after the other. -/
inductive Executes (σ : Semantics V B D S) : List V → State V B D S → State V B D S → Prop where
  | nil {s : State V B D S} : Executes σ [] s s
  | cons {x : V} {xs : List V} {s s' : State V B D S} {d : D} {rest : S} :
      σ.compute x s d rest → Executes σ xs ⟨Function.update s.env x d, s.last, rest⟩ s' →
      Executes σ (x :: xs) s s'

/-- Only the instructions executed change their values. -/
theorem Executes.env_eq (h : Executes σ xs s s') (hv : v ∉ xs) : s'.env v = s.env v := by
  induction h with
  | nil => rfl
  | cons _ _ ih =>
    rw [List.mem_cons, not_or] at hv
    exact (ih hv.2).trans (Function.update_of_ne hv.1 _ _)

theorem Executes.last_eq (h : Executes σ xs s s') : s'.last = s.last := by
  induction h with
  | nil => rfl
  | cons _ _ ih => exact ih

theorem executes_append : Executes σ (xs ++ ys) s s' ↔
    ∃ s₁, Executes σ xs s s₁ ∧ Executes σ ys s₁ s' := by
  constructor
  · intro h
    induction xs generalizing s with
    | nil => exact ⟨s, .nil, h⟩
    | cons x xs ih =>
      cases h with
      | cons hx h =>
        obtain ⟨s₁, h₁, h₂⟩ := ih h
        exact ⟨s₁, .cons hx h₁, h₂⟩
  · rintro ⟨s₁, h₁, h₂⟩
    induction h₁ with
    | nil => exact h₂
    | cons hx _ ih => exact .cons hx (ih h₂)

section Runs

variable [DecidableEq B] {P : Program V B} {b t : B}

/-- The phis of `t` are copied at once on the edge from `b`. -/
def Program.enter (P : Program V B) (b t : B) (s : State V B D S) : State V B D S where
  env v := if v ∈ P.phis t then ((P.source v b).map s.env).getD (s.env v) else s.env v
  last := Function.update s.last t (some b)
  rest := s.rest

/-- A state in which an execution has entered `b` and copied its phis. -/
inductive At (P : Program V B) (σ : Semantics V B D S) : B → State V B D S → Prop where
  | start {b : B} {s : State V B D S} : σ.start b s → At P σ b s
  | edge {b t : B} {s s' : State V B D S} : At P σ b s → Executes σ (P.body b) s s' →
      σ.branch b s' t → At P σ t (P.enter b t s')

end Runs

end Flow
