import Cminusf.Emulation
import Cminusf.Source.Semantics

/-! More fuel changes nothing but a run that was out of fuel. -/

namespace Cminusf

namespace Source

variable {α β : Type}

/-- The second evaluation does what the first one does unless that is out of fuel. -/
def Eval.Le (x x' : Eval α) : Prop := ∀ t, (x t).1 = .error .outOfFuel ∨ x' t = x t

theorem Eval.Le.refl (x : Eval α) : Eval.Le x x := fun _ => .inr rfl

theorem Eval.Le.bind {x x' : Eval α} {f f' : α → Eval β} (hx : Eval.Le x x')
    (hf : ∀ a, Eval.Le (f a) (f' a)) : Eval.Le (x >>= f) (x' >>= f') := by
  intro t
  cases hr : x t with
  | mk r t' =>
    rcases hx t with he | he
    · rw [hr] at he
      cases he
      exact .inl (by rw [bind_of_error hr])
    · cases r with
      | error e => exact .inr (by rw [bind_of_error hr, bind_of_error (he.trans hr)])
      | ok a =>
        rw [bind_of_ok hr, bind_of_ok (he.trans hr)]
        exact hf a t'

theorem Eval.Le.value {x x' : Eval (Option Val)} {f f' : Val → Eval β}
    (hx : Eval.Le x x') (hf : ∀ v, Eval.Le (f v) (f' v)) :
    Eval.Le (value x >>= f) (value x' >>= f') :=
  (hx.bind fun _ => .refl _).bind hf

section

variable {ops : FloatOps} {params : Callee → List (CminusType × Bool)}
  {call call' : Callee → List Val → Eval (Option Val)} {fuel fuel' : Nat} {Γ : Env}

theorem subscript_le {b : Option Binding} {x x' : Eval (Option Val)} (hx : Eval.Le x x') :
    Eval.Le (subscript ⟨ops, params, call⟩ b x) (subscript ⟨ops, params, call'⟩ b x') :=
  hx.value fun _ => .refl _

mutual

theorem evalExpression_le (hcall : ∀ f vs, Eval.Le (call f vs) (call' f vs)) :
    ∀ e : ASTExpression,
      Eval.Le (evalExpression ⟨ops, params, call⟩ Γ e) (evalExpression ⟨ops, params, call'⟩ Γ e)
  | .assign var e => by
    rw [evalExpression, evalExpression]
    exact (evalExpression_le hcall e).value fun _ => (locate_le hcall var).bind fun _ => .refl _
  | .simple l => by
    rw [evalExpression, evalExpression]
    exact evalAdditive_le hcall l
  | .relation l op r => by
    rw [evalExpression, evalExpression]
    exact (evalAdditive_le hcall l).value fun _ => (evalAdditive_le hcall r).value fun _ => .refl _

theorem evalAdditive_le (hcall : ∀ f vs, Eval.Le (call f vs) (call' f vs)) :
    ∀ e : ASTAdditiveExpression,
      Eval.Le (evalAdditive ⟨ops, params, call⟩ Γ e) (evalAdditive ⟨ops, params, call'⟩ Γ e)
  | .ofTerm term => by
    rw [evalAdditive, evalAdditive]
    exact evalTerm_le hcall term
  | .additive l op r => by
    rw [evalAdditive, evalAdditive]
    exact (evalAdditive_le hcall l).value fun _ => (evalTerm_le hcall r).value fun _ => .refl _

theorem evalTerm_le (hcall : ∀ f vs, Eval.Le (call f vs) (call' f vs)) :
    ∀ e : ASTTerm,
      Eval.Le (evalTerm ⟨ops, params, call⟩ Γ e) (evalTerm ⟨ops, params, call'⟩ Γ e)
  | .ofFactor factor => by
    rw [evalTerm, evalTerm]
    exact evalFactor_le hcall factor
  | .multiplicative l op r => by
    rw [evalTerm, evalTerm]
    exact (evalTerm_le hcall l).value fun _ => (evalFactor_le hcall r).value fun _ => .refl _

theorem evalFactor_le (hcall : ∀ f vs, Eval.Le (call f vs) (call' f vs)) :
    ∀ e : ASTFactor,
      Eval.Le (evalFactor ⟨ops, params, call⟩ Γ e) (evalFactor ⟨ops, params, call'⟩ Γ e)
  | .num (.int n) => by
    rw [evalFactor, evalFactor]
    exact .refl _
  | .num (.float x) => by
    rw [evalFactor, evalFactor]
    exact .refl _
  | .var var => by
    rw [evalFactor, evalFactor]
    exact evalVar_le hcall var
  | .call id args => by
    rw [evalFactor, evalFactor]
    split
    · exact (evalArgs_le hcall args _).bind fun vs => hcall _ vs
    · exact .refl _
  | .expression e => by
    rw [evalFactor, evalFactor]
    exact evalExpression_le hcall e

theorem evalVar_le (hcall : ∀ f vs, Eval.Le (call f vs) (call' f vs)) :
    ∀ var : ASTVar,
      Eval.Le (evalVar ⟨ops, params, call⟩ Γ var) (evalVar ⟨ops, params, call'⟩ Γ var)
  | .scalar id => by
    rw [evalVar, evalVar]
    exact .refl _
  | .subscript id e => by
    rw [evalVar, evalVar]
    exact (subscript_le (evalExpression_le hcall e)).bind fun _ => .refl _

theorem locate_le (hcall : ∀ f vs, Eval.Le (call f vs) (call' f vs)) :
    ∀ var : ASTVar,
      Eval.Le (locate ⟨ops, params, call⟩ Γ var) (locate ⟨ops, params, call'⟩ Γ var)
  | .scalar id => by
    rw [locate, locate]
    exact .refl _
  | .subscript id e => by
    rw [locate, locate]
    exact subscript_le (evalExpression_le hcall e)

theorem evalArgs_le (hcall : ∀ f vs, Eval.Le (call f vs) (call' f vs)) :
    ∀ (args : List ASTExpression) (ps : List (CminusType × Bool)),
      Eval.Le (evalArgs ⟨ops, params, call⟩ Γ args ps) (evalArgs ⟨ops, params, call'⟩ Γ args ps)
  | [], [] => by
    rw [evalArgs, evalArgs]
    exact .refl _
  | [], p :: ps => by
    rw [evalArgs, evalArgs]
    · exact .refl _
    all_goals simp
  | arg :: args, [] => by
    rw [evalArgs, evalArgs]
    · exact .refl _
    all_goals simp
  | arg :: args, p :: ps => by
    rw [evalArgs, evalArgs]
    exact (evalExpression_le hcall arg).value fun _ => (Eval.Le.refl _).bind fun _ =>
      (evalArgs_le hcall args ps).bind fun _ => .refl _

end

theorem condition_le (hcall : ∀ f vs, Eval.Le (call f vs) (call' f vs))
    (e : ASTExpression) : Eval.Le (condition ⟨ops, params, call⟩ Γ e)
      (condition ⟨ops, params, call'⟩ Γ e) :=
  (evalExpression_le hcall e).value fun _ => .refl _

theorem iterate_le {test test' : Eval Bool} {body body' : Eval Unit} (ht : Eval.Le test test')
    (hb : Eval.Le body body') {n n' : Nat} (hn : n ≤ n') :
    Eval.Le (iterate test body n) (iterate test' body' n') := by
  induction n generalizing n' with
  | zero => exact fun _ => .inl rfl
  | succ n ih =>
    obtain ⟨d, rfl⟩ : ∃ d, n' = d + 1 := ⟨n' - 1, by omega⟩
    rw [iterate, iterate]
    refine ht.bind fun v => ?_
    cases v with
    | true => exact hb.bind fun _ => ih (by omega)
    | false => exact .refl _

variable {ret : CminusType}

mutual

theorem execStatement_le (hcall : ∀ f vs, Eval.Le (call f vs) (call' f vs))
    (hfuel : fuel ≤ fuel') : ∀ (s : ASTStatement) (Γ : Env),
    Eval.Le (execStatement ⟨ops, params, call⟩ fuel ret s Γ)
      (execStatement ⟨ops, params, call'⟩ fuel' ret s Γ)
  | .compound decls stmts, Γ => by
    rw [execStatement, execStatement]
    exact (Eval.Le.refl _).bind fun Γ => execStatements_le hcall hfuel stmts Γ
  | .expressionStmt none, Γ => by
    rw [execStatement, execStatement]
    exact .refl _
  | .expressionStmt (some e), Γ => by
    rw [execStatement, execStatement]
    exact (evalExpression_le hcall e).bind fun _ => .refl _
  | .selection e s, Γ => by
    rw [execStatement, execStatement]
    refine (condition_le hcall e).bind fun v => ?_
    cases v with
    | true => exact execStatement_le hcall hfuel s Γ
    | false => exact .refl _
  | .selectionElse e s s', Γ => by
    rw [execStatement, execStatement]
    refine (condition_le hcall e).bind fun v => ?_
    cases v with
    | true => exact execStatement_le hcall hfuel s Γ
    | false => exact execStatement_le hcall hfuel s' Γ
  | .iteration e s, Γ => by
    rw [execStatement, execStatement]
    exact iterate_le (condition_le hcall e) (execStatement_le hcall hfuel s Γ) hfuel
  | .return none, Γ => by
    rw [execStatement, execStatement]
    exact .refl _
  | .return (some e), Γ => by
    rw [execStatement, execStatement]
    exact (evalExpression_le hcall e).value fun _ => .refl _

theorem execStatements_le (hcall : ∀ f vs, Eval.Le (call f vs) (call' f vs))
    (hfuel : fuel ≤ fuel') : ∀ (stmts : List ASTStatement) (Γ : Env),
    Eval.Le (execStatements ⟨ops, params, call⟩ fuel ret stmts Γ)
      (execStatements ⟨ops, params, call'⟩ fuel' ret stmts Γ)
  | [], Γ => by
    rw [execStatements, execStatements]
    exact .refl _
  | s :: stmts, Γ => by
    rw [execStatements, execStatements]
    exact (execStatement_le hcall hfuel s Γ).bind fun _ => execStatements_le hcall hfuel stmts Γ

end

end

theorem answer_le {ret : CminusType} {x x' : Eval Unit} (h : Eval.Le x x') :
    Eval.Le (answer ret x) (answer ret x') := by
  intro t
  rcases h t with he | he
  · left
    cases hr : x t with
    | mk r t' =>
      rw [hr] at he
      cases he
      simp only [answer, hr]
  · right
    simp only [answer, he]

theorem callFunction_le (ops : FloatOps) (g : Globals) {fuel fuel' : Nat} (hfuel : fuel ≤ fuel')
    (f : Callee) (vs : List Val) :
    Eval.Le (callFunction ops g fuel f vs) (callFunction ops g fuel' f vs) := by
  have hlib : ∀ fuel, (∀ k, f ≠ .user k) → callFunction ops g fuel f vs = libraryCall f vs := by
    intro fuel hf
    cases f with
    | user k => exact absurd rfl (hf k)
    | _ => cases fuel <;> rfl
  induction fuel generalizing fuel' f vs with
  | zero =>
    cases f with
    | user k => exact fun _ => .inl rfl
    | _ =>
      rw [hlib _ (by simp), hlib _ (by simp)]
      exact .refl _
  | succ fuel ih =>
    cases f with
    | user k =>
      obtain ⟨d, rfl⟩ : ∃ d, fuel' = d + 1 := ⟨fuel' - 1, by omega⟩
      rw [callFunction, callFunction]
      split
      · exact .refl _
      · have hd : fuel ≤ d := by omega
        refine answer_le ((Eval.Le.refl _).bind fun _ => (Eval.Le.refl _).bind fun Γ => ?_)
        exact execStatements_le (fun f vs => ih hd f vs fun fuel hf => by
          cases f with
          | user k => exact absurd rfl (hf k)
          | _ => cases fuel <;> rfl) hd _ Γ
    | _ =>
      rw [hlib _ (by simp), hlib _ (by simp)]
      exact .refl _

theorem run_le {ops : FloatOps} {program : ASTProgram} {input : List (BitVec 32)}
    {fuel fuel' : Nat} (hfuel : fuel ≤ fuel') :
    (run ops program input fuel).1 = .error .outOfFuel ∨
      run ops program input fuel' = run ops program input fuel := by
  unfold run
  split
  · exact .inr rfl
  · split
    · exact callFunction_le ops _ hfuel _ _ _
    · exact .inr rfl

/-- A program that ends has no undefined behaviour. -/
theorem Ends.defined {ops : FloatOps} {program : ASTProgram} {input : List (BitVec 32)} {o : Outcome}
    (h : Ends ops program input o) : Source.Defined ops program input := by
  obtain ⟨n, ho⟩ := h
  have hr : (run ops program input n).1 ≠ .error .outOfFuel ∧
      (run ops program input n).1 ≠ .error .undefined := by
    generalize run ops program input n = r at ho
    obtain ⟨a, t⟩ := r
    constructor
    · intro he
      cases he
      cases ho
    · intro he
      cases he
      cases ho
  intro fuel he
  rcases Nat.le_total fuel n with hle | hle
  · rcases run_le hle with h | h
    · rw [he] at h
      cases h
    · rw [← h] at he
      exact hr.2 he
  · rcases run_le hle with h | h
    · exact hr.1 h
    · rw [h] at he
      exact hr.2 he

end Source

end Cminusf
