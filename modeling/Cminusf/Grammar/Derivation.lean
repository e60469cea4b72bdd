import Mathlib.Computability.Language

/-! Derivations of a context-free grammar whose actions build a value for each symbol
and whose terminals stand for words. -/

namespace Grammar

/-- The productions of each nonterminal, the values and words of each terminal, and the
action that builds the value of a nonterminal from those of a right-hand side. -/
structure Actions (T N τ σ : Type) where
  productions : N → List (List (Symbol T N))
  leaf : T → τ → List σ → Prop
  action : N → List τ → τ

variable {T N τ σ : Type} {G : Actions T N τ σ} {P : Symbol T N → τ → List σ → Prop}
  {s : Symbol T N} {rhs : List (Symbol T N)} {x : τ} {xs : List τ} {u w : List σ}

mutual

/-- The values that the actions build for a symbol, with their yields. -/
inductive Derives (G : Actions T N τ σ) : Symbol T N → τ → List σ → Prop where
  | terminal {t : T} {x : τ} {w : List σ} : G.leaf t x w → Derives G (.terminal t) x w
  | production {A : N} {rhs : List (Symbol T N)} {xs : List τ} {w : List σ} :
      rhs ∈ G.productions A → DerivesAll G rhs xs w → Derives G (.nonterminal A) (G.action A xs) w

inductive DerivesAll (G : Actions T N τ σ) : List (Symbol T N) → List τ → List σ → Prop where
  | nil : DerivesAll G [] [] []
  | cons {s : Symbol T N} {rhs : List (Symbol T N)} {x : τ} {xs : List τ} {u w : List σ} :
      Derives G s x u → DerivesAll G rhs xs w → DerivesAll G (s :: rhs) (x :: xs) (u ++ w)

end

/-- `P` holds of the symbols of a right-hand side, with their values and yields. -/
inductive Each (P : Symbol T N → τ → List σ → Prop) :
    List (Symbol T N) → List τ → List σ → Prop where
  | nil : Each P [] [] []
  | cons {s : Symbol T N} {rhs : List (Symbol T N)} {x : τ} {xs : List τ} {u w : List σ} :
      P s x u → Each P rhs xs w → Each P (s :: rhs) (x :: xs) (u ++ w)

theorem Each.imp {Q : Symbol T N → τ → List σ → Prop} (h : Each P rhs xs w)
    (hPQ : ∀ {s x u}, x ∈ xs → P s x u → Q s x u) : Each Q rhs xs w := by
  induction h with
  | nil => exact .nil
  | cons hs _ ih =>
    apply Each.cons (hPQ List.mem_cons_self hs)
    exact ih fun hx => hPQ (List.mem_cons_of_mem _ hx)

/-- To prove `P` of everything derived, prove it of the terminals and keep it with every
production. -/
theorem Derives.rec_derived
    (terminal : ∀ t x w, G.leaf t x w → P (.terminal t) x w)
    (production : ∀ A, ∀ rhs ∈ G.productions A, ∀ xs w, DerivesAll G rhs xs w → Each P rhs xs w →
      P (.nonterminal A) (G.action A xs) w)
    (h : Derives G s x w) : P s x w :=
  @Derives.rec T N τ σ G (fun s x w _ => P s x w) (fun rhs xs w _ => Each P rhs xs w)
    (fun hx => terminal _ _ _ hx) (fun hrhs hall heach => production _ _ hrhs _ _ hall heach) .nil
    (fun _ _ hs hall => .cons hs hall) s x w h

/-- `Derives.rec_derived` without the derivations of the parts. -/
theorem Derives.rec_productions
    (terminal : ∀ t x w, G.leaf t x w → P (.terminal t) x w)
    (production : ∀ A, ∀ rhs ∈ G.productions A, ∀ xs w, Each P rhs xs w →
      P (.nonterminal A) (G.action A xs) w)
    (h : Derives G s x w) : P s x w :=
  h.rec_derived terminal fun A rhs hrhs xs w _ => production A rhs hrhs xs w

end Grammar
