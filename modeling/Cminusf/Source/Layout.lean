import Cminusf.Builder.Typing
import Cminusf.Source.Semantics

/-! Where the variables of a program are in the memory of the machine. -/

namespace Cminusf

namespace Source

open Machine

/-- The object that a location is in memory, with the type of its elements. -/
abbrev Layout := Nat → Option (Object × Ty)

def Layout.Le (μ μ' : Layout) : Prop := ∀ l p, μ l = some p → μ' l = some p

/-- The word that stands for a value of the type. -/
inductive Denotes (μ : Layout) : Val → Ty → Word → Prop where
  | int (n : BitVec 32) : Denotes μ (.int n) .int32 (.number (.int n))
  | float (x : BitVec 32) : Denotes μ (.float x) .float (.number (.float x))
  | array {ty : CminusType} {l : Nat} {o : Object} : ty ≠ .void → μ l = some (o, ty.ty) →
      Denotes μ (.array ty l) (.pointer ty.ty) (.pointer ⟨o, 0⟩)

/-- The memory has what the store has. -/
structure Mirrors (m : Module) (μ : Layout) (t : Store) (w : World) : Prop where
  bound : ∀ l p, μ l = some p → l < t.next
  injective : ∀ l l' o ty ty', μ l = some (o, ty) → μ l' = some (o, ty') → l = l'
  words : ∀ l o ty, μ l = some (o, ty) → o.words m = (t.cells l).length
  cells : ∀ l o ty, μ l = some (o, ty) → ∀ (k : Nat) (v : Val),
    (t.cells l)[k]? = some (some v) → ∃ x, w.memory ⟨o, k⟩ = some x ∧ Denotes μ v ty x
  input : w.input = t.input
  events : w.events = t.events

/-- The object has been made before, in this frame or in one below it. -/
def Made (depth : Nat) (count : Nat → Nat) : Object → Prop
  | .globalVariable _ => True
  | .slot d i n => d < depth ∨ d = depth ∧ n < count i

def Layout.Made (μ : Layout) (depth : Nat) (count : Nat → Nat) : Prop :=
  ∀ l o ty, μ l = some (o, ty) → Source.Made depth count o

/-- No variable is lost, and those that hold an array keep it. -/
structure Stable (μ : Layout) (t t' : Store) : Prop where
  next : t.next ≤ t'.next
  pointers : ∀ l o ty, μ l = some (o, .pointer ty) → t'.cells l = t.cells l

variable {m : Module} {μ μ' : Layout} {t t' t'' : Store} {w w' : World} {l k depth : Nat}
  {o : Object} {ty : Ty} {v : Val} {x x' : Word} {count count' : Nat → Nat}

theorem Layout.Le.refl (μ : Layout) : μ.Le μ := fun _ _ h => h

theorem Layout.Le.trans {μ'' : Layout} (h : μ.Le μ') (h' : μ'.Le μ'') : μ.Le μ'' :=
  fun l p hl => h' l p (h l p hl)

theorem Denotes.mono (h : Denotes μ v ty x) (hle : μ.Le μ') : Denotes μ' v ty x := by
  cases h with
  | int => exact .int _
  | float => exact .float _
  | array hty hl => exact .array hty (hle _ _ hl)

theorem Denotes.unique (h : Denotes μ v ty x) (h' : Denotes μ v ty x') : x = x' := by
  cases h with
  | int =>
    cases h'
    rfl
  | float =>
    cases h'
    rfl
  | array _ hl =>
    cases h' with
    | array _ hl' =>
      rw [hl] at hl'
      cases hl'
      rfl

/-- A number is the same word in every layout. -/
theorem Denotes.number (h : Denotes μ v ty x) (hty : ∀ u, ty ≠ .pointer u) (μ' : Layout) :
    Denotes μ' v ty x := by
  cases h with
  | int => exact .int _
  | float => exact .float _
  | array => exact absurd rfl (hty _)

theorem Made.mono (h : Made depth count o) (hc : ∀ i, count i ≤ count' i) : Made depth count' o := by
  cases o with
  | globalVariable g => exact trivial
  | slot d i n => exact h.imp_right fun hd => ⟨hd.1, hd.2.trans_le (hc i)⟩

theorem Made.above (h : Made depth count o) : Made (depth + 1) count' o := by
  cases o with
  | globalVariable g => exact trivial
  | slot d i n => exact .inl (by rcases h with h | h <;> omega)

theorem Made.not_above (h : Made depth count o) : ¬ o.Above (depth + 1) := by
  intro ha
  cases o with
  | globalVariable g => exact ha
  | slot d i n =>
    have hd : depth + 1 ≤ d := ha
    rcases h with h | h <;> omega

theorem Stable.refl (μ : Layout) (t : Store) : Stable μ t t := ⟨le_rfl, fun _ _ _ _ => rfl⟩

theorem Stable.trans (h : Stable μ t t') (h' : Stable μ t' t'') : Stable μ t t'' :=
  ⟨h.next.trans h'.next, fun l o ty hl => (h'.pointers l o ty hl).trans (h.pointers l o ty hl)⟩

theorem Stable.mono (h : Stable μ' t t') (hle : μ.Le μ') : Stable μ t t' :=
  ⟨h.next, fun l o ty hl => h.pointers l o ty (hle _ _ hl)⟩

theorem Stable.emit (μ : Layout) (t : Store) (e : Event) : Stable μ t (t.emit e) :=
  ⟨le_rfl, fun _ _ _ _ => rfl⟩

namespace Mirrors

/-- An element that has been assigned can be read. -/
theorem read (h : Mirrors m μ t w) (hl : μ l = some (o, ty)) (hm : Made depth count o)
    (hv : (t.cells l)[k]? = some (some v)) :
    ∃ x, w.read m depth ⟨o, k⟩ = some x ∧ Denotes μ v ty x := by
  obtain ⟨x, hx, hden⟩ := h.cells l o ty hl k v hv
  have hlt : k < (t.cells l).length := (List.getElem?_eq_some_iff.mp hv).1
  have hvalid : Address.Valid m depth ⟨o, k⟩ := by
    have hwords := h.words l o ty hl
    refine ⟨Int.natCast_nonneg k, ?_, hm.not_above⟩
    show (k : Int) < (o.words m : Int)
    omega
  exact ⟨x, by rw [World.read, if_pos hvalid, hx], hden⟩

/-- A value of its type can be written to an element. -/
theorem write (h : Mirrors m μ t w) (hl : μ l = some (o, ty)) (hm : Made depth count o)
    (hk : k < (t.cells l).length) (hv : Denotes μ v ty x) :
    ∃ w', w.write m depth ⟨o, k⟩ x = some w' ∧
      Mirrors m μ { t with cells := Function.update t.cells l ((t.cells l).set k (some v)) } w' := by
  have hwords := h.words l o ty hl
  have hvalid : Address.Valid m depth ⟨o, k⟩ := by
    refine ⟨Int.natCast_nonneg k, ?_, hm.not_above⟩
    show (k : Int) < (o.words m : Int)
    omega
  have hwrite : w.write m depth ⟨o, k⟩ x =
      some { w with memory := Function.update w.memory ⟨o, k⟩ (some x) } := if_pos hvalid
  refine ⟨_, hwrite, h.bound, h.injective, ?_, ?_, h.input, h.events⟩
  · intro l' o' ty' hl'
    rw [h.words l' o' ty' hl']
    by_cases he : l' = l
    · subst he
      simp
    · simp [he]
  · intro l' o' ty' hl' k' v' hv'
    by_cases he : l' = l
    · subst he
      rw [hl] at hl'
      cases hl'
      simp only [Function.update_self] at hv'
      by_cases hk' : k' = k
      · subst hk'
        rw [List.getElem?_set_self hk] at hv'
        cases hv'
        exact ⟨x, Function.update_self _ _ _, hv⟩
      · rw [List.getElem?_set_ne (Ne.symm hk')] at hv'
        obtain ⟨x', hx', hden⟩ := h.cells l' o ty hl k' v' hv'
        refine ⟨x', ?_, hden⟩
        show Function.update w.memory ⟨o, k⟩ (some x) ⟨o, k'⟩ = some x'
        rw [Function.update_of_ne _, hx']
        intro hadr
        simp only [Address.mk.injEq, true_and] at hadr
        omega
    · simp only [Function.update_of_ne he] at hv'
      obtain ⟨x', hx', hden⟩ := h.cells l' o' ty' hl' k' v' hv'
      refine ⟨x', ?_, hden⟩
      show Function.update w.memory ⟨o, k⟩ (some x) ⟨o', k'⟩ = some x'
      rw [Function.update_of_ne _, hx']
      intro hadr
      simp only [Address.mk.injEq] at hadr
      rw [hadr.1] at hl'
      exact he (h.injective l' l o ty' ty hl' hl)

/-- A new variable, none of whose elements has been assigned. -/
theorem allocate (h : Mirrors m μ t w) (hnew : ∀ l ty, μ l ≠ some (o, ty)) {n : Nat}
    (hw : o.words m = n) :
    Mirrors m (Function.update μ t.next (some (o, ty)))
      { t with cells := Function.update t.cells t.next (List.replicate n none),
               next := t.next + 1 } w := by
  have hold : ∀ l p, μ l = some p → l ≠ t.next := fun l p hl => (h.bound l p hl).ne
  have hle : μ.Le (Function.update μ t.next (some (o, ty))) := by
    intro l p hl
    rwa [Function.update_of_ne (hold l p hl)]
  constructor
  · intro l p hl
    by_cases he : l = t.next
    · rw [he]
      exact Nat.lt_succ_self _
    · rw [Function.update_of_ne he] at hl
      exact (h.bound l p hl).trans (Nat.lt_succ_self _)
  · intro l l' o' ty₁ ty₂ hl hl'
    by_cases he : l = t.next
    · by_cases he' : l' = t.next
      · rw [he, he']
      · rw [he, Function.update_self] at hl
        cases hl
        rw [Function.update_of_ne he'] at hl'
        exact absurd hl' (hnew l' ty₂)
    · rw [Function.update_of_ne he] at hl
      by_cases he' : l' = t.next
      · rw [he', Function.update_self] at hl'
        cases hl'
        exact absurd hl (hnew l ty₁)
      · rw [Function.update_of_ne he'] at hl'
        exact h.injective l l' o' ty₁ ty₂ hl hl'
  · intro l o' ty' hl
    by_cases he : l = t.next
    · rw [he, Function.update_self] at hl
      cases hl
      simp [he, hw]
    · rw [Function.update_of_ne he] at hl
      simpa [he] using h.words l o' ty' hl
  · intro l o' ty' hl k v hv
    by_cases he : l = t.next
    · simp only [he, Function.update_self] at hv
      have hn := List.mem_of_getElem? hv
      rw [List.mem_replicate] at hn
      exact absurd hn.2 (Option.some_ne_none v)
    · rw [Function.update_of_ne he] at hl
      simp only [Function.update_of_ne he] at hv
      obtain ⟨x, hx, hden⟩ := h.cells l o' ty' hl k v hv
      exact ⟨x, hx, hden.mono hle⟩
  · exact h.input
  · exact h.events

/-- What is left of a larger layout when the variables beyond the smaller one are given up. -/
theorem restrict (h : Mirrors m μ t w) (h' : Mirrors m μ' t' w') (hle : μ.Le μ')
    (hs : Stable μ t t') : Mirrors m μ t' w' where
  bound l p hl := (h.bound l p hl).trans_le hs.next
  injective l l' o ty ty' hl hl' := h'.injective l l' o ty ty' (hle _ _ hl) (hle _ _ hl')
  words l o ty hl := h'.words l o ty (hle _ _ hl)
  cells l o ty hl k v hv := by
    obtain ⟨x, hx, hden⟩ := h'.cells l o ty (hle _ _ hl) k v hv
    refine ⟨x, hx, ?_⟩
    by_cases hp : ∃ u, ty = .pointer u
    · obtain ⟨u, rfl⟩ := hp
      rw [hs.pointers l o u hl] at hv
      obtain ⟨x', -, hden'⟩ := h.cells l o _ hl k v hv
      rwa [hden.unique (hden'.mono hle)]
    · exact hden.number (fun u hu => hp ⟨u, hu⟩) μ
  input := h'.input
  events := h'.events

/-- The return from a call: the frames below it have kept their variables. -/
theorem leave (h : Mirrors m μ t w) (hm : μ.Made depth count) :
    Mirrors m μ t (w.leave (depth + 1)) where
  bound := h.bound
  injective := h.injective
  words := h.words
  cells l o ty hl k v hv := by
    obtain ⟨x, hx, hden⟩ := h.cells l o ty hl k v hv
    refine ⟨x, ?_, hden⟩
    show (if o.Above (depth + 1) then none else w.memory ⟨o, k⟩) = some x
    rw [if_neg (hm l o ty hl).not_above, hx]
  input := h.input
  events := h.events

theorem emit (h : Mirrors m μ t w) (e : Event) : Mirrors m μ (t.emit e) (w.emit e) where
  bound := h.bound
  injective := h.injective
  words := h.words
  cells := h.cells
  input := h.input
  events := congrArg (· ++ [e]) h.events

end Mirrors

end Source

end Cminusf
