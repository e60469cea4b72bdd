import Cminusf.Builder.Continues
import Cminusf.Builder.Stored
import Cminusf.Emulation
import Cminusf.Source.Layout

/-! The machine in the code of a construct: the frame is where the visitors have put their insert
point, and the names are bound to the variables that the frame knows. -/

namespace Cminusf

namespace Source

open Machine Builder

/-- The number of a function in the module. -/
def Callee.index : Callee → Nat
  | .input => 0
  | .output => 1
  | .outputFloat => 2
  | .negIdxExcept => 3
  | .user k => 4 + k

/-- What the visitors have bound a name to. -/
inductive Bound (μ : Layout) (m : Module) (frame : Frame) : Binding → Value → Prop where
  | scalar {ty : CminusType} {l : Nat} {o : Object} {v : Value} : ty ≠ .void →
      μ l = some (o, ty.ty) → HasType m v (.pointer ty.ty) →
      frame.value v = some (.pointer ⟨o, 0⟩) → Bound μ m frame (.scalar ty l) v
  | array {ty : CminusType} {l n : Nat} {o : Object} {v : Value} : ty ≠ .void →
      μ l = some (o, ty.ty) → HasType m v (.pointer (.array ty.ty n)) →
      frame.value v = some (.pointer ⟨o, 0⟩) → Bound μ m frame (.array ty l) v
  | arrayParam {ty : CminusType} {l : Nat} {o : Object} {v : Value} : ty ≠ .void →
      μ l = some (o, .pointer ty.ty) → HasType m v (.pointer (.pointer ty.ty)) →
      frame.value v = some (.pointer ⟨o, 0⟩) → Bound μ m frame (.arrayParam ty l) v
  | function {f : Callee} : f.index < m.numFunctions →
      Bound μ m frame (.function f) (.function f.index)

/-- The scopes have the same names in the same order. -/
abbrev Binds (μ : Layout) (m : Module) (frame : Frame) : Env → List (List (String × Value)) → Prop :=
  List.Forall₂ (List.Forall₂ fun p q => p.1 = q.1 ∧ Bound μ m frame p.2 q.2)

/-- The machine is at the insert point. -/
structure Matches (M : Module) (Γ : Env) (μ : Layout) (depth : Nat) (σ : BuilderState)
    (frame : Frame) (t : Store) (w : World) : Prop where
  curFun : σ.curFun = some frame.func
  func : frame.func < σ.module.numFunctions
  requireLvalue : σ.requireLvalue = false
  insertBlock : σ.insertBlock = some frame.block
  block : frame.block < σ.module.numBlocks
  isOpen : σ.module.getTerminator frame.block = none
  rest : (M.blocks frame.block).instrList = (σ.module.blocks frame.block).instrList ++ frame.rest
  binds : Binds μ σ.module frame Γ σ.scope.inner
  made : μ.Made depth frame.count
  mirrors : Mirrors M μ t w

/-- The frame has kept the results of the first `n` instructions. -/
structure Later (n : Nat) (frame frame' : Frame) : Prop where
  func : frame'.func = frame.func
  args : frame'.args = frame.args
  env : ∀ i < n, frame'.env i = frame.env i
  count : ∀ i, frame.count i ≤ frame'.count i

/-- The value of the instruction or constant is `v`. -/
def Carries (μ : Layout) (m : Module) (frame : Frame) (val : Value) (v : Val) : Prop :=
  ∃ x, Present m val ∧ frame.value val = some x ∧ Denotes μ v (m.getType val) x

/-- What the machine does when an evaluation stops. -/
def Fails (ops : FloatOps) (M : Module) (n : Nat) (R : Option Val → Store → State → Prop) :
    Stop → Store → State → Prop
  | .returned v, t, S => R v t S
  | .exited, t, S => ∃ w, Reaches ops M S (.exited w) ∧ w.events = t.events
  | .outOfFuel, t, S => ∃ k S', n ≤ k ∧ Takes (step ops M) k S S' ∧ S'.world.events = t.events
  | .undefined, _, _ => True

variable {ops : FloatOps} {M m m' : Module} {Γ : Env} {μ μ' : Layout} {depth n n' : Nat}
  {σ σ' : BuilderState} {frame frame' frame'' : Frame} {t t' : Store} {w w' : World}
  {b : Binding} {v : Value} {x : Option Word} {opId : OpID} {ty : Ty} {operands : List Value}
  {callers : List Frame}

theorem backward_fails {R : Option Val → Store → State → Prop}
    (hR : ∀ v t S S', step ops M S = some S' → R v t S' → R v t S) :
    Backward (step ops M) (Fails ops M n R) := by
  intro e t S S' hs hf
  cases e with
  | returned v => exact hR v t S S' hs hf
  | exited =>
    obtain ⟨w, hw, he⟩ := hf
    exact ⟨w, .head hs hw, he⟩
  | outOfFuel =>
    obtain ⟨k, S'', hk, ht, he⟩ := hf
    exact ⟨k + 1, S'', by omega, ⟨S', hs, ht⟩, he⟩
  | undefined => exact trivial

theorem Fails.mono {R R' : Option Val → Store → State → Prop} {e : Stop} {s : State}
    (h : Fails ops M n R e t s) (hn : n' ≤ n) (hR : ∀ v, R v t s → R' v t s) :
    Fails ops M n' R' e t s := by
  cases e with
  | returned v => exact hR v h
  | exited => exact h
  | outOfFuel =>
    obtain ⟨k, s', hk, hs⟩ := h
    exact ⟨k, s', hn.trans hk, hs⟩
  | undefined => exact trivial

/-- One step more before the evaluation is out of fuel. -/
theorem Fails.step {R : Option Val → Store → State → Prop} {e : Stop} {s s' : State}
    (hs : step ops M s = some s') (hR : ∀ v, R v t s' → R v t s) (h : Fails ops M n R e t s') :
    Fails ops M (n + 1) R e t s := by
  cases e with
  | returned v => exact hR v h
  | exited =>
    obtain ⟨w, hw, he⟩ := h
    exact ⟨w, .head hs hw, he⟩
  | outOfFuel =>
    obtain ⟨k, s'', hk, ht, he⟩ := h
    exact ⟨k + 1, s'', by omega, ⟨s', hs, ht⟩, he⟩
  | undefined => exact trivial

theorem Later.refl (n : Nat) (frame : Frame) : Later n frame frame :=
  ⟨rfl, rfl, fun _ _ => rfl, fun _ => le_rfl⟩

theorem Later.trans (h : Later n frame frame') (h' : Later n' frame' frame'') (hn : n ≤ n') :
    Later n frame frame'' where
  func := h'.func.trans h.func
  args := h'.args.trans h.args
  env i hi := (h'.env i (hi.trans_le hn)).trans (h.env i hi)
  count i := (h.count i).trans (h'.count i)

theorem Later.next {i : Nat} (rest : List Nat) (x : Option Word) (hi : n ≤ i) :
    Later n frame (frame.next i rest x) where
  func := rfl
  args := rfl
  env j hj := Function.update_of_ne (by omega) _ _
  count j := by
    by_cases h : j = i
    · simp [Frame.next, h]
    · simp [Frame.next, h]

theorem Later.value (h : Later m.numInstrs frame frame') (hv : Present m v) :
    frame'.value v = frame.value v := by
  cases v with
  | instruction i => exact h.env i hv
  | argument f k => simp only [Frame.value, h.func, h.args]
  | _ => rfl

theorem Bound.later (h : Bound μ m frame b v) (hm : Within m m')
    (hl : Later m.numInstrs frame frame') (hle : μ.Le μ') : Bound μ' m' frame' b v := by
  cases h with
  | scalar hty hμ ht hv =>
    exact .scalar hty (hle _ _ hμ) (ht.widen hm.widens) ((hl.value ht.present).trans hv)
  | array hty hμ ht hv =>
    exact .array hty (hle _ _ hμ) (ht.widen hm.widens) ((hl.value ht.present).trans hv)
  | arrayParam hty hμ ht hv =>
    exact .arrayParam hty (hle _ _ hμ) (ht.widen hm.widens) ((hl.value ht.present).trans hv)
  | function hf => exact .function (hf.trans_le hm.widens.numFunctions)

theorem Binds.later {scopes : List (List (String × Value))} (h : Binds μ m frame Γ scopes)
    (hm : Within m m') (hl : Later m.numInstrs frame frame') (hle : μ.Le μ') :
    Binds μ' m' frame' Γ scopes :=
  h.imp fun _ _ hs => hs.imp fun _ _ hb => ⟨hb.1, hb.2.later hm hl hle⟩

theorem Carries.later {val : Value} {u : Val} (h : Carries μ m frame val u) (hm : Within m m')
    (hl : Later m.numInstrs frame frame') (hle : μ.Le μ') : Carries μ' m' frame' val u := by
  obtain ⟨x, hp, hv, hd⟩ := h
  refine ⟨x, hp.widen hm.widens, (hl.value hp).trans hv, ?_⟩
  rw [getType_widen hp hm.widens]
  exact hd.mono hle

/-- A scope that has the same names. -/
theorem Binds.lookup (id : String) {ps : List (String × Binding)} {qs : List (String × Value)}
    (h : List.Forall₂ (fun p q => p.1 = q.1 ∧ Bound μ m frame p.2 q.2) ps qs) :
    (∀ v, qs.lookup id = some v → ∃ b, ps.lookup id = some b ∧ Bound μ m frame b v) ∧
      (qs.lookup id = none ↔ ps.lookup id = none) := by
  induction h with
  | nil => exact ⟨fun v hv => absurd hv (by simp), fun _ => rfl, fun _ => rfl⟩
  | @cons p q ps qs hpq _ ih =>
    obtain ⟨name, b⟩ := p
    obtain ⟨name', u⟩ := q
    obtain ⟨rfl, hb⟩ := hpq
    by_cases he : id = name
    · subst he
      simp only [List.lookup_cons_self]
      exact ⟨fun v hv => ⟨b, rfl, Option.some.inj hv ▸ hb⟩, by simp⟩
    · have hne : (id == name) = false := beq_eq_false_iff_ne.mpr he
      simp only [List.lookup_cons, hne]
      exact ih

/-- A name that the visitors have found is one of the program. -/
theorem Binds.find {scope : Scope} {id : String} (h : Binds μ m frame Γ scope.inner)
    (hv : scope.find id = some v) : ∃ b, Γ.find id = some b ∧ Bound μ m frame b v := by
  obtain ⟨inner⟩ := scope
  dsimp only [Scope.find] at h hv
  induction h with
  | nil => cases hv
  | @cons ps qs Γ inner hs _ ih =>
    obtain ⟨hsome, hnone⟩ := Binds.lookup id hs
    rw [List.findSome?_cons] at hv
    cases hq : qs.lookup id with
    | none =>
      rw [hq] at hv
      obtain ⟨b, hb, hbound⟩ := ih hv
      exact ⟨b, by rw [Env.find, List.findSome?_cons, hnone.mp hq]; exact hb, hbound⟩
    | some u =>
      rw [hq] at hv
      cases hv
      obtain ⟨b, hb, hbound⟩ := hsome _ hq
      exact ⟨b, by rw [Env.find, List.findSome?_cons, hb], hbound⟩

theorem Env.declare_eq {Γ Γ' : Env} {id : String} (h : Γ.declare id b = some Γ') :
    ∃ top rest, Γ = top :: rest ∧ top.lookup id = none ∧ Γ' = ((id, b) :: top) :: rest := by
  cases Γ with
  | nil => cases h
  | cons top rest =>
    rw [Env.declare] at h
    split at h
    · cases h
    · rename_i hnone
      cases h
      exact ⟨top, rest, rfl, Option.not_isSome_iff_eq_none.mp hnone, rfl⟩

/-- A declaration of the program is one of the visitors. -/
theorem Binds.declare {scope : Scope} {Γ' : Env} {id : String}
    (h : Binds μ m frame Γ scope.inner) (hΓ : Γ.declare id b = some Γ')
    (hb : Bound μ m frame b v) : Binds μ m frame Γ' (scope.push id v).inner := by
  obtain ⟨inner⟩ := scope
  obtain ⟨top, rest, rfl, hnone, rfl⟩ := Env.declare_eq hΓ
  cases h with
  | @cons _ qs _ inner hs hrest =>
    have hq : qs.lookup id = none := (Binds.lookup id hs).2.mpr hnone
    have hpush : (Scope.push ⟨qs :: inner⟩ id v).inner = ((id, v) :: qs) :: inner := by
      simp [Scope.push, hq]
    rw [hpush]
    exact .cons (.cons ⟨rfl, hb⟩ hs) hrest

/-- The state of the visitors is only read. -/
theorem Matches.congr (h : Matches M Γ μ depth σ frame t w) (hm : σ'.module = σ.module)
    (hf : σ'.curFun = σ.curFun) (hb : σ'.insertBlock = σ.insertBlock)
    (hs : σ'.scope = σ.scope) (hl : σ'.requireLvalue = false) :
    Matches M Γ μ depth σ' frame t w where
  curFun := hf.trans h.curFun
  func := hm ▸ h.func
  requireLvalue := hl
  insertBlock := hb.trans h.insertBlock
  block := hm ▸ h.block
  isOpen := hm ▸ h.isOpen
  rest := hm ▸ h.rest
  binds := by
    rw [hm, hs]
    exact h.binds
  made := h.made
  mirrors := h.mirrors

/-- The next instruction of the frame is the one that has just been created. -/
theorem Matches.emit (h : Matches M Γ μ depth σ frame t w)
    (hap : Appended σ.module frame.block opId ty operands m') (hM : Within m' M) :
    ∃ rest, frame.rest = σ.module.numInstrs :: rest ∧
      M.instrs σ.module.numInstrs = ⟨opId, ty, operands, frame.block⟩ ∧
      HasType m' (.instruction σ.module.numInstrs) ty ∧
      (closes opId = false → ∀ x t' w', Mirrors M μ t' w' →
        Matches M Γ μ depth { σ with module := m' } (frame.next σ.module.numInstrs rest x) t' w') := by
  have hlt : σ.module.numInstrs < m'.numInstrs := by
    rw [hap.numInstrs]
    exact Nat.lt_succ_self _
  have hpre := hM.instrList frame.block (by rw [hap.numBlocks]; exact h.block)
  rw [hap.instrList, if_pos rfl, h.rest, List.prefix_append_right_inj] at hpre
  obtain ⟨rest, hrest⟩ := hpre
  refine ⟨rest, hrest.symm, ?_, ⟨hlt, ?_⟩, fun hcl x t' w' hw => ?_⟩
  · rw [hM.widens.instrs _ hlt, hap.new]
  · show (m'.instrs _).type = ty
    rw [hap.new]
  · have hwithin := hap.within
    refine ⟨h.curFun, ?_, h.requireLvalue, h.insertBlock, ?_, ?_, ?_, ?_, ?_, hw⟩
    · exact h.func.trans_le hwithin.widens.numFunctions
    · exact h.block.trans_le hwithin.widens.numBlocks
    · show m'.getTerminator frame.block = none
      rw [hap.getTerminator, hcl]
      rfl
    · show (M.blocks frame.block).instrList = (m'.blocks frame.block).instrList ++ rest
      rw [h.rest, hap.instrList, if_pos rfl, ← hrest, List.append_assoc]
    · exact h.binds.later hwithin (.next rest x le_rfl) (.refl μ)
    · intro l o ty hl
      exact (h.made l o ty hl).mono (Later.next (n := 0) rest x (Nat.zero_le _)).count

/-- One step. -/
theorem step_yields {i : Nat} {rest : List Nat} (hrest : frame.rest = i :: rest)
    (hact : action ops M callers.length frame w i = some (.yields x w')) :
    step ops M (.running frame callers w) =
      some (.running (frame.next i rest x) callers w') := by
  rw [step, hrest]
  dsimp only
  rw [hact]
  rfl

end Source

end Cminusf
