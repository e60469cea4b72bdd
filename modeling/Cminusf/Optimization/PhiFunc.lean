import Cminusf.Optimization.Denotation
import Cminusf.Optimization.Replace

/-! `valuePhiFunc`. It takes the parts of two phi expressions together as if they were joined
at one block, and reads the edges of the block that it is called for; the result denotes the
value of the instruction when the two phis come from one join and what is folded is exact. -/

namespace Cminusf

namespace Gvn

open Execution Mem2Reg Dominators

variable {S : Type} {ctx : Context} {pout : Nat → Partition} {x bb b k k' entry : Nat}
  {op : BinaryOp} {L₁ L₂ M₁ M₂ i₁ j₁ i₂ j₂ : Labelled} {vi vj e : Expression} {M : Meaning}
  {R : State S → Prop} {s : State S} {d : Datum}

/-- Whether an edge is left to a recursive call. -/
def Nested (p : Partition) (op : BinaryOp) (e e' : Expression) : Prop :=
  (constantOf e = none ∨ constantOf e' = none) ∧ getVN p (.bin op e e') = .ok false

/-- The recursive calls of `valuePhiFunc`, and the call itself. -/
inductive Calls (ctx : Context) (pout : Nat → Partition) (op : BinaryOp) :
    Labelled → Labelled → Nat → Labelled → Labelled → Nat → Prop where
  | self {L₁ L₂ : Labelled} {bb : Nat} : Calls ctx pout op L₁ L₂ bb L₁ L₂ bb
  | left {k k' : Nat} {i₁ j₁ i₂ j₂ M₁ M₂ : Labelled} {bb front b : Nat} :
      (ctx.module.blocks bb).preBbs.head? = some front →
      Nested (pout front) op i₁.erase i₂.erase → Calls ctx pout op i₁ i₂ front M₁ M₂ b →
      Calls ctx pout op (.phi k i₁ j₁) (.phi k' i₂ j₂) bb M₁ M₂ b
  | right {k k' : Nat} {i₁ j₁ i₂ j₂ M₁ M₂ : Labelled} {bb back b : Nat} :
      (ctx.module.blocks bb).preBbs.getLast? = some back →
      Nested (pout back) op j₁.erase j₂.erase → Calls ctx pout op j₁ j₂ back M₁ M₂ b →
      Calls ctx pout op (.phi k i₁ j₁) (.phi k' i₂ j₂) bb M₁ M₂ b

/-- There is one join of the two phis, and the value is that of `vi` or of `vj` by the edge
over which the join was last entered. -/
def ByEdge (ops : FloatOps) (m : Module) (M : Meaning) (R : State S → Prop)
    (value : State S → Datum → Prop) (L₁ L₂ : Labelled) (vi vj : Expression) : Prop :=
  ∃ k i₁ j₁ i₂ j₂ Lᵢ Lⱼ, L₁ = .phi k i₁ j₁ ∧ L₂ = .phi k i₂ j₂ ∧ Lᵢ.erase = vi ∧ Lⱼ.erase = vj ∧
    ∀ s, R s → ∀ d, value s d → (FromFirst m s k → denote ops m M s Lᵢ = some d) ∧
      (FromSecond m s k → denote ops m M s Lⱼ = some d)

/-- What the two expressions give with the operation. -/
def combined (ops : FloatOps) (m : Module) (M : Meaning) (op : BinaryOp) (L₁ L₂ : Labelled)
    (s : State S) (d : Datum) : Prop := denote ops m M s (.bin op L₁ L₂) = some d

/-- What an edge gives. -/
theorem phiEdge_cases {v₁ v₂ : Expression} {p : Partition}
    {nested : Exec (Option (Expression × Expression))}
    (h : phiEdge ctx x op v₁ v₂ p nested = .ok e) (hne : e ≠ .null) :
    (∃ c₁ c₂ c, v₁ = .constant (some c₁) ∧ v₂ = .constant (some c₂) ∧
      compute ctx.ops ctx.constantFP (ctx.module.instrs x).opId (some c₁) (some c₂) = .ok c ∧
      e = .constant c) ∨
    ¬ Nested p op v₁ v₂ ∧ e = .bin op v₁ v₂ ∨
    Nested p op v₁ v₂ ∧ ∃ vi vj, nested = .ok (some (vi, vj)) ∧ e = .phi vi vj := by
  have hconst : ∀ {v : Expression} {c : Value}, constantOf v = some c → v = .constant (some c) := by
    intro v c hc
    unfold constantOf at hc
    split at hc
    · rw [hc]
    · cases hc
  unfold phiEdge at h
  split at h
  · rename_i c₁ c₂ h₁ h₂
    obtain ⟨c, hc, h⟩ := Exec.bind_eq_ok.mp h
    cases h
    exact .inl ⟨c₁, c₂, c, hconst h₁, hconst h₂, hc, rfl⟩
  · rename_i hno
    obtain ⟨found, hfound, h⟩ := Exec.bind_eq_ok.mp h
    cases found with
    | true =>
      cases h
      refine .inr (.inl ⟨fun hnest => ?_, rfl⟩)
      cases hfound.symm.trans hnest.2
    | false =>
      obtain ⟨r, hr, h⟩ := Exec.bind_eq_ok.mp h
      cases h
      refine .inr (.inr ⟨⟨?_, hfound⟩, ?_⟩)
      · cases h₁ : constantOf v₁ with
        | none => exact .inl rfl
        | some c₁ =>
          cases h₂ : constantOf v₂ with
          | none => exact .inr rfl
          | some c₂ => exact absurd h₂ (hno c₁ c₂ h₁)
      · cases r with
        | none => exact absurd rfl hne
        | some r => exact ⟨r.1, r.2, hr, rfl⟩

/-- A call that returns a phi has taken two phis apart. -/
theorem valuePhiFunc_cases (h : valuePhiFunc ctx pout x op L₁.erase L₂.erase bb = .ok (some (vi, vj))) :
    ∃ k k' i₁ j₁ i₂ j₂ front back, L₁ = .phi k i₁ j₁ ∧ L₂ = .phi k' i₂ j₂ ∧
      (ctx.module.blocks bb).preBbs.head? = some front ∧
      (ctx.module.blocks bb).preBbs.getLast? = some back ∧
      phiEdge ctx x op i₁.erase i₂.erase (pout front)
        (valuePhiFunc ctx pout x op i₁.erase i₂.erase front) = .ok vi ∧
      phiEdge ctx x op j₁.erase j₂.erase (pout back)
        (valuePhiFunc ctx pout x op j₁.erase j₂.erase back) = .ok vj ∧ vi ≠ .null ∧ vj ≠ .null := by
  cases L₁ with
  | phi k i₁ j₁ =>
    cases L₂ with
    | phi k' i₂ j₂ =>
      simp only [Labelled.erase, valuePhiFunc] at h
      split at h
      · rename_i front back hfront hback
        obtain ⟨v, hv, h⟩ := Exec.bind_eq_ok.mp h
        obtain ⟨w, hw, h⟩ := Exec.bind_eq_ok.mp h
        split at h
        · rename_i hne
          cases h
          exact ⟨k, k', i₁, j₁, i₂, j₂, front, back, rfl, rfl, hfront, hback, hv, hw, hne⟩
        · cases h
      · cases h
    | _ => simp [Labelled.erase, valuePhiFunc, pure, Except.pure] at h
  | _ => simp [Labelled.erase, valuePhiFunc, pure, Except.pure] at h

/-- An edge that is left to a recursive call gets a phi from it. -/
theorem phiEdge_nested {v₁ v₂ : Expression} {p : Partition}
    {nested : Exec (Option (Expression × Expression))} (hnest : Nested p op v₁ v₂)
    (h : phiEdge ctx x op v₁ v₂ p nested = .ok e) (hne : e ≠ .null) :
    ∃ vi vj, nested = .ok (some (vi, vj)) := by
  rcases phiEdge_cases h hne with ⟨c₁, c₂, -, h₁, h₂, -⟩ | ⟨hno, -⟩ | ⟨-, vi, vj, hvv, -⟩
  · rw [h₁, h₂] at hnest
    simp [Nested, constantOf] at hnest
  · exact absurd hnest hno
  · exact ⟨vi, vj, hvv⟩

/-- A call that returns a phi has got a phi from each of its recursive calls. -/
theorem Calls.returns (hc : Calls ctx pout op L₁ L₂ bb M₁ M₂ b)
    (h : valuePhiFunc ctx pout x op L₁.erase L₂.erase bb = .ok (some (vi, vj))) :
    ∃ vi vj, valuePhiFunc ctx pout x op M₁.erase M₂.erase b = .ok (some (vi, vj)) := by
  induction hc generalizing vi vj with
  | self => exact ⟨vi, vj, h⟩
  | left hfront hnest _ ih =>
    obtain ⟨_, _, _, _, _, _, front, _, h₁, h₂, hfront', -, hv, -, hne, -⟩ := valuePhiFunc_cases h
    cases h₁
    cases h₂
    rw [hfront] at hfront'
    cases hfront'
    obtain ⟨v, w, hvw⟩ := phiEdge_nested hnest hv hne
    exact ih hvw
  | right hback hnest _ ih =>
    obtain ⟨_, _, _, _, _, _, _, back, h₁, h₂, -, hback', -, hv, -, hne⟩ := valuePhiFunc_cases h
    cases h₁
    cases h₂
    rw [hback] at hback'
    cases hback'
    obtain ⟨v, w, hvw⟩ := phiEdge_nested hnest hv hne
    exact ih hvw

theorem Calls.trans {N₁ N₂ : Labelled} {b' : Nat} (h : Calls ctx pout op L₁ L₂ bb M₁ M₂ b)
    (h' : Calls ctx pout op M₁ M₂ b N₁ N₂ b') : Calls ctx pout op L₁ L₂ bb N₁ N₂ b' := by
  induction h with
  | self => exact h'
  | left hfront hnest _ ih => exact .left hfront hnest (ih h')
  | right hback hnest _ ih => exact .right hback hnest (ih h')

/-- In every call the two phis were joined at one block. -/
def OneJoin (ctx : Context) (pout : Nat → Partition) (op : BinaryOp) (L₁ L₂ : Labelled) (bb : Nat) :
    Prop :=
  ∀ M₁ M₂ b, Calls ctx pout op L₁ L₂ bb M₁ M₂ b → ∀ k k' i₁ j₁ i₂ j₂, M₁ = .phi k i₁ j₁ →
    M₂ = .phi k' i₂ j₂ → k = k'

/-- If both parts are constants, their folding is exact. -/
def ExactParts (ctx : Context) (op : BinaryOp) (L L' : Labelled) : Prop :=
  ∀ c c' d d', L = .constant (some c) → L' = .constant (some c') → c.datum = some d →
    c'.datum = some d' → ctx.Exact (.binary op) [d, d']

/-- In every call what is folded for an edge over which an execution comes is exact. -/
def ExactEdges (ctx : Context) (pout : Nat → Partition) (op : BinaryOp) (R : State S → Prop)
    (L₁ L₂ : Labelled) (bb : Nat) : Prop :=
  ∀ M₁ M₂ b, Calls ctx pout op L₁ L₂ bb M₁ M₂ b → ∀ k k' i₁ j₁ i₂ j₂, M₁ = .phi k i₁ j₁ →
    M₂ = .phi k' i₂ j₂ →
      (∀ s, R s → FromFirst ctx.module s k → ExactParts ctx op i₁ i₂) ∧
      ∀ s, R s → FromSecond ctx.module s k → ExactParts ctx op j₁ j₂

theorem Labelled.eq_constant {L : Labelled} {c : Option Value} (h : L.erase = .constant c) :
    L = .constant c := by
  cases L <;> simp_all [Labelled.erase]

/-- An operation on two phis has a result when their joins have been entered. -/
theorem combined_phi {ops : FloatOps} {m : Module}
    (h : combined ops m M op (.phi k i₁ j₁) L₂ s d) : FromFirst m s k ∨ FromSecond m s k := by
  by_contra hno
  rw [not_or] at hno
  simp [combined, denote, hno.1, hno.2] at h

theorem combined_left {ops : FloatOps} {m : Module} (hk : FromFirst m s k)
    (h : combined ops m M op (.phi k i₁ j₁) (.phi k i₂ j₂) s d) : combined ops m M op i₁ i₂ s d := by
  simpa [combined, denote, hk] using h

theorem combined_right {ops : FloatOps} {m : Module} (hk : FromSecond m s k)
    (h : combined ops m M op (.phi k i₁ j₁) (.phi k i₂ j₂) s d) : combined ops m M op j₁ j₂ s d := by
  have hno : ¬ FromFirst m s k := fun hf => hk.2.1 hf.2
  simpa [combined, denote, hno, hk] using h

/-- A part denotes what it stands for. -/
theorem phiEdge_denotes {front : Nat} {value : State S → Datum → Prop}
    (hop : (ctx.module.instrs x).opId = .binary op)
    (hR : ∀ s, R s → ∀ v d, v.datum = some d → s.env v = d)
    (hvalue : ∀ s d, value s d → combined ctx.ops ctx.module M op i₁ i₂ s d)
    (hexact : ∀ s, R s → ∀ d, value s d → ExactParts ctx op i₁ i₂)
    (hnested : Nested (pout front) op i₁.erase i₂.erase → ∀ vi vj,
      valuePhiFunc ctx pout x op i₁.erase i₂.erase front = .ok (some (vi, vj)) →
        ByEdge ctx.ops ctx.module M R (combined ctx.ops ctx.module M op i₁ i₂) i₁ i₂ vi vj)
    (h : phiEdge ctx x op i₁.erase i₂.erase (pout front)
      (valuePhiFunc ctx pout x op i₁.erase i₂.erase front) = .ok e) (hne : e ≠ .null) :
    ∃ L : Labelled, L.erase = e ∧ ∀ s, R s → ∀ d, value s d →
      denote ctx.ops ctx.module M s L = some d := by
  rcases phiEdge_cases h hne with ⟨c₁, c₂, c, h₁, h₂, hc, rfl⟩ | ⟨-, rfl⟩ | ⟨hnest, vi, vj, hvv, rfl⟩
  · refine ⟨.constant c, rfl, fun s hs d hd => ?_⟩
    have h₁ := Labelled.eq_constant h₁
    have h₂ := Labelled.eq_constant h₂
    have hexact := hexact s hs d hd
    have hd := hvalue s d hd
    rw [h₁, h₂] at hd
    rw [hop] at hc
    obtain ⟨c, rfl, hcd⟩ := compute_eval (hR s hs) hc
      (fun d d' hd hd' => hexact c₁ c₂ d d' h₁ h₂ hd hd') hd
    exact congrArg some hcd
  · exact ⟨.bin op i₁ i₂, rfl, fun s _ d hd => hvalue s d hd⟩
  · obtain ⟨k, i₁', j₁', i₂', j₂', Lᵢ, Lⱼ, h₁, h₂, rfl, rfl, hedge⟩ := hnested hnest vi vj hvv
    refine ⟨.phi k Lᵢ Lⱼ, rfl, fun s hs d hd => ?_⟩
    have hd := hvalue s d hd
    obtain ⟨hfirst, hsecond⟩ := hedge s hs d hd
    rw [h₁] at hd
    rcases combined_phi hd with hf | hs'
    · simp [denote, hf, hfirst hf]
    · have hno : ¬ FromFirst ctx.module s k := fun hf => hs'.2.1 hf.2
      simp [denote, hno, hs', hsecond hs']

/-- With one join for the phis of each call, and exact folding, the result is right by the edge. -/
theorem byEdge_of_oneJoin (hop : (ctx.module.instrs x).opId = .binary op)
    (hR : ∀ s, R s → ∀ v d, v.datum = some d → s.env v = d)
    (hjoin : OneJoin ctx pout op L₁ L₂ bb) (hexact : ExactEdges ctx pout op R L₁ L₂ bb)
    (h : valuePhiFunc ctx pout x op L₁.erase L₂.erase bb = .ok (some (vi, vj))) :
    ByEdge ctx.ops ctx.module M R (combined ctx.ops ctx.module M op L₁ L₂) L₁ L₂ vi vj := by
  induction L₁ generalizing L₂ bb vi vj with
  | phi k i₁ j₁ ihi ihj =>
    obtain ⟨_, k', _, _, i₂, j₂, front, back, h₁, rfl, hfront, hback, hv, hw, hne, hne'⟩ :=
      valuePhiFunc_cases h
    cases h₁
    obtain rfl := hjoin _ _ _ .self k k' _ _ _ _ rfl rfl
    obtain ⟨hexacti, hexactj⟩ := hexact _ _ _ .self k k _ _ _ _ rfl rfl
    have hleft : ∀ (s : State S) (d : Datum), (FromFirst ctx.module s k ∧
        combined ctx.ops ctx.module M op (.phi k i₁ j₁) (.phi k i₂ j₂) s d) →
          combined ctx.ops ctx.module M op i₁ i₂ s d := fun s d hd => combined_left hd.1 hd.2
    have hright : ∀ (s : State S) (d : Datum), (FromSecond ctx.module s k ∧
        combined ctx.ops ctx.module M op (.phi k i₁ j₁) (.phi k i₂ j₂) s d) →
          combined ctx.ops ctx.module M op j₁ j₂ s d := fun s d hd => combined_right hd.1 hd.2
    obtain ⟨Lᵢ, hi, hLᵢ⟩ := phiEdge_denotes hop hR hleft (fun s hs d hd => hexacti s hs hd.1)
      (fun hnest vi vj hvv => ihi (fun M₁ M₂ b hc => hjoin M₁ M₂ b (.left hfront hnest hc))
        (fun M₁ M₂ b hc => hexact M₁ M₂ b (.left hfront hnest hc)) hvv) hv hne
    obtain ⟨Lⱼ, hj, hLⱼ⟩ := phiEdge_denotes hop hR hright (fun s hs d hd => hexactj s hs hd.1)
      (fun hnest vi vj hvv => ihj (fun M₁ M₂ b hc => hjoin M₁ M₂ b (.right hback hnest hc))
        (fun M₁ M₂ b hc => hexact M₁ M₂ b (.right hback hnest hc)) hvv) hw hne'
    exact ⟨k, i₁, j₁, i₂, j₂, Lᵢ, Lⱼ, rfl, rfl, hi, hj, fun s hs d hd =>
      ⟨fun hf => hLᵢ s hs d ⟨hf, hd⟩, fun hf => hLⱼ s hs d ⟨hf, hd⟩⟩⟩
  | _ =>
    obtain ⟨_, _, _, _, _, _, _, _, h₁, -⟩ := valuePhiFunc_cases h
    cases h₁

/-- `valuePhiFunc` on `x = u op v` with the labelled expressions of its operands is sound: the
value of `x` is given by the edge, and so is what each recursive call returns. -/
def PhiSound (ctx : Context) (pout : Nat → Partition) (M : Meaning) (R : State S → Prop)
    (E : Effect S) (x : Nat) (op : BinaryOp) (L₁ L₂ : Labelled) (bb : Nat)
    (vi vj : Expression) : Prop :=
  ByEdge ctx.ops ctx.module M R (fun s d => ∃ rest, Computes ctx.ops ctx.module E x s d rest)
    L₁ L₂ vi vj ∧
  ∀ M₁ M₂ b, Calls ctx pout op L₁ L₂ bb M₁ M₂ b → ∀ vi vj,
    valuePhiFunc ctx pout x op M₁.erase M₂.erase b = .ok (some (vi, vj)) →
      ByEdge ctx.ops ctx.module M R (combined ctx.ops ctx.module M op M₁ M₂) M₁ M₂ vi vj

/-- The folding of two constants with a float result asks `ConstantFP::get` for the result. -/
theorem compute_float {a b : Value} {da db : Datum} {r : BitVec 32} {c : Option Value}
    (ha : a.datum = some da) (hb : b.datum = some db)
    (hr : op.eval ctx.ops da db = some (.float r))
    (h : compute ctx.ops ctx.constantFP (.binary op) (some a) (some b) = .ok c) :
    c = some (ctx.constantFP r) := by
  have hfp : ∀ {v : Value} {d : Datum} {y : BitVec 32}, v.datum = some d →
      getConstFpValue (some v) = .ok y → d = .float y := by
    intro v d y hv hy
    exact Option.some.inj (hv.symm.trans (datum_of_fp hy))
  cases op with
  | fadd | fsub | fmul | fdiv =>
    obtain ⟨y, hy, h⟩ := Exec.bind_eq_ok.mp h
    obtain ⟨z, hz, h⟩ := Exec.bind_eq_ok.mp h
    rw [hfp ha hy, hfp hb hz] at hr
    cases hr
    cases h
    rfl
  | sdiv =>
    cases da <;> cases db <;> simp only [BinaryOp.eval, reduceCtorEq] at hr
    split at hr <;> cases hr
  | _ => cases da <;> cases db <;> cases hr

/-- A part that is folded and is right at a state has been folded exactly. -/
theorem exactParts_of_denotes {v : Expression} {p : Partition}
    {nested : Exec (Option (Expression × Expression))} {L : Labelled}
    (hop : (ctx.module.instrs x).opId = .binary op) (hR : ∀ v d, v.datum = some d → s.env v = d)
    (h : phiEdge ctx x op i₁.erase i₂.erase p nested = .ok v) (hL : L.erase = v)
    (hden : ∀ d, combined ctx.ops ctx.module M op i₁ i₂ s d →
      denote ctx.ops ctx.module M s L = some d) : ExactParts ctx op i₁ i₂ := by
  rintro c c' d d' rfl rfl hd hd' r hr
  simp only [phiEdge, Labelled.erase, constantOf, hop] at h
  obtain ⟨c₀, hc, h⟩ := Exec.bind_eq_ok.mp h
  cases h
  rw [compute_float hd hd' hr hc] at hL
  rw [Labelled.eq_constant hL] at hden
  have hvalue := hden (.float r) (by simp [combined, denote, hR c d hd, hR c' d' hd', hr])
  obtain ⟨y, hy, hiff⟩ := datum_constantFP ctx r
  simp only [denote, Option.map_some, Option.some.injEq, hR _ _ hy, Datum.float.injEq] at hvalue
  exact hiff.mp hvalue

/-- The two phis of each call were joined at one block. -/
theorem PhiSound.oneJoin {E : Effect S} (hs : PhiSound ctx pout M R E x op L₁ L₂ bb vi vj)
    (h : valuePhiFunc ctx pout x op L₁.erase L₂.erase bb = .ok (some (vi, vj))) :
    OneJoin ctx pout op L₁ L₂ bb := by
  intro M₁ M₂ b hc k k' i₁ j₁ i₂ j₂ h₁ h₂
  obtain ⟨vi, vj, hvv⟩ := hc.returns h
  obtain ⟨l, _, _, _, _, _, _, h₁', h₂', -⟩ := hs.2 M₁ M₂ b hc vi vj hvv
  rw [h₁] at h₁'
  rw [h₂] at h₂'
  cases h₁'
  cases h₂'
  rfl

/-- What is folded for an edge is exact where the edge has been taken. -/
theorem PhiSound.exactEdges {E : Effect S} (hs : PhiSound ctx pout M R E x op L₁ L₂ bb vi vj)
    (hop : (ctx.module.instrs x).opId = .binary op)
    (hR : ∀ s, R s → ∀ v d, v.datum = some d → s.env v = d)
    (h : valuePhiFunc ctx pout x op L₁.erase L₂.erase bb = .ok (some (vi, vj))) :
    ExactEdges ctx pout op R L₁ L₂ bb := by
  intro M₁ M₂ b hc k k' i₁ j₁ i₂ j₂ h₁ h₂
  obtain ⟨vi, vj, hvv⟩ := hc.returns h
  obtain ⟨l, _, _, _, _, Lᵢ, Lⱼ, h₁', h₂', hi, hj, hedge⟩ := hs.2 M₁ M₂ b hc vi vj hvv
  obtain ⟨_, _, _, _, _, _, _, _, h₁'', h₂'', -, -, hfront, hback, -⟩ := valuePhiFunc_cases hvv
  rw [h₁] at h₁' h₁''
  rw [h₂] at h₂' h₂''
  cases h₁'
  cases h₂'
  cases h₁''
  cases h₂''
  refine ⟨fun s hs hk => ?_, fun s hs hk => ?_⟩
  · apply exactParts_of_denotes hop (hR s hs) hfront hi
    intro d hd
    refine (hedge s hs d ?_).1 hk
    simpa [h₁, h₂, combined, denote, hk] using hd
  · have hno : ¬ FromFirst ctx.module s k := fun hf => hk.2.1 hf.2
    apply exactParts_of_denotes hop (hR s hs) hback hj
    intro d hd
    refine (hedge s hs d ?_).2 hk
    simpa [h₁, h₂, combined, denote, hno, hk] using hd

/-- At every state in which `x` is computed, the result of `valuePhiFunc` is right exactly when
in every call the two phis were joined at one block and what is folded is exact. -/
theorem phiSound_iff {E : Effect S} {is : List Nat} {u v : Value}
    (hop : (ctx.module.instrs x).opId = .binary op) (hops : (ctx.module.instrs x).operands = [u, v])
    (hu : ∀ s, ReachesPoint ctx.ops ctx.module E entry bb is s →
      denote ctx.ops ctx.module M s L₁ = some (s.env u))
    (hv : ∀ s, ReachesPoint ctx.ops ctx.module E entry bb is s →
      denote ctx.ops ctx.module M s L₂ = some (s.env v))
    (h : valuePhiFunc ctx pout x op L₁.erase L₂.erase bb = .ok (some (vi, vj))) :
    PhiSound ctx pout M (ReachesPoint ctx.ops ctx.module E entry bb is) E x op L₁ L₂ bb vi vj ↔
      OneJoin ctx pout op L₁ L₂ bb ∧
        ExactEdges ctx pout op (ReachesPoint ctx.ops ctx.module E entry bb is) L₁ L₂ bb := by
  constructor
  · intro hs
    exact ⟨hs.oneJoin h, hs.exactEdges hop (fun s hs => hs.constant) h⟩
  · rintro ⟨hjoin, hexact⟩
    have hedge : ∀ M₁ M₂ b, Calls ctx pout op L₁ L₂ bb M₁ M₂ b → ∀ vi vj,
        valuePhiFunc ctx pout x op M₁.erase M₂.erase b = .ok (some (vi, vj)) →
          ByEdge ctx.ops ctx.module M (ReachesPoint ctx.ops ctx.module E entry bb is)
            (combined ctx.ops ctx.module M op M₁ M₂) M₁ M₂ vi vj := by
      intro M₁ M₂ b hc vi vj hvv
      apply byEdge_of_oneJoin hop (fun s hs => hs.constant) _ _ hvv
      · exact fun N₁ N₂ b' hc' => hjoin N₁ N₂ b' (hc.trans hc')
      · exact fun N₁ N₂ b' hc' => hexact N₁ N₂ b' (hc.trans hc')
    refine ⟨?_, hedge⟩
    obtain ⟨k, i₁, j₁, i₂, j₂, Lᵢ, Lⱼ, h₁, h₂, hi, hj, hden⟩ := hedge L₁ L₂ bb .self vi vj h
    refine ⟨k, i₁, j₁, i₂, j₂, Lᵢ, Lⱼ, h₁, h₂, hi, hj, fun s hs d hd => hden s hs d ?_⟩
    obtain ⟨rest, hd⟩ := hd
    -- The expressions of the operands denote their values.
    simp only [Computes, hop, hops, OpID.isArithmetic, if_true, List.map_cons, List.map_nil] at hd
    have hd : op.eval ctx.ops (s.env u) (s.env v) = some d := hd.1
    simpa [combined, denote, hu s hs, hv s hs] using hd

/-- Constants are folded on both edges, so no call is recursive. -/
theorem calls_constants {n n' : BitVec 32} {M₁ M₂ : Labelled}
    (h : Calls ctx pout op (constants k n n') (constants k n n') bb M₁ M₂ b) :
    M₁ = constants k n n' ∧ M₂ = constants k n n' := by
  have hno : ∀ {p c c'}, ¬ Nested p op (Labelled.constant (some c)).erase
      (Labelled.constant (some c')).erase := by simp [Nested, constantOf, Labelled.erase]
  cases h with
  | self => exact ⟨rfl, rfl⟩
  | left _ hnest _ => exact absurd hnest hno
  | right _ hnest _ => exact absurd hnest hno

theorem oneJoin_constants {n n' : BitVec 32} :
    OneJoin ctx pout op (constants k n n') (constants k n n') bb := by
  intro M₁ M₂ b hc k k' i₁ j₁ i₂ j₂ h₁ h₂
  obtain ⟨rfl, rfl⟩ := calls_constants hc
  cases h₁
  cases h₂
  rfl

theorem exactEdges_constants {n n' : BitVec 32} :
    ExactEdges ctx pout .add R (constants k n n') (constants k n n') bb := by
  intro M₁ M₂ b hc k k' i₁ j₁ i₂ j₂ h₁ h₂
  exact ⟨fun _ _ _ _ _ _ _ _ _ _ _ => exact_add, fun _ _ _ _ _ _ _ _ _ _ _ => exact_add⟩

/-- The two constants that the result of folding holds. -/
def two : Expression := .constant (some (.constInt 2))

def four : Expression := .constant (some (.constInt 4))

/-- In `x + x` both phis come from the choice of `x`. -/
theorem phiSound_iff_carryProgram : ∃ m, buildModule carryProgram = some m ∧
    ∃ m', run m Value.code 40 = .ok m' ∧
      ∃ g, detectEquivalences (joinContext m') Value.code 4 1 40 = .ok g ∧
        PhiSound (joinContext m') g.pout zeroMeaning
          (ReachesPoint noFloats m' anyEffect 0 5 [18]) anyEffect 21 .add (constants 2 1 2)
          (constants 2 1 2) 5 two four := by
  obtain ⟨m, hm, h⟩ := exists_buildModule carryProgram
    (fun m => decide (4 < m.numFunctions ∧ (m.functions 4).basicBlocks.head? = some 0) &&
      (run m Value.code 40).toOption.any fun m' => isSsa m' 4 0 8 &&
        strictlyDominates m' 0 8 2 5 &&
        decide (2 ∈ (m'.functions 4).basicBlocks ∧ 26 ∈ phis m' 2 ∧
          (m'.instrs 26).operands = [.constInt 1, .basicBlock 1, .constInt 2, .basicBlock 3] ∧
          (m'.blocks 2).preBbs = [1, 3]) &&
        decide ((m'.instrs 21).opId = .binary .add ∧
          (m'.instrs 21).operands = [.instruction 26, .instruction 26]) &&
        (detectEquivalences (joinContext m') Value.code 4 1 40).toOption.any fun g =>
          (valuePhiFunc (joinContext m') g.pout 21 .add (constants 2 1 2).erase
            (constants 2 1 2).erase 5).toOption = some (some (two, four)))
    (by decide +kernel)
  simp only [Bool.and_eq_true, decide_eq_true_eq] at h
  obtain ⟨⟨hlt, hhead⟩, h⟩ := h
  obtain ⟨m', hrun, h⟩ := (Option.any_eq_true _ _).mp h
  simp only [Bool.and_eq_true, decide_eq_true_eq] at h
  obtain ⟨⟨⟨⟨hssa, hdom⟩, hmem, hphi, hops, hpre⟩, hsum⟩, h⟩ := h
  obtain ⟨g, hg, hfunc⟩ := (Option.any_eq_true _ _).mp h
  have hrun := Exec.ok_of_toOption hrun
  have hm' := ssaFunction_of_isSsa hm Value.code_injective hrun hlt hhead hssa
  have hconst : ConstantPhi m' 26 2 1 3 (.constInt 1) (.constInt 2) :=
    ⟨hphi, hops, hpre, by decide, by decide, by decide⟩
  have hden : ∀ s, ReachesPoint noFloats m' anyEffect 0 5 [18] s →
      denote noFloats m' zeroMeaning s (constants 2 1 2) = some (s.env (.instruction 26)) :=
    fun s hs => hconst.denote hm' hmem (by decide) (strictlyDominates_of_strictlyDominates hdom).1 hs
  have hfunc : valuePhiFunc (joinContext m') g.pout 21 .add (constants 2 1 2).erase
      (constants 2 1 2).erase 5 = .ok (some (two, four)) :=
    Exec.ok_of_toOption (of_decide_eq_true hfunc)
  exact ⟨m, hm, m', hrun, g, Exec.ok_of_toOption hg,
    (phiSound_iff hsum.1 hsum.2 hden hden hfunc).mpr ⟨oneJoin_constants, exactEdges_constants⟩⟩

/-- In `a + b` the phis come from two choices, and the sum of 1 and 2 is on neither edge. -/
theorem not_phiSound_joinProgram : ∃ m, buildModule joinProgram = some m ∧
    ∃ m', run m Value.code 60 = .ok m' ∧
      ∃ g, detectEquivalences (joinContext m') Value.code 4 1 40 = .ok g ∧
        (∀ i ∈ [39, 40], getVE (g.pout 5) (.instruction i) = (constants 5 1 2).erase) ∧
        valuePhiFunc (joinContext m') g.pout 30 .add (constants 2 1 2).erase
          (constants 5 1 2).erase 5 = .ok (some (two, four)) ∧
        ∀ M, (∀ s, ReachesPoint noFloats m' anyEffect 0 5 [42, 40, 23, 24, 26, 27] s →
          denote noFloats m' M s (constants 2 1 2) = some (s.env (.instruction 39)) ∧
          denote noFloats m' M s (constants 5 1 2) = some (s.env (.instruction 40))) ∧
        ¬ PhiSound (joinContext m') g.pout M
          (ReachesPoint noFloats m' anyEffect 0 5 [42, 40, 23, 24, 26, 27]) anyEffect 30 .add
          (constants 2 1 2) (constants 5 1 2) 5 two four ∧
        ∃ s d rest, ReachesPoint noFloats m' anyEffect 0 5 [42, 40, 23, 24, 26, 27] s ∧
          Computes noFloats m' anyEffect 30 s d rest ∧ d ≠ .int 2 ∧ d ≠ .int 4 := by
  obtain ⟨m, hm, m', hrun, hmodule, hjoin, g, hg, hvalues⟩ := joinProgram_module
  simp only [joinValues, Bool.and_eq_true, List.all_eq_true, decide_eq_true_eq] at hvalues
  obtain ⟨⟨⟨⟨-, hve⟩, -⟩, -⟩, hfunc⟩ := hvalues
  refine ⟨m, hm, m', hrun, g, hg, hve, Exec.ok_of_toOption hfunc, fun M =>
    ⟨fun s hs => ⟨hmodule.denote_first hs, hmodule.denote_second hs⟩, ?_, ?_⟩⟩
  · rintro ⟨⟨k, _, _, _, _, _, _, h₁, h₂, -⟩, -⟩
    cases h₁
    cases h₂
  · obtain ⟨s, s', hs, hexec, -, ha, hb⟩ := hmodule.exists_run hjoin
    have hsum : Yields noFloats m' anyEffect 5 30 s' (.int (1 + 2)) :=
      yields_add (hmodule.sums (30, .instruction 39, .instruction 40) (by simp)) ha hb
    have hphi : ¬ (m'.instrs 30).isPhi := by
      simp [Instruction.isPhi, (hmodule.sums (30, .instruction 39, .instruction 40) (by simp)).1]
    rw [Yields, if_neg hphi] at hsum
    obtain ⟨rest, hsum⟩ := hsum
    exact ⟨s', .int (1 + 2), rest, ⟨s, hs, hexec⟩, hsum, by decide, by decide⟩

end Gvn

end Cminusf
