import Cminusf.Source.Frames

/-! What the code of a part of a visitor does, next to what an evaluation does. -/

namespace Cminusf

namespace Source

open Machine Builder CminusfBuilder

/-- What a function of the type returns. -/
inductive Answers : CminusType → Option Val → Option Word → Prop where
  | none (ty : CminusType) : Answers ty none none
  | int (n : BitVec 32) : Answers .int (some (.int n)) (some (.number (.int n)))
  | float (x : BitVec 32) : Answers .float (some (.float x)) (some (.number (.float x)))

/-- The surroundings of a construct: the finished module, the calls below the current one, the
declarations in force, where the variables are, and the type that the function returns. -/
structure Setting where
  ops : FloatOps
  target : Module
  callers : List Frame
  env : Env
  globals : Layout
  layout : Layout
  ret : CminusType
  fuel : Nat

namespace Setting

abbrev Matches (S : Setting) : BuilderState → Frame → Store → World → Prop :=
  Source.Matches S.target S.env S.layout S.callers.length

/-- The current function returns. -/
def Returns (S : Setting) (t₀ : Store) (v : Option Val) (t : Store) (s : State) : Prop :=
  ∃ x w, Answers S.ret v x ∧ Mirrors S.target S.layout t w ∧ Stable S.layout t₀ t ∧
    ∀ s', resume S.callers x w = some s' → Reaches S.ops S.target s s'

abbrev Fails (S : Setting) (t₀ : Store) : Stop → Store → State → Prop :=
  Source.Fails S.ops S.target S.fuel (S.Returns t₀)

end Setting

/-- The code that `x` emits does what `y` does, and `Q` holds of their results. -/
def Implements {α β : Type} (S : Setting) (x : Builder α) (y : Eval β) (σ : BuilderState)
    (frame : Frame) (t : Store) (w : World) (Q : α → β → BuilderState → Frame → Prop) : Prop :=
  ∀ r, x σ = some r → Within r.2.module S.target →
    Emulates (step S.ops S.target)
      (fun b t' s' => ∃ frame' w', s' = .running frame' S.callers w' ∧
        S.Matches r.2 frame' t' w' ∧ Later σ.module.numInstrs frame frame' ∧
        Stable S.layout t t' ∧ Q r.1 b r.2 frame')
      (S.Fails t) (.running frame S.callers w) (y t)

variable {α β γ δ : Type} {S : Setting} {x : Builder α} {y : Eval β} {f : α → Builder γ}
  {g : β → Eval δ} {σ σ' : BuilderState} {frame frame' : Frame} {t t' : Store} {w w' : World}
  {Q : α → β → BuilderState → Frame → Prop} {R : γ → δ → BuilderState → Frame → Prop}
  {opId : OpID} {ty : Ty} {operands : List Value} {val l r : Value} {u v v' : Val} {d : Datum}
  {ds : List Datum} {words : List Word} {z : Word}

theorem Setting.Returns.back {o : Option Val} {s s' : State} (hs : step S.ops S.target s = some s')
    (h : S.Returns t o t' s') : S.Returns t o t' s := by
  obtain ⟨x, w, ha, hm, hst, hr⟩ := h
  exact ⟨x, w, ha, hm, hst, fun s'' h'' => .head hs (hr s'' h'')⟩

theorem Setting.Returns.earlier {o : Option Val} {u : Store} {s : State} (h : S.Returns t' o u s)
    (hst : Stable S.layout t t') : S.Returns t o u s := by
  obtain ⟨x, w, ha, hm, hst', hr⟩ := h
  exact ⟨x, w, ha, hm, hst.trans hst', hr⟩

theorem Setting.backward_fails (S : Setting) (n : Nat) (t₀ : Store) :
    Backward (step S.ops S.target) (Source.Fails S.ops S.target n (S.Returns t₀)) :=
  Source.backward_fails fun _ _ _ _ hs h => h.back hs

theorem Setting.backward (S : Setting) (t₀ : Store) : Backward (step S.ops S.target) (S.Fails t₀) :=
  S.backward_fails S.fuel t₀

/-- What a later part does when it stops, the whole does. -/
theorem Setting.Fails.earlier {e : Stop} {u : Store} {s : State} (h : S.Fails t' e u s)
    (hst : Stable S.layout t t') : S.Fails t e u s :=
  Fails.mono h le_rfl fun _ hr => hr.earlier hst

namespace Implements

theorem bind (hx : Implements S x y σ frame t w Q) (hcx : Continues x)
    (hcf : ∀ a, Continues (f a))
    (hf : ∀ a b σ' frame' t' w', x σ = some (a, σ') → Within σ.module σ'.module →
      S.Matches σ' frame' t' w' → Later σ.module.numInstrs frame frame' → Q a b σ' frame' →
      Implements S (f a) (g b) σ' frame' t' w' R) :
    Implements S (x >>= f) (y >>= g) σ frame t w R := by
  intro r h hM
  obtain ⟨a, σ₁, h₁, h₂⟩ := bind_some h
  have hw₁ : Within σ.module σ₁.module := (hcx σ _ h₁).1
  have hM₁ : Within σ₁.module S.target := ((hcf a σ₁ r h₂).1).trans hM
  refine (hx _ h₁ hM₁).bind (S.backward t) fun b t₁ s₁ hs₁ => ?_
  obtain ⟨frame₁, w₁, rfl, hmatch, hlater, hstable, hq⟩ := hs₁
  refine (hf a b σ₁ frame₁ t₁ w₁ h₁ hw₁ hmatch hlater hq r h₂ hM).mono ?_
    fun _ _ he => he.earlier hstable
  intro b' t₂ s₂ hs₂
  obtain ⟨frame₂, w₂, hs₂, hmatch₂, hlater₂, hstable₂, hr⟩ := hs₂
  exact ⟨frame₂, w₂, hs₂, hmatch₂, hlater.trans hlater₂ hw₁.widens.numInstrs,
    hstable.trans hstable₂, hr⟩

/-- Code for which the program has no counterpart. -/
theorem before {y : Eval δ} {Q : α → Unit → BuilderState → Frame → Prop}
    (hx : Implements S x (pure ()) σ frame t w Q) (hcx : Continues x)
    (hcf : ∀ a, Continues (f a))
    (hf : ∀ a σ' frame' t' w', x σ = some (a, σ') → Within σ.module σ'.module →
      S.Matches σ' frame' t' w' → Later σ.module.numInstrs frame frame' → Q a () σ' frame' →
      Implements S (f a) y σ' frame' t' w' R) :
    Implements S (x >>= f) y σ frame t w R := by
  have hy : y = (Pure.pure () >>= fun _ => y : Eval δ) := rfl
  rw [hy]
  exact hx.bind hcx hcf fun a b σ' frame' t' w' => hf a σ' frame' t' w'

/-- A part that only reads the state. -/
theorem reading {y : Eval δ} (hx : ∀ r, x σ = some r → r.2 = σ)
    (hf : ∀ a, x σ = some (a, σ) → Implements S (f a) y σ frame t w R) :
    Implements S (x >>= f) y σ frame t w R := by
  intro r h hM
  obtain ⟨a, σ₁, h₁, h₂⟩ := bind_some h
  obtain rfl : σ₁ = σ := hx _ h₁
  exact hf a h₁ r h₂ hM

theorem getTmpVal {y : Eval δ} {f : Value → Builder γ}
    (hf : ∀ val, σ.tmpVal = some val → Implements S (f val) y σ frame t w R) :
    Implements S (Builder.getTmpVal >>= f) y σ frame t w R :=
  reading getTmpVal_read fun val hval => hf val (getTmpVal_eq hval)

theorem getType {y : Eval δ} {f : Ty → Builder γ}
    (hf : Implements S (f (σ.module.getType val)) y σ frame t w R) :
    Implements S (Builder.getType val >>= f) y σ frame t w R := by
  refine reading ?_ fun a ha => ?_
  · intro r h
    cases h
    rfl
  · cases ha
    exact hf

/-- A value that is not defined is not asked for. -/
theorem defined {x : Builder γ} {a : Option β}
    (h : ∀ b, a = some b → Implements S x (g b) σ frame t w R) :
    Implements S x (Source.defined a >>= g) σ frame t w R := by
  intro r hr hM
  cases a with
  | none => exact trivial
  | some b =>
    rw [show (Source.defined (some b) >>= g) = g b from pure_bind b g]
    exact h b rfl r hr hM

theorem undefined {x : Builder γ} : Implements S x Source.undefined σ frame t w R :=
  fun _ _ _ => trivial

theorem pure {a : α} {b : β} (h : S.Matches σ frame t w) (hq : Q a b σ frame) :
    Implements S (Pure.pure a) (Pure.pure b) σ frame t w Q := by
  intro r hr _
  cases hr
  exact .of_now ⟨frame, w, rfl, h, .refl _ _, .refl _ _, hq⟩

theorem setTmpVal {b : β} {Q : Unit → β → BuilderState → Frame → Prop}
    (h : S.Matches σ frame t w) (hq : Q () b { σ with tmpVal := some val } frame) :
    Implements S (Builder.setTmpVal val) (Pure.pure b) σ frame t w Q := by
  intro r hr _
  cases hr
  exact .of_now ⟨frame, w, rfl, h.congr rfl rfl rfl rfl h.requireLvalue, .refl _ _, .refl _ _, hq⟩

theorem discard (hx : Implements S x y σ frame t w Q) :
    Implements S (Functor.discard x) y σ frame t w fun _ b σ' frame' => ∃ a, Q a b σ' frame' := by
  intro r h hM
  obtain ⟨a, h⟩ := discard_some h
  refine (hx _ h hM).mono ?_ fun _ _ he => he
  intro b t' s' hs
  obtain ⟨frame', w', hs, hmatch, hlater, hstable, hr⟩ := hs
  exact ⟨frame', w', hs, hmatch, hlater, hstable, a, hr⟩

/-- The module of the visitors is the beginning of the finished one. -/
theorem within (hcx : Continues x)
    (hf : Within σ.module S.target → Implements S x y σ frame t w Q) :
    Implements S x y σ frame t w Q :=
  fun r h hM => hf ((hcx σ r h).1.trans hM) r h hM

/-- The evaluation has nothing left to do but to give its value. -/
theorem giving {b : β} {Q : α → Unit → BuilderState → Frame → Prop}
    {R : α → β → BuilderState → Frame → Prop}
    (hx : Implements S x (Pure.pure ()) σ frame t w Q)
    (hq : ∀ a σ' frame', Q a () σ' frame' → R a b σ' frame') :
    Implements S x (Pure.pure b) σ frame t w R := by
  intro r h hM
  obtain ⟨s', hs, frame', w', hs', hmatch, hlater, hstable, hr⟩ := hx r h hM
  exact ⟨s', hs, frame', w', hs', hmatch, hlater, hstable, hq r.1 r.2 frame' hr⟩

theorem mono {Q' : α → β → BuilderState → Frame → Prop} (hx : Implements S x y σ frame t w Q)
    (hq : ∀ a b σ' frame', x σ = some (a, σ') → Q a b σ' frame' → Q' a b σ' frame') :
    Implements S x y σ frame t w Q' := by
  intro r h hM
  refine (hx r h hM).mono ?_ fun _ _ he => he
  intro b t' s' hs
  obtain ⟨frame', w', hs, hmatch, hlater, hstable, hr⟩ := hs
  exact ⟨frame', w', hs, hmatch, hlater, hstable, hq r.1 b r.2 frame' h hr⟩

end Implements

/-- Only the module has changed. -/
abbrev Only (σ σ' : BuilderState) : Prop := σ' = { σ with module := σ'.module }

/-- An instruction that has a value, whatever else it does. -/
theorem create_implements (h : S.Matches σ frame t w) (hop : closes opId = false) {b : β}
    {x : Option Word} (hact : ∀ i, S.target.instrs i = ⟨opId, ty, operands, frame.block⟩ →
      action S.ops S.target S.callers.length frame w i = some (.yields x w'))
    (hmem : Mirrors S.target S.layout t' w') (hst : Stable S.layout t t') (hy : y t = (.ok b, t')) :
    Implements S (create opId ty operands) y σ frame t w fun val b' σ' frame' => b' = b ∧
      HasType σ'.module val ty ∧ frame'.value val = x ∧ Only σ σ' := by
  intro r hr hM
  obtain ⟨bb, hb, hval, hσ, hap⟩ := create_appended hr
  obtain rfl : frame.block = bb := Option.some.inj (h.insertBlock.symm.trans hb)
  obtain ⟨rest, hrest, hins, hty, hnext⟩ := h.emit hap hM
  rw [hy, hval]
  refine .of_step (S.backward t) (step_yields hrest (hact _ hins))
    (.of_now ⟨_, w', rfl, ?_, .next rest x le_rfl, hst, rfl, hty, ?_, hσ⟩)
  · rw [hσ]
    exact hnext hop x t' w' hmem
  · exact Function.update_self _ _ _

/-- Only the module has changed, and `val` is `v`. -/
def Yields (S : Setting) (σ : BuilderState) (v : Val) (val : Value) (_ : Unit) (σ' : BuilderState)
    (frame' : Frame) : Prop :=
  Carries S.layout σ'.module frame' val v ∧ Only σ σ'

theorem action_arithmetic {ops : FloatOps} {m : Module} {depth i : Nat}
    (hop : (m.instrs i).opId.isArithmetic)
    (hwords : (m.instrs i).operands.mapM frame.value = some words)
    (hds : words.mapM Word.datum = some ds) (hd : (m.instrs i).opId.eval ops ds = some d) :
    action ops m depth frame w i = some (.yields (some (.number d)) w) := by
  have hspecial : ¬ IsSpecial (m.instrs i).opId := by
    intro hs
    cases hopId : (m.instrs i).opId <;> rw [hopId] at hop hs <;> first | exact hs | cases hop
  rw [action_of_computes hspecial, hwords, Option.bind_some]
  have hcomp : compute ops m depth w (m.instrs i) words =
      (words.mapM Word.datum).bind fun ds => ((m.instrs i).opId.eval ops ds).map fun d =>
        .yields (some (.number d)) w := by
    unfold compute
    split
    all_goals first | rfl | simp_all [OpID.isArithmetic]
  rw [hcomp, hds, Option.bind_some, hd, Option.map_some]

/-- An arithmetic instruction. -/
theorem create_arithmetic (words : List Word) (ds : List Datum) (d : Datum)
    (h : S.Matches σ frame t w) (hop : opId.isArithmetic)
    (hwords : operands.mapM frame.value = some words) (hds : words.mapM Word.datum = some ds)
    (hd : opId.eval S.ops ds = some d) :
    Implements S (create opId ty operands) (pure ()) σ frame t w fun val _ σ' frame' =>
      HasType σ'.module val ty ∧ frame'.value val = some (.number d) ∧ Only σ σ' := by
  have hcl : closes opId = false := by
    cases opId <;> first | rfl | cases hop
  refine (create_implements h hcl (fun i hi => ?_) h.mirrors (.refl _ _)
    (rfl : (pure () : Eval Unit) t = (.ok (), t))).mono fun _ _ _ _ _ hq => hq.2
  exact action_arithmetic (by rw [hi]; exact hop) (by rw [hi]; exact hwords) hds
    (by rw [hi]; exact hd)

theorem carries_of_type {m : Module} {μ : Layout} (ht : HasType m val ty)
    (hv : frame.value val = some z) (hd : Denotes μ v ty z) : Carries μ m frame val v :=
  ⟨z, ht.present, hv, ht.type.symm ▸ hd⟩

/-! ### Numbers -/

theorem Carries.int {n : BitVec 32} {m : Module} {μ : Layout}
    (h : Carries μ m frame val (.int n)) :
    frame.value val = some (.number (.int n)) ∧ m.getType val = .int32 := by
  obtain ⟨x, -, hv, hd⟩ := h
  generalize hty : m.getType val = ty at hd
  cases hd
  exact ⟨hv, rfl⟩

theorem Carries.float {x : BitVec 32} {m : Module} {μ : Layout}
    (h : Carries μ m frame val (.float x)) :
    frame.value val = some (.number (.float x)) ∧ m.getType val = .float := by
  obtain ⟨x, -, hv, hd⟩ := h
  generalize hty : m.getType val = ty at hd
  cases hd
  exact ⟨hv, rfl⟩

theorem Carries.array {ety : CminusType} {k : Nat} {m : Module} {μ : Layout}
    (h : Carries μ m frame val (.array ety k)) : ∃ o, ety ≠ .void ∧ μ k = some (o, ety.ty) ∧
      frame.value val = some (.pointer ⟨o, 0⟩) ∧ HasType m val (.pointer ety.ty) := by
  obtain ⟨x, hp, hv, hd⟩ := h
  generalize hty : m.getType val = ty at hd
  cases hd with
  | array hety hl => exact ⟨_, hety, hl, hv, hp, hty⟩

theorem createSitofp_implements {n : BitVec 32} (h : S.Matches σ frame t w)
    (hv : Carries S.layout σ.module frame val (.int n)) :
    Implements S (createSitofp val .float) (pure ()) σ frame t w
      (Yields S σ (.float (S.ops.ofInt n))) := by
  refine (create_arithmetic [.number (.int n)] [.int n] (.float (S.ops.ofInt n)) h rfl ?_ rfl
    rfl).mono ?_
  · simp [hv.int.1]
  · intro a b σ' frame' _ hq
    exact ⟨carries_of_type hq.1 hq.2.1 (.float _), hq.2.2⟩

theorem createFptosi_implements {x n : BitVec 32} (h : S.Matches σ frame t w)
    (hv : Carries S.layout σ.module frame val (.float x)) (hn : S.ops.toInt x = some n) :
    Implements S (createFptosi val .int32) (pure ()) σ frame t w (Yields S σ (.int n)) := by
  refine (create_arithmetic [.number (.float x)] [.float x] (.int n) h rfl ?_ rfl ?_).mono ?_
  · simp [hv.float.1]
  · simp [OpID.eval, Gvn.CastOp.eval, hn]
  · intro a b σ' frame' _ hq
    exact ⟨carries_of_type hq.1 hq.2.1 (.int _), hq.2.2⟩

end Source

end Cminusf
