import Cminusf.Source.Implements

/-! The operators and the conversions of numbers. -/

namespace Cminusf

namespace Source

open Machine Builder CminusfBuilder

/-- The value of an expression, if it has one, is in `tmp_val`. -/
def Gives (S : Setting) (_ : Unit) (o : Option Val) (σ' : BuilderState) (frame' : Frame) : Prop :=
  ∀ u, o = some u → ∃ val, σ'.tmpVal = some val ∧ Carries S.layout σ'.module frame' val u

/-- Two numbers of which one is a float at least, as floats. -/
inductive Promotes (ops : FloatOps) : Val → Val → BitVec 32 → BitVec 32 → Prop where
  | left (n y : BitVec 32) : Promotes ops (.int n) (.float y) (ops.ofInt n) y
  | right (x k : BitVec 32) : Promotes ops (.float x) (.int k) x (ops.ofInt k)
  | both (x y : BitVec 32) : Promotes ops (.float x) (.float y) x y

/-- On two numbers that are not both integers the operation is that on floats. -/
def Promoting (ops : FloatOps) (op : Val → Val → Option Val) : Prop :=
  ∀ a b u, op a b = some u → (∃ n k, a = .int n ∧ b = .int k) ∨
    ∃ x y, Promotes ops a b x y ∧ op (.float x) (.float y) = some u

theorem promoting_arithmetic (ops : FloatOps) (onInt onFloat : BitVec 32 → BitVec 32 → Option Val) :
    Promoting ops (arithmetic ops onInt onFloat) := by
  intro a b u h
  cases a with
  | int n =>
    cases b with
    | int k => exact .inl ⟨n, k, rfl, rfl⟩
    | float y => exact .inr ⟨_, _, .left n y, h⟩
    | array => cases h
  | float x =>
    cases b with
    | int k => exact .inr ⟨_, _, .right x k, h⟩
    | float y => exact .inr ⟨_, _, .both x y, h⟩
    | array => cases h
  | array => cases b <;> cases h

theorem promoting_relation (ops : FloatOps) (op : RelOp) : Promoting ops (relation ops op) :=
  promoting_arithmetic ops _ _

theorem promoting_additive (ops : FloatOps) (op : AddOp) : Promoting ops (additive ops op) := by
  unfold additive
  cases op with
  | plus => exact promoting_arithmetic ops _ _
  | minus => exact promoting_arithmetic ops _ _

theorem promoting_multiplicative (ops : FloatOps) (op : MulOp) :
    Promoting ops (multiplicative ops op) := by
  unfold multiplicative
  cases op with
  | mul => exact promoting_arithmetic ops _ _
  | div => exact promoting_arithmetic ops _ _

variable {β γ δ : Type} {S : Setting} {σ σ' : BuilderState} {frame frame' : Frame}
  {t t' : Store} {w w' : World} {val l r : Value} {a b u v : Val} {n k x y : BitVec 32}

namespace Implements

/-- The value of an operand is in `tmp_val`. -/
theorem operand {x : Builder Unit} {y : Eval (Option Val)} {f : Value → Builder γ} {g : Val → Eval δ}
    {R : γ → δ → BuilderState → Frame → Prop} (hx : Implements S x y σ frame t w (Gives S))
    (hcx : Continues x) (hcf : ∀ v, Continues (f v))
    (hf : ∀ val u σ' frame' t' w', x σ = some ((), σ') → Within σ.module σ'.module →
      S.Matches σ' frame' t' w' → Later σ.module.numInstrs frame frame' →
      Carries S.layout σ'.module frame' val u → Implements S (f val) (g u) σ' frame' t' w' R) :
    Implements S (x >>= fun _ => Builder.getTmpVal >>= f) (value y >>= g) σ frame t w R := by
  have hy : value y >>= g = y >>= fun o => Source.defined o >>= g := bind_assoc y _ g
  rw [hy]
  refine hx.bind hcx (fun _ => continues_basics.getTmpVal.bind hcf)
    fun _ o σ' frame' t' w' hrun hw hm hl hq => ?_
  refine .getTmpVal fun val hval => .defined fun u hu => ?_
  obtain ⟨val', hval', hc⟩ := hq u hu
  obtain rfl : val' = val := Option.some.inj (hval'.symm.trans hval)
  exact hf val' u σ' frame' t' w' hrun hw hm hl hc

theorem promote_ints {f : Bool × Value × Value → Builder γ} {y : Eval δ}
    {R : γ → δ → BuilderState → Frame → Prop}
    (hl : Carries S.layout σ.module frame l (.int n))
    (hr : Carries S.layout σ.module frame r (.int k))
    (hf : Implements S (f (true, l, r)) y σ frame t w R) :
    Implements S (promote l r >>= f) y σ frame t w R := by
  have hp : promote l r >>= f = (do
      let lTy ← Builder.getType l
      let rTy ← Builder.getType r
      (if lTy = rTy then Pure.pure (lTy.isInteger, l, r)
        else if lTy.isInteger then do
          let l' ← createSitofp l .float
          Pure.pure (false, l', r)
        else do
          let r' ← createSitofp r .float
          Pure.pure (false, l, r')) >>= f) := by
    simp only [promote, bind_assoc]
  rw [hp]
  refine .getType (.getType ?_)
  rw [hl.int.2, hr.int.2, if_pos rfl]
  exact hf

end Implements

/-- The operands of an operation on floats. -/
def Floats (S : Setting) (σ : BuilderState) (x y : BitVec 32) (p : Bool × Value × Value) (_ : Unit)
    (σ' : BuilderState) (frame' : Frame) : Prop :=
  p.1 = false ∧ Carries S.layout σ'.module frame' p.2.1 (.float x) ∧
    Carries S.layout σ'.module frame' p.2.2 (.float y) ∧ Only σ σ'

theorem promote_floats (h : S.Matches σ frame t w) (hl : Carries S.layout σ.module frame l a)
    (hr : Carries S.layout σ.module frame r b) (hp : Promotes S.ops a b x y) :
    Implements S (promote l r) (pure ()) σ frame t w (Floats S σ x y) := by
  refine .getType (.getType ?_)
  cases hp with
  | left n y =>
    rw [hl.int.2, hr.float.2, if_neg (by simp), if_pos (by rfl)]
    refine (createSitofp_implements h hl).before (continues_basics.create (by simp))
      (fun _ => continues_basics.pure _) fun val σ' frame' t' w' _ hw hm hlater hq => ?_
    exact .pure hm ⟨rfl, hq.1, hr.later hw hlater (.refl _), hq.2⟩
  | right x k =>
    rw [hl.float.2, hr.int.2, if_neg (by simp), if_neg (by simp [Ty.isInteger])]
    refine (createSitofp_implements h hr).before (continues_basics.create (by simp))
      (fun _ => continues_basics.pure _) fun val σ' frame' t' w' _ hw hm hlater hq => ?_
    exact .pure hm ⟨rfl, hl.later hw hlater (.refl _), hq.1, hq.2⟩
  | both x y =>
    rw [hl.float.2, hr.float.2, if_pos rfl]
    exact .pure h ⟨rfl, hl, hr, rfl⟩

/-- An operation on numbers, whose operands are promoted to floats unless both are integers. -/
theorem binary {xl xr : Builder Unit} {yl yr : Eval (Option Val)}
    {emit : Bool × Value × Value → Builder Unit} {op : Val → Val → Option Val}
    (hop : Promoting S.ops op) (hxl : Implements S xl yl σ frame t w (Gives S))
    (hcl : Continues xl) (hcr : Continues xr) (hce : ∀ p, Continues (emit p))
    (hxr : ∀ σ' frame' t' w', xl σ = some ((), σ') → S.Matches σ' frame' t' w' →
      Implements S xr yr σ' frame' t' w' (Gives S))
    (hint : ∀ n k u, op (.int n) (.int k) = some u → ∀ σ frame t w l r, S.Matches σ frame t w →
      Carries S.layout σ.module frame l (.int n) → Carries S.layout σ.module frame r (.int k) →
      Implements S (emit (true, l, r)) (pure (some u)) σ frame t w (Gives S))
    (hfloat : ∀ x y u, op (.float x) (.float y) = some u → ∀ σ frame t w l r,
      S.Matches σ frame t w → Carries S.layout σ.module frame l (.float x) →
      Carries S.layout σ.module frame r (.float y) →
      Implements S (emit (false, l, r)) (pure (some u)) σ frame t w (Gives S)) :
    Implements S (do
        xl
        let l ← getTmpVal
        xr
        let r ← getTmpVal
        let p ← promote l r
        emit p)
      (do
        let a ← value yl
        let b ← value yr
        return some (← defined (op a b))) σ frame t w (Gives S) := by
  have hcp : ∀ l r, Continues (promote l r >>= emit) := fun l r =>
    (continues_basics.promote l r).bind hce
  refine .operand hxl hcl (fun l => hcr.bind fun _ => continues_basics.getTmpVal.bind (hcp l))
    fun l a σ₁ frame₁ t₁ w₁ hrun _ hm₁ _ hla => ?_
  refine .operand (hxr σ₁ frame₁ t₁ w₁ hrun hm₁) hcr (hcp l)
    fun r b σ₂ frame₂ t₂ w₂ _ hw₂ hm₂ hl₂ hrb => ?_
  replace hla := hla.later hw₂ hl₂ (.refl _)
  refine .defined fun u hu => ?_
  rcases hop a b u hu with ⟨n, k, rfl, rfl⟩ | ⟨x, y, hp, hu'⟩
  · exact .promote_ints hla hrb (hint n k u hu σ₂ frame₂ t₂ w₂ l r hm₂ hla hrb)
  · refine (promote_floats hm₂ hla hrb hp).before (continues_basics.promote l r) hce
      fun p σ₃ frame₃ t₃ w₃ _ _ hm₃ _ hq => ?_
    obtain ⟨isInt, l', r'⟩ := p
    obtain ⟨rfl, hl', hr', -⟩ := hq
    exact hfloat x y u hu' σ₃ frame₃ t₃ w₃ l' r' hm₃ hl' hr'

/-! ### The operators -/

variable {opId : OpID} {ty : Ty} {d : Datum}

/-- The instruction has the value `d`. -/
def Computes (ty : Ty) (d : Datum) (val : Value) (_ : Unit) (σ' : BuilderState) (frame' : Frame) :
    Prop :=
  HasType σ'.module val ty ∧ frame'.value val = some (.number d)

theorem create_ints (h : S.Matches σ frame t w) (hop : opId.isArithmetic)
    (hl : Carries S.layout σ.module frame l (.int n))
    (hr : Carries S.layout σ.module frame r (.int k))
    (hd : opId.eval S.ops [.int n, .int k] = some d) :
    Implements S (create opId ty [l, r]) (pure ()) σ frame t w (Computes ty d) := by
  have hwords : [l, r].mapM frame.value = some [.number (.int n), .number (.int k)] := by
    simp [hl.int.1, hr.int.1]
  exact (create_arithmetic _ _ d h hop hwords rfl hd).mono fun _ _ _ _ _ hq => ⟨hq.1, hq.2.1⟩

theorem create_floats (h : S.Matches σ frame t w) (hop : opId.isArithmetic)
    (hl : Carries S.layout σ.module frame l (.float x))
    (hr : Carries S.layout σ.module frame r (.float y))
    (hd : opId.eval S.ops [.float x, .float y] = some d) :
    Implements S (create opId ty [l, r]) (pure ()) σ frame t w (Computes ty d) := by
  have hwords : [l, r].mapM frame.value = some [.number (.float x), .number (.float y)] := by
    simp [hl.float.1, hr.float.1]
  exact (create_arithmetic _ _ d h hop hwords rfl hd).mono fun _ _ _ _ _ hq => ⟨hq.1, hq.2.1⟩

/-- The result of an operation goes to `tmp_val`. -/
theorem result {x : Builder Value} (hx : Implements S x (pure ()) σ frame t w (Computes ty d))
    (hcx : Continues x) (hu : Denotes S.layout u ty (.number d)) :
    Implements S (x >>= setTmpVal) (pure (some u)) σ frame t w (Gives S) := by
  refine hx.before hcx (fun _ => continues_basics.setTmpVal _)
    fun val σ' frame' t' w' _ _ hm _ hq => ?_
  refine .setTmpVal hm fun u' hu' => ?_
  cases hu'
  exact ⟨val, rfl, carries_of_type hq.1 hq.2 hu⟩

/-- A comparison, as an integer. -/
theorem zext_result {x : Builder Value} {b : Bool}
    (hx : Implements S x (pure ()) σ frame t w (Computes .int1 (.bool b))) (hcx : Continues x) :
    Implements S (x >>= fun cmp => createZext cmp .int32 >>= setTmpVal) (pure (some (ofBool b)))
      σ frame t w (Gives S) := by
  have hcz : ∀ cmp, Continues (createZext cmp .int32) := fun _ => continues_basics.create (by simp)
  refine hx.before hcx (fun cmp => (hcz cmp).bind fun _ => continues_basics.setTmpVal _)
    fun cmp σ' frame' t' w' _ _ hm _ hq => ?_
  have hwords : [cmp].mapM frame'.value = some [.number (.bool b)] := by simp [hq.2]
  have hz : Implements S (createZext cmp .int32) (pure ()) σ' frame' t' w'
      (Computes .int32 (.int (if b then 1 else 0))) :=
    (create_arithmetic _ [.bool b] _ hm rfl hwords rfl rfl).mono
      fun _ _ _ _ _ hq => ⟨hq.1, hq.2.1⟩
  exact result hz (hcz cmp) (.int _)

theorem createRelation_ints (op : RelOp) (hu : relation S.ops op (.int n) (.int k) = some u)
    (h : S.Matches σ frame t w) (hl : Carries S.layout σ.module frame l (.int n))
    (hr : Carries S.layout σ.module frame r (.int k)) :
    Implements S (createRelation op true l r >>= fun cmp => createZext cmp .int32 >>= setTmpVal)
      (pure (some u)) σ frame t w (Gives S) := by
  cases hu
  refine zext_result ?_ (continues_basics.createRelation _ _ _ _)
  have hop : createRelation op true l r = create (.cmp (comparison op)) .int1 [l, r] := by
    cases op <;> rfl
  rw [hop]
  exact create_ints h rfl hl hr rfl

/-- The emitted comparison agrees on numbers. -/
theorem evalFloat_of_compareFloats {ops : FloatOps} {op : CmpOp} {b : Bool}
    (h : compareFloats ops op x y = some b) :
    op.evalFloat ops (.float x) (.float y) = some (.bool b) := by
  unfold compareFloats at h
  split at h
  · cases h
  · rename_i hnan
    cases h
    simp only [CmpOp.evalFloat, Bool.eq_false_iff.mpr hnan, Bool.false_or]

theorem createRelation_floats (op : RelOp)
    (hu : relation S.ops op (.float x) (.float y) = some u) (h : S.Matches σ frame t w)
    (hl : Carries S.layout σ.module frame l (.float x))
    (hr : Carries S.layout σ.module frame r (.float y)) :
    Implements S (createRelation op false l r >>= fun cmp => createZext cmp .int32 >>= setTmpVal)
      (pure (some u)) σ frame t w (Gives S) := by
  obtain ⟨b, hb, rfl⟩ := Option.map_eq_some_iff.mp hu
  refine zext_result ?_ (continues_basics.createRelation _ _ _ _)
  have hop : createRelation op false l r = create (.fcmp (comparison op)) .int1 [l, r] := by
    cases op <;> rfl
  rw [hop]
  exact create_floats h rfl hl hr (evalFloat_of_compareFloats hb)

theorem createAdditive_ints (op : AddOp) (hu : additive S.ops op (.int n) (.int k) = some u)
    (h : S.Matches σ frame t w) (hl : Carries S.layout σ.module frame l (.int n))
    (hr : Carries S.layout σ.module frame r (.int k)) :
    Implements S (createAdditive op true l r >>= setTmpVal) (pure (some u)) σ frame t w
      (Gives S) := by
  cases op with
  | plus =>
    cases hu
    exact result (create_ints h rfl hl hr rfl) (continues_basics.createAdditive _ _ _ _) (.int _)
  | minus =>
    cases hu
    exact result (create_ints h rfl hl hr rfl) (continues_basics.createAdditive _ _ _ _) (.int _)

theorem createAdditive_floats (op : AddOp)
    (hu : additive S.ops op (.float x) (.float y) = some u) (h : S.Matches σ frame t w)
    (hl : Carries S.layout σ.module frame l (.float x))
    (hr : Carries S.layout σ.module frame r (.float y)) :
    Implements S (createAdditive op false l r >>= setTmpVal) (pure (some u)) σ frame t w
      (Gives S) := by
  cases op with
  | plus =>
    cases hu
    exact result (create_floats h rfl hl hr rfl) (continues_basics.createAdditive _ _ _ _)
      (.float _)
  | minus =>
    cases hu
    exact result (create_floats h rfl hl hr rfl) (continues_basics.createAdditive _ _ _ _)
      (.float _)

theorem createMultiplicative_ints (op : MulOp)
    (hu : multiplicative S.ops op (.int n) (.int k) = some u)
    (h : S.Matches σ frame t w) (hl : Carries S.layout σ.module frame l (.int n))
    (hr : Carries S.layout σ.module frame r (.int k)) :
    Implements S (createMultiplicative op true l r >>= setTmpVal) (pure (some u)) σ frame t w
      (Gives S) := by
  cases op with
  | mul =>
    cases hu
    exact result (create_ints h rfl hl hr rfl) (continues_basics.createMultiplicative _ _ _ _)
      (.int _)
  | div =>
    simp only [multiplicative, arithmetic, Option.ite_none_left_eq_some, Option.some.injEq] at hu
    obtain ⟨hdef, rfl⟩ := hu
    exact result (create_ints h rfl hl hr (if_neg hdef))
      (continues_basics.createMultiplicative _ _ _ _) (.int _)

theorem createMultiplicative_floats (op : MulOp)
    (hu : multiplicative S.ops op (.float x) (.float y) = some u) (h : S.Matches σ frame t w)
    (hl : Carries S.layout σ.module frame l (.float x))
    (hr : Carries S.layout σ.module frame r (.float y)) :
    Implements S (createMultiplicative op false l r >>= setTmpVal) (pure (some u)) σ frame t w
      (Gives S) := by
  cases op with
  | mul =>
    cases hu
    exact result (create_floats h rfl hl hr rfl) (continues_basics.createMultiplicative _ _ _ _)
      (.float _)
  | div =>
    cases hu
    exact result (create_floats h rfl hl hr rfl) (continues_basics.createMultiplicative _ _ _ _)
      (.float _)

/-! ### Conversions -/

/-- What a conversion that the source does not write yields. -/
theorem convertStored_implements {ety : CminusType} (h : S.Matches σ frame t w)
    (hc : Carries S.layout σ.module frame val u) (hety : ety ≠ .void)
    (hv : u.convert S.ops ety = some v) :
    Implements S (convertStored (some ety.ty) val) (pure ()) σ frame t w (Yields S σ v) := by
  refine .getType ?_
  cases u with
  | int n =>
    cases ety with
    | int =>
      cases hv
      rw [hc.int.2, if_neg (by simp [CminusType.ty])]
      exact .pure h ⟨hc, rfl⟩
    | float =>
      cases hv
      rw [hc.int.2, if_pos (by simp [CminusType.ty]), if_pos rfl]
      exact createSitofp_implements h hc
    | void => exact absurd rfl hety
  | float x =>
    cases ety with
    | int =>
      obtain ⟨n, hn, rfl⟩ := Option.map_eq_some_iff.mp hv
      rw [hc.float.2, if_pos (by simp [CminusType.ty]), if_neg (by simp)]
      exact createFptosi_implements h hc hn
    | float =>
      cases hv
      rw [hc.float.2, if_neg (by simp [CminusType.ty])]
      exact .pure h ⟨hc, rfl⟩
    | void => exact absurd rfl hety
  | array => cases ety <;> cases hv

theorem type_of_convert {ety : CminusType} (hv : u.convert S.ops ety = some v)
    (hc : Carries S.layout σ.module frame val v) : σ.module.getType val = ety.ty := by
  cases v with
  | int n =>
    rw [hc.int.2]
    cases ety <;> cases u <;> simp [Val.convert] at hv <;> rfl
  | float x =>
    rw [hc.float.2]
    cases ety <;> cases u <;> simp [Val.convert] at hv <;> rfl
  | array => cases ety <;> cases u <;> simp [Val.convert] at hv

theorem toIndex_implements (h : S.Matches σ frame t w)
    (hc : Carries S.layout σ.module frame val u) (hn : u.index S.ops = some n) :
    Implements S (toIndex val) (pure ()) σ frame t w (Yields S σ (.int n)) := by
  refine .getType ?_
  cases u with
  | int k =>
    cases hn
    rw [hc.int.2, if_neg (by simp [Ty.isFloat])]
    exact .pure h ⟨hc, rfl⟩
  | float x =>
    rw [hc.float.2, if_pos (by rfl)]
    exact createFptosi_implements h hc hn
  | array => cases hn

theorem convertReturned_implements {ret : CminusType} (h : S.Matches σ frame t w)
    (hc : Carries S.layout σ.module frame val u) (hv : u.convert S.ops ret = some v) :
    Implements S (convertReturned ret.ty val) (pure ()) σ frame t w (Yields S σ v) := by
  refine .getType ?_
  cases u with
  | int n =>
    cases ret with
    | int =>
      cases hv
      rw [hc.int.2, if_neg (by simp [CminusType.ty])]
      exact .pure h ⟨hc, rfl⟩
    | float =>
      cases hv
      rw [hc.int.2, if_pos (by simp [CminusType.ty]), if_neg (by simp [CminusType.ty, Ty.isInteger])]
      exact createSitofp_implements h hc
    | void => cases hv
  | float x =>
    cases ret with
    | int =>
      obtain ⟨n, hn, rfl⟩ := Option.map_eq_some_iff.mp hv
      rw [hc.float.2, if_pos (by simp [CminusType.ty]), if_pos (by rfl)]
      exact createFptosi_implements h hc hn
    | float =>
      cases hv
      rw [hc.float.2, if_neg (by simp [CminusType.ty])]
      exact .pure h ⟨hc, rfl⟩
    | void => cases hv
  | array => cases ret <;> cases hv

/-- The branch on a condition. -/
theorem createCondition_implements {b : Bool} (h : S.Matches σ frame t w)
    (hc : Carries S.layout σ.module frame val u) (hb : u.truth S.ops = some b) :
    Implements S (createCondition val) (pure ()) σ frame t w (Computes .int1 (.bool b)) := by
  refine .getType ?_
  cases u with
  | int n =>
    cases hb
    rw [hc.int.2, if_pos (by rfl)]
    exact create_ints h rfl hc (carries_of_type (hasType_constInt 0) rfl (.int 0)) rfl
  | float x =>
    rw [hc.float.2, if_neg (by simp [Ty.isInteger])]
    exact create_floats h rfl hc (carries_of_type (hasType_constFP 0) rfl (.float 0))
      (evalFloat_of_compareFloats hb)
  | array => cases hb

end Source

end Cminusf
