import Cminusf.Builder.TypedExpressions
import Cminusf.Source.Operators

/-! Loads, stores and the addresses of elements. -/

namespace Cminusf

namespace Source

open Machine Builder CminusfBuilder

/-- The value is the address of the element `k` of the variable at `l`, which is a `ty`. -/
structure Locates (μ : Layout) (m : Module) (frame : Frame) (ptr : Value) (ty : Ty) (l k : Nat) :
    Prop where
  type : HasType m ptr (.pointer ty)
  value : ∃ o, μ l = some (o, ty) ∧ frame.value ptr = some (.pointer ⟨o, k⟩)

variable {S : Setting} {σ σ' : BuilderState} {frame frame' : Frame} {t t' : Store} {w w' : World}
  {m m' : Module} {μ μ' : Layout} {ptr val var : Value} {ty elementTy : Ty} {l k len : Nat}
  {u v : Val} {ety : CminusType} {b : Binding} {o : Object}

theorem Locates.later (h : Locates μ m frame ptr ty l k) (hw : Within m m')
    (hl : Later m.numInstrs frame frame') (hle : μ.Le μ') : Locates μ' m' frame' ptr ty l k where
  type := h.type.widen hw.widens
  value := by
    obtain ⟨o, ho, hv⟩ := h.value
    exact ⟨o, hle _ _ ho, (hl.value h.type.present).trans hv⟩

theorem createLoad_implements (h : S.Matches σ frame t w)
    (hp : Locates S.layout σ.module frame ptr ty l k) :
    Implements S (createLoad ptr) (read l k) σ frame t w fun val v σ' frame' =>
      Carries S.layout σ'.module frame' val v ∧ Only σ σ' := by
  obtain ⟨o, ho, hv⟩ := hp.value
  refine .getType ?_
  rw [hp.type.type]
  show Implements S (create .load ty [ptr]) (read l k) σ frame t w _
  cases hc : ((t.cells l)[k]?).join with
  | none =>
    intro r _ _
    have hread : read l k t = (.error .undefined, t) := by
      rw [read, hc]
    rw [hread]
    exact trivial
  | some v =>
    have hread : read l k t = (.ok v, t) := by
      rw [read, hc]
    obtain ⟨x, hx, hden⟩ := h.mirrors.read ho (h.made l o ty ho) (Option.join_eq_some_iff.mp hc)
    have hact : ∀ i, S.target.instrs i = ⟨.load, ty, [ptr], frame.block⟩ →
        Machine.action S.ops S.target S.callers.length frame w i = some (.yields (some x) w) := by
      intro i hi
      rw [action_of_computes (by simp [hi, IsSpecial]), hi]
      simp [hv, compute, hx]
    refine (create_implements h rfl hact h.mirrors (.refl _ _) hread).mono ?_
    intro val v' σ' frame' _ hq
    obtain ⟨rfl, hty, hval, honly⟩ := hq
    exact ⟨carries_of_type hty hval hden, honly⟩

theorem createStore_implements (h : S.Matches σ frame t w) (hety : ety ≠ .void)
    (hp : Locates S.layout σ.module frame ptr ety.ty l k)
    (hv : Carries S.layout σ.module frame val v) (hty : σ.module.getType val = ety.ty) :
    Implements S (createStore val ptr) (write l k v) σ frame t w fun _ _ σ' _ => Only σ σ' := by
  obtain ⟨o, ho, hval⟩ := hp.value
  obtain ⟨x, -, hx, hden⟩ := hv
  rw [hty] at hden
  by_cases hk : k < (t.cells l).length
  · obtain ⟨w', hw', hm'⟩ := h.mirrors.write ho (h.made l o _ ho) hk hden
    have hwrite : write l k v t = (.ok (),
        { t with cells := Function.update t.cells l ((t.cells l).set k (some v)) }) := if_pos hk
    have hact : ∀ i, S.target.instrs i = ⟨.store, .void, [val, ptr], frame.block⟩ →
        Machine.action S.ops S.target S.callers.length frame w i = some (.yields none w') := by
      intro i hi
      rw [action_of_computes (by simp [hi, IsSpecial]), hi]
      simp [hx, hval, compute, hw']
    refine (create_implements h rfl hact hm' ⟨le_rfl, fun l' o' ty' hl' => ?_⟩ hwrite).mono
      fun _ _ _ _ _ hq => hq.2.2.2
    have hne : l' ≠ l := by
      intro he
      rw [he, ho] at hl'
      cases ety <;> simp [CminusType.ty] at hl'
    exact Function.update_of_ne hne _ _
  · intro r _ _
    have hwrite : write l k v t = (.error .undefined, t) := if_neg hk
    rw [hwrite]
    exact trivial

/-! ### Addresses -/

theorem createGep_implements {idxs : List Value} {words : List Word} {ns : List Int} {n : Int}
    {a : Address} {pointee : Ty} (h : S.Matches σ frame t w)
    (hp : HasType σ.module ptr (.pointer pointee)) (hv : frame.value ptr = some (.pointer a))
    (hel : getElementType (.pointer pointee) idxs = some elementTy)
    (hwords : idxs.mapM frame.value = some words) (hns : words.mapM Word.index = some ns)
    (hn : offset pointee ns = some n) :
    Implements S (createGep ptr idxs) (pure ()) σ frame t w fun val _ σ' frame' =>
      HasType σ'.module val (.pointer elementTy) ∧
        frame'.value val = some (.pointer ⟨a.object, a.offset + n⟩) ∧ Only σ σ' := by
  refine .within (continues_basics.createGep _ _) fun hM => .getType ?_
  rw [hp.type, hel]
  have hty : S.target.getType ptr = .pointer pointee := by
    rw [getType_widen hp.present hM.widens, hp.type]
  have hact : ∀ i, S.target.instrs i = ⟨.getelementptr elementTy, .pointer elementTy, ptr :: idxs,
      frame.block⟩ → Machine.action S.ops S.target S.callers.length frame w i =
        some (.yields (some (.pointer ⟨a.object, a.offset + n⟩)) w) := by
    intro i hi
    have hall : (ptr :: idxs).mapM frame.value = some (.pointer a :: words) := by
      simp [hv, hwords]
    rw [action_of_computes (by simp [hi, IsSpecial]), hi, hall]
    simp [compute, hty, Ty.pointerElementType, hns, hn]
  exact (create_implements h rfl hact h.mirrors (.refl _ _)
    (rfl : (pure () : Eval Unit) t = (.ok (), t))).mono
    fun _ _ _ _ _ hq => hq.2

/-- The index that is checked to be no negative number. -/
theorem index_toInt {n : BitVec 32} (hn : n.slt 0 = false) : n.toInt = (n.toNat : Int) := by
  have h0 : ¬ n.toInt < 0 := by simpa [BitVec.slt] using hn
  rw [BitVec.toInt_eq_toNat_cond] at h0 ⊢
  split at h0 <;> omega

theorem words_ty (ety : CminusType) : ety.ty.words = 1 := by
  cases ety <;> rfl

theorem getElementType_pointer {ety : CminusType} (hety : ety ≠ .void) (idxs : List Value) :
    getElementType (.pointer ety.ty) idxs = some ety.ty := by
  cases ety with
  | int => rfl
  | float => rfl
  | void => exact absurd rfl hety

/-- The address of an element behind a pointer to the first one. -/
theorem createGep_pointer {n : BitVec 32} (h : S.Matches σ frame t w) (hety : ety ≠ .void)
    (hp : HasType σ.module ptr (.pointer ety.ty)) (hv : frame.value ptr = some (.pointer ⟨o, 0⟩))
    (ho : S.layout l = some (o, ety.ty)) (hc : Carries S.layout σ.module frame val (.int n))
    (hn : n.slt 0 = false) :
    Implements S (createGep ptr [val]) (pure ()) σ frame t w fun p _ σ' frame' =>
      Locates S.layout σ'.module frame' p ety.ty l n.toNat ∧ Only σ σ' := by
  have hoff : offset ety.ty [n.toInt] = some (n.toNat : Int) := by
    simp [offset, innerOffset, words_ty, index_toInt hn]
  have hwords : [val].mapM frame.value = some [.number (.int n)] := by simp [hc.int.1]
  refine (createGep_implements h hp hv (getElementType_pointer hety _) hwords rfl hoff).mono fun p _ σ' frame' _ hq => ⟨⟨hq.1, o, ho, ?_⟩, hq.2.2⟩
  rw [hq.2.1, Int.zero_add]

/-- The address of an element of an array variable. -/
theorem createGep_array {n : BitVec 32} (h : S.Matches σ frame t w)
    (hp : HasType σ.module ptr (.pointer (.array ety.ty len)))
    (hv : frame.value ptr = some (.pointer ⟨o, 0⟩)) (ho : S.layout l = some (o, ety.ty))
    (hc : Carries S.layout σ.module frame val (.int n)) (hn : n.slt 0 = false) :
    Implements S (createGep ptr [.constInt 0, val]) (pure ()) σ frame t w fun p _ σ' frame' =>
      Locates S.layout σ'.module frame' p ety.ty l n.toNat ∧ Only σ σ' := by
  have hoff : offset (.array ety.ty len) [0, n.toInt] = some (n.toNat : Int) := by
    simp [offset, innerOffset, words_ty, index_toInt hn]
  have hwords : [.constInt 0, val].mapM frame.value =
      some [.number (.int 0), .number (.int n)] := by
    simp only [List.mapM_cons, List.mapM_nil, hc.int.1]
    rfl
  refine (createGep_implements h hp hv (getElementType_array _ _ _) hwords rfl hoff).mono
    fun p _ σ' frame' _ hq => ⟨⟨hq.1, o, ho, ?_⟩, hq.2.2⟩
  rw [hq.2.1, Int.zero_add]

/-- The address of an element of what a name is bound to. -/
theorem createElementPtr_implements {n : BitVec 32} (h : S.Matches σ frame t w)
    (hb : Bound S.layout σ.module frame b var) (hty : HasType σ.module var (.pointer elementTy))
    (hc : Carries S.layout σ.module frame val (.int n)) (hn : n.slt 0 = false) :
    Implements S (createElementPtr var elementTy val) (element (some b) n.toNat) σ frame t w
      fun p place σ' frame' => place.1 ≠ .void ∧
        Locates S.layout σ'.module frame' p place.1.ty place.2.1 place.2.2 ∧ Only σ σ' := by
  cases hb with
  | scalar => exact .undefined
  | function => exact .undefined
  | @array ety l len o _ hety ho hvar hv =>
    obtain rfl : elementTy = .array ety.ty len := by
      have he := hty.type.symm.trans hvar.type
      cases he
      rfl
    exact (createGep_array h hvar hv ho hc hn).giving fun p σ' frame' hq => ⟨hety, hq.1, hq.2⟩
  | @arrayParam ety l o _ hety ho hvar hv =>
    obtain rfl : elementTy = .pointer ety.ty := by
      have he := hty.type.symm.trans hvar.type
      cases he
      rfl
    have hp : Locates S.layout σ.module frame var (.pointer ety.ty) l 0 := ⟨hvar, o, ho, hv⟩
    refine (createLoad_implements h hp).bind (continues_basics.createLoad _)
      (fun _ => continues_basics.createGep _ _) fun p v σ₁ frame₁ t₁ w₁ _ hw₁ hm₁ hl₁ hq => ?_
    cases v with
    | int => exact .undefined
    | float => exact .undefined
    | array ety' l' =>
      obtain ⟨o', hety', ho', hv', hp'⟩ := hq.1.array
      refine (createGep_pointer hm₁ hety' hp' hv' ho' (hc.later hw₁ hl₁ (.refl _)) hn).giving
        fun p' σ' frame' hq' => ⟨hety', hq'.1, ?_⟩
      show σ' = { σ with module := σ'.module }
      rw [hq'.2, hq.2]

end Source

end Cminusf
