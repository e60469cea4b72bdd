import Cminusf.Builder.Ledger

/-! The expression visitors: they leave the insert point in an open block and the value
of the expression in `tmp_val`. -/

namespace Cminusf

namespace Builder

/-- What a part of a visitor that starts at an open block yields. -/
def Yields {α : Type} (x : Builder α) (σ : BuilderState) (s : Site)
    (Q : α → BuilderState → Site → Prop) : Prop :=
  ∀ r, x σ = some r → ∃ s', Ran σ s r.2 s' ∧ Pays s s' ∧ s'.Open ∧ Q r.1 r.2 s'

section

variable {α β : Type} {σ : BuilderState} {s : Site} {x : Builder α} {v w : Value}

theorem Ran.refl (hp : Placed σ s) : Ran σ s σ s := ⟨.refl s, hp, rfl, id, rfl⟩

theorem Yields.bind {f : α → Builder β} {Q : α → BuilderState → Site → Prop}
    {R : β → BuilderState → Site → Prop} (hx : Yields x σ s Q)
    (hf : ∀ a σ' s', Ran σ s σ' s' → s'.Open → Q a σ' s' → Yields (f a) σ' s' R) :
    Yields (x >>= f) σ s R := by
  intro r h
  obtain ⟨a, σ', h1, h2⟩ := bind_some h
  obtain ⟨s', hr, hpay, ho, hq⟩ := hx _ h1
  obtain ⟨s'', hr', hpay', ho', hq'⟩ := hf a σ' s' hr ho hq r h2
  exact ⟨s'', hr.trans hr', hpay.trans hpay', ho', hq'⟩

theorem Yields.imp {Q R : α → BuilderState → Site → Prop} (hx : Yields x σ s Q)
    (h : ∀ a σ' s', Ran σ s σ' s' → Q a σ' s' → R a σ' s') : Yields x σ s R := by
  intro r hr
  obtain ⟨s', hran, hpay, ho, hq⟩ := hx r hr
  exact ⟨s', hran, hpay, ho, h _ _ _ hran hq⟩

theorem Yields.pure (hp : Placed σ s) (ho : s.Open) {Q : α → BuilderState → Site → Prop} {a : α}
    (hq : Q a σ s) : Yields (pure a) σ s Q := by
  rintro r h
  cases h
  exact ⟨s, .refl hp, .refl s, ho, hq⟩

theorem Yields.failure {Q : α → BuilderState → Site → Prop} :
    Yields (failure : Builder α) σ s Q := by
  rintro r h
  cases h

/-- Reading the state. -/
theorem Yields.read {f : α → Builder β} {R : β → BuilderState → Site → Prop}
    (hx : ∀ r, x σ = some r → r.2 = σ) (hf : ∀ a, x σ = some (a, σ) → Yields (f a) σ s R) :
    Yields (x >>= f) σ s R := by
  intro r h
  obtain ⟨a, σ', h1, h2⟩ := bind_some h
  obtain rfl : σ' = σ := hx _ h1
  exact hf a h1 r h2

theorem getTmpVal_read : ∀ r, getTmpVal σ = some r → r.2 = σ := by
  intro r h
  obtain ⟨v, -, rfl⟩ := Option.map_eq_some_iff.mp h
  rfl

theorem getTmpVal_eq (h : getTmpVal σ = some (v, σ)) : σ.tmpVal = some v := by
  obtain ⟨w, hw, he⟩ := Option.map_eq_some_iff.mp h
  cases he
  exact hw

theorem Placed.setTmpVal (hp : Placed σ s) (v : Option Value) : Placed { σ with tmpVal := v } s :=
  ⟨hp.1, hp.2, hp.3, hp.4, hp.5, hp.6, hp.7⟩

theorem Placed.setRequireLvalue (hp : Placed σ s) (b : Bool) :
    Placed { σ with requireLvalue := b } s :=
  ⟨hp.1, hp.2, hp.3, hp.4, hp.5, hp.6, hp.7⟩

theorem Yields.setTmpVal (hp : Placed σ s) (ho : s.Open) {Q : Unit → BuilderState → Site → Prop}
    (hq : Q () { σ with tmpVal := some v } s) : Yields (setTmpVal v) σ s Q := by
  rintro r h
  cases h
  exact ⟨s, ⟨.refl s, hp.setTmpVal _, rfl, id, rfl⟩, .refl s, ho, hq⟩

/-- The value just computed. -/
def IsVal (v : Value) (_ : BuilderState) (s : Site) : Prop := s.ValueAt v

/-- `tmp_val` holds a value. -/
def HasVal (_ : Unit) (σ : BuilderState) (s : Site) : Prop := ∃ v, σ.tmpVal = some v ∧ s.ValueAt v

theorem getType_bind {f : Ty → Builder β} {R : β → BuilderState → Site → Prop} (hp : Placed σ s)
    (hf : Yields (f (s.module.getType v)) σ s R) : Yields (getType v >>= f) σ s R := by
  refine Yields.read ?_ fun a ha => ?_
  · rintro r h
    cases h
    rfl
  · cases ha
    rwa [hp.module_eq]

theorem newValueAt (s : Site) {opId : OpID} {ty : Ty} {ops : List Value}
    (hop : yieldsValue opId) :
    (s.emit opId ty ops).ValueAt (.instruction s.module.numInstrs) := by
  have hem := emitted s.module s.bb opId ty ops
  refine ⟨?_, ?_, ?_⟩
  · exact lt_of_lt_of_eq (Nat.lt_succ_self _) hem.numInstrs.symm
  · rw [s.emit_instrs]
    exact .refl _ _
  · rw [s.emit_instrs]
    exact hop

theorem create_yields {opId : OpID} {ty : Ty} {ops : List Value} (hp : Placed σ s) (ho : s.Open)
    (he : Emits s.module s.origin s.module.numInstrs s.bb opId ty ops)
    (hop : yieldsValue opId) :
    Yields (create opId ty ops) σ s IsVal := by
  intro r h
  have hend : opId ≠ .br ∧ opId ≠ .ret := by
    constructor <;> rintro rfl <;> cases hop
  obtain ⟨h1, h2, _⟩ := create_spec hp ho he hend.1 h
  refine ⟨_, h2, he.pays hp.inv hend.1, s.open_emit hend, ?_⟩
  rw [h1]
  exact newValueAt s hop

theorem create_discard {opId : OpID} {ty : Ty} {ops : List Value} {Q : Unit → BuilderState → Site → Prop}
    (hp : Placed σ s) (ho : s.Open)
    (he : Emits s.module s.origin s.module.numInstrs s.bb opId ty ops)
    (hop : opId ≠ .br ∧ opId ≠ .ret)
    (hq : ∀ σ' s', Ran σ s σ' s' → σ'.tmpVal = σ.tmpVal → Q () σ' s') :
    Yields (discard (create opId ty ops)) σ s Q := by
  intro r h
  obtain ⟨a, h1⟩ := discard_some h
  obtain ⟨h1, h2, h3⟩ := create_spec hp ho he hop.1 h1
  exact ⟨_, h2, he.pays hp.inv hop.1, s.open_emit hop, hq _ _ h2 h3⟩

end

end Builder

namespace CminusfBuilder

open Builder

variable {σ : BuilderState} {s : Site} {l r v w : Value}

theorem promote_yields (hp : Placed σ s) (ho : s.Open) (hl : s.ValueAt l) (hr : s.ValueAt r) :
    Yields (promote l r) σ s fun a _ s' => s'.ValueAt a.2.1 ∧ s'.ValueAt a.2.2 := by
  refine getType_bind hp (getType_bind hp ?_)
  split
  · exact Yields.pure hp ho ⟨hl, hr⟩
  · split
    · refine Yields.bind (create_yields hp ho (.sitofp hl) rfl) fun a σ' s' h ho' ha => ?_
      exact Yields.pure h.placed ho' ⟨ha, h.valueAt hp hr⟩
    · refine Yields.bind (create_yields hp ho (.sitofp hr) rfl) fun a σ' s' h ho' ha => ?_
      exact Yields.pure h.placed ho' ⟨h.valueAt hp hl, ha⟩

theorem createRelation_yields (hp : Placed σ s) (ho : s.Open) (hl : s.ValueAt l) (hr : s.ValueAt r)
    (op : RelOp) (isInt : Bool) : Yields (createRelation op isInt l r) σ s IsVal := by
  cases isInt
  · exact create_yields hp ho (.fcmp hl hr) rfl
  · exact create_yields hp ho (.cmp hl hr) rfl

theorem createAdditive_yields (hp : Placed σ s) (ho : s.Open) (hl : s.ValueAt l) (hr : s.ValueAt r)
    (op : AddOp) (isInt : Bool) : Yields (createAdditive op isInt l r) σ s IsVal := by
  cases op <;> cases isInt <;> exact create_yields hp ho (.binary hl hr) rfl

theorem createMultiplicative_yields (hp : Placed σ s) (ho : s.Open) (hl : s.ValueAt l)
    (hr : s.ValueAt r) (op : MulOp) (isInt : Bool) :
    Yields (createMultiplicative op isInt l r) σ s IsVal := by
  cases op <;> cases isInt <;> exact create_yields hp ho (.binary hl hr) rfl

theorem mem_of_find {sc : Scope} {name : String} (h : sc.find name = some v) :
    ∃ l ∈ sc.inner, (name, v) ∈ l := by
  obtain ⟨l, hl, hv⟩ := List.exists_of_findSome?_eq_some h
  refine ⟨l, hl, ?_⟩
  clear h hl
  induction l with
  | nil => cases hv
  | cons p l ih =>
    obtain ⟨n, w⟩ := p
    rw [List.lookup_cons] at hv
    split at hv
    · rename_i he
      rw [beq_iff_eq] at he
      cases hv
      rw [he]
      exact List.mem_cons_self
    · exact List.mem_cons_of_mem _ (ih hv)

theorem nameAt_of_find (hp : Placed σ s) {name : String} (h : σ.scope.find name = some v) :
    NameAt s v := by
  obtain ⟨l, hl, hmem⟩ := mem_of_find h
  exact hp.scope l hl _ hmem

/-- What the visit of a variable does first. -/
theorem enterVar_flag {id : String} {r : (Value × Ty × Bool) × BuilderState}
    (h : enterVar id σ = some r) :
    r.1.2.2 = σ.requireLvalue ∧ r.2 = { σ with requireLvalue := false } := by
  unfold enterVar at h
  obtain ⟨_, _, hget, h⟩ := bind_some h
  cases hget
  cases hvar : σ.scope.find id with
  | none =>
    rw [hvar] at h
    cases h
  | some var =>
    rw [hvar] at h
    obtain ⟨_, _, hget, h⟩ := bind_some h
    cases hget
    cases hty : (σ.module.getType var).pointerElementType with
    | none =>
      rw [hty] at h
      cases h
    | some elementTy =>
      rw [hty] at h
      cases h
      exact ⟨rfl, rfl⟩

theorem enterVar_spec (hp : Placed σ s) {id : String} {r : (Value × Ty × Bool) × BuilderState}
    (h : enterVar id σ = some r) : r.2 = { σ with requireLvalue := false } ∧
      r.1.2.2 = σ.requireLvalue ∧ s.AddressAt r.1.1 ∧ s.module.getType r.1.1 = .pointer r.1.2.1 := by
  unfold enterVar at h
  obtain ⟨_, _, hget, h⟩ := bind_some h
  cases hget
  cases hvar : σ.scope.find id with
  | none =>
    rw [hvar] at h
    cases h
  | some var =>
    rw [hvar] at h
    obtain ⟨_, _, hget, h⟩ := bind_some h
    cases hget
    cases hty : (σ.module.getType var).pointerElementType with
    | none =>
      rw [hty] at h
      cases h
    | some elementTy =>
      rw [hty] at h
      cases h
      have hname := nameAt_of_find hp hvar
      rw [hp.module_eq] at hty
      have hptr : s.module.getType var = .pointer elementTy := by
        cases ht : s.module.getType var <;> rw [ht] at hty <;> cases hty
        rfl
      refine ⟨rfl, rfl, ?_, hptr⟩
      cases var with
      | instruction j => exact ⟨hname.1, hname.2.1, .inl hname.2.2⟩
      | globalVariable g => exact hname
      | function f => cases hptr
      | _ => exact hname.elim

theorem createLoad_yields (hp : Placed σ s) (ho : s.Open) (hv : s.AddressAt v) :
    Yields (createLoad v) σ s IsVal := by
  refine getType_bind hp ?_
  split
  · rename_i ty hty
    exact create_yields hp ho (.load hv hty) rfl
  · exact .failure

theorem createGep_yields (hp : Placed σ s) (ho : s.Open) {idxs : List Value}
    (hv : s.AddressAt v ∨ s.ValueAt v) (hi : ∀ idx ∈ idxs, s.ValueAt idx) :
    Yields (createGep v idxs) σ s fun a _ s' => s'.ValueAt a ∧ s'.AddressAt a := by
  refine getType_bind hp ?_
  split
  · rename_i elementTy _
    have he : Emits s.module s.origin s.module.numInstrs s.bb (.getelementptr elementTy)
        (.pointer elementTy) (v :: idxs) := .gep hv hi
    intro r h
    obtain ⟨h1, h2, _⟩ := create_spec hp ho he (by simp) h
    refine ⟨_, h2, he.pays hp.inv (by simp), s.open_emit (by simp), ?_⟩
    rw [h1]
    have hval : (s.emit (.getelementptr elementTy) (.pointer elementTy) (v :: idxs)).ValueAt
        (.instruction s.module.numInstrs) := newValueAt s rfl
    refine ⟨hval, hval.1, hval.2.1, .inr ?_⟩
    rw [s.emit_instrs]
    rfl
  · exact .failure

/-- `tmp_val` after a variable: its address or its value. -/
def HasVar (lval : Bool) (_ : Unit) (σ : BuilderState) (s : Site) : Prop :=
  σ.requireLvalue = false ∧ ∃ v, σ.tmpVal = some v ∧ if lval then s.AddressAt v else s.ValueAt v

theorem setTmpVal_var {lval : Bool} (hp : Placed σ s) (ho : s.Open) (hr : σ.requireLvalue = false)
    (hv : if lval then s.AddressAt v else s.ValueAt v) :
    Yields (setTmpVal v) σ s (HasVar lval) :=
  Yields.setTmpVal hp ho ⟨hr, v, rfl, hv⟩

theorem setTmpVal_address (hp : Placed σ s) (ho : s.Open) (hv : s.AddressAt v) :
    Yields (do setTmpVal v; setRequireLvalue false) σ s (HasVar true) := by
  rintro r h
  cases h
  exact ⟨s, ⟨.refl s, ⟨hp.1, hp.2, hp.3, hp.4, hp.5, hp.6, hp.7⟩, rfl, fun _ => rfl, rfl⟩,
    .refl s, ho, rfl, v, rfl, hv⟩

theorem visitScalar_yields (hp : Placed σ s) (ho : s.Open) (hr : σ.requireLvalue = false)
    (hv : s.AddressAt v) (elementTy : Ty) (lval : Bool) :
    Yields (visitScalar v elementTy lval) σ s (HasVar lval) := by
  cases lval with
  | true => exact setTmpVal_address hp ho hv
  | false =>
    simp only [visitScalar, Bool.false_eq_true, if_false]
    split
    · refine (createLoad_yields hp ho hv).bind fun a σ' s' h ho' ha => ?_
      exact setTmpVal_var h.placed ho' (h.requireLvalue hr) ha
    · refine (createGep_yields hp ho (.inl hv) (by simp [Site.ValueAt, ValueAt])).bind
        fun a σ' s' h ho' ha => ?_
      exact setTmpVal_var h.placed ho' (h.requireLvalue hr) ha.1

theorem createRet_emits (val : Value) (hv : s.ValueAt val) :
    Emits s.module s.origin s.module.numInstrs s.bb .ret .void [val] := .ret hv

theorem createIcmp_emits (op : CmpOp) (hv : s.ValueAt v) (val : Value) (hw : s.ValueAt val) :
    Emits s.module s.origin s.module.numInstrs s.bb (.cmp op) .int1 [v, val] := .cmp hv hw

theorem createRet_spec {ops : List Value} (hp : Placed σ s) (ho : s.Open)
    (he : Emits s.module s.origin s.module.numInstrs s.bb .ret .void ops)
    {r : Value × BuilderState} (h : create .ret .void ops σ = some r) :
    ∃ s', Ran σ s r.2 s' ∧ s'.bb = s.bb ∧ Pays s s' ∧ s'.Closed :=
  ⟨_, (create_spec hp ho he (by simp) h).2.1, rfl, he.pays hp.inv (by simp), closed_emit (.inr rfl)⟩

theorem createDefaultRet_spec (hp : Placed σ s) (ho : s.Open) {r : Value × BuilderState}
    (h : createDefaultRet σ = some r) :
    ∃ s', Ran σ s r.2 s' ∧ s'.bb = s.bb ∧ Pays s s' ∧ s'.Closed := by
  obtain ⟨f, σ', h1, h⟩ := bind_some h
  obtain ⟨f', hf', he⟩ := Option.map_eq_some_iff.mp h1
  cases he
  obtain ⟨m, σ'', h2, h⟩ := bind_some h
  cases h2
  dsimp only at h
  split at h
  · exact createRet_spec hp ho .retVoid h
  · split at h
    · exact createRet_spec hp ho (createRet_emits (.constFP 0) trivial) h
    · exact createRet_spec hp ho (createRet_emits (.constInt 0) trivial) h

theorem createCall_yields (hp : Placed σ s) (ho : s.Open) {args : List Value} (hf : NameAt s v)
    (ha : ∀ a ∈ args, s.ValueAt a) : Yields (createCall v args) σ s IsVal := by
  refine Yields.read (by rintro r h; cases h; rfl) fun m hm => ?_
  cases hm
  cases v with
  | function f =>
    dsimp only
    rw [hp.module_eq]
    split
    · rename_i hlen
      exact create_yields hp ho (.call hf hlen ha) rfl
    · exact .failure
  | _ => exact .failure

/-- A part that yields a value in the block it starts in. -/
def IsLocal (s : Site) (v : Value) (_ : BuilderState) (s' : Site) : Prop :=
  s'.ValueAt v ∧ s'.bb = s.bb

theorem create_local {opId : OpID} {ty : Ty} {ops : List Value} (hp : Placed σ s) (ho : s.Open)
    (he : Emits s.module s.origin s.module.numInstrs s.bb opId ty ops)
    (hop : yieldsValue opId) :
    Yields (create opId ty ops) σ s (IsLocal s) := by
  intro r h
  have hend : opId ≠ .br ∧ opId ≠ .ret := by
    constructor <;> rintro rfl <;> cases hop
  obtain ⟨h1, h2, _⟩ := create_spec hp ho he hend.1 h
  refine ⟨_, h2, he.pays hp.inv hend.1, s.open_emit hend, ?_, rfl⟩
  rw [h1]
  exact newValueAt s hop

theorem toIndex_yields (hp : Placed σ s) (ho : s.Open) (hv : s.ValueAt v) :
    Yields (toIndex v) σ s (IsLocal s) := by
  refine getType_bind hp ?_
  split
  · exact create_local hp ho (.fptosi hv) rfl
  · exact Yields.pure hp ho ⟨hv, rfl⟩

theorem convertStored_yields (hp : Placed σ s) (ho : s.Open) (hv : s.ValueAt v) (ty : Option Ty) :
    Yields (convertStored ty v) σ s IsVal := by
  refine getType_bind hp ?_
  split
  · split
    · exact create_yields hp ho (.sitofp hv) rfl
    · exact create_yields hp ho (.fptosi hv) rfl
  · exact Yields.pure hp ho hv

theorem createElementPtr_yields (hp : Placed σ s) (ho : s.Open) (hv : s.AddressAt v)
    (hw : s.ValueAt w) (elementTy : Ty) :
    Yields (createElementPtr v elementTy w) σ s fun a _ s' => s'.ValueAt a ∧ s'.AddressAt a := by
  unfold createElementPtr
  split
  · exact createGep_yields hp ho (.inl hv) (by simp [hw])
  · split
    · refine (createLoad_yields hp ho hv).bind fun a σ' s' h ho' ha => ?_
      exact createGep_yields h.placed ho' (.inr ha) (by simp [h.valueAt hp hw])
    · exact createGep_yields hp ho (.inl hv) (List.forall_mem_cons.mpr ⟨trivial, by simp [hw]⟩)

theorem createNegIdxExcept_spec (hp : Placed σ s) (ho : s.Open) {r : Unit × BuilderState}
    (h : createNegIdxExcept σ = some r) :
    ∃ s', Ran σ s r.2 s' ∧ s'.bb = s.bb ∧ Pays s s' ∧ s'.Closed := by
  obtain ⟨σ', σ'', h1, h⟩ := bind_some h
  cases h1
  cases hf : σ.scope.find "neg_idx_except" with
  | none =>
    rw [hf] at h
    cases h
  | some f =>
    rw [hf] at h
    obtain ⟨_, σ1, hcall, hret⟩ := bind_some h
    clear h
    obtain ⟨_, h1⟩ := discard_some hcall
    obtain ⟨_, h⟩ := discard_some hret
    clear hcall hret
    obtain ⟨m, σ2, hm, h1⟩ := bind_some h1
    cases hm
    cases f with
    | function f =>
      dsimp only at h1
      rw [hp.module_eq] at h1
      split at h1
      · rename_i hlen
        have he : Emits s.module s.origin s.module.numInstrs s.bb .call
            (s.module.functions f).returnType [.function f] :=
          .call (nameAt_of_find hp hf) hlen (by simp)
        obtain ⟨_, h2, _⟩ := create_spec hp ho he (by simp) h1
        obtain ⟨s', h3, hb, hpay, hc⟩ :=
          createDefaultRet_spec h2.placed (Site.open_emit _ (by simp)) h
        exact ⟨s', h2.trans h3, hb, (he.pays hp.inv (by simp)).trans hpay, hc⟩
      · cases h1
    | _ => cases h1

/-- The element at an index that has been checked. -/
theorem element_yields {i : Value} (hp : Placed σ s) (ho : s.Open) (hr : σ.requireLvalue = false)
    (hv : s.AddressAt v) (hi : s.ValueAt i) (elementTy : Ty) (lval : Bool) :
    Yields (do
      let tmpPtr ← createElementPtr v elementTy i
      if lval then
        setTmpVal tmpPtr
        setRequireLvalue false
      else
        setTmpVal (← createLoad tmpPtr)) σ s (HasVar lval) := by
  refine (createElementPtr_yields hp ho hv hi elementTy).bind fun a σ' s' h ho' ha => ?_
  split
  · rename_i hl
    rw [hl]
    exact setTmpVal_address h.placed ho' ha.2
  · rename_i hl
    refine (createLoad_yields h.placed ho' ha.2).bind fun b σ'' s'' h' ho'' hb => ?_
    exact setTmpVal_var h'.placed ho'' (h'.requireLvalue (h.requireLvalue hr)) (by rwa [if_neg hl])

/-- The branch to two new blocks pays for both. -/
theorem owes_newBlocks {s' : Site} {c : Value} {e d : Nat} {todo : List Nat} {room : Nat → Nat}
    (howe : Owes s todo room) (he : e = s.module.numBlocks) (hd : d = s.module.numBlocks + 1)
    (hi : Inv s'.module s'.origin) (hc : s'.ValueAt c)
    (h : Owes s' (d :: e :: todo) (Function.update (Function.update room e 2) d 2)) :
    Owes (s'.emit .br .void [c, .basicBlock e, .basicBlock d]) (e :: d :: todo) room := by
  have hne : e ≠ d := by omega
  have hfresh := howe.fresh
  have h' : Owes (s'.emit .br .void [c, .basicBlock e, .basicBlock d]) (d :: e :: todo) room := by
    refine h.branch hi (labels_condBr hc) hne ?_ ?_ ?_
    · have := hfresh e (by omega)
      simp [hne, this]
    · have := hfresh d (by omega)
      simp [this]
    · intro x
      have := hfresh x
      simp only [Function.update_apply]
      split_ifs <;> omega
  exact h'.weaken (by simp) fun _ => le_rfl

/-- The check of a subscript: the insert point ends in `contBB`. -/
theorem visitSubscript_yields (hp : Placed σ s) (ho : s.Open) (hr : σ.requireLvalue = false)
    (hv : s.AddressAt v) (hw : ∃ w, σ.tmpVal = some w ∧ s.ValueAt w) (elementTy : Ty)
    (lval : Bool) : Yields (visitSubscript v elementTy lval) σ s (HasVar lval) := by
  obtain ⟨w, hw, hwv⟩ := hw
  refine Yields.read getTmpVal_read fun val hval => ?_
  obtain rfl : w = val := Option.some.inj (hw.symm.trans (getTmpVal_eq hval))
  intro r h
  obtain ⟨e, σ1, h1, h⟩ := bind_some h
  obtain ⟨he, hran1, hfe1, ho1, -⟩ := createBasicBlock_spec hp h1
  obtain ⟨c, σ2, h2, h⟩ := bind_some h
  obtain ⟨hc, hran2, hfc2, ho2, -⟩ := createBasicBlock_spec hran1.placed h2
  dsimp only at he hc hran1 hran2 hfe1 hfc2
  have hlt := hp.bb_lt
  have hec : e < c := by
    rw [he, hc]
    exact Nat.lt_succ_self _
  have hran := hran1.trans hran2
  obtain ⟨i, σ3, h3, h⟩ := bind_some h
  obtain ⟨s3, hran3, hpay3, ho3, hi, hbb3⟩ := toIndex_yields hran.placed (ho2 (ho1 ho))
    (hran.valueAt hp hwv) _ h3
  obtain ⟨isNeg, σ4, h4, h⟩ := bind_some h
  obtain ⟨s4, hran4, hpay4, ho4, hn, hbb4⟩ := create_local hran3.placed ho3
    (createIcmp_emits .lt hi (.constInt 0) trivial) rfl _ h4
  -- Both blocks are untouched until here.
  have hne : ∀ {b} {x : Site}, s.module.numBlocks ≤ b → x.bb = s.bb → b ≠ x.bb := by
    intro b x hb hx
    rw [hx]
    omega
  have hbb3' : s3.bb = s.bb := hbb3
  have hbb4' : s4.bb = s.bb := hbb4.trans hbb3
  have hes : s.module.numBlocks ≤ e := he.ge
  have hcs : s.module.numBlocks ≤ c := by omega
  have hfe := hran4.run.fresh (hne hes hbb3') (hran3.run.fresh (hne hes rfl)
    (hran2.run.fresh (hne hes rfl) hfe1))
  have hfc := hran4.run.fresh (hne hcs hbb3') (hran3.run.fresh (hne hcs rfl) hfc2)
  have hran' := (hran.trans hran3).trans hran4
  have hanc : ∀ {x : Site}, x.bb = s.bb → Graph.Ancestor x.origin s.bb x.bb := by
    intro x hx
    rw [hx]
    exact .refl _ _
  obtain ⟨_, σ5, h5, h⟩ := bind_some h
  obtain ⟨_, h5⟩ := discard_some h5
  have hran5 := createCondBr_spec hran4.placed ho4 hn (hfe.targetAt (hanc hbb4'))
    (hfc.targetAt (hanc hbb4')) hec.ne h5
  have hfe5 := hran5.run.fresh (hne hes hbb4') hfe
  have hfc5 := hran5.run.fresh (hne hcs hbb4') hfc
  -- The two new blocks are still to be done after the branch to them.
  have hc5 : (s4.emit .br .void [isNeg, .basicBlock e, .basicBlock c]).Closed :=
    closed_emit (.inl rfl)
  have hpay5 : ∀ todo room, Owes s todo room →
      Owes (s4.emit .br .void [isNeg, .basicBlock e, .basicBlock c]) (e :: c :: todo) room := by
    intro todo room howe
    have h4 := hpay4 _ _ (hpay3 _ _ ((howe.addBlock "").addBlock ""))
    rw [← he, ← hc] at h4
    exact owes_newBlocks howe he hc hran4.placed.inv hn h4
  obtain ⟨_, σ6, h6, h⟩ := bind_some h
  cases h6
  obtain ⟨hran6, ho6⟩ := Ran.move hp (hran'.trans hran5) hfe5 hes (.refl _ _)
  obtain ⟨_, σ7, h7, h⟩ := bind_some h
  obtain ⟨s7, hran7, hbb7, hpay7, hc7⟩ := createNegIdxExcept_spec hran6.placed ho6 h7
  have hfc7 := hran7.run.fresh hec.ne' (Fresh.moved (c := e) hfc5)
  obtain ⟨_, σ8, h8, h⟩ := bind_some h
  cases h8
  obtain ⟨hran8, ho8⟩ := Ran.move hp (hran6.trans hran7) hfc7 hcs (.refl _ _)
  -- The element is addressed in the block where the index is not negative.
  have hi8 : Site.ValueAt { s7 with bb := c } i := by
    have hi' := (hran4.trans hran5).run.keeps.valueAt hran3.placed.inv hran3.placed.bb_lt le_rfl
      (hran4.trans hran5).run.keeps.numInstrs hi
    have hi'' := hran7.run.keeps.valueAt (b := s.bb) hran6.placed.inv
      (hlt.trans_le (hran'.trans hran5).run.keeps.numBlocks) le_rfl hran7.run.keeps.numInstrs
      (hbb3' ▸ hi')
    cases i with
    | instruction j => exact ⟨hi''.1, hi''.2.1.trans (.of_idom hfc7.origin), hi''.2.2⟩
    | _ => exact hi''
  have hv8 := hran8.addressAt hp hv
  have hr8 := hran8.requireLvalue hr
  obtain ⟨s', hr', hpay', ho', hq'⟩ := element_yields hran8.placed ho8 hr8
    hv8 hi8 elementTy lval r h
  refine ⟨s', hran8.trans hr', fun todo room howe => hpay' _ _ ?_, ho', hq'⟩
  have howe5 := hpay5 todo room howe
  have howe7 := hpay7 _ _ (howe5.move hc5)
  exact howe7.move hc7

theorem visitStore_yields (hp : Placed σ s) (ho : s.Open) (hv : s.ValueAt v)
    (hw : ∃ w, σ.tmpVal = some w ∧ s.AddressAt w) : Yields (visitStore v) σ s HasVal := by
  obtain ⟨w, hw, hwa⟩ := hw
  refine Yields.read getTmpVal_read fun val hval => ?_
  obtain rfl : w = val := Option.some.inj (hw.symm.trans (getTmpVal_eq hval))
  refine getType_bind hp ((convertStored_yields hp ho hv _).bind fun a σ' s' h ho' ha => ?_)
  refine (create_discard (Q := fun _ _ s' => s'.ValueAt a) h.placed ho'
    (.store ha (h.addressAt hp hwa)) (by simp) fun _ _ h' _ => h'.valueAt h.placed ha).bind
    fun _ σ'' s'' h' ho'' ha' => ?_
  exact Yields.setTmpVal h'.placed ho'' ⟨a, rfl, ha'⟩

theorem convertArg_yields (hp : Placed σ s) (ho : s.Open) (hv : ∃ v, σ.tmpVal = some v ∧ s.ValueAt v)
    (ty : Ty) : Yields (convertArg ty) σ s IsVal := by
  obtain ⟨w, hw, hwv⟩ := hv
  refine Yields.read getTmpVal_read fun val hval => ?_
  obtain rfl : w = val := Option.some.inj (hw.symm.trans (getTmpVal_eq hval))
  refine getType_bind hp ?_
  split
  · split
    · exact create_yields hp ho (.sitofp hwv) rfl
    · exact create_yields hp ho (.fptosi hwv) rfl
  · exact Yields.pure hp ho hwv

/-- What the visitor of an expression does. -/
def VisitsExpr (x : Builder Unit) : Prop :=
  ∀ σ s, Placed σ s → s.Open → σ.requireLvalue = false → Yields x σ s HasVal

/-- What the visitor of a variable does. -/
def VisitsVar (x : Builder Unit) : Prop :=
  ∀ σ s, Placed σ s → s.Open → ∀ b, σ.requireLvalue = b → Yields x σ s (HasVar b)

/-- What the argument loop does. -/
def VisitsArgs (x : Builder (List Value)) : Prop :=
  ∀ σ s, Placed σ s → s.Open → σ.requireLvalue = false →
    Yields x σ s fun vals _ s' => ∀ v ∈ vals, s'.ValueAt v

/-- Uses the value that a visitor has left in `tmp_val`. -/
theorem withVal {β : Type} {x : Builder Unit} {f : Value → Builder β}
    {R : β → BuilderState → Site → Prop} (hx : Yields x σ s HasVal)
    (hf : ∀ v σ' s', Ran σ s σ' s' → s'.Open → s'.ValueAt v → Yields (f v) σ' s' R) :
    Yields (do x; let v ← getTmpVal; f v) σ s R := by
  refine hx.bind fun _ σ' s' h ho' ⟨w, hw, hwv⟩ => Yields.read getTmpVal_read fun val hval => ?_
  obtain rfl : w = val := Option.some.inj (hw.symm.trans (getTmpVal_eq hval))
  exact hf w σ' s' h ho' hwv

mutual

theorem visitExpression_yields : ∀ e, VisitsExpr (visitExpression e)
  | .assign var expression => by
    intro σ s hp ho hr
    rw [visitExpression]
    refine withVal (visitExpression_yields expression σ s hp ho hr) fun v σ1 s1 h1 ho1 hv => ?_
    intro r h
    have hvar := visitVar_yields var { σ1 with requireLvalue := true } s1
      (h1.placed.setRequireLvalue true) ho1 true rfl
    obtain ⟨_, σ2, h2, h⟩ := bind_some h
    cases h2
    obtain ⟨_, σ3, h3, h⟩ := bind_some h
    obtain ⟨s3, hran3, hpay3, ho3, hr3, hw⟩ := hvar _ h3
    obtain ⟨s4, hran4, hpay4, ho4, hq⟩ := visitStore_yields hran3.placed ho3
      (hran3.valueAt (h1.placed.setRequireLvalue true) hv) (by simpa using hw) _ h
    refine ⟨s4, ?_, hpay3.trans hpay4, ho4, hq⟩
    have h34 := hran3.trans hran4
    exact ⟨h34.run, h34.placed, h34.scope, fun _ => hran4.requireLvalue hr3, h34.preEnterScope⟩
  | .simple l => visitAdditiveExpression_yields l
  | .relation l op r => by
    intro σ s hp ho hr
    rw [visitExpression]
    refine withVal (visitAdditiveExpression_yields l σ s hp ho hr) fun v σ1 s1 h1 ho1 hv => ?_
    refine withVal (visitAdditiveExpression_yields r σ1 s1 h1.placed ho1 (h1.requireLvalue hr))
      fun w σ2 s2 h2 ho2 hw => ?_
    refine (promote_yields h2.placed ho2 (h2.valueAt h1.placed hv) hw).bind
      fun a σ3 s3 h3 ho3 ha => ?_
    refine (createRelation_yields h3.placed ho3 ha.1 ha.2 op a.1).bind
      fun c σ4 s4 h4 ho4 hc => ?_
    refine (create_yields h4.placed ho4 (.zext hc) rfl).bind fun z σ5 s5 h5 ho5 hz => ?_
    exact Yields.setTmpVal h5.placed ho5 ⟨z, rfl, hz⟩

theorem visitAdditiveExpression_yields : ∀ e, VisitsExpr (visitAdditiveExpression e)
  | .ofTerm term => visitTerm_yields term
  | .additive l op r => by
    intro σ s hp ho hr
    rw [visitAdditiveExpression]
    refine withVal (visitAdditiveExpression_yields l σ s hp ho hr) fun v σ1 s1 h1 ho1 hv => ?_
    refine withVal (visitTerm_yields r σ1 s1 h1.placed ho1 (h1.requireLvalue hr))
      fun w σ2 s2 h2 ho2 hw => ?_
    refine (promote_yields h2.placed ho2 (h2.valueAt h1.placed hv) hw).bind
      fun a σ3 s3 h3 ho3 ha => ?_
    refine (createAdditive_yields h3.placed ho3 ha.1 ha.2 op a.1).bind
      fun z σ5 s5 h5 ho5 hz => ?_
    exact Yields.setTmpVal h5.placed ho5 ⟨z, rfl, hz⟩

theorem visitTerm_yields : ∀ e, VisitsExpr (visitTerm e)
  | .ofFactor factor => visitFactor_yields factor
  | .multiplicative l op r => by
    intro σ s hp ho hr
    rw [visitTerm]
    refine withVal (visitTerm_yields l σ s hp ho hr) fun v σ1 s1 h1 ho1 hv => ?_
    refine withVal (visitFactor_yields r σ1 s1 h1.placed ho1 (h1.requireLvalue hr))
      fun w σ2 s2 h2 ho2 hw => ?_
    refine (promote_yields h2.placed ho2 (h2.valueAt h1.placed hv) hw).bind
      fun a σ3 s3 h3 ho3 ha => ?_
    refine (createMultiplicative_yields h3.placed ho3 ha.1 ha.2 op a.1).bind
      fun z σ5 s5 h5 ho5 hz => ?_
    exact Yields.setTmpVal h5.placed ho5 ⟨z, rfl, hz⟩

theorem visitFactor_yields : ∀ e, VisitsExpr (visitFactor e)
  | .num (.int iVal) => fun _ _ hp ho _ => Yields.setTmpVal hp ho ⟨.constInt iVal, rfl, trivial⟩
  | .num (.float fVal) => fun _ _ hp ho _ => Yields.setTmpVal hp ho ⟨.constFP fVal, rfl, trivial⟩
  | .var var => by
    intro σ s hp ho hr
    refine (visitVar_yields var σ s hp ho false hr).imp fun _ _ _ _ h => ?_
    simpa [HasVal] using h.2
  | .call id args => by
    intro σ s hp ho hr
    rw [visitFactor]
    refine Yields.read (by rintro r h; cases h; rfl) fun σ0 hσ0 => ?_
    cases hσ0
    cases hf : σ.scope.find id with
    | none => exact .failure
    | some f =>
      cases f with
      | function f =>
        refine Yields.read (by rintro r h; cases h; rfl) fun m hm => ?_
        refine (visitArgs_yields args _ σ s hp ho hr).bind fun vals σ1 s1 h1 ho1 hv => ?_
        refine (createCall_yields h1.placed ho1 (v := .function f) ?_ hv).bind
          fun z σ2 s2 h2 ho2 hz => ?_
        · exact h1.run.nameAt hp.inv hp.bb_lt (nameAt_of_find hp hf)
        · exact Yields.setTmpVal h2.placed ho2 ⟨z, rfl, hz⟩
      | _ => exact .failure
  | .expression expression => visitExpression_yields expression

theorem visitVar_yields : ∀ e, VisitsVar (visitVar e)
  | .scalar id => by
    intro σ s hp ho b hb r h
    rw [visitVar] at h
    obtain ⟨⟨v, ty, lval⟩, σ1, h1, h⟩ := bind_some h
    obtain ⟨hσ, hl, hv, _⟩ := enterVar_spec hp h1
    dsimp only at hσ hl hv
    subst hσ
    obtain rfl : lval = b := hl.trans hb
    obtain ⟨s', hran, hpay, ho', hq⟩ :=
      visitScalar_yields (hp.setRequireLvalue false) ho rfl hv ty lval _ h
    exact ⟨s', ⟨hran.run, hran.placed, hran.scope, fun _ => hq.1, hran.preEnterScope⟩, hpay, ho',
      hq⟩
  | .subscript id expression => by
    intro σ s hp ho b hb r h
    rw [visitVar] at h
    obtain ⟨⟨v, ty, lval⟩, σ1, h1, h⟩ := bind_some h
    obtain ⟨hσ, hl, hv, _⟩ := enterVar_spec hp h1
    dsimp only at hσ hl hv
    subst hσ
    obtain rfl : lval = b := hl.trans hb
    have hp1 := hp.setRequireLvalue false
    obtain ⟨_, σ2, h2, h⟩ := bind_some h
    obtain ⟨s2, hran2, hpay2, ho2, hw⟩ := visitExpression_yields expression _ s hp1 ho rfl _ h2
    obtain ⟨s', hran, hpay, ho', hq⟩ := visitSubscript_yields hran2.placed ho2 (hran2.requireLvalue rfl)
      (hran2.addressAt hp1 hv) hw ty lval _ h
    have h12 := hran2.trans hran
    exact ⟨s', ⟨h12.run, h12.placed, h12.scope, fun _ => hq.1, h12.preEnterScope⟩,
      hpay2.trans hpay, ho', hq⟩

theorem visitArgs_yields : ∀ args tys, VisitsArgs (visitArgs args tys)
  | [], _ => fun _ _ hp ho _ => Yields.pure hp ho (by simp)
  | _ :: _, [] => fun _ _ _ _ _ => .failure
  | arg :: args, ty :: tys => by
    intro σ s hp ho hr
    rw [visitArgs]
    refine (visitExpression_yields arg σ s hp ho hr).bind fun _ σ1 s1 h1 ho1 hv => ?_
    refine (convertArg_yields h1.placed ho1 hv ty).bind fun v σ2 s2 h2 ho2 hv2 => ?_
    refine (Yields.setTmpVal (Q := fun _ _ s' => s'.ValueAt v) h2.placed ho2 hv2).bind
      fun _ σ3 s3 h3 ho3 hv3 => ?_
    refine (visitArgs_yields args tys σ3 s3 h3.placed ho3
      (h3.requireLvalue (h2.requireLvalue (h1.requireLvalue hr)))).bind
      fun vals σ4 s4 h4 ho4 hvals => ?_
    exact Yields.pure h4.placed ho4 (List.forall_mem_cons.mpr ⟨h4.valueAt h3.placed hv3, hvals⟩)

end

end CminusfBuilder

end Cminusf
