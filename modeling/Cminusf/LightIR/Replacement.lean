import Cminusf.LightIR.UseGraph

/-! The loop of `replace_use_with_when` erases from the use list that it walks. What it changes is
said once for the whole graph. -/

namespace Cminusf

namespace UseGraph

variable {V : Type} [DecidableEq V]

def setUseList (g : UseGraph V) (v : V) (uses : List (V × Nat)) : UseGraph V :=
  { g with useList := Function.update g.useList v uses }

/-- The loop of `Value::replace_use_with_when`, with the iterator at position `k`. -/
def replaceFrom (v new : V) (pred : V → Bool) : Nat → Nat → UseGraph V → Exec (UseGraph V)
  | 0, _, _ => throw .outOfFuel
  | fuel + 1, k, g =>
    match (g.useList v)[k]? with
    | none => return g
    | some use =>
      if pred use.1 then do
        let g ← g.setOperand use.1 use.2 new
        replaceFrom v new pred fuel k (g.setUseList v ((g.useList v).eraseIdx k))
      else replaceFrom v new pred fuel (k + 1) g

/-- An operand of `u` after the replacement. -/
def replacedOperand (g : UseGraph V) (v new : V) (pred : V → Bool) (u : V) (op : Option V) :
    Option V :=
  if g.inModule u && pred u && op == some v then some new else op

/-- The graph in which the users that satisfy `pred` use `new` in the place of `v`. -/
def replaced (g : UseGraph V) (v new : V) (pred : V → Bool) : UseGraph V where
  inModule := g.inModule
  operands u := (g.operands u).map (g.replacedOperand v new pred u)
  useList w :=
    if w = v then (g.useList v).filter fun use => !pred use.1
    else if w = new then g.useList new ++ (g.useList v).filter fun use => pred use.1
    else g.useList w

variable {g g' : UseGraph V} {u v w new : V} {i k fuel : Nat} {pred : V → Bool}
  {uses kept : List (V × Nat)}

@[simp] theorem useList_setUseList : (g.setUseList v uses).useList v = uses := by
  simp [setUseList]

@[simp] theorem setUseList_setUseList :
    (g.setUseList v uses).setUseList v kept = g.setUseList v kept := by
  simp [setUseList]

theorem setUseList_self (h : g.useList v = uses) : g.setUseList v uses = g := by
  rw [setUseList, ← h, Function.update_eq_self]

theorem useList_setOperand_of_ne (hne : new ≠ v) (h : g.setOperand u i new = .ok g') :
    g'.useList v = g.useList v := by
  obtain ⟨-, h⟩ := Exec.ite_throw_eq_ok.mp h
  cases h
  exact Function.update_of_ne hne.symm _ _

theorem setOperand_setUseList (hne : new ≠ v) (h : g.setOperand u i new = .ok g') :
    (g.setUseList v uses).setOperand u i new = .ok (g'.setUseList v uses) := by
  obtain ⟨hlt, h⟩ := Exec.ite_throw_eq_ok.mp h
  cases h
  have hlt' : i < ((g.setUseList v uses).operands u).length := hlt
  rw [setOperand, if_pos hlt']
  refine congrArg Except.ok (UseGraph.ext rfl rfl ?_)
  simp [addUse, setUseList, setOperands, hne, Function.update_comm hne]

theorem setUses_setUseList (hne : new ≠ v) (h : setUses new uses g = .ok g') :
    setUses new uses (g.setUseList v kept) = .ok (g'.setUseList v kept) := by
  induction uses generalizing g with
  | nil =>
    cases h
    rfl
  | cons use uses ih =>
    rw [setUses, List.foldlM_cons] at h ⊢
    obtain ⟨g₁, hset, h⟩ := Exec.bind_eq_ok.mp h
    rw [setOperand_setUseList hne hset]
    exact ih h

/-- With the indices in range every operand of the loop is set. -/
theorem setUses_returns (huses : ∀ use ∈ uses, use.2 < (g.operands use.1).length) :
    ∃ g', setUses new uses g = .ok g' := by
  induction uses generalizing g with
  | nil => exact ⟨g, rfl⟩
  | cons use uses ih =>
    obtain ⟨huse, huses⟩ := List.forall_mem_cons.mp huses
    have hset : g.setOperand use.1 use.2 new = .ok
        ((g.setOperands use.1 ((g.operands use.1).set use.2 (some new))).addUse new use.1 use.2) :=
      if_pos huse
    obtain ⟨-, -, hlen, -⟩ := setOperand_spec hset
    rw [setUses, List.foldlM_cons, hset]
    apply ih
    intro use' huse'
    rw [hlen]
    exact huses use' huse'

/-- What the list of `new` gains, in order. -/
theorem useList_setUses (h : setUses new uses g = .ok g') :
    g'.useList = Function.update g.useList new (g.useList new ++ uses) := by
  induction uses generalizing g with
  | nil =>
    cases h
    simp
  | cons use uses ih =>
    rw [setUses, List.foldlM_cons] at h
    obtain ⟨g₁, hset, h⟩ := Exec.bind_eq_ok.mp h
    obtain ⟨-, hset⟩ := Exec.ite_throw_eq_ok.mp hset
    cases hset
    rw [ih h]
    simp [addUse]

/-- The walk keeps the uses before the iterator, and those after it that `pred` refuses. -/
theorem replaceFrom_eq {rest : List (V × Nat)} (hne : new ≠ v)
    (hlist : g.useList v = kept ++ rest) (hk : kept.length = k) (hfuel : rest.length < fuel)
    (h : setUses new (rest.filter fun use => pred use.1) g = .ok g') :
    replaceFrom v new pred fuel k g =
      .ok (g'.setUseList v (kept ++ rest.filter fun use => !pred use.1)) := by
  induction rest generalizing g g' kept k fuel with
  | nil =>
    obtain ⟨fuel, rfl⟩ := Nat.exists_eq_succ_of_ne_zero (Nat.ne_of_gt hfuel)
    have hend : (g.useList v)[k]? = none := by simp [hlist, hk]
    simp only [replaceFrom, hend, List.filter_nil]
    cases h
    rw [setUseList_self hlist]
    rfl
  | cons use rest ih =>
    obtain ⟨fuel, rfl⟩ := Nat.exists_eq_succ_of_ne_zero (Nat.ne_zero_of_lt hfuel)
    have hfuel' : rest.length < fuel := by
      rw [List.length_cons] at hfuel
      omega
    have huse : (g.useList v)[k]? = some use := by simp [hlist, ← hk]
    simp only [replaceFrom, huse]
    by_cases hp : pred use.1
    · rw [List.filter_cons_of_pos (by exact hp), setUses, List.foldlM_cons] at h
      obtain ⟨g₁, hset, h⟩ := Exec.bind_eq_ok.mp h
      have herase : (g₁.useList v).eraseIdx k = kept ++ rest := by
        rw [useList_setOperand_of_ne hne hset, hlist, ← hk, List.eraseIdx_append_of_length_le
          (Nat.le_refl _), Nat.sub_self, List.eraseIdx_cons_zero]
      rw [if_pos hp, hset]
      show replaceFrom v new pred fuel k (g₁.setUseList v ((g₁.useList v).eraseIdx k)) = _
      rw [herase, ih useList_setUseList hk hfuel' (setUses_setUseList hne h),
        setUseList_setUseList]
      simp [hp]
    · rw [List.filter_cons_of_neg (by simpa using hp)] at h
      have hnext : g.useList v = (kept ++ [use]) ++ rest := by simp [hlist]
      rw [if_neg hp, ih hnext (by simp [hk]) hfuel' h]
      simp [hp]

theorem mem_useList (hg : g.Consistent) :
    (u, i) ∈ g.useList v ↔ g.inModule u ∧ (g.operands u)[i]? = some (some v) := by
  rw [← List.count_pos_iff, hg]
  split <;> simp_all

/-- The part of the use list that `pred` selects. -/
theorem mem_filter_useList (hg : g.Consistent) :
    (u, i) ∈ (g.useList v).filter (fun use => pred use.1) ↔
      (g.inModule u ∧ (g.operands u)[i]? = some (some v)) ∧ pred u := by
  rw [List.mem_filter, mem_useList hg]

theorem exists_setUses (hg : g.Consistent) :
    ∃ g', setUses new ((g.useList v).filter fun use => pred use.1) g = .ok g' := by
  apply setUses_returns
  rintro ⟨u, i⟩ huse
  exact (List.getElem?_eq_some_iff.mp ((mem_filter_useList hg).mp huse).1.2).1

theorem getElem?_operands_replaced : ((g.replaced v new pred).operands u)[i]? =
    if (g.inModule u ∧ (g.operands u)[i]? = some (some v)) ∧ pred u then some (some new)
    else (g.operands u)[i]? := by
  rw [replaced, List.getElem?_map]
  cases hop : (g.operands u)[i]? with
  | none => simp
  | some op =>
    rw [Option.map_some, replacedOperand]
    by_cases hall : g.inModule u ∧ pred u ∧ op = some v
    · obtain ⟨hu, hp, rfl⟩ := hall
      simp [hu, hp]
    · rw [if_neg (by simpa [and_assoc] using hall), if_neg]
      rintro ⟨⟨hu, he⟩, hp⟩
      exact hall ⟨hu, hp, Option.some.inj he⟩

theorem replaceUseWithWhen_eq_replaced (hg : g.Consistent) (hne : new ≠ v) :
    g.replaceUseWithWhen v new pred = .ok (g.replaced v new pred) := by
  obtain ⟨g', hset⟩ := exists_setUses hg
  obtain ⟨hmod, -, hops, -⟩ := setUses_spec hset
  rw [replaceUseWithWhen, hset]
  refine congrArg Except.ok (UseGraph.ext hmod ?_ ?_)
  · funext u
    apply List.ext_getElem?
    intro i
    rw [getElem?_operands_replaced]
    simp only [hops, mem_filter_useList hg]
  · funext w
    simp only [useList_setUses hset, replaced]
    by_cases hwv : w = v
    · simp [hwv]
    · by_cases hwn : w = new
      · subst hwn
        simp [hwv]
      · simp [hwv, hwn]

theorem replaceFrom_eq_replaced (hg : g.Consistent) (hne : new ≠ v)
    (hfuel : (g.useList v).length < fuel) :
    replaceFrom v new pred fuel 0 g = .ok (g.replaced v new pred) := by
  obtain ⟨g', hset⟩ := exists_setUses hg
  rw [replaceFrom_eq hne (List.nil_append _).symm List.length_nil hfuel hset,
    ← replaceUseWithWhen_eq_replaced hg hne, replaceUseWithWhen, hset, List.nil_append]
  rfl

/-- On a graph whose use lists mirror its operands the loop returns; it sets the operands that are
`v` of the users that satisfy `pred` and no other operand, and the uses move from the list of `v` to
that of `new`. -/
theorem replaceFrom_exact (hg : g.Consistent) (hne : new ≠ v) :
    ∃ g' : UseGraph V, (∀ fuel, (g.useList v).length < fuel → replaceFrom v new pred fuel 0 g = .ok g') ∧
      g'.inModule = g.inModule ∧
      (∀ u, (g'.operands u).length = (g.operands u).length ∧
        ∀ i : Nat, (g'.operands u)[i]? =
          if (g.inModule u ∧ (g.operands u)[i]? = some (some v)) ∧ pred u then some (some new)
          else (g.operands u)[i]?) ∧
      g'.useList v = (g.useList v).filter (fun use => !pred use.1) ∧
      g'.useList new = g.useList new ++ (g.useList v).filter (fun use => pred use.1) ∧
      (∀ w, w ≠ v → w ≠ new → g'.useList w = g.useList w) ∧
      g'.Consistent ∧
      ((∀ u, pred u) → g.replaceAllUseWith v new = .ok g') := by
  have hrun : g.replaceUseWithWhen v new pred = .ok (g.replaced v new pred) :=
    replaceUseWithWhen_eq_replaced hg hne
  refine ⟨g.replaced v new pred, fun fuel hfuel => replaceFrom_eq_replaced hg hne hfuel, rfl,
    fun u => ⟨List.length_map _, fun i => getElem?_operands_replaced⟩, if_pos rfl, ?_, ?_,
    UseCall.replaceUseWithWhen_consistent hg hne hrun, ?_⟩
  · simp [replaced, hne]
  · intro w hwv hwn
    simp [replaced, hwv, hwn]
  · intro hall
    obtain rfl : pred = fun _ => true := funext hall
    rw [UseCall.replaceAllUseWith_eq, hrun]

theorem replaceFrom_exact_addGraph : ∃ g' : UseGraph Value,
    replaceFrom (.argument 0 0) (.constInt 3) (fun u => u.isUser) 2 0 Module.addGraph = .ok g' ∧
      g'.useList (.argument 0 0) = [] ∧
      g'.operands (.instruction 0) = [some (.constInt 3), some (.argument 0 1)] := by
  have huses : Module.addGraph.useList (.argument 0 0) = [(.instruction 0, 0)] := rfl
  have hne : Value.constInt 3 ≠ .argument 0 0 := by decide
  obtain ⟨g', hrun, -, -, huse, -⟩ := replaceFrom_exact Module.consistent_addGraph hne
  refine ⟨g', hrun 2 (by rw [huses]; decide), by rw [huse, huses]; rfl, ?_⟩
  have he := hrun 2 (by rw [huses]; decide)
  cases he
  rfl

end UseGraph

end Cminusf
