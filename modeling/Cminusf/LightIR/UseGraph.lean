import Cminusf.Exec
import Cminusf.LightIR.Rewrite
import Mathlib.Data.List.Count
import Mathlib.Data.Nat.Find

/-! The operands of users and the use lists of values, two records of the same edges. An operand
that a constructor has not set yet is null, and a user that has left the module is freed. -/

namespace Cminusf

@[ext]
structure UseGraph (V : Type) where
  inModule : V → Bool
  operands : V → List (Option V)
  useList : V → List (V × Nat)

namespace UseGraph

variable {V : Type} [DecidableEq V]

def setOperands (g : UseGraph V) (u : V) (ops : List (Option V)) : UseGraph V :=
  { g with operands := Function.update g.operands u ops }

/-- `Value::add_use`. -/
def addUse (g : UseGraph V) (v u : V) (argNo : Nat) : UseGraph V :=
  { g with useList := Function.update g.useList v (g.useList v ++ [(u, argNo)]) }

/-- `Value::remove_use`. -/
def removeUse (g : UseGraph V) (v u : V) : UseGraph V :=
  { g with useList := Function.update g.useList v ((g.useList v).filter (·.1 ≠ u)) }

/-- `User::set_operand`. -/
def setOperand (g : UseGraph V) (u : V) (i : Nat) (v : V) : Exec (UseGraph V) :=
  if i < (g.operands u).length then
    return (g.setOperands u ((g.operands u).set i (some v))).addUse v u i
  else throw .assertion

/-- `User::add_operand`. -/
def addOperand (g : UseGraph V) (u v : V) : UseGraph V :=
  (g.setOperands u (g.operands u ++ [some v])).addUse v u (g.operands u).length

/-- `op->remove_use(this)` for the operands of a range. -/
def removeUses (u : V) (ops : List (Option V)) (g : UseGraph V) : Exec (UseGraph V) :=
  ops.foldlM (fun g op => match op with
    | some v => return g.removeUse v u
    | none => throw .undefinedBehaviour) g

/-- `User::remove_operands`. -/
def removeOperands (g : UseGraph V) (u : V) (index1 index2 : Int) : Exec (UseGraph V) :=
  if 0 ≤ index1 ∧ index1 ≤ index2 + 1 ∧ index2 < (g.operands u).length then do
    let ops := g.operands u
    let g ← removeUses u ((ops.take (index2 + 1).toNat).drop index1.toNat) g
    return g.setOperands u (ops.take index1.toNat ++ ops.drop (index2 + 1).toNat)
  else throw .undefinedBehaviour

/-- `set_operand` on the users in a part of a use list. -/
def setUses (new : V) (uses : List (V × Nat)) (g : UseGraph V) : Exec (UseGraph V) :=
  uses.foldlM (fun g use => g.setOperand use.1 use.2 new) g

/-- `Value::replace_all_use_with`; `new` is another value. -/
def replaceAllUseWith (g : UseGraph V) (v new : V) : Exec (UseGraph V) := do
  let g' ← setUses new (g.useList v) g
  return { g' with useList := Function.update g'.useList v [] }

/-- `Value::replace_use_with_when`; `new` is another value. -/
def replaceUseWithWhen (g : UseGraph V) (v new : V) (pred : V → Bool) : Exec (UseGraph V) := do
  let g' ← setUses new ((g.useList v).filter fun use => pred use.1) g
  return { g' with
    useList := Function.update g'.useList v ((g.useList v).filter fun use => !pred use.1) }

/-- `BasicBlock::erase_instr`. -/
def eraseInstr (g : UseGraph V) (u : V) : Exec (UseGraph V) := do
  let g ← removeUses u (g.operands u) g
  return { g with inModule := Function.update g.inModule u false }

/-- Each operand of a user in the module is recorded once, and nothing else is recorded for it. -/
def Mirrors (g : UseGraph V) : Prop :=
  ∀ v u i, g.inModule u → (g.useList v).count (u, i) = if (g.operands u)[i]? = some (some v) then 1 else 0

/-- The use lists mirror the operands, and record no user that has left the module. -/
def Consistent (g : UseGraph V) : Prop :=
  ∀ v u i, (g.useList v).count (u, i) =
    if g.inModule u ∧ (g.operands u)[i]? = some (some v) then 1 else 0

omit [DecidableEq V] in
theorem Consistent.mirrors [DecidableEq V] {g : UseGraph V} (h : g.Consistent) : g.Mirrors := by
  intro v u i hu
  rw [h v u i]
  simp [hu]

section Counts

variable {g g' : UseGraph V} {u v w new : V} {i k : Nat} {x : V × Nat} {ops : List (Option V)}

@[simp] theorem inModule_setOperands : (g.setOperands u ops).inModule = g.inModule := rfl

@[simp] theorem useList_setOperands : (g.setOperands u ops).useList = g.useList := rfl

@[simp] theorem inModule_addUse : (g.addUse v u k).inModule = g.inModule := rfl

@[simp] theorem operands_addUse : (g.addUse v u k).operands = g.operands := rfl

theorem count_addUse : ((g.addUse v u k).useList w).count x =
    (g.useList w).count x + if w = v ∧ x = (u, k) then 1 else 0 := by
  by_cases hw : w = v
  · subst hw
    by_cases hx : x = (u, k)
    · simp [addUse, hx]
    · simp [addUse, hx, Ne.symm hx]
  · simp [addUse, hw]

theorem count_removeUse : ((g.removeUse v u).useList w).count x =
    if w = v ∧ x.1 = u then 0 else (g.useList w).count x := by
  by_cases hw : w = v
  · subst hw
    by_cases hx : x.1 = u
    · simp only [removeUse, Function.update_self, hx, and_self, if_true]
      exact List.count_eq_zero.mpr (by simp [hx])
    · simp [removeUse, hx, List.count_filter]
  · simp [removeUse, hw]

/-- What a loop over operands removes. -/
theorem removeUses_spec (h : removeUses u ops g = .ok g') : none ∉ ops ∧
    g'.inModule = g.inModule ∧ g'.operands = g.operands ∧ ∀ w x, (g'.useList w).count x =
      if x.1 = u ∧ some w ∈ ops then 0 else (g.useList w).count x := by
  induction ops generalizing g with
  | nil =>
    cases h
    simp
  | cons op ops ih =>
    rw [removeUses, List.foldlM_cons] at h
    obtain ⟨g₁, hop, h⟩ := Exec.bind_eq_ok.mp h
    cases op with
    | none => cases hop
    | some v =>
      cases hop
      obtain ⟨hno, hmod, hops, hcount⟩ := ih h
      refine ⟨by simp [hno], hmod, hops, fun w x => ?_⟩
      rw [hcount, count_removeUse]
      by_cases hx : x.1 = u
      · by_cases hw : w = v
        · simp [hx, hw]
        · simp [hx, hw]
      · simp [hx]

/-- What `set_operand` sets and records. -/
theorem setOperand_spec (h : g.setOperand u k v = .ok g') : k < (g.operands u).length ∧
    g'.inModule = g.inModule ∧ (∀ w, (g'.operands w).length = (g.operands w).length) ∧
      (∀ w i, (g'.operands w)[i]? = if (w, i) = (u, k) then some (some v) else (g.operands w)[i]?) ∧
      ∀ w x, (g'.useList w).count x =
        (g.useList w).count x + if w = v ∧ x = (u, k) then 1 else 0 := by
  unfold setOperand at h
  split at h
  · rename_i hlt
    cases h
    refine ⟨hlt, rfl, fun w => ?_, fun w i => ?_, fun w x => count_addUse⟩
    · by_cases hw : w = u
      · subst hw
        simp [setOperands]
      · simp [setOperands, hw]
    · by_cases hw : w = u
      · subst hw
        by_cases hi : i = k
        · subst hi
          simp [setOperands, hlt]
        · simp [setOperands, hi, Ne.symm hi]
      · simp [setOperands, hw]
  · cases h

/-- What a loop over a use list sets and records. -/
theorem setUses_spec {uses : List (V × Nat)} (h : setUses new uses g = .ok g') :
    g'.inModule = g.inModule ∧ (∀ use ∈ uses, use.2 < (g.operands use.1).length) ∧
      (∀ u i, (g'.operands u)[i]? = if (u, i) ∈ uses then some (some new) else (g.operands u)[i]?) ∧
      ∀ w x, (g'.useList w).count x =
        (g.useList w).count x + if w = new then uses.count x else 0 := by
  induction uses generalizing g with
  | nil =>
    cases h
    simp
  | cons use uses ih =>
    rw [setUses, List.foldlM_cons] at h
    obtain ⟨g₁, hset, h⟩ := Exec.bind_eq_ok.mp h
    obtain ⟨hlt, hmod₁, hlen₁, hops₁, hcount₁⟩ := setOperand_spec hset
    obtain ⟨hmod, hlen, hops, hcount⟩ := ih h
    refine ⟨hmod.trans hmod₁, fun use' huse => ?_, fun u i => ?_, fun w x => ?_⟩
    · rcases List.mem_cons.mp huse with rfl | huse
      · exact hlt
      · rw [← hlen₁]
        exact hlen use' huse
    · rw [hops, hops₁]
      by_cases hmem : (u, i) ∈ uses
      · simp [hmem]
      · simp only [hmem, if_false, List.mem_cons, or_false]
    · rw [hcount, hcount₁, List.count_cons]
      by_cases hw : w = new
      · by_cases hx : x = use
        · simp [hw, hx]
          omega
        · simp [hw, hx, Ne.symm hx]
      · simp [hw]

end Counts

end UseGraph

/-- The calls that change operands. -/
inductive UseCall (V : Type) where
  | setOperand (u : V) (i : Nat) (v : V)
  | addOperand (u v : V)
  | removeOperands (u : V) (index1 index2 : Int)
  | replaceAllUseWith (v new : V)
  | replaceUseWithWhen (v new : V) (pred : V → Bool)
  | eraseInstr (u : V)

namespace UseCall

open UseGraph

variable {V : Type} [DecidableEq V]

/-- A call on a user that has left the module is undefined. -/
def run (g : UseGraph V) : UseCall V → Exec (UseGraph V)
  | .setOperand u i v => if g.inModule u then g.setOperand u i v else throw .undefinedBehaviour
  | .addOperand u v => if g.inModule u then return g.addOperand u v else throw .undefinedBehaviour
  | .removeOperands u index1 index2 =>
    if g.inModule u then g.removeOperands u index1 index2 else throw .undefinedBehaviour
  | .replaceAllUseWith v new => g.replaceAllUseWith v new
  | .replaceUseWithWhen v new pred => g.replaceUseWithWhen v new pred
  | .eraseInstr u => if g.inModule u then g.eraseInstr u else throw .undefinedBehaviour

/-- A value is replaced by another one. -/
def Proper : UseCall V → Prop
  | .replaceAllUseWith v new | .replaceUseWithWhen v new _ => new ≠ v
  | _ => True

/-- `set_operand` finds a null operand, and `remove_operands` removes the last operands, none of
which is an operand before them too. -/
def KeepsUses (g : UseGraph V) : UseCall V → Prop
  | .setOperand u i _ => (g.operands u)[i]? = some none
  | .removeOperands u index1 index2 => index1 ≤ index2 →
      (∀ (j : Nat) (v : V), index2 < j → (g.operands u)[j]? ≠ some (some v)) ∧
        ∀ (i j : Nat) (v : V), i < index1 → index1 ≤ j → j ≤ index2 →
          (g.operands u)[i]? = some (some v) → (g.operands u)[j]? ≠ some (some v)
  | _ => True

variable {g g' : UseGraph V} {c : UseCall V} {u v new : V} {i : Nat} {index1 index2 : Int}

theorem setOperand_iff (hg : g.Consistent) (hu : g.inModule u) (h : g.setOperand u i v = .ok g') :
    ((g.operands u)[i]? = some none → g'.Consistent) ∧
      ((g.operands u)[i]? ≠ some none → ¬ g'.Mirrors) := by
  obtain ⟨hlt, hmod, -, hops, hcount⟩ := setOperand_spec h
  constructor
  · intro hnull w u' k
    rw [hcount, hg, hmod, hops]
    by_cases hk : (u', k) = (u, i)
    · cases hk
      by_cases hw : w = v
      · simp [hnull, hu, hw]
      · simp [hnull, hw, Ne.symm hw]
    · simp [hk]
  · intro hset hm
    obtain ⟨w, hw⟩ : ∃ w, (g.operands u)[i]? = some (some w) := by
      rw [List.getElem?_eq_getElem hlt] at hset ⊢
      cases hop : (g.operands u)[i] with
      | none => exact absurd (congrArg some hop) hset
      | some w => exact ⟨w, rfl⟩
    -- The old operand keeps its use.
    have hold := hm w u i (by rw [hmod]; exact hu)
    rw [hcount, hg, hops] at hold
    by_cases hwv : w = v
    · simp [hw, hu, hwv] at hold
    · simp [hw, hu, hwv, Ne.symm hwv] at hold

theorem addOperand_consistent (hg : g.Consistent) (hu : g.inModule u) :
    (g.addOperand u v).Consistent := by
  intro w u' k
  have hops : (g.addOperand u v).operands =
      Function.update g.operands u (g.operands u ++ [some v]) := rfl
  have hmod : (g.addOperand u v).inModule = g.inModule := rfl
  simp only [hops, hmod]
  rw [UseGraph.addOperand, count_addUse, useList_setOperands, hg]
  by_cases hu' : u' = u
  · subst hu'
    simp only [Function.update_self, List.getElem?_append]
    by_cases hk : k < (g.operands u').length
    · have hne : k ≠ (g.operands u').length := by omega
      simp [hk, hne]
    · by_cases hke : k = (g.operands u').length
      · by_cases hw : w = v
        · simp [hke, hw, hu]
        · simp [hke, hw, Ne.symm hw]
      · have hpos : k - (g.operands u').length ≠ 0 := by omega
        simp [hk, hke, hpos]
  · simp [hu']

/-- Uses of `v` that are set to `new` and taken from the list of `v`. -/
theorem replaceUseWithWhen_consistent {pred : V → Bool} (hg : g.Consistent) (hne : new ≠ v)
    (h : g.replaceUseWithWhen v new pred = .ok g') : g'.Consistent := by
  obtain ⟨g₁, hset, he⟩ := Exec.bind_eq_ok.mp h
  cases he
  obtain ⟨hmod, -, hops, hcount⟩ := setUses_spec hset
  intro w u k
  have hmem : (u, k) ∈ (g.useList v).filter (fun use => pred use.1) ↔
      (g.inModule u ∧ (g.operands u)[k]? = some (some v)) ∧ pred u := by
    rw [List.mem_filter, ← List.count_pos_iff, hg]
    split <;> simp_all
  have hcnt : ∀ q : V × Nat → Bool, ((g.useList v).filter q).count (u, k) =
      if q (u, k) ∧ g.inModule u ∧ (g.operands u)[k]? = some (some v) then 1 else 0 := by
    intro q
    by_cases hq : q (u, k)
    · rw [List.count_filter hq, hg]
      simp [hq]
    · rw [List.count_eq_zero.mpr (by simp [hq])]
      simp [hq]
  simp only [hmod, hops, hmem]
  by_cases hwv : w = v
  · subst hwv
    rw [Function.update_self, hcnt]
    by_cases hp : pred u
    · by_cases hk : g.inModule u ∧ (g.operands u)[k]? = some (some w)
      · simp [hp, hk, hne]
      · simp [hp, hk]
    · simp [hp]
  · rw [Function.update_of_ne hwv, hcount, hg, hcnt]
    by_cases hk : g.inModule u ∧ (g.operands u)[k]? = some (some v)
    · obtain ⟨hu, hk⟩ := hk
      by_cases hp : pred u
      · by_cases hwn : w = new
        · simp [hu, hk, hp, hwn, Ne.symm hne]
        · simp [hu, hk, hp, hwn, Ne.symm hwn, Ne.symm hwv]
      · simp [hu, hk, hp, Ne.symm hwv]
    · simp [hk]

theorem eraseInstr_consistent (hg : g.Consistent) (h : g.eraseInstr u = .ok g') :
    g'.Consistent := by
  obtain ⟨g₁, hrem, h⟩ := Exec.bind_eq_ok.mp h
  cases h
  obtain ⟨-, hmod, hops, hcount⟩ := removeUses_spec hrem
  intro w u' k
  simp only [hcount, hmod, hops]
  by_cases hu : u' = u
  · subst hu
    rw [Function.update_self]
    simp only [true_and, Bool.false_eq_true, false_and, if_false]
    split
    · rfl
    · rename_i hno
      rw [hg, if_neg]
      exact fun hk => hno (List.mem_of_getElem? hk.2)
  · simp [hu, hg w u' k]

theorem replaceAllUseWith_eq :
    g.replaceAllUseWith v new = g.replaceUseWithWhen v new fun _ => true := by
  simp [UseGraph.replaceAllUseWith, UseGraph.replaceUseWithWhen]

section Remove

variable {a b : Nat} {ops : List (Option V)}

omit [DecidableEq V] in
theorem mem_drop_take : some v ∈ (ops.take b).drop a ↔
    ∃ j, a ≤ j ∧ j < b ∧ ops[j]? = some (some v) := by
  rw [List.mem_iff_getElem?]
  constructor
  · intro ⟨k, hk⟩
    rw [List.getElem?_drop, List.getElem?_take] at hk
    split at hk
    · exact ⟨a + k, by omega, by assumption, hk⟩
    · cases hk
  · intro ⟨j, hj, hjb, hv⟩
    use j - a
    rw [List.getElem?_drop, List.getElem?_take, if_pos (by omega), Nat.add_sub_cancel' hj, hv]

omit [DecidableEq V] in
theorem getElem?_take_drop (ha : a ≤ b) (hb : b ≤ ops.length) (k : Nat) :
    (ops.take a ++ ops.drop b)[k]? = if k < a then ops[k]? else ops[k - a + b]? := by
  have hlen : (ops.take a).length = a := by
    rw [List.length_take]
    omega
  rw [List.getElem?_append, hlen]
  split
  · rename_i hk
    rw [List.getElem?_take, if_pos hk]
  · rw [List.getElem?_drop, Nat.add_comm]

omit [DecidableEq V] in
/-- The last operand that is `v`. -/
theorem exists_last {j : Nat} (hj : ops[j]? = some (some v)) :
    ∃ p, j ≤ p ∧ ops[p]? = some (some v) ∧ ∀ q, p < q → ops[q]? ≠ some (some v) := by
  classical
  let P (k : Nat) : Prop := ops[k]? = some (some v)
  have hle : ∀ k, P k → k ≤ ops.length := fun k hk => by
    obtain ⟨h, -⟩ := List.getElem?_eq_some_iff.mp hk
    exact Nat.le_of_lt h
  have hlast : P (Nat.findGreatest P ops.length) := Nat.findGreatest_spec (hle j hj) hj
  exact ⟨_, Nat.le_findGreatest (hle j hj) hj, hlast,
    fun q hq hv => Nat.findGreatest_is_greatest hq (hle q hv) hv⟩

variable (hg : g.Consistent) (hu : g.inModule u) (hab : a ≤ b) (hb : b ≤ (g.operands u).length)
  (hmod : g'.inModule = g.inModule) (hops : g'.operands = Function.update g.operands u
    ((g.operands u).take a ++ (g.operands u).drop b))
  (hcount : ∀ w x, (g'.useList w).count x =
    if x.1 = u ∧ some w ∈ ((g.operands u).take b).drop a then 0 else (g.useList w).count x)

include hab hb hops in
theorem operands_cut_lt {k : Nat} (hk : k < a) : (g'.operands u)[k]? = (g.operands u)[k]? := by
  rw [hops, Function.update_self, getElem?_take_drop hab hb, if_pos hk]

include hab hb hops in
theorem operands_cut_ge {k : Nat} (hk : a ≤ k) :
    (g'.operands u)[k]? = (g.operands u)[k - a + b]? := by
  rw [hops, Function.update_self, getElem?_take_drop hab hb, if_neg (by omega)]

include hg hab hb hmod hops hcount in
/-- Without the last operands. -/
theorem cut_consistent (hlast : ∀ j v, b ≤ j → (g.operands u)[j]? ≠ some (some v))
    (hbefore : ∀ i j v, i < a → a ≤ j → j < b → (g.operands u)[i]? = some (some v) →
      (g.operands u)[j]? ≠ some (some v)) : g'.Consistent := by
  intro w u' k
  rw [hcount, hg, hmod]
  by_cases hu' : u' = u
  · subst hu'
    by_cases hk : k < a
    · rw [operands_cut_lt hab hb hops hk]
      by_cases hw : (g.operands u')[k]? = some (some w)
      · have hno : some w ∉ ((g.operands u').take b).drop a := by
          intro hin
          obtain ⟨j, hj, hjb, hjw⟩ := mem_drop_take.mp hin
          exact hbefore k j w hk hj hjb hw hjw
        simp [hno]
      · simp [hw]
    · have hnone : (g.operands u')[k - a + b]? ≠ some (some w) := hlast _ _ (by omega)
      rw [operands_cut_ge hab hb hops (by omega)]
      simp only [if_false, hnone, and_false, true_and]
      split
      · rfl
      · rename_i hno
        rw [if_neg]
        intro ⟨_, hw⟩
        by_cases hkb : k < b
        · exact hno (mem_drop_take.mpr ⟨k, by omega, hkb, hw⟩)
        · exact hlast k w (by omega) hw
  · simp [hops, hu']

include hg hu hab hb hmod hops hcount in
/-- An operand after the removed ones moves, and its use does not. -/
theorem cut_after (hlt : a < b) {j : Nat} (hj : b ≤ j)
    (hv : (g.operands u)[j]? = some (some v)) : ¬ g'.Mirrors := by
  intro hm
  by_cases hin : some v ∈ ((g.operands u).take b).drop a
  · have hslot := hm v u (j - b + a) (by rw [hmod]; exact hu)
    have hidx : j - b + a - a + b = j := by omega
    rw [hcount, operands_cut_ge hab hb hops (by omega), hidx] at hslot
    simp [hin, hv] at hslot
  · obtain ⟨p, hjp, hp, hlast⟩ := exists_last hv
    have hslot := hm v u p (by rw [hmod]; exact hu)
    rw [hcount, operands_cut_ge hab hb hops (by omega), hg] at hslot
    have hnone := hlast (p - a + b) (by omega)
    simp [hin, hp, hu, hnone] at hslot

include hu hab hb hmod hops hcount in
/-- An operand before the removed ones loses its use with an equal one. -/
theorem cut_before {i j : Nat} (hi : i < a) (hj : a ≤ j) (hjb : j < b)
    (hv : (g.operands u)[i]? = some (some v)) (hjv : (g.operands u)[j]? = some (some v)) :
    ¬ g'.Mirrors := by
  intro hm
  have hin : some v ∈ ((g.operands u).take b).drop a := mem_drop_take.mpr ⟨j, hj, hjb, hjv⟩
  have hslot := hm v u i (by rw [hmod]; exact hu)
  rw [hcount, operands_cut_lt hab hb hops hi] at hslot
  simp [hin, hv] at hslot

end Remove

/-- What `remove_operands` removes. -/
theorem removeOperands_spec (h : g.removeOperands u index1 index2 = .ok g') :
    (0 ≤ index1 ∧ index1 ≤ index2 + 1 ∧ index2 < (g.operands u).length) ∧
      g'.inModule = g.inModule ∧
      g'.operands = Function.update g.operands u
        ((g.operands u).take index1.toNat ++ (g.operands u).drop (index2 + 1).toNat) ∧
      ∀ w x, (g'.useList w).count x =
        if x.1 = u ∧ some w ∈ ((g.operands u).take (index2 + 1).toNat).drop index1.toNat then 0
        else (g.useList w).count x := by
  unfold UseGraph.removeOperands at h
  split at h
  · rename_i hvalid
    obtain ⟨g₁, hrem, h⟩ := Exec.bind_eq_ok.mp h
    cases h
    obtain ⟨-, hmod, hops, hcount⟩ := removeUses_spec hrem
    exact ⟨hvalid, hmod, by rw [setOperands, hops], hcount⟩
  · cases h

theorem removeOperands_iff (hg : g.Consistent) (hu : g.inModule u)
    (h : g.removeOperands u index1 index2 = .ok g') :
    (KeepsUses g (.removeOperands u index1 index2) → g'.Consistent) ∧
      (¬ KeepsUses g (.removeOperands u index1 index2) → ¬ g'.Mirrors) := by
  obtain ⟨⟨hlow, hrange, hhigh⟩, hmod, hops, hcount⟩ := removeOperands_spec h
  have hab : index1.toNat ≤ (index2 + 1).toNat := by omega
  have hb : (index2 + 1).toNat ≤ (g.operands u).length := by omega
  constructor
  · intro hkeep
    by_cases hempty : index1 ≤ index2
    · obtain ⟨hlast, hbefore⟩ := hkeep hempty
      apply cut_consistent hg hab hb hmod hops hcount
      · exact fun j v hj => hlast j v (by omega)
      · exact fun i j v hi hj hjb => hbefore i j v (by omega) (by omega) (by omega)
    · obtain rfl : index1 = index2 + 1 := by omega
      intro w u' k
      rw [hcount, hg, hmod, hops, List.take_append_drop, Function.update_eq_self]
      simp
  · intro hkeep hm
    apply hkeep
    intro hlt
    constructor
    · intro j v hj hv
      exact cut_after hg hu hab hb hmod hops hcount (by omega) (by omega) hv hm
    · intro i j v hi hj hjb hv hjv
      exact cut_before hu hab hb hmod hops hcount (by omega) (by omega) (by omega) hv hjv hm

/-- A call keeps the use lists right on its condition. -/
theorem consistent_run (hg : g.Consistent) (hc : c.Proper) (h : c.run g = .ok g')
    (hkeep : c.KeepsUses g) : g'.Consistent := by
  cases c with
  | setOperand u i v =>
    obtain ⟨hu, h⟩ := Exec.ite_throw_eq_ok.mp h
    exact (setOperand_iff hg hu h).1 hkeep
  | addOperand u v =>
    obtain ⟨hu, h⟩ := Exec.ite_throw_eq_ok.mp h
    cases h
    exact addOperand_consistent hg hu
  | removeOperands u index1 index2 =>
    obtain ⟨hu, h⟩ := Exec.ite_throw_eq_ok.mp h
    exact (removeOperands_iff hg hu h).1 hkeep
  | replaceAllUseWith v new =>
    rw [run, replaceAllUseWith_eq] at h
    exact replaceUseWithWhen_consistent hg hc h
  | replaceUseWithWhen v new pred => exact replaceUseWithWhen_consistent hg hc h
  | eraseInstr u =>
    obtain ⟨-, h⟩ := Exec.ite_throw_eq_ok.mp h
    exact eraseInstr_consistent hg h

/-- Without its condition a call leaves a wrong use list. -/
theorem not_mirrors_run (hg : g.Consistent) (h : c.run g = .ok g') (hkeep : ¬ c.KeepsUses g) :
    ¬ g'.Mirrors := by
  cases c with
  | setOperand u i v =>
    obtain ⟨hu, h⟩ := Exec.ite_throw_eq_ok.mp h
    exact (setOperand_iff hg hu h).2 hkeep
  | removeOperands u index1 index2 =>
    obtain ⟨hu, h⟩ := Exec.ite_throw_eq_ok.mp h
    exact (removeOperands_iff hg hu h).2 hkeep
  | _ => exact absurd trivial hkeep

/-- `P` holds in the states that calls reach. -/
def EachState (P : UseGraph V → Prop) : List (UseCall V) → UseGraph V → Prop
  | [], g => P g
  | c :: cs, g => P g ∧ ∀ g', c.run g = .ok g' → EachState P cs g'

/-- `P` holds of the calls that return, in the states before them. -/
def EachCall (P : UseGraph V → UseCall V → Prop) : List (UseCall V) → UseGraph V → Prop
  | [], _ => True
  | c :: cs, g => ∀ g', c.run g = .ok g' → P g c ∧ EachCall P cs g'

theorem EachState.head {P : UseGraph V → Prop} {cs : List (UseCall V)} (h : EachState P cs g) :
    P g := by
  cases cs with
  | nil => exact h
  | cons c cs => exact h.1

/-- From a consistent graph the use lists mirror the operands in every state that calls reach just
when each call is one that keeps them. -/
theorem mirrors_iff_keepsUses {cs : List (UseCall V)} (hg : g.Consistent)
    (hcs : ∀ c ∈ cs, c.Proper) : EachState Mirrors cs g ↔ EachCall KeepsUses cs g := by
  induction cs generalizing g with
  | nil => exact ⟨fun _ => trivial, fun _ => hg.mirrors⟩
  | cons c cs ih =>
    obtain ⟨hc, hcs⟩ := List.forall_mem_cons.mp hcs
    constructor
    · intro hm g' hrun
      have hkeep : c.KeepsUses g := by
        by_contra hkeep
        exact not_mirrors_run hg hrun hkeep (hm.2 g' hrun).head
      exact ⟨hkeep, (ih (consistent_run hg hc hrun hkeep) hcs).mp (hm.2 g' hrun)⟩
    · intro hk
      refine ⟨hg.mirrors, fun g' hrun => ?_⟩
      obtain ⟨hkeep, hk⟩ := hk g' hrun
      exact (ih (consistent_run hg hc hrun hkeep) hcs).mpr hk

end UseCall

namespace Module

open UseGraph

variable {m : Module} {live : Value → Bool} {u v new : Value} {b i : Nat}

/-- The operands and the use lists of a module, with the users that are still in it. -/
def useGraph (live : Value → Bool) (m : Module) : UseGraph Value where
  inModule := live
  operands u := (m.operands u).map some
  useList v := (m.useList v).map fun use => (use.val, use.argNo)

theorem useGraph_setOperands {ops : List Value} (hu : u.isUser) :
    (m.useGraph live).setOperands u (ops.map some) = (m.setOperands u ops).useGraph live := by
  ext1
  · rfl
  · funext w
    by_cases hw : w = u
    · subst hw
      simp [UseGraph.setOperands, useGraph, operands_setOperands_self hu]
    · simp [UseGraph.setOperands, useGraph, operands_setOperands_of_ne hw, hw]
  · simp [useGraph]

theorem useGraph_addUse : (m.useGraph live).addUse v u i = (m.addUse v u i).useGraph live := by
  ext1
  · rfl
  · simp [useGraph]
  · funext w
    by_cases hw : w = v
    · simp [UseGraph.addUse, useGraph, addUse, hw]
    · simp [UseGraph.addUse, useGraph, addUse, hw]

theorem useGraph_removeUse : (m.useGraph live).removeUse v u = (m.removeUse v u).useGraph live := by
  ext1
  · rfl
  · funext w
    cases w <;> rfl
  · funext w
    by_cases hw : w = v
    · simp [UseGraph.removeUse, useGraph, removeUse, hw, List.filter_map, Function.comp_def]
    · simp [UseGraph.removeUse, useGraph, removeUse, hw]

theorem useGraph_setOperand (hu : u.isUser) (hi : i < (m.operands u).length) :
    (m.useGraph live).setOperand u i v = .ok ((m.setOperand u i v).useGraph live) := by
  have hlen : i < ((m.useGraph live).operands u).length := by simpa [useGraph] using hi
  rw [UseGraph.setOperand, if_pos hlen, setOperand, ← useGraph_addUse, ← useGraph_setOperands hu,
    List.map_set]
  rfl

theorem useGraph_addOperand (hu : u.isUser) :
    (m.useGraph live).addOperand u v = (m.addOperand u v).useGraph live := by
  rw [UseGraph.addOperand, addOperand, ← useGraph_addUse, ← useGraph_setOperands hu]
  simp [useGraph]

theorem useGraph_removeUses {ops : List Value} : removeUses u (ops.map some) (m.useGraph live) =
    .ok ((ops.foldl (fun m op => m.removeUse op u) m).useGraph live) := by
  induction ops generalizing m with
  | nil => rfl
  | cons op ops ih =>
    rw [List.map_cons, removeUses, List.foldlM_cons, List.foldl_cons, ← ih, ← useGraph_removeUse]
    rfl

theorem useGraph_eraseInstr : (m.useGraph live).eraseInstr (.instruction i) =
    .ok ((m.eraseInstr b i).useGraph (Function.update live (.instruction i) false)) := by
  rw [UseGraph.eraseInstr, show (m.useGraph live).operands (.instruction i) =
    (m.operands (.instruction i)).map some from rfl, useGraph_removeUses]
  rfl

theorem useGraph_setUses {uses : List Use}
    (huses : ∀ use ∈ uses, use.val.isUser ∧ use.argNo < (m.operands use.val).length) :
    setUses new (uses.map fun use => (use.val, use.argNo)) (m.useGraph live) =
      .ok ((uses.foldl (fun m use => m.setOperand use.val use.argNo new) m).useGraph live) := by
  induction uses generalizing m with
  | nil => rfl
  | cons use uses ih =>
    obtain ⟨⟨hu, hi⟩, huses⟩ := List.forall_mem_cons.mp huses
    rw [List.map_cons, setUses, List.foldlM_cons, useGraph_setOperand hu hi, List.foldl_cons]
    apply ih
    intro use' huse
    rw [length_operands_setOperand]
    exact huses use' huse

theorem useGraph_replaceAllUseWith
    (huses : ∀ use ∈ m.useList v, use.val.isUser ∧ use.argNo < (m.operands use.val).length) :
    (m.useGraph live).replaceAllUseWith v new =
      .ok ((m.replaceAllUseWith v new).useGraph live) := by
  rw [UseGraph.replaceAllUseWith, show (m.useGraph live).useList v =
    (m.useList v).map (fun use => (use.val, use.argNo)) from rfl, useGraph_setUses huses]
  refine congrArg Except.ok (UseGraph.ext rfl ?_ ?_)
  · funext w
    cases w <;> rfl
  · funext w
    by_cases hw : w = v
    · simp [useGraph, replaceAllUseWith, hw]
    · simp [useGraph, replaceAllUseWith, hw]

/-- `%op0 = add i32 %arg0, %arg1`. -/
def addModule : Module :=
  empty.newInstruction (.binary .add) .int32 [.argument 0 0, .argument 0 1] 0

def addGraph : UseGraph Value := addModule.useGraph (· = .instruction 0)

theorem useList_addGraph : addGraph.useList v =
    if v = .argument 0 0 then [(.instruction 0, 0)]
    else if v = .argument 0 1 then [(.instruction 0, 1)] else [] := by
  by_cases h1 : v = .argument 0 0
  · subst h1
    rfl
  · by_cases h2 : v = .argument 0 1
    · subst h2
      rfl
    · simp [addGraph, addModule, newInstruction, useGraph, addUse, empty, h1, h2]

theorem consistent_addGraph : addGraph.Consistent := by
  intro v u i
  rw [useList_addGraph]
  by_cases hu : u = .instruction 0
  · subst hu
    have hops : addGraph.operands (.instruction 0) =
        [some (.argument 0 0), some (.argument 0 1)] := rfl
    have hlive : addGraph.inModule (.instruction 0) = true := rfl
    rw [hops]
    simp only [hlive, true_and]
    by_cases h1 : v = .argument 0 0
    · rcases i with _ | _ | i <;> simp [h1]
    · by_cases h2 : v = .argument 0 1
      · rcases i with _ | _ | i <;> simp [h2]
      · rcases i with _ | _ | i <;> simp [h1, h2, Ne.symm h1, Ne.symm h2]
  · have hlive : addGraph.inModule u = false := by simp [addGraph, useGraph, hu]
    have hno : ∀ k, ((.instruction 0, k) : Value × Nat) ≠ (u, i) :=
      fun k h => hu (congrArg Prod.fst h).symm
    simp only [hlive, Bool.false_eq_true, false_and, if_false]
    split_ifs <;> simp [hno]

end Module

namespace UseCall

open UseGraph

/-- An instruction with two operands that its constructor has not set yet. -/
def newGraph : UseGraph Value where
  inModule u := u = .instruction 0
  operands u := if u = .instruction 0 then [none, none] else []
  useList _ := []

theorem consistent_newGraph : newGraph.Consistent := by
  intro v u i
  have hno : (newGraph.operands u)[i]? ≠ some (some v) := by
    unfold newGraph
    dsimp only
    split
    · rcases i with _ | _ | i <;> simp
    · simp
  rw [if_neg fun h => hno h.2]
  rfl

/-- The constructor sets the operands, and the second one is removed and added again. -/
def newCalls : List (UseCall Value) :=
  [.setOperand (.instruction 0) 0 (.argument 0 0), .setOperand (.instruction 0) 1 (.argument 0 1),
    .removeOperands (.instruction 0) 1 1, .addOperand (.instruction 0) (.constInt 4),
    .replaceAllUseWith (.argument 0 0) (.constInt 3), .eraseInstr (.instruction 0)]

theorem eachCall_newCalls : EachCall KeepsUses newCalls newGraph := by
  intro g₁ h₁
  cases h₁
  refine ⟨rfl, fun g₂ h₂ => ?_⟩
  cases h₂
  refine ⟨rfl, fun g₃ h₃ => ?_⟩
  cases h₃
  refine ⟨fun _ => ⟨fun j v hj => ?_, fun i j v hi hj hj' => ?_⟩, fun g₄ _ => ?_⟩
  · rcases j with _ | _ | j
    · simp at hj
    · simp at hj
    · simp [newGraph, addUse, setOperands]
  · obtain ⟨rfl, rfl⟩ : i = 0 ∧ j = 1 := by omega
    simp only [newGraph, addUse, setOperands]
    rintro h h'
    cases h
    cases h'
  · exact ⟨trivial, fun _ _ => ⟨trivial, fun _ _ => ⟨trivial, trivial⟩⟩⟩

theorem mirrors_iff_keepsUses_newCalls :
    (EachState Mirrors newCalls newGraph ↔ EachCall KeepsUses newCalls newGraph) ∧
      EachState Mirrors newCalls newGraph := by
  have hproper : ∀ c ∈ newCalls, c.Proper := by simp [newCalls, Proper]
  have hiff := mirrors_iff_keepsUses consistent_newGraph hproper
  exact ⟨hiff, hiff.mpr eachCall_newCalls⟩

/-- `set_operand(0, 3)` on `add i32 %arg0, %arg1` leaves the use of `%arg0`. -/
theorem not_mirrors_setOperand : ¬ ∀ (g : UseGraph Value) (cs : List (UseCall Value)),
    g.Consistent → (∀ c ∈ cs, c.Proper) → EachState Mirrors cs g := by
  intro h
  have hm := h Module.addGraph [.setOperand (.instruction 0) 0 (.constInt 3)]
    Module.consistent_addGraph (by simp [Proper])
  have hstate := (hm.2 _ rfl) (.argument 0 0) (.instruction 0) 0 rfl
  revert hstate
  decide

end UseCall

end Cminusf
