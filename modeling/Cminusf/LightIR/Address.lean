import Cminusf.LightIR.Module
import Mathlib.Data.Nat.Pairing
import Mathlib.Algebra.Order.BigOperators.Group.List
import Mathlib.Algebra.Order.Group.Nat
import Mathlib.Algebra.GroupWithZero.Nat

/-! Addresses of objects: an allocator can give every object its own address, and can
place any set of blocks below the other objects. -/

namespace Cminusf

open Nat (pair)

namespace Ty

mutual

def code : Ty → Nat
  | .void => pair 0 0
  | .label => pair 1 0
  | .int1 => pair 2 0
  | .int32 => pair 3 0
  | .float => pair 4 0
  | .function r args => pair 5 (pair r.code (codeList args))
  | .array t n => pair 6 (pair t.code n)
  | .pointer t => pair 7 t.code

def codeList : List Ty → Nat
  | [] => 0
  | t :: ts => pair t.code (codeList ts) + 1

end

mutual

theorem code_inj : ∀ a b : Ty, a.code = b.code → a = b
  | .void, b, h | .label, b, h | .int1, b, h | .int32, b, h | .float, b, h => by
    cases b <;> simp_all [code, Nat.pair_eq_pair]
  | .function r args, b, h => by
    cases b with
    | function r' args' =>
      simp only [code, Nat.pair_eq_pair, true_and] at h
      rw [code_inj r r' h.1, codeList_inj args args' h.2]
    | _ => simp [code, Nat.pair_eq_pair] at h
  | .array t n, b, h => by
    cases b with
    | array t' n' =>
      simp only [code, Nat.pair_eq_pair, true_and] at h
      rw [code_inj t t' h.1, h.2]
    | _ => simp [code, Nat.pair_eq_pair] at h
  | .pointer t, b, h => by
    cases b with
    | pointer t' =>
      simp only [code, Nat.pair_eq_pair, true_and] at h
      rw [code_inj t t' h]
    | _ => simp [code, Nat.pair_eq_pair] at h

theorem codeList_inj : ∀ as bs : List Ty, codeList as = codeList bs → as = bs
  | [], bs, h => by cases bs <;> simp_all [codeList]
  | a :: as, bs, h => by
    cases bs with
    | nil => simp [codeList] at h
    | cons b bs =>
      simp only [codeList, Nat.add_right_cancel_iff, Nat.pair_eq_pair] at h
      rw [code_inj a b h.1, codeList_inj as bs h.2]

end

end Ty

namespace Value

def code : Value → Nat
  | .constInt n => pair 0 n.toNat
  | .constBool b => pair 1 b.toNat
  | .constFP n => pair 2 n.toNat
  | .constZero ty => pair 3 ty.code
  | .globalVariable g => pair 4 g
  | .function f => pair 5 f
  | .argument f k => pair 6 (pair f k)
  | .basicBlock b => pair 7 b
  | .instruction i => pair 8 i
  | .constNaN n made => pair 9 (pair n.toNat made)

theorem code_injective : Function.Injective code := by
  intro v w h
  cases v <;> cases w <;> simp only [code, Nat.pair_eq_pair] at h <;>
    first
    | exact absurd h.1 (by decide)
    | skip
  case constInt => rw [BitVec.eq_of_toNat_eq h.2]
  case constBool a b => cases a <;> cases b <;> simp_all
  case constFP => rw [BitVec.eq_of_toNat_eq h.2]
  case constNaN => rw [BitVec.eq_of_toNat_eq h.2.1, h.2.2]
  case constZero a b => rw [Ty.code_inj a b h.2]
  case argument => rw [h.2.1, h.2.2]
  all_goals rw [h.2]

/-- The addresses when the blocks of `first` lie below all other objects. -/
def addressFrom (first : List Nat) (v : Value) : Nat :=
  if ∃ b ∈ first, v = .basicBlock b then v.code
  else v.code + (first.map fun b => (basicBlock b).code).sum + 1

theorem code_lt_addressFrom {first : List Nat} {b : Nat} {w : Value} (hb : b ∈ first)
    (hw : ¬ ∃ b ∈ first, w = .basicBlock b) :
    addressFrom first (.basicBlock b) < addressFrom first w := by
  have hle : (basicBlock b).code ≤ (first.map fun b => (basicBlock b).code).sum :=
    List.le_sum_of_mem (List.mem_map.mpr ⟨b, hb, rfl⟩)
  rw [addressFrom, addressFrom, if_pos ⟨b, hb, rfl⟩, if_neg hw]
  omega

theorem addressFrom_injective (first : List Nat) : Function.Injective (addressFrom first) := by
  intro v w h
  by_cases hv : ∃ b ∈ first, v = .basicBlock b <;> by_cases hw : ∃ b ∈ first, w = .basicBlock b
  · simp only [addressFrom, hv, hw, if_true] at h
    exact code_injective h
  · obtain ⟨b, hb, rfl⟩ := hv
    exact absurd h (code_lt_addressFrom hb hw).ne
  · obtain ⟨b, hb, rfl⟩ := hw
    exact absurd h.symm (code_lt_addressFrom hb hv).ne
  · simp only [addressFrom, hv, hw, if_false] at h
    exact code_injective (by omega)

end Value

end Cminusf
