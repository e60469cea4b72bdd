import Cminusf.Cache.Interning
import Cminusf.LightIR.Type
import Mathlib.Algebra.Order.Ring.Nat

/-! The caches of the constants. Floats are bit patterns, which C++ compares by value. -/

namespace Cminusf

open Interning

/-- A type of the module `m`. -/
structure TypePtr where
  m : Nat
  ty : Ty
deriving DecidableEq

inductive ConstantObject where
  | int (ty : TypePtr) (value : BitVec 32)
  | fp (ty : TypePtr) (val : BitVec 32)
  | zero (ty : TypePtr)
deriving DecidableEq

def floatIsNaN (x : BitVec 32) : Bool := 0x7f800000 < x.toNat % 2 ^ 31

/-- `==` on floats. -/
def floatEq (a b : BitVec 32) : Bool :=
  !floatIsNaN a && !floatIsNaN b &&
    (a == b || a.toNat % 2 ^ 31 == 0 && b.toNat % 2 ^ 31 == 0)

/-- `==` on the keys of `cached_float`. -/
def floatKeyEq (a b : BitVec 32 × Nat) : Bool := floatEq a.1 b.1 && a.2 == b.2

/-- The caches, with the constants in the order of their creation. -/
structure ConstantCaches where
  objects : List ConstantObject
  cachedInt : List ((BitVec 32 × Nat) × Nat)
  cachedBool : List ((Bool × Nat) × Nat)
  cachedFloat : List ((BitVec 32 × Nat) × Nat)
  cachedZero : List (TypePtr × Nat)

namespace ConstantCaches

def empty : ConstantCaches := ⟨[], [], [], [], []⟩

/-- `ConstantInt::get(int)`. -/
def getInt (s : ConstantCaches) (val : BitVec 32) (m : Nat) : Nat × ConstantCaches :=
  match lookup (· == ·) s.cachedInt (val, m) with
  | some a => (a, s)
  | none => (s.objects.length, { s with
      objects := s.objects ++ [.int ⟨m, .int32⟩ val]
      cachedInt := s.cachedInt ++ [((val, m), s.objects.length)] })

/-- `ConstantInt::get(bool)`. -/
def getBool (s : ConstantCaches) (val : Bool) (m : Nat) : Nat × ConstantCaches :=
  match lookup (· == ·) s.cachedBool (val, m) with
  | some a => (a, s)
  | none => (s.objects.length, { s with
      objects := s.objects ++ [.int ⟨m, .int1⟩ (if val then 1 else 0)]
      cachedBool := s.cachedBool ++ [((val, m), s.objects.length)] })

/-- `ConstantFP::get`. -/
def getFP (s : ConstantCaches) (val : BitVec 32) (m : Nat) : Nat × ConstantCaches :=
  match lookup floatKeyEq s.cachedFloat (val, m) with
  | some a => (a, s)
  | none => (s.objects.length, { s with
      objects := s.objects ++ [.fp ⟨m, .float⟩ val]
      cachedFloat := s.cachedFloat ++ [((val, m), s.objects.length)] })

/-- `ConstantZero::get`. -/
def getZero (s : ConstantCaches) (ty : TypePtr) : Nat × ConstantCaches :=
  match lookup (· == ·) s.cachedZero ty with
  | some a => (a, s)
  | none => (s.objects.length, { s with
      objects := s.objects ++ [.zero ty]
      cachedZero := s.cachedZero ++ [(ty, s.objects.length)] })

end ConstantCaches

inductive ConstRequest where
  | int (val : BitVec 32) (m : Nat)
  | bool (val : Bool) (m : Nat)
  | fp (val : BitVec 32) (m : Nat)
  | zero (ty : TypePtr)
deriving DecidableEq

namespace ConstRequest

open ConstantCaches

def get (s : ConstantCaches) : ConstRequest → Nat × ConstantCaches
  | int val m => s.getInt val m
  | bool val m => s.getBool val m
  | fp val m => s.getFP val m
  | zero ty => s.getZero ty

def getAll (s : ConstantCaches) : List ConstRequest → List Nat × ConstantCaches
  | [] => ([], s)
  | r :: rs =>
    let first := r.get s
    let rest := getAll first.2 rs
    (first.1 :: rest.1, rest.2)

/-- The constant that a request asks for. -/
def object : ConstRequest → ConstantObject
  | int val m => .int ⟨m, .int32⟩ val
  | bool val m => .int ⟨m, .int1⟩ (if val then 1 else 0)
  | fp val m => .fp ⟨m, .float⟩ val
  | zero ty => .zero ty

/-- The requests are of one kind and ask for equal values. -/
def same : ConstRequest → ConstRequest → Bool
  | int a m, int b n => (a, m) == (b, n)
  | bool a m, bool b n => (a, m) == (b, n)
  | fp a m, fp b n => floatKeyEq (a, m) (b, n)
  | zero a, zero b => a == b
  | _, _ => false

/-- Each request returns the constant that it asks for, and two requests return one object just when
they ask for equal values. -/
def Faithful (rs : List ConstRequest) : Prop :=
  (∀ p ∈ rs.zip (getAll empty rs).1, (getAll empty rs).2.objects[p.2]? = some p.1.object) ∧
    (rs.zip (getAll empty rs).1).Pairwise fun p q => p.2 = q.2 ↔ same p.1 q.1

def intKey : ConstRequest → Option (BitVec 32 × Nat)
  | int val m => some (val, m)
  | _ => none

def boolKey : ConstRequest → Option (Bool × Nat)
  | bool val m => some (val, m)
  | _ => none

def floatKey : ConstRequest → Option (BitVec 32 × Nat)
  | fp val m => some (val, m)
  | _ => none

def zeroKey : ConstRequest → Option TypePtr
  | zero ty => some ty
  | _ => none

/-- The caches hold the constants made for `created`. -/
structure Holds (s : ConstantCaches) (created : List ConstRequest) : Prop where
  objects : s.objects = created.map object
  cachedInt : s.cachedInt = view intKey created
  cachedBool : s.cachedBool = view boolKey created
  cachedFloat : s.cachedFloat = view floatKey created
  cachedZero : s.cachedZero = view zeroKey created

variable {s : ConstantCaches} {created rs : List ConstRequest} {r : ConstRequest}
  {a b c : BitVec 32} {m n : Nat}

/-- What differs and is equal in C++ are the two zeros. -/
theorem zeros_of_floatEq (h : floatEq a b) (hne : a ≠ b) :
    a = 0 ∧ b = 0x80000000 ∨ a = 0x80000000 ∧ b = 0 := by
  simp only [floatEq, Bool.and_eq_true, Bool.or_eq_true, beq_iff_eq, hne, false_or] at h
  have ha := a.isLt
  have hb := b.isLt
  have hne' : a.toNat ≠ b.toNat := fun he => hne (BitVec.eq_of_toNat_eq he)
  have hcases : a.toNat = 0 ∧ b.toNat = 2 ^ 31 ∨ a.toNat = 2 ^ 31 ∧ b.toNat = 0 := by omega
  exact hcases.imp (fun h => ⟨BitVec.eq_of_toNat_eq h.1, BitVec.eq_of_toNat_eq h.2⟩)
    fun h => ⟨BitVec.eq_of_toNat_eq h.1, BitVec.eq_of_toNat_eq h.2⟩

theorem floatEq_symm (h : floatEq a b) : floatEq b a := by
  simp only [floatEq, Bool.and_eq_true, Bool.or_eq_true, beq_iff_eq] at h ⊢
  tauto

theorem floatEq_trans (h : floatEq a b) (h' : floatEq b c) : floatEq a c := by
  simp only [floatEq, Bool.and_eq_true, Bool.or_eq_true, beq_iff_eq] at h h' ⊢
  rcases h with ⟨⟨ha, -⟩, rfl | h⟩
  · exact h'
  · rcases h' with ⟨⟨-, hc⟩, rfl | h'⟩
    · exact ⟨⟨ha, hc⟩, .inr h⟩
    · exact ⟨⟨ha, hc⟩, .inr ⟨h.1, h'.2⟩⟩

theorem same_partialEquiv : PartialEquiv same where
  symm {k l} h := by
    cases k <;> cases l <;> simp only [same, Bool.false_eq_true, beq_iff_eq, floatKeyEq,
      Bool.and_eq_true] at h ⊢
    case fp.fp => exact ⟨floatEq_symm h.1, h.2.symm⟩
    all_goals exact h.symm
  trans {k l p} h h' := by
    cases k <;> cases l <;> cases p <;> simp only [same, Bool.false_eq_true, beq_iff_eq,
      floatKeyEq, Bool.and_eq_true] at h h' ⊢
    case fp.fp.fp => exact ⟨floatEq_trans h.1 h'.1, h.2.trans h'.2⟩
    all_goals exact h.trans h'

theorem holds_empty : Holds empty [] := ⟨rfl, rfl, rfl, rfl, rfl⟩

/-- What a request finds in the cache of its kind. -/
def find (s : ConstantCaches) : ConstRequest → Option Nat
  | int val m => lookup (· == ·) s.cachedInt (val, m)
  | bool val m => lookup (· == ·) s.cachedBool (val, m)
  | fp val m => lookup floatKeyEq s.cachedFloat (val, m)
  | zero ty => lookup (· == ·) s.cachedZero ty

/-- The caches with a new constant for the request. -/
def made (s : ConstantCaches) (r : ConstRequest) : ConstantCaches where
  objects := s.objects ++ [r.object]
  cachedInt := extend s.cachedInt r.intKey s.objects.length
  cachedBool := extend s.cachedBool r.boolKey s.objects.length
  cachedFloat := extend s.cachedFloat r.floatKey s.objects.length
  cachedZero := extend s.cachedZero r.zeroKey s.objects.length

theorem get_of_some {i : Nat} (h : r.find s = some i) : r.get s = (i, s) := by
  cases r <;> simp only [find] at h
  case int => rw [get, getInt, h]
  case bool => rw [get, getBool, h]
  case fp => rw [get, getFP, h]
  case zero => rw [get, getZero, h]

theorem get_of_none (h : r.find s = none) : r.get s = (s.objects.length, made s r) := by
  cases r <;> simp only [find] at h
  case int =>
    rw [get, getInt, h]
    simp [made, extend, intKey, boolKey, floatKey, zeroKey, object]
  case bool =>
    rw [get, getBool, h]
    simp [made, extend, intKey, boolKey, floatKey, zeroKey, object]
  case fp =>
    rw [get, getFP, h]
    simp [made, extend, intKey, boolKey, floatKey, zeroKey, object]
  case zero =>
    rw [get, getZero, h]
    simp [made, extend, intKey, boolKey, floatKey, zeroKey, object]

/-- Only the constants of the same kind can be found, and their cache holds them all. -/
theorem find_eq (h : Holds s created) : r.find s = created.findIdx? (same · r) := by
  cases r with
  | int val m =>
    rw [find, h.cachedInt]
    exact lookup_view fun r => by cases r <;> rfl
  | bool val m =>
    rw [find, h.cachedBool]
    exact lookup_view fun r => by cases r <;> rfl
  | fp val m =>
    rw [find, h.cachedFloat]
    exact lookup_view fun r => by cases r <;> rfl
  | zero ty =>
    rw [find, h.cachedZero]
    exact lookup_view fun r => by cases r <;> rfl

theorem made_holds (h : Holds s created) : Holds (made s r) (created ++ [r]) := by
  have hlen : s.objects.length = created.length := by rw [h.objects, List.length_map]
  constructor
  · simp [made, h.objects]
  · simp only [made, h.cachedInt, hlen, view_snoc]
  · simp only [made, h.cachedBool, hlen, view_snoc]
  · simp only [made, h.cachedFloat, hlen, view_snoc]
  · simp only [made, h.cachedZero, hlen, view_snoc]

theorem get_eq (h : Holds s created) : (r.get s).1 = (intern same created r).1 ∧
    Holds (r.get s).2 (intern same created r).2 := by
  have hfind := find_eq (r := r) h
  cases hr : created.findIdx? (same · r) with
  | some i =>
    rw [get_of_some (hfind.trans hr), intern_of_some hr]
    exact ⟨rfl, h⟩
  | none =>
    rw [get_of_none (hfind.trans hr), intern_of_none hr]
    exact ⟨by rw [h.objects, List.length_map], made_holds h⟩

theorem getAll_eq (h : Holds s created) : (getAll s rs).1 = (internAll same created rs).1 ∧
    Holds (getAll s rs).2 (internAll same created rs).2 := by
  induction rs generalizing s created with
  | nil => exact ⟨rfl, h⟩
  | cons r rs ih =>
    obtain ⟨haddr, hnext⟩ := get_eq (r := r) h
    obtain ⟨haddrs, hlast⟩ := ih hnext
    exact ⟨congrArg₂ List.cons haddr haddrs, hlast⟩

theorem object_eq_of_same {k : ConstRequest} (h : same k r)
    (hzeros : ∀ m, ¬ (fp 0 m ∈ rs ∧ fp 0x80000000 m ∈ rs)) (hk : k ∈ rs) (hr : r ∈ rs) : k = r := by
  cases k <;> cases r <;> simp only [same, Bool.false_eq_true, beq_iff_eq, Prod.mk.injEq,
    floatKeyEq, Bool.and_eq_true] at h
  case fp.fp a m b n =>
    obtain ⟨hab, rfl⟩ := h
    by_cases he : a = b
    · rw [he]
    · rcases zeros_of_floatEq hab he with ⟨rfl, rfl⟩ | ⟨rfl, rfl⟩
      · exact absurd ⟨hk, hr⟩ (hzeros m)
      · exact absurd ⟨hr, hk⟩ (hzeros m)
  case zero.zero => rw [h]
  all_goals rw [h.1, h.2]

/-- Interning is faithful on the sequences of requests that do not ask one module for both zeros. -/
theorem faithful_iff (rs : List ConstRequest) :
    Faithful rs ↔ ∀ m, ¬ (fp 0 m ∈ rs ∧ fp 0x80000000 m ∈ rs) := by
  obtain ⟨haddr, hholds⟩ : (getAll empty rs).1 = (internAll same [] rs).1 ∧
      Holds (getAll empty rs).2 (internAll same [] rs).2 := getAll_eq holds_empty
  have hpair : (rs.zip (internAll same [] rs).1).Pairwise fun p q => p.2 = q.2 ↔ same p.1 q.1 :=
    internAll_pairwise List.Pairwise.nil same_partialEquiv
  rw [Faithful, haddr, hholds.objects]
  constructor
  · rintro ⟨hobject, -⟩ m ⟨hpos, hneg⟩
    have hzip : ∀ r ∈ rs, ∃ a, (r, a) ∈ rs.zip (internAll same [] rs).1 :=
      fun r hr => exists_mem_zip hr
    obtain ⟨a, ha⟩ := hzip _ hpos
    obtain ⟨b, hb⟩ := hzip _ hneg
    have hzeros : same (fp 0 m) (fp 0x80000000 m) := by simp [same, floatKeyEq, floatEq, floatIsNaN]
    -- Both requests get one object, which holds one of the zeros.
    have hab : a = b :=
      internAll_eq_of_same List.Pairwise.nil same_partialEquiv _ ha _ hb hzeros
    have hval := (hobject _ ha).symm.trans (hab ▸ hobject _ hb)
    simp [object] at hval
  · intro hzeros
    refine ⟨fun p hp => ?_, hpair⟩
    obtain ⟨k, hk, hsame⟩ := internAll_made p hp
    have hmem : k ∈ rs := internAll_subset (List.mem_of_getElem? hk)
    have he : k = p.1 := by
      rcases hsame with he | hsame
      · exact he
      · exact object_eq_of_same hsame hzeros hmem (List.of_mem_zip hp).1
    rw [List.getElem?_map, hk, he]
    rfl

/-- After a request for `0.0` the request for `-0.0` gets the constant `0.0`. -/
theorem not_faithful_zeros : ¬ ∀ rs, Faithful rs := by
  intro h
  have hobject := (h [fp 0 0, fp 0x80000000 0]).1 (fp 0x80000000 0, 0) (by decide)
  revert hobject
  decide

end ConstRequest

end Cminusf
