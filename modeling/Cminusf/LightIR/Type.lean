import Mathlib.Logic.Function.Basic

/-! Types of LightIR. A `Type *` of the library stands for the type it denotes:
the module interns every type, so pointer comparison is structural equality. -/

namespace Cminusf

inductive Ty where
  | void
  | label
  | int1
  | int32
  | float
  | function (result : Ty) (args : List Ty)
  | array (contained : Ty) (numElements : Nat)
  | pointer (contained : Ty)

mutual

def Ty.decEq : (a b : Ty) → Decidable (a = b)
  | .void, b => by cases b <;> first | exact isTrue rfl | exact isFalse (by simp)
  | .label, b => by cases b <;> first | exact isTrue rfl | exact isFalse (by simp)
  | .int1, b => by cases b <;> first | exact isTrue rfl | exact isFalse (by simp)
  | .int32, b => by cases b <;> first | exact isTrue rfl | exact isFalse (by simp)
  | .float, b => by cases b <;> first | exact isTrue rfl | exact isFalse (by simp)
  | .function r args, .function r' args' =>
    match Ty.decEq r r', Ty.decEqList args args' with
    | isTrue h, isTrue h' => isTrue (by rw [h, h'])
    | isFalse h, _ => isFalse (fun e => h (Ty.function.inj e).1)
    | _, isFalse h => isFalse (fun e => h (Ty.function.inj e).2)
  | .array t n, .array t' n' =>
    match Ty.decEq t t', Nat.decEq n n' with
    | isTrue h, isTrue h' => isTrue (by rw [h, h'])
    | isFalse h, _ => isFalse (fun e => h (Ty.array.inj e).1)
    | _, isFalse h => isFalse (fun e => h (Ty.array.inj e).2)
  | .pointer t, .pointer t' =>
    match Ty.decEq t t' with
    | isTrue h => isTrue (by rw [h])
    | isFalse h => isFalse (fun e => h (Ty.pointer.inj e))
  | .function _ _, .void | .function _ _, .label | .function _ _, .int1 | .function _ _, .int32
  | .function _ _, .float | .function _ _, .array _ _ | .function _ _, .pointer _
  | .array _ _, .void | .array _ _, .label | .array _ _, .int1 | .array _ _, .int32
  | .array _ _, .float | .array _ _, .function _ _ | .array _ _, .pointer _
  | .pointer _, .void | .pointer _, .label | .pointer _, .int1 | .pointer _, .int32
  | .pointer _, .float | .pointer _, .function _ _ | .pointer _, .array _ _ =>
    isFalse (by simp)

def Ty.decEqList : (a b : List Ty) → Decidable (a = b)
  | [], [] => isTrue rfl
  | [], _ :: _ => isFalse (by simp)
  | _ :: _, [] => isFalse (by simp)
  | a :: as, b :: bs =>
    match Ty.decEq a b, Ty.decEqList as bs with
    | isTrue h, isTrue h' => isTrue (by rw [h, h'])
    | isFalse h, _ => isFalse (fun e => h (List.cons.inj e).1)
    | _, isFalse h => isFalse (fun e => h (List.cons.inj e).2)

end

instance : DecidableEq Ty := Ty.decEq

namespace Ty

def isInteger : Ty → Bool
  | .int1 | .int32 => true
  | _ => false

def isFloat : Ty → Bool
  | .float => true
  | _ => false

def isVoid : Ty → Bool
  | .void => true
  | _ => false

def isPointer : Ty → Bool
  | .pointer _ => true
  | _ => false

def isArray : Ty → Bool
  | .array _ _ => true
  | _ => false

/-- `get_pointer_element_type`: `nullptr` on a type that is no pointer. -/
def pointerElementType : Ty → Option Ty
  | .pointer t => some t
  | _ => none

end Ty

end Cminusf
