import Cminusf.Cache.Interning
import Cminusf.Exec
import Cminusf.LightIR.Type
import Mathlib.Tactic.IntervalCases

/-! The types that a module makes. A `Type *` is the place of the type in the order of creation, and
the maps of the module are keyed by such pointers. -/

namespace Cminusf

open Interning

/-- A type with its parts. The parts are pointers, or in a request the numbers of earlier requests. -/
inductive TypeNode where
  | void
  | label
  | integer (numBits : Nat)
  | function (result : Nat) (params : List Nat)
  | array (contained : Nat) (numElements : BitVec 32)
  | pointer (contained : Nat)
  | float
deriving DecidableEq

/-- `FunctionType::is_valid_return_type`. -/
def Ty.isValidReturnType (t : Ty) : Bool := t.isInteger || t.isVoid || t.isFloat

/-- `FunctionType::is_valid_argument_type`. -/
def Ty.isValidArgumentType (t : Ty) : Bool := t.isInteger || t.isPointer || t.isFloat

/-- `ArrayType::is_valid_element_type`. -/
def Ty.isValidElementType (t : Ty) : Bool := t.isInteger || t.isArray || t.isFloat

namespace TypeNode

/-- The type, from the types of the parts. -/
def ty (part : Nat → Option Ty) : TypeNode → Option Ty
  | void => some .void
  | label => some .label
  | integer numBits =>
    if numBits = 1 then some .int1 else if numBits = 32 then some .int32 else none
  | float => some .float
  | pointer contained => (part contained).map .pointer
  | array contained numElements => do
    let t ← part contained
    if t.isValidElementType then some (.array t numElements.toNat) else none
  | function result params => do
    let t ← part result
    let ts ← params.mapM part
    if t.isValidReturnType && ts.all Ty.isValidArgumentType then some (.function t ts) else none

/-- The type with pointers for the numbers of requests. -/
def resolve (ps : List Nat) : TypeNode → Option TypeNode
  | pointer contained => (ps[contained]?).map pointer
  | array contained numElements => (ps[contained]?).map fun p => array p numElements
  | function result params => do
    return function (← ps[result]?) (← params.mapM (ps[·]?))
  | node => some node

def isInteger : TypeNode → Bool
  | integer _ => true
  | _ => false

def isVoid : TypeNode → Bool
  | void => true
  | _ => false

def isFloat : TypeNode → Bool
  | float => true
  | _ => false

def isPointer : TypeNode → Bool
  | pointer _ => true
  | _ => false

def isArray : TypeNode → Bool
  | array _ _ => true
  | _ => false

def pointerKey : TypeNode → Option Nat
  | pointer contained => some contained
  | _ => none

def arrayKey : TypeNode → Option (Nat × BitVec 32)
  | array contained numElements => some (contained, numElements)
  | _ => none

def functionKey : TypeNode → Option (Nat × List Nat)
  | function result params => some (result, params)
  | _ => none

end TypeNode

structure TypeModule where
  types : List TypeNode
  pointerMap : List (Nat × Nat)
  arrayMap : List ((Nat × BitVec 32) × Nat)
  functionMap : List ((Nat × List Nat) × Nat)

namespace TypeModule

/-- `void_ty_`, `label_ty_`, `int1_ty_`, `int32_ty_` and `float32_ty_`. -/
def basicTypes : List TypeNode := [.void, .label, .integer 1, .integer 32, .float]

/-- The constructor of `Module`. -/
def create : TypeModule := ⟨basicTypes, [], [], []⟩

/-- A check of a constructor on the type that a pointer points to. -/
def check (m : TypeModule) (valid : TypeNode → Bool) (p : Nat) : Exec Unit :=
  match m.types[p]? with
  | none => throw .undefinedBehaviour
  | some node => if valid node then return else throw .assertion

/-- `Module::get_pointer_type`. -/
def getPointerType (m : TypeModule) (contained : Nat) : Exec (Nat × TypeModule) :=
  match lookup (· == ·) m.pointerMap contained with
  | some p => return (p, m)
  | none => do
    m.check (fun _ => true) contained
    return (m.types.length, { m with
      types := m.types ++ [.pointer contained]
      pointerMap := m.pointerMap ++ [(contained, m.types.length)] })

/-- `Module::get_array_type`. -/
def getArrayType (m : TypeModule) (contained : Nat) (numElements : BitVec 32) :
    Exec (Nat × TypeModule) :=
  match lookup (· == ·) m.arrayMap (contained, numElements) with
  | some p => return (p, m)
  | none => do
    m.check (fun t => t.isInteger || t.isArray || t.isFloat) contained
    return (m.types.length, { m with
      types := m.types ++ [.array contained numElements]
      arrayMap := m.arrayMap ++ [((contained, numElements), m.types.length)] })

/-- `Module::get_function_type`. -/
def getFunctionType (m : TypeModule) (retty : Nat) (args : List Nat) : Exec (Nat × TypeModule) :=
  match lookup (· == ·) m.functionMap (retty, args) with
  | some p => return (p, m)
  | none => do
    m.check (fun t => t.isInteger || t.isVoid || t.isFloat) retty
    args.forM (m.check fun t => t.isInteger || t.isPointer || t.isFloat)
    return (m.types.length, { m with
      types := m.types ++ [.function retty args]
      functionMap := m.functionMap ++ [((retty, args), m.types.length)] })

/-- The functions that get a type, with pointers to its parts. -/
def get (m : TypeModule) : TypeNode → Exec (Nat × TypeModule)
  | .void => return (0, m)
  | .label => return (1, m)
  | .integer numBits =>
    if numBits = 1 then return (2, m)
    else if numBits = 32 then return (3, m)
    else throw .assertion
  | .float => return (4, m)
  | .pointer contained => m.getPointerType contained
  | .array contained numElements => m.getArrayType contained numElements
  | .function result params => m.getFunctionType result params

end TypeModule

/-- A request to a module. -/
inductive TypeRequest where
  | type (node : TypeNode)
  | int32Ptr
  | floatPtr

namespace TypeRequest

/-- `ps` are the pointers that earlier requests have returned. -/
def get (m : TypeModule) (ps : List Nat) : TypeRequest → Exec (Nat × TypeModule)
  | type n =>
    match n.resolve ps with
    | some n => m.get n
    | none => throw .undefinedBehaviour
  | int32Ptr => m.getPointerType 3
  | floatPtr => m.getPointerType 4

def getAll (m : TypeModule) (ps : List Nat) : List TypeRequest → Exec (List Nat × TypeModule)
  | [] => return (ps, m)
  | r :: rs => do
    let found ← r.get m ps
    getAll found.2 (ps ++ [found.1]) rs

/-- The type that a request denotes, from those that the earlier ones denote. -/
def ty (tys : List Ty) : TypeRequest → Option Ty
  | type n => n.ty (tys[·]?)
  | int32Ptr => some (.pointer .int32)
  | floatPtr => some (.pointer .float)

def tyAll (tys : List Ty) : List TypeRequest → Option (List Ty)
  | [] => some tys
  | r :: rs => do
    let t ← r.ty tys
    tyAll (tys ++ [t]) rs

end TypeRequest

/-- The types that the pointers of a module denote. -/
structure TypesDenote (types : List TypeNode) (den : List Ty) : Prop where
  length_eq : den.length = types.length
  nodup : den.Nodup
  ty_eq : ∀ (p : Nat) (node : TypeNode), types[p]? = some node → node.ty (den[·]?) = den[p]?

namespace TypeModule

/-- The maps hold the types made so far. -/
structure Holds (m : TypeModule) : Prop where
  basic : basicTypes <+: m.types
  pointerMap : m.pointerMap = view TypeNode.pointerKey m.types
  arrayMap : m.arrayMap = view TypeNode.arrayKey m.types
  functionMap : m.functionMap = view TypeNode.functionKey m.types

end TypeModule

variable {m : TypeModule} {types : List TypeNode} {den den' tys : List Ty} {ps : List Nat}
  {node node' : TypeNode} {p q i : Nat} {t : Ty} {part part' : Nat → Option Ty}

theorem mapM_eq_some {as : List Nat} {ts : List Ty} :
    as.mapM part = some ts ↔ as.map part = ts.map some := by
  induction as generalizing ts with
  | nil =>
    rw [List.mapM_nil, List.map_nil, eq_comm (a := []), List.map_eq_nil_iff]
    exact ⟨fun h => (Option.some.inj h).symm, fun h => congrArg some h.symm⟩
  | cons a as ih =>
    simp only [List.mapM_cons, Option.bind_eq_bind, Option.bind_eq_some_iff, Option.pure_def,
      Option.some.injEq, ih, List.map_cons]
    constructor
    · rintro ⟨t, ht, ts, hts, rfl⟩
      rw [ht, hts, List.map_cons]
    · intro h
      cases ts with
      | nil => cases h
      | cons t ts =>
        obtain ⟨ht, hts⟩ := List.cons.inj h
        exact ⟨t, ht, ts, hts, rfl⟩

theorem mapM_inj (hpart : ∀ p q t, part p = some t → part q = some t → p = q) {ts : List Ty}
    {as bs : List Nat} (ha : as.mapM part = some ts) (hb : bs.mapM part = some ts) : as = bs := by
  rw [mapM_eq_some] at ha hb
  have hlen : as.length = bs.length := by
    simpa using congrArg List.length (ha.trans hb.symm)
  refine List.ext_getElem hlen fun i hi hi' => ?_
  have hts : i < (ts.map some).length := by
    rw [← ha, List.length_map]
    exact hi
  rw [List.length_map] at hts
  apply hpart _ _ ts[i]
  · have := List.getElem_of_eq ha (i := i) (by simpa using hi)
    simpa using this
  · have := List.getElem_of_eq hb (i := i) (by simpa using hi')
    simpa using this

/-- The constructor and the parts of a type. -/
inductive TyOf (part : Nat → Option Ty) : TypeNode → Ty → Prop where
  | void : TyOf part .void .void
  | label : TyOf part .label .label
  | int1 : TyOf part (.integer 1) .int1
  | int32 : TyOf part (.integer 32) .int32
  | float : TyOf part .float .float
  | pointer {c : Nat} {u : Ty} : part c = some u → TyOf part (.pointer c) (.pointer u)
  | array {c k : Nat} {n : BitVec 32} {u : Ty} : part c = some u → u.isValidElementType →
      n.toNat = k → TyOf part (.array c n) (.array u k)
  | function {c : Nat} {params : List Nat} {u : Ty} {ts : List Ty} : part c = some u →
      params.mapM part = some ts → u.isValidReturnType → ts.all Ty.isValidArgumentType →
      TyOf part (.function c params) (.function u ts)

theorem TypeNode.ty_eq_some : node.ty part = some t ↔ TyOf part node t := by
  constructor
  · intro h
    cases node with
    | void | label | float =>
      cases h
      constructor
    | integer n =>
      rw [ty] at h
      split at h
      · cases h
        subst n
        exact .int1
      · obtain ⟨hn, ht⟩ := Option.ite_none_right_eq_some.mp h
        cases ht
        subst n
        exact .int32
    | pointer c =>
      obtain ⟨u, hu, rfl⟩ := Option.map_eq_some_iff.mp h
      exact .pointer hu
    | array c n =>
      obtain ⟨u, hu, h⟩ := Option.bind_eq_some_iff.mp h
      obtain ⟨hvalid, ht⟩ := Option.ite_none_right_eq_some.mp h
      cases ht
      exact .array hu hvalid rfl
    | function c params =>
      obtain ⟨u, hu, h⟩ := Option.bind_eq_some_iff.mp h
      obtain ⟨ts, hts, h⟩ := Option.bind_eq_some_iff.mp h
      obtain ⟨hvalid, ht⟩ := Option.ite_none_right_eq_some.mp h
      cases ht
      obtain ⟨hret, hargs⟩ := Bool.and_eq_true_iff.mp hvalid
      exact .function hu hts hret hargs
  · intro h
    cases h with
    | pointer hu => simp [ty, hu]
    | array hu hvalid hn => simp [ty, hu, hvalid, hn]
    | function hu hts hret hargs =>
      simp only [ty, hu, hts, hret, hargs, Option.bind_eq_bind, Option.bind_some, Bool.and_self,
        if_true]
    | _ => rfl

/-- A type has one constructor and one list of parts. -/
theorem TypeNode.ty_inj (hpart : ∀ p q t, part p = some t → part q = some t → p = q)
    (h : node.ty part = some t) (h' : node'.ty part = some t) : node = node' := by
  rw [ty_eq_some] at h h'
  cases h with
  | pointer hu =>
    cases h' with
    | pointer hu' => rw [hpart _ _ _ hu hu']
  | array hu _ hn =>
    cases h' with
    | array hu' _ hn' => rw [hpart _ _ _ hu hu', BitVec.eq_of_toNat_eq (hn.trans hn'.symm)]
  | function hu hts =>
    cases h' with
    | function hu' hts' => rw [hpart _ _ _ hu hu', mapM_inj hpart hts hts']
  | _ =>
    cases h'
    rfl

theorem TypeNode.ty_mono (hpart : ∀ p t, part p = some t → part' p = some t)
    (h : node.ty part = some t) : node.ty part' = some t := by
  rw [ty_eq_some] at h ⊢
  cases h with
  | pointer hu => exact .pointer (hpart _ _ hu)
  | array hu hvalid hn => exact .array (hpart _ _ hu) hvalid hn
  | function hu hts hret hargs =>
    refine .function (hpart _ _ hu) ?_ hret hargs
    rw [mapM_eq_some] at hts ⊢
    rw [← hts]
    refine List.map_congr_left fun a ha => ?_
    obtain ⟨u, -, hu⟩ := List.mem_map.mp (hts ▸ List.mem_map_of_mem ha)
    rw [← hu, hpart _ _ hu.symm]
  | _ => constructor

/-- The checks of the constructors see the constructor of the denoted type. -/
theorem TyOf.kind (h : TyOf part node t) : node.isInteger = t.isInteger ∧
    node.isVoid = t.isVoid ∧ node.isFloat = t.isFloat ∧ node.isPointer = t.isPointer ∧
      node.isArray = t.isArray := by
  cases h <;> exact ⟨rfl, rfl, rfl, rfl, rfl⟩

namespace TypesDenote

theorem part_inj (h : TypesDenote types den) (hp : den[p]? = some t) (hq : den[q]? = some t) :
    p = q := by
  obtain ⟨hlt, -⟩ := List.getElem?_eq_some_iff.mp hp
  exact (List.getElem?_inj hlt h.nodup).mp (hp.trans hq.symm)

theorem exists_node (h : TypesDenote types den) (hp : den[p]? = some t) :
    ∃ node, types[p]? = some node ∧ TyOf (den[·]?) node t := by
  obtain ⟨hlt, -⟩ := List.getElem?_eq_some_iff.mp hp
  rw [h.length_eq] at hlt
  refine ⟨types[p], List.getElem?_eq_getElem hlt, TypeNode.ty_eq_some.mp ?_⟩
  rw [h.ty_eq p _ (List.getElem?_eq_getElem hlt), hp]

theorem snoc (h : TypesDenote types den) (hty : node.ty (den[·]?) = some t) (hnew : node ∉ types) :
    TypesDenote (types ++ [node]) (den ++ [t]) := by
  have hmono : ∀ (p : Nat) (u : Ty), den[p]? = some u → (den ++ [t])[p]? = some u := by
    intro p u hp
    obtain ⟨hlt, -⟩ := List.getElem?_eq_some_iff.mp hp
    rw [List.getElem?_append_left hlt, hp]
  constructor
  · simp [h.length_eq]
  · refine List.nodup_append.mpr ⟨h.nodup, by simp, fun u hu u' hu' he => ?_⟩
    rw [List.mem_singleton] at hu'
    subst he hu'
    -- An equal type would have been made of the same parts.
    obtain ⟨q, hq, rfl⟩ := List.getElem_of_mem hu
    obtain ⟨node', hnode', hty'⟩ := h.exists_node (List.getElem?_eq_getElem hq)
    have he : node' = node :=
      TypeNode.ty_inj (fun p q t => h.part_inj) (TypeNode.ty_eq_some.mpr hty') hty
    exact hnew (he ▸ List.mem_of_getElem? hnode')
  · intro p node' hp
    by_cases hlt : p < types.length
    · rw [List.getElem?_append_left hlt] at hp
      have hden := h.ty_eq p node' hp
      have hlt' : p < den.length := by rwa [h.length_eq]
      rw [List.getElem?_eq_getElem hlt'] at hden
      rw [TypeNode.ty_mono hmono hden, List.getElem?_append_left hlt',
        List.getElem?_eq_getElem hlt']
    · have hend : p = types.length := by
        obtain ⟨hp', -⟩ := List.getElem?_eq_some_iff.mp hp
        rw [List.length_append, List.length_singleton] at hp'
        omega
      subst hend
      obtain rfl : node = node' := by simpa using hp
      rw [TypeNode.ty_mono hmono hty, ← h.length_eq]
      simp

end TypesDenote

namespace TypeModule

/-- What the map for a type has of it. -/
def find (m : TypeModule) : TypeNode → Option Nat
  | .pointer contained => lookup (· == ·) m.pointerMap contained
  | .array contained numElements => lookup (· == ·) m.arrayMap (contained, numElements)
  | .function result params => lookup (· == ·) m.functionMap (result, params)
  | node => basicTypes.findIdx? (· == node)

/-- The module with a new type. -/
def made (m : TypeModule) (node : TypeNode) : TypeModule where
  types := m.types ++ [node]
  pointerMap := extend m.pointerMap node.pointerKey m.types.length
  arrayMap := extend m.arrayMap node.arrayKey m.types.length
  functionMap := extend m.functionMap node.functionKey m.types.length

theorem made_holds (h : m.Holds) : (m.made node).Holds := by
  constructor
  · exact h.basic.trans (List.prefix_append _ _)
  · simp only [made, h.pointerMap, view_snoc]
  · simp only [made, h.arrayMap, view_snoc]
  · simp only [made, h.functionMap, view_snoc]

/-- A type is looked for in one map only, and it is in no other. -/
theorem find_eq (h : m.Holds) (hint : ∀ n, node = .integer n → n = 1 ∨ n = 32) :
    m.find node = m.types.findIdx? (· == node) := by
  obtain ⟨rest, hrest⟩ := h.basic
  have hbasic : ∀ i, basicTypes.findIdx? (· == node) = some i →
      some i = m.types.findIdx? (· == node) := by
    intro i hi
    rw [← hrest, List.findIdx?_append, hi]
    rfl
  cases node with
  | pointer =>
    rw [find, h.pointerMap]
    refine lookup_view fun node => Bool.eq_iff_iff.mpr ?_
    cases node <;> simp [TypeNode.pointerKey]
  | array =>
    rw [find, h.arrayMap]
    refine lookup_view fun node => Bool.eq_iff_iff.mpr ?_
    cases node <;> simp [TypeNode.arrayKey]
  | function =>
    rw [find, h.functionMap]
    refine lookup_view fun node => Bool.eq_iff_iff.mpr ?_
    cases node <;> simp [TypeNode.functionKey]
  | void => exact hbasic 0 rfl
  | label => exact hbasic 1 rfl
  | integer n =>
    rcases hint n rfl with rfl | rfl
    · exact hbasic 2 rfl
    · exact hbasic 3 rfl
  | float => exact hbasic 4 rfl

theorem find_eq_of_ty (h : m.Holds) (hty : TyOf part node t) :
    m.find node = m.types.findIdx? (· == node) := by
  apply find_eq h
  rintro n rfl
  cases hty with
  | int1 => exact .inl rfl
  | int32 => exact .inr rfl

theorem check_ok {valid : TypeNode → Bool} (h : m.types[p]? = some node) (hvalid : valid node) :
    m.check valid p = .ok () := by
  rw [check, h]
  exact if_pos hvalid

theorem forM_ok {f : Nat → Exec Unit} {ps : List Nat} (h : ∀ p ∈ ps, f p = .ok ()) :
    ps.forM f = .ok () := by
  induction ps with
  | nil => rfl
  | cons p ps ih =>
    obtain ⟨hp, hps⟩ := List.forall_mem_cons.mp h
    show (f p >>= fun _ => ps.forM f) = _
    rw [hp]
    exact ih hps

theorem get_of_some (hty : TyOf part node t) (h : m.find node = some p) :
    m.get node = .ok (p, m) := by
  cases hty with
  | pointer => rw [get, getPointerType, show lookup _ m.pointerMap _ = some p from h]; rfl
  | array => rw [get, getArrayType, show lookup _ m.arrayMap _ = some p from h]; rfl
  | function => rw [get, getFunctionType, show lookup _ m.functionMap _ = some p from h]; rfl
  | _ => cases h; rfl

/-- A type whose parts pass the checks is made. -/
theorem get_of_none (hden : TypesDenote m.types den) (hty : TyOf (den[·]?) node t)
    (h : m.find node = none) : m.get node = .ok (m.types.length, m.made node) := by
  cases hty with
  | pointer hu =>
    obtain ⟨part, hpart, -⟩ := hden.exists_node hu
    rw [get, getPointerType, show lookup _ m.pointerMap _ = none from h]
    simp only
    rw [check_ok hpart rfl]
    simp only [made, extend, TypeNode.pointerKey, TypeNode.arrayKey, TypeNode.functionKey,
      Option.map_none, Option.map_some, Option.toList_none, Option.toList_some, List.append_nil]
    rfl
  | array hu hvalid hn =>
    obtain ⟨part, hpart, hty⟩ := hden.exists_node hu
    obtain ⟨hint, -, hfloat, -, harray⟩ := hty.kind
    rw [get, getArrayType, show lookup _ m.arrayMap _ = none from h]
    simp only
    rw [check_ok hpart (by rw [hint, harray, hfloat]; exact hvalid)]
    simp only [made, extend, TypeNode.pointerKey, TypeNode.arrayKey, TypeNode.functionKey,
      Option.map_none, Option.map_some, Option.toList_none, Option.toList_some, List.append_nil]
    rfl
  | function hu hts hret hargs =>
    obtain ⟨part, hpart, hty⟩ := hden.exists_node hu
    obtain ⟨hint, hvoid, hfloat, -, -⟩ := hty.kind
    rw [get, getFunctionType, show lookup _ m.functionMap _ = none from h]
    simp only
    rw [check_ok hpart (by rw [hint, hvoid, hfloat]; exact hret), forM_ok]
    · simp only [made, extend, TypeNode.pointerKey, TypeNode.arrayKey, TypeNode.functionKey,
        Option.map_none, Option.map_some, Option.toList_none, Option.toList_some, List.append_nil]
      rfl
    · intro a ha
      rw [mapM_eq_some] at hts
      obtain ⟨u, hu, hua⟩ := List.mem_map.mp (hts ▸ List.mem_map_of_mem ha)
      obtain ⟨arg, harg, hty⟩ := hden.exists_node hua.symm
      obtain ⟨hint, -, hfloat, hpointer, -⟩ := hty.kind
      refine check_ok harg ?_
      rw [hint, hpointer, hfloat]
      exact List.all_eq_true.mp hargs u hu
  | _ => cases h

/-- A request that denotes a type gets the pointer to it. -/
theorem get_spec (hm : m.Holds) (hden : TypesDenote m.types den) (hty : node.ty (den[·]?) = some t) :
    ∃ p m' den', m.get node = .ok (p, m') ∧ m'.Holds ∧ TypesDenote m'.types den' ∧ den <+: den' ∧
      den'[p]? = some t := by
  have hof := TypeNode.ty_eq_some.mp hty
  cases hfind : m.types.findIdx? (· == node) with
  | some p =>
    obtain ⟨node', hnode', he⟩ := findIdx?_spec hfind
    obtain rfl := eq_of_beq he
    refine ⟨p, m, den, get_of_some hof ((find_eq_of_ty hm hof).trans hfind), hm, hden,
      List.prefix_refl _, ?_⟩
    rw [← hden.ty_eq p _ hnode', hty]
  | none =>
    have hnew : node ∉ m.types := by
      intro hmem
      simpa using List.findIdx?_eq_none_iff.mp hfind node hmem
    refine ⟨m.types.length, m.made node, den ++ [t],
      get_of_none hden hof ((find_eq_of_ty hm hof).trans hfind), made_holds hm, hden.snoc hty hnew,
      List.prefix_append _ _, ?_⟩
    rw [← hden.length_eq]
    simp

theorem check_eq_ok {valid : TypeNode → Bool} (h : m.check valid p = .ok ()) :
    ∃ node, m.types[p]? = some node ∧ valid node := by
  rw [check] at h
  split at h
  · cases h
  · rename_i node hnode
    exact ⟨node, hnode, (Exec.ite_throw_eq_ok.mp h).1⟩

theorem forM_eq_ok {f : Nat → Exec Unit} {ps : List Nat} (h : ps.forM f = .ok ()) :
    ∀ p ∈ ps, f p = .ok () := by
  induction ps with
  | nil => simp
  | cons p ps ih =>
    obtain ⟨_, hp, hps⟩ := Exec.bind_eq_ok.mp h
    exact List.forall_mem_cons.mpr ⟨hp, ih hps⟩

/-- A part that passes the check of a constructor denotes a type. -/
theorem exists_ty_of_check {valid : TypeNode → Bool} (hden : TypesDenote m.types den)
    (h : m.check valid p = .ok ()) :
    ∃ node t, den[p]? = some t ∧ TyOf (den[·]?) node t ∧ valid node := by
  obtain ⟨node, hnode, hvalid⟩ := check_eq_ok h
  obtain ⟨hlt, -⟩ := List.getElem?_eq_some_iff.mp hnode
  rw [← hden.length_eq] at hlt
  have hty := hden.ty_eq p node hnode
  rw [List.getElem?_eq_getElem hlt] at hty
  exact ⟨node, den[p], List.getElem?_eq_getElem hlt, TypeNode.ty_eq_some.mp hty, hvalid⟩

theorem ty_of_find (hden : TypesDenote m.types den) (h : m.types.findIdx? (· == node) = some p) :
    ∃ t, TyOf (den[·]?) node t := by
  obtain ⟨node', hnode', he⟩ := findIdx?_spec h
  obtain rfl := eq_of_beq he
  obtain ⟨hlt, -⟩ := List.getElem?_eq_some_iff.mp hnode'
  rw [← hden.length_eq] at hlt
  refine ⟨den[p], TypeNode.ty_eq_some.mp ?_⟩
  rw [hden.ty_eq p _ hnode', List.getElem?_eq_getElem hlt]

theorem tys_of_checks {params : List Nat} (hden : TypesDenote m.types den)
    (h : ∀ a ∈ params, m.check (fun t => t.isInteger || t.isPointer || t.isFloat) a = .ok ()) :
    ∃ ts, params.mapM (den[·]?) = some ts ∧ ts.all Ty.isValidArgumentType := by
  induction params with
  | nil => exact ⟨[], rfl, rfl⟩
  | cons a params ih =>
    obtain ⟨ha, h⟩ := List.forall_mem_cons.mp h
    obtain ⟨ts, hts, hargs⟩ := ih h
    obtain ⟨node, t, ht, hty, hvalid⟩ := exists_ty_of_check hden ha
    obtain ⟨hint, -, hfloat, hpointer, -⟩ := hty.kind
    rw [hint, hpointer, hfloat] at hvalid
    refine ⟨t :: ts, by simp [List.mapM_cons, ht, hts], ?_⟩
    rw [List.all_cons, hargs, Bool.and_true]
    exact hvalid

/-- What a request returns denotes a type. -/
theorem ty_of_get {r : Nat × TypeModule} (hm : m.Holds) (hden : TypesDenote m.types den)
    (h : m.get node = .ok r) : ∃ t, TyOf (den[·]?) node t := by
  cases node with
  | void => exact ⟨_, .void⟩
  | label => exact ⟨_, .label⟩
  | float => exact ⟨_, .float⟩
  | integer n =>
    rw [get] at h
    split at h
    · subst n
      exact ⟨_, .int1⟩
    · obtain ⟨rfl, -⟩ := Exec.ite_throw_eq_ok.mp h
      exact ⟨_, .int32⟩
  | pointer c =>
    have hfind : m.find (.pointer c) = _ := find_eq hm (by simp)
    cases hp : m.find (.pointer c) with
    | some p => exact ty_of_find hden (hfind.symm.trans hp)
    | none =>
      rw [get, getPointerType, show lookup _ m.pointerMap _ = none from hp] at h
      obtain ⟨_, hcheck, -⟩ := Exec.bind_eq_ok.mp h
      obtain ⟨-, u, hu, -⟩ := exists_ty_of_check hden hcheck
      exact ⟨_, .pointer hu⟩
  | array c n =>
    have hfind : m.find (.array c n) = _ := find_eq hm (by simp)
    cases hp : m.find (.array c n) with
    | some p => exact ty_of_find hden (hfind.symm.trans hp)
    | none =>
      rw [get, getArrayType, show lookup _ m.arrayMap _ = none from hp] at h
      obtain ⟨_, hcheck, -⟩ := Exec.bind_eq_ok.mp h
      obtain ⟨node, u, hu, hty, hvalid⟩ := exists_ty_of_check hden hcheck
      obtain ⟨hint, -, hfloat, -, harray⟩ := hty.kind
      rw [hint, hfloat, harray] at hvalid
      exact ⟨_, .array hu hvalid rfl⟩
  | function c params =>
    have hfind : m.find (.function c params) = _ := find_eq hm (by simp)
    cases hp : m.find (.function c params) with
    | some p => exact ty_of_find hden (hfind.symm.trans hp)
    | none =>
      rw [get, getFunctionType, show lookup _ m.functionMap _ = none from hp] at h
      obtain ⟨_, hcheck, h⟩ := Exec.bind_eq_ok.mp h
      obtain ⟨_, hchecks, -⟩ := Exec.bind_eq_ok.mp h
      obtain ⟨node, u, hu, hty, hvalid⟩ := exists_ty_of_check hden hcheck
      obtain ⟨hint, hvoid, hfloat, -, -⟩ := hty.kind
      rw [hint, hvoid, hfloat] at hvalid
      obtain ⟨ts, hts, hargs⟩ := tys_of_checks hden (forM_eq_ok hchecks)
      exact ⟨_, .function hu hts hvalid hargs⟩

end TypeModule

/-- The pointers that earlier requests have returned point to the types that these denote. -/
def PointTo (den : List Ty) (ps : List Nat) (tys : List Ty) : Prop :=
  ps.map (den[·]?) = tys.map some

theorem PointTo.nil : PointTo den [] [] := rfl

theorem PointTo.getElem? (h : PointTo den ps tys) (i : Nat) :
    tys[i]? = (ps[i]?).bind (den[·]?) := by
  have hi := congrArg (·[i]?) h
  simp only [List.getElem?_map] at hi
  cases hp : ps[i]? with
  | none =>
    rw [hp, Option.map_none, eq_comm, Option.map_eq_none_iff] at hi
    exact hi
  | some p =>
    rw [hp, Option.map_some] at hi
    cases ht : tys[i]? with
    | none =>
      rw [ht] at hi
      cases hi
    | some t =>
      rw [ht, Option.map_some, Option.some.injEq] at hi
      exact hi.symm

theorem PointTo.mapM (h : PointTo den ps tys) (is : List Nat) :
    is.mapM (tys[·]?) = (is.mapM (ps[·]?)).bind fun as => as.mapM (den[·]?) := by
  induction is with
  | nil => rfl
  | cons i is ih =>
    simp only [List.mapM_cons, Option.bind_eq_bind, ih, h.getElem? i]
    cases ps[i]? with
    | none => rfl
    | some p =>
      cases is.mapM (ps[·]?) with
      | none =>
        simp only [Option.bind_some, Option.bind_none]
        cases den[p]? <;> rfl
      | some as => simp [List.mapM_cons]

/-- The type of a request is that of the type with pointers in it. -/
theorem PointTo.ty_resolve (h : PointTo den ps tys) :
    node.ty (tys[·]?) = (node.resolve ps).bind fun node => node.ty (den[·]?) := by
  cases node with
  | pointer i =>
    simp only [TypeNode.ty, TypeNode.resolve, h.getElem? i]
    cases ps[i]? <;> rfl
  | array i n =>
    simp only [TypeNode.ty, TypeNode.resolve, h.getElem? i]
    cases ps[i]? <;> rfl
  | function i is =>
    simp only [TypeNode.ty, TypeNode.resolve, h.getElem? i, h.mapM, Option.bind_eq_bind]
    cases ps[i]? with
    | none => rfl
    | some p =>
      cases is.mapM (ps[·]?) with
      | none =>
        simp only [Option.bind_some, Option.bind_none]
        cases den[p]? <;> rfl
      | some as => rfl
  | _ => rfl

namespace TypeRequest

open TypeModule

variable {r : TypeRequest} {rs : List TypeRequest} {m' : TypeModule}

/-- A request as a type over pointers. -/
def nodeOver (ps : List Nat) : TypeRequest → Option TypeNode
  | type n => n.resolve ps
  | int32Ptr => some (.pointer 3)
  | floatPtr => some (.pointer 4)

theorem get_eq_ok {x : Nat × TypeModule} :
    r.get m ps = .ok x ↔ ∃ n, r.nodeOver ps = some n ∧ m.get n = .ok x := by
  cases r with
  | type n =>
    rw [get, nodeOver]
    cases n.resolve ps with
    | none =>
      constructor
      · intro h
        cases h
      · intro ⟨_, h, _⟩
        cases h
    | some n => simp
  | int32Ptr => simp [get, nodeOver, TypeModule.get]
  | floatPtr => simp [get, nodeOver, TypeModule.get]

theorem ty_nodeOver (hm : m.Holds) (hden : TypesDenote m.types den) (h : PointTo den ps tys) :
    r.ty tys = (r.nodeOver ps).bind fun n => n.ty (den[·]?) := by
  obtain ⟨rest, hrest⟩ := hm.basic
  have hint32 := hden.ty_eq 3 (.integer 32) (by rw [← hrest]; rfl)
  have hfloat := hden.ty_eq 4 .float (by rw [← hrest]; rfl)
  cases r with
  | type n => exact h.ty_resolve
  | int32Ptr =>
    simp only [ty, nodeOver, Option.bind_some, TypeNode.ty, ← hint32]
    rfl
  | floatPtr =>
    simp only [ty, nodeOver, Option.bind_some, TypeNode.ty, ← hfloat]
    rfl

/-- A run returns just when all of its requests denote types, and its pointers point to them. -/
theorem getAll_spec (hm : m.Holds) (hden : TypesDenote m.types den) (h : PointTo den ps tys) :
    (∀ ts, tyAll tys rs = some ts → ∃ ps' m' den', getAll m ps rs = .ok (ps', m') ∧
      den'.Nodup ∧ PointTo den' ps' ts) ∧
      ∀ x, getAll m ps rs = .ok x → ∃ ts, tyAll tys rs = some ts := by
  induction rs generalizing m den ps tys with
  | nil =>
    exact ⟨fun ts hts => ⟨ps, m, den, rfl, hden.nodup, Option.some.inj hts ▸ h⟩,
      fun x _ => ⟨tys, rfl⟩⟩
  | cons r rs ih =>
    have hty := ty_nodeOver (r := r) hm hden h
    have hnext : ∀ {n : TypeNode} {t : Ty}, n.ty (den[·]?) = some t →
        ∃ p m' den', m.get n = .ok (p, m') ∧ m'.Holds ∧ TypesDenote m'.types den' ∧
          PointTo den' (ps ++ [p]) (tys ++ [t]) := by
      intro n t hn
      obtain ⟨p, m', den', hget, hm', hden', ⟨more, rfl⟩, hp⟩ := get_spec hm hden hn
      refine ⟨p, m', den ++ more, hget, hm', hden', ?_⟩
      rw [PointTo, List.map_append, List.map_append, List.map_singleton, List.map_singleton, hp]
      refine congrArg (· ++ [some t]) (Eq.trans (List.map_congr_left fun q hq => ?_) h)
      obtain ⟨u, -, hu⟩ := List.mem_map.mp (h ▸ List.mem_map_of_mem hq)
      obtain ⟨hlt, -⟩ := List.getElem?_eq_some_iff.mp hu.symm
      exact List.getElem?_append_left hlt
    constructor
    · intro ts hts
      obtain ⟨t, ht, hts⟩ := Option.bind_eq_some_iff.mp hts
      rw [hty] at ht
      obtain ⟨n, hn, hnt⟩ := Option.bind_eq_some_iff.mp ht
      obtain ⟨p, m', den', hget, hm', hden', h'⟩ := hnext hnt
      obtain ⟨ps', m'', den'', hrun, hresult⟩ := (ih hm' hden' h').1 ts hts
      refine ⟨ps', m'', den'', ?_, hresult⟩
      rw [getAll, get_eq_ok.mpr ⟨n, hn, hget⟩]
      exact hrun
    · intro x hx
      obtain ⟨found, hfound, hx⟩ := Exec.bind_eq_ok.mp hx
      obtain ⟨n, hn, hget⟩ := get_eq_ok.mp hfound
      obtain ⟨t, hof⟩ := ty_of_get hm hden hget
      have hnt := TypeNode.ty_eq_some.mpr hof
      obtain ⟨p, m', den', hget', hm', hden', h'⟩ := hnext hnt
      obtain rfl := Except.ok.inj (hget.symm.trans hget')
      obtain ⟨ts, hts⟩ := (ih hm' hden' h').2 x hx
      refine ⟨ts, ?_⟩
      rw [tyAll, hty, hn]
      simp [hnt, hts]

theorem create_holds : create.Holds := ⟨List.prefix_refl _, rfl, rfl, rfl⟩

theorem create_denote : TypesDenote create.types [.void, .label, .int1, .int32, .float] where
  length_eq := rfl
  nodup := by decide
  ty_eq p node hp := by
    obtain ⟨hlt, rfl⟩ := List.getElem?_eq_some_iff.mp hp
    have hlt' : p < 5 := hlt
    interval_cases p <;> rfl

/-- `Type::is_eq_type`. -/
def isEqType (ty1 ty2 : Nat) : Bool := ty1 == ty2

/-- A sequence of requests to a new module returns just when all of them denote types, and two of
them return one pointer just when they denote the same type. -/
theorem isEqType_iff (rs : List TypeRequest) :
    ((∃ x, getAll create [] rs = .ok x) ↔ ∃ ts, tyAll [] rs = some ts) ∧
      ∀ ps m ts, getAll create [] rs = .ok (ps, m) → tyAll [] rs = some ts →
        ps.length = ts.length ∧
          ∀ (i j p q : Nat) (t u : Ty), ps[i]? = some p → ps[j]? = some q → ts[i]? = some t →
            ts[j]? = some u → (isEqType p q ↔ t = u) := by
  obtain ⟨hreturns, hty⟩ : (∀ ts, tyAll [] rs = some ts → ∃ ps' m' den',
      getAll create [] rs = .ok (ps', m') ∧ den'.Nodup ∧ PointTo den' ps' ts) ∧
        ∀ x, getAll create [] rs = .ok x → ∃ ts, tyAll [] rs = some ts :=
    getAll_spec create_holds create_denote PointTo.nil
  constructor
  · constructor
    · intro ⟨x, hx⟩
      exact hty x hx
    · intro ⟨ts, hts⟩
      obtain ⟨ps, m, -, hrun, -⟩ := hreturns ts hts
      exact ⟨(ps, m), hrun⟩
  · intro ps m ts hrun hts
    obtain ⟨ps', m', den, hrun', hnodup, hpoint⟩ := hreturns ts hts
    cases hrun.symm.trans hrun'
    refine ⟨by simpa using congrArg List.length hpoint, ?_⟩
    intro i j p q t u hp hq ht hu
    have hpt : den[p]? = some t := by
      rw [hpoint.getElem?, hp] at ht
      exact ht
    have hqu : den[q]? = some u := by
      rw [hpoint.getElem?, hq] at hu
      exact hu
    rw [isEqType, beq_iff_eq]
    constructor
    · rintro rfl
      exact Option.some.inj (hpt.symm.trans hqu)
    · rintro rfl
      obtain ⟨hlt, -⟩ := List.getElem?_eq_some_iff.mp hpt
      exact (List.getElem?_inj hlt hnodup).mp (hpt.trans hqu.symm)

end TypeRequest

end Cminusf
