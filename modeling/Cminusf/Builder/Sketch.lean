import Cminusf.Graph.IdomTree
import Cminusf.LightIR.Update

/-! Sketches of a module under construction. A sketch remembers for each block the
block at the insert point when it was created, its origin; the origins form a tree
whose chains are dominators, whatever is emitted later. -/

namespace Cminusf

namespace Builder

/-- The instructions whose result the visitors pass on as a value. -/
def yieldsValue : OpID → Bool
  | .alloca _ | .store | .br | .ret => false
  | _ => true

/-- A value computed on every path to `b` by one of the first `n` instructions. -/
def ValueAt (m : Module) (origin : Nat → Option Nat) (n b : Nat) : Value → Prop
  | .instruction j => j < n ∧ Graph.Ancestor origin (m.instrs j).parent b ∧
      yieldsValue (m.instrs j).opId
  | .constInt _ | .constBool _ | .constFP _ | .constZero _ => True
  | _ => False

/-- The address of a variable or of an array element. -/
def AddressAt (m : Module) (origin : Nat → Option Nat) (n b : Nat) : Value → Prop
  | .instruction j => j < n ∧ Graph.Ancestor origin (m.instrs j).parent b ∧
      ((m.instrs j).isAlloca ∨ (m.instrs j).isGep)
  | .globalVariable g => g < m.numGlobals
  | _ => False

/-- A block to which `b` may branch. -/
def TargetAt (m : Module) (origin : Nat → Option Nat) (b t : Nat) : Prop :=
  t < m.numBlocks ∧ ∃ c, origin t = some c ∧ Graph.Ancestor origin c b

/-- The instructions that the visitors create at the end of `b`. -/
inductive Emits (m : Module) (origin : Nat → Option Nat) (n b : Nat) :
    OpID → Ty → List Value → Prop where
  | binary {op : BinaryOp} {ty : Ty} {x y : Value} : ValueAt m origin n b x →
      ValueAt m origin n b y → Emits m origin n b (.binary op) ty [x, y]
  | cmp {op : CmpOp} {x y : Value} : ValueAt m origin n b x → ValueAt m origin n b y →
      Emits m origin n b (.cmp op) .int1 [x, y]
  | fcmp {op : CmpOp} {x y : Value} : ValueAt m origin n b x → ValueAt m origin n b y →
      Emits m origin n b (.fcmp op) .int1 [x, y]
  | zext {ty : Ty} {x : Value} : ValueAt m origin n b x → Emits m origin n b (.zext ty) ty [x]
  | fptosi {ty : Ty} {x : Value} : ValueAt m origin n b x → Emits m origin n b (.fptosi ty) ty [x]
  | sitofp {ty : Ty} {x : Value} : ValueAt m origin n b x → Emits m origin n b (.sitofp ty) ty [x]
  | alloca {ty : Ty} : Emits m origin n b (.alloca ty) (.pointer ty) []
  | load {ty : Ty} {ptr : Value} : AddressAt m origin n b ptr → m.getType ptr = .pointer ty →
      Emits m origin n b .load ty [ptr]
  | store {val ptr : Value} : ValueAt m origin n b val → AddressAt m origin n b ptr →
      Emits m origin n b .store .void [val, ptr]
  | storeArg {k : Nat} {ptr : Value} :
      k < (m.functions (m.blocks b).parent).paramTypes.length → AddressAt m origin n b ptr →
      Emits m origin n b .store .void [.argument (m.blocks b).parent k, ptr]
  | gep {elementTy : Ty} {ptr : Value} {idxs : List Value} :
      AddressAt m origin n b ptr ∨ ValueAt m origin n b ptr →
      (∀ idx ∈ idxs, ValueAt m origin n b idx) →
      Emits m origin n b (.getelementptr elementTy) (.pointer elementTy) (ptr :: idxs)
  | call {f : Nat} {args : List Value} : f < m.numFunctions →
      (m.functions f).paramTypes.length = args.length → (∀ arg ∈ args, ValueAt m origin n b arg) →
      Emits m origin n b .call (m.functions f).returnType (.function f :: args)
  | retVoid : Emits m origin n b .ret .void []
  | ret {val : Value} : ValueAt m origin n b val → Emits m origin n b .ret .void [val]
  | br {t : Nat} : TargetAt m origin b t → Emits m origin n b .br .void [.basicBlock t]
  | condBr {cond : Value} {t f : Nat} : ValueAt m origin n b cond → TargetAt m origin b t →
      TargetAt m origin b f → t ≠ f →
      Emits m origin n b .br .void [cond, .basicBlock t, .basicBlock f]

/-- The blocks among the operands of an instruction. -/
def labels (ops : List Value) : List Nat :=
  ops.filterMap fun v => match v with | .basicBlock t => some t | _ => none

@[simp] theorem mem_labels {ops : List Value} {t : Nat} :
    t ∈ labels ops ↔ .basicBlock t ∈ ops := by
  simp only [labels, List.mem_filterMap]
  constructor
  · rintro ⟨v, hv, ht⟩
    cases v <;> cases ht
    exact hv
  · exact fun h => ⟨_, h, rfl⟩

/-- The edges that `create_br` and `create_cond_br` add. -/
def link (m : Module) (b : Nat) (ts : List Nat) : Module :=
  ts.reverse.foldl (fun m t => m.addSuccBasicBlock b t)
    (ts.foldl (fun m t => m.addPreBasicBlock t b) m)

/-- A module under construction, the current function and the block at the insert point. -/
structure Site where
  module : Module
  origin : Nat → Option Nat
  fn : Nat
  bb : Nat

/-- The steps of the construction. -/
inductive Step : Site → Site → Prop where
  | emit {m : Module} {origin : Nat → Option Nat} {f b : Nat} {opId : OpID} {ty : Ty}
      {ops : List Value} : b < m.numBlocks → (m.blocks b).parent = f → m.getTerminator b = none →
      Emits m origin m.numInstrs b opId ty ops →
      Step ⟨m, origin, f, b⟩ ⟨(link m b (labels ops)).createInstruction opId ty ops b, origin, f, b⟩
  | block {m : Module} {origin : Nat → Option Nat} {f b : Nat} (name : String) :
      b < m.numBlocks → (m.blocks b).parent = f →
      Step ⟨m, origin, f, b⟩
        ⟨m.createBasicBlock name f, Function.update origin m.numBlocks (some b), f, b⟩
  | move {m : Module} {origin : Nat → Option Nat} {f b b' : Nat} : b' < m.numBlocks →
      (m.blocks b').parent = f → Step ⟨m, origin, f, b⟩ ⟨m, origin, f, b'⟩
  | function {m : Module} {origin : Nat → Option Nat} {f b : Nat} (name : String) (retTy : Ty)
      (paramTypes : List Ty) : Step ⟨m, origin, f, b⟩
        ⟨(m.createFunction name retTy paramTypes).createBasicBlock "entry" m.numFunctions,
          Function.update origin m.numBlocks none, m.numFunctions, m.numBlocks⟩
  | global {m : Module} {origin : Nat → Option Nat} {f b : Nat} (name : String) (ty : Ty) :
      Step ⟨m, origin, f, b⟩ ⟨m.createGlobalVariable name ty (.constZero ty), origin, f, b⟩

/-- What every sketch satisfies. -/
structure Inv (m : Module) (origin : Nat → Option Nat) : Prop where
  block_mem : ∀ f < m.numFunctions, ∀ b ∈ (m.functions f).basicBlocks,
    b < m.numBlocks ∧ (m.blocks b).parent = f
  block_parent : ∀ b < m.numBlocks, (m.blocks b).parent < m.numFunctions ∧
    b ∈ (m.functions (m.blocks b).parent).basicBlocks
  block_nodup : ∀ f < m.numFunctions, (m.functions f).basicBlocks.Nodup
  origin_lt : ∀ b c, origin b = some c →
    c < b ∧ b < m.numBlocks ∧ (m.blocks c).parent = (m.blocks b).parent
  origin_none : ∀ b < m.numBlocks,
    (origin b = none ↔ (m.functions (m.blocks b).parent).basicBlocks.head? = some b)
  succ : ∀ a < m.numBlocks, ∀ b, b ∈ (m.blocks a).succBbs ↔
    ∃ i ∈ (m.blocks a).instrList, .basicBlock b ∈ (m.instrs i).operands
  succ_nodup : ∀ a < m.numBlocks, (m.blocks a).succBbs.Nodup
  pre : ∀ b < m.numBlocks, ∀ a, a ∈ (m.blocks b).preBbs ↔ a < m.numBlocks ∧ b ∈ (m.blocks a).succBbs
  pre_nodup : ∀ b < m.numBlocks, (m.blocks b).preBbs.Nodup
  instr_mem : ∀ b < m.numBlocks, ∀ i ∈ (m.blocks b).instrList,
    i < m.numInstrs ∧ (m.instrs i).parent = b
  instr_parent : ∀ i < m.numInstrs, (m.instrs i).parent < m.numBlocks ∧
    i ∈ (m.blocks (m.instrs i).parent).instrList
  instr_sorted : ∀ b < m.numBlocks, (m.blocks b).instrList.Pairwise (· < ·)
  terminator : ∀ b < m.numBlocks, ∀ i ∈ (m.blocks b).instrList, (m.instrs i).isTerminator →
    (m.blocks b).instrList.getLast? = some i
  emits : ∀ i < m.numInstrs, Emits m origin i (m.instrs i).parent (m.instrs i).opId (m.instrs i).type
    (m.instrs i).operands
  useList : ∀ v use, use ∈ m.useList v ↔ (m.operands use.val)[use.argNo]? = some v
  fresh_instr : ∀ i, m.numInstrs ≤ i → (m.instrs i).operands = []
  fresh_global : ∀ g, m.numGlobals ≤ g → (m.globals g).operands = []
  fresh_block : ∀ b, m.numBlocks ≤ b → (m.blocks b).instrList = []
  global_init : ∀ g, ∀ v ∈ (m.globals g).operands, v.isConstant

/-- What a step keeps of the objects that exist before it. -/
structure Ext (m : Module) (origin : Nat → Option Nat) (m' : Module)
    (origin' : Nat → Option Nat) : Prop where
  numFunctions : m.numFunctions ≤ m'.numFunctions
  numGlobals : m.numGlobals ≤ m'.numGlobals
  numBlocks : m.numBlocks ≤ m'.numBlocks
  numInstrs : m.numInstrs ≤ m'.numInstrs
  instrs : ∀ i < m.numInstrs, m'.instrs i = m.instrs i
  globals : ∀ g < m.numGlobals, m'.globals g = m.globals g
  returnType : ∀ f < m.numFunctions, (m'.functions f).returnType = (m.functions f).returnType
  paramTypes : ∀ f < m.numFunctions, (m'.functions f).paramTypes = (m.functions f).paramTypes
  parent : ∀ b < m.numBlocks, (m'.blocks b).parent = (m.blocks b).parent
  origin : ∀ b < m.numBlocks, origin' b = origin b

section

variable {m m' m'' : Module} {origin origin' origin'' : Nat → Option Nat} {n n' b c t x : Nat}
  {v : Value} {opId : OpID} {ty : Ty} {ops : List Value}

theorem Ext.refl (m : Module) (origin : Nat → Option Nat) : Ext m origin m origin := by
  constructor <;> simp

theorem Ext.trans (h : Ext m origin m' origin') (h' : Ext m' origin' m'' origin'') :
    Ext m origin m'' origin'' where
  numFunctions := h.numFunctions.trans h'.numFunctions
  numGlobals := h.numGlobals.trans h'.numGlobals
  numBlocks := h.numBlocks.trans h'.numBlocks
  numInstrs := h.numInstrs.trans h'.numInstrs
  instrs i hi := (h'.instrs i (hi.trans_le h.numInstrs)).trans (h.instrs i hi)
  globals g hg := (h'.globals g (hg.trans_le h.numGlobals)).trans (h.globals g hg)
  returnType f hf := (h'.returnType f (hf.trans_le h.numFunctions)).trans (h.returnType f hf)
  paramTypes f hf := (h'.paramTypes f (hf.trans_le h.numFunctions)).trans (h.paramTypes f hf)
  parent b hb := (h'.parent b (hb.trans_le h.numBlocks)).trans (h.parent b hb)
  origin b hb := (h'.origin b (hb.trans_le h.numBlocks)).trans (h.origin b hb)

theorem Inv.ancestor_lt (h : Inv m origin) (hx : Graph.Ancestor origin x b)
    (hb : b < m.numBlocks) : x < m.numBlocks ∧ x ≤ b ∧ (m.blocks x).parent = (m.blocks b).parent := by
  induction hx using Relation.ReflTransGen.head_induction_on with
  | refl => exact ⟨hb, le_rfl, rfl⟩
  | head hac _ ih =>
    obtain ⟨hlt, -, hp⟩ := h.origin_lt _ _ hac
    obtain ⟨h1, h2, h3⟩ := ih (hlt.trans hb)
    exact ⟨h1, h2.trans hlt.le, h3.trans hp⟩

theorem Ext.ancestor (h : Ext m origin m' origin') (hm : Inv m origin) (hb : b < m.numBlocks)
    (hx : Graph.Ancestor origin x b) : Graph.Ancestor origin' x b := by
  induction hx using Relation.ReflTransGen.head_induction_on with
  | refl => exact .refl _ _
  | head hac _ ih =>
    have hlt := (hm.origin_lt _ _ hac).1
    rw [← h.origin _ hb] at hac
    exact (ih (hlt.trans hb)).trans (.of_idom hac)

theorem Ext.valueAt (h : Ext m origin m' origin') (hm : Inv m origin) (hb : b < m.numBlocks)
    (hn : n ≤ m.numInstrs) (hn' : n ≤ n') (hv : ValueAt m origin n b v) :
    ValueAt m' origin' n' b v := by
  cases v with
  | instruction j =>
    obtain ⟨h1, h2, h3⟩ := hv
    have hj := h.instrs j (h1.trans_le hn)
    exact ⟨h1.trans_le hn', by rw [hj]; exact h.ancestor hm hb h2, by rw [hj]; exact h3⟩
  | _ => exact hv

theorem Ext.addressAt (h : Ext m origin m' origin') (hm : Inv m origin) (hb : b < m.numBlocks)
    (hn : n ≤ m.numInstrs) (hn' : n ≤ n') (hv : AddressAt m origin n b v) :
    AddressAt m' origin' n' b v := by
  cases v with
  | instruction j =>
    obtain ⟨h1, h2, h3⟩ := hv
    have hj := h.instrs j (h1.trans_le hn)
    exact ⟨h1.trans_le hn', by rw [hj]; exact h.ancestor hm hb h2, by rw [hj]; exact h3⟩
  | globalVariable g => exact lt_of_lt_of_le hv h.numGlobals
  | _ => exact hv

theorem Ext.targetAt (h : Ext m origin m' origin') (hm : Inv m origin) (hb : b < m.numBlocks)
    (ht : TargetAt m origin b t) : TargetAt m' origin' b t := by
  obtain ⟨h1, c, hc, hcb⟩ := ht
  exact ⟨h1.trans_le h.numBlocks, c, (h.origin t h1).trans hc, h.ancestor hm hb hcb⟩

theorem Ext.getType (h : Ext m origin m' origin') (hn : n ≤ m.numInstrs)
    (hv : AddressAt m origin n b v) : m'.getType v = m.getType v := by
  cases v with
  | instruction j => simp only [Module.getType, h.instrs j (hv.1.trans_le hn)]
  | globalVariable g => simp only [Module.getType, h.globals g hv]
  | _ => cases hv

theorem Ext.emits (h : Ext m origin m' origin') (hm : Inv m origin) (hb : b < m.numBlocks)
    (hn : n ≤ m.numInstrs) (he : Emits m origin n b opId ty ops) :
    Emits m' origin' n b opId ty ops := by
  have hval : ∀ v, ValueAt m origin n b v → ValueAt m' origin' n b v :=
    fun v => h.valueAt hm hb hn le_rfl
  have haddr : ∀ v, AddressAt m origin n b v → AddressAt m' origin' n b v :=
    fun v => h.addressAt hm hb hn le_rfl
  cases he with
  | binary hx hy => exact .binary (hval _ hx) (hval _ hy)
  | cmp hx hy => exact .cmp (hval _ hx) (hval _ hy)
  | fcmp hx hy => exact .fcmp (hval _ hx) (hval _ hy)
  | zext hx => exact .zext (hval _ hx)
  | fptosi hx => exact .fptosi (hval _ hx)
  | sitofp hx => exact .sitofp (hval _ hx)
  | alloca => exact .alloca
  | load hp ht => exact .load (haddr _ hp) ((h.getType hn hp).trans ht)
  | store hv hp => exact .store (hval _ hv) (haddr _ hp)
  | storeArg hk hp =>
    rw [← h.parent b hb]
    refine .storeArg ?_ (haddr _ hp)
    rw [h.parent b hb, h.paramTypes _ (hm.block_parent b hb).1]
    exact hk
  | gep hp hi => exact .gep (hp.imp (haddr _) (hval _)) fun idx hidx => hval _ (hi idx hidx)
  | call hf hlen ha =>
    rw [← h.returnType _ hf]
    exact .call (hf.trans_le h.numFunctions) (by rw [h.paramTypes _ hf, hlen])
      fun a hx => hval _ (ha a hx)
  | retVoid => exact .retVoid
  | ret hx => exact .ret (hval _ hx)
  | br ht => exact .br (h.targetAt hm hb ht)
  | condBr hx ht hf hne => exact .condBr (hval _ hx) (h.targetAt hm hb ht) (h.targetAt hm hb hf) hne

end

end Builder

end Cminusf
