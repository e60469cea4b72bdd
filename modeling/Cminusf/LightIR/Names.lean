import Mathlib.Algebra.Order.Ring.Nat
import Mathlib.Data.List.Nodup
import Mathlib.Data.List.Perm.Subperm
import Mathlib.Logic.Function.Basic
import Mathlib.Tactic.Common

/-! The names that a function hands out to its arguments, blocks and instructions. A value keeps its
number after it has been erased, so that the names ever used can be compared. -/

namespace Cminusf

structure NamedInstr where
  val : Nat
  isVoid : Bool

structure NamedBlock where
  val : Nat
  instrs : List NamedInstr

/-- The values of a function, with `seq_cnt_` and the number of the values created so far. -/
structure FunctionNames where
  args : List Nat
  blocks : List NamedBlock
  name : Nat → String
  seqCnt : BitVec 32
  next : Nat

/-- The names, and the keys of the map `seq`. -/
structure Naming where
  name : Nat → String
  seq : List Nat

/-- `set_name`, for a value that is not in `seq`. -/
def Naming.setName (seqCnt : BitVec 32) (label : String) (s : Naming) (v : Nat) : Naming :=
  if v ∈ s.seq then s
  else if s.name v = "" then
    ⟨Function.update s.name v (label ++ toString (s.seq.length + seqCnt.toNat)), s.seq ++ [v]⟩
  else s

namespace FunctionNames

def nameInstr (seqCnt : BitVec 32) (s : Naming) (instr : NamedInstr) : Naming :=
  if instr.isVoid then s else s.setName seqCnt "op" instr.val

def nameBlock (seqCnt : BitVec 32) (s : Naming) (bb : NamedBlock) : Naming :=
  bb.instrs.foldl (nameInstr seqCnt) (s.setName seqCnt "label" bb.val)

/-- The loops of `Function::set_instr_name`. -/
def naming (f : FunctionNames) : Naming :=
  f.blocks.foldl (nameBlock f.seqCnt)
    (f.args.foldl (Naming.setName f.seqCnt "arg") ⟨f.name, []⟩)

/-- `Function::set_instr_name`. -/
def setInstrName (f : FunctionNames) : FunctionNames :=
  { f with
    name := f.naming.name
    seqCnt := f.seqCnt + BitVec.ofNat 32 f.naming.seq.length }

/-- A new function; its arguments have no names. -/
def create (numArgs : Nat) : FunctionNames where
  args := List.range numArgs
  blocks := []
  name _ := ""
  seqCnt := 0
  next := numArgs

/-- `BasicBlock::create`. -/
def insertBlock (f : FunctionNames) (name : String) : FunctionNames :=
  { f with
    blocks := f.blocks ++ [⟨f.next, []⟩]
    name := Function.update f.name f.next ((if name = "" then "" else "label_") ++ name)
    next := f.next + 1 }

/-- A new instruction or phi in the block `b`. -/
def insertInstr (f : FunctionNames) (b pos : Nat) (isVoid : Bool) : FunctionNames :=
  { f with
    blocks := f.blocks.map fun bb =>
      if bb.val = b then { bb with instrs := bb.instrs.insertIdx pos ⟨f.next, isVoid⟩ } else bb
    next := f.next + 1 }

def eraseInstr (f : FunctionNames) (v : Nat) : FunctionNames :=
  { f with blocks := f.blocks.map fun bb =>
      { bb with instrs := bb.instrs.filter fun instr => instr.val ≠ v } }

/-- `Function::remove`. -/
def eraseBlock (f : FunctionNames) (b : Nat) : FunctionNames :=
  { f with blocks := f.blocks.filter fun bb => bb.val ≠ b }

/-- The arguments, the blocks and the instructions that are not void. -/
def values (f : FunctionNames) : List Nat :=
  f.args ++ f.blocks.flatMap fun bb =>
    bb.val :: (bb.instrs.filter fun instr => !instr.isVoid).map (·.val)

end FunctionNames

/-- The values have names, and no two share one. -/
def NamesUnique (f : FunctionNames) : Prop :=
  ∀ v ∈ f.values, f.name v ≠ "" ∧ ∀ w ∈ f.values, f.name w = f.name v → w = v

/-- What a pass or a print does to a function. -/
inductive NameEdit where
  | insertBlock (name : String)
  | insertInstr (b pos : Nat) (isVoid : Bool)
  | eraseInstr (v : Nat)
  | eraseBlock (b : Nat)
  | setInstrName

namespace NameEdit

def apply (f : FunctionNames) : NameEdit → FunctionNames
  | insertBlock name => f.insertBlock name
  | insertInstr b pos isVoid => f.insertInstr b pos isVoid
  | eraseInstr v => f.eraseInstr v
  | eraseBlock b => f.eraseBlock b
  | setInstrName => f.setInstrName

def run (edits : List NameEdit) (f : FunctionNames) : FunctionNames := edits.foldl apply f

/-- The names that blocks are created with. -/
def givenNames : List NameEdit → List String
  | [] => []
  | insertBlock name :: edits => if name = "" then givenNames edits else name :: givenNames edits
  | _ :: edits => givenNames edits

end NameEdit

/-- The name `s` of `v` was given to it at its creation, or has its place among the numbered values. -/
def Origin (given : List (String × Nat)) (numbered : List Nat) (v : Nat) (s : String) : Prop :=
  (∃ text, (text, v) ∈ given ∧ s = "label_" ++ text) ∨
    ∃ (label : String) (k : Nat), label ∈ ["arg", "label", "op"] ∧ numbered[k]? = some v ∧
      s = label ++ toString k

/-- The names given to blocks and the values numbered so far, in order. -/
structure NamesFrom (given : List (String × Nat)) (numbered : List Nat) (name : Nat → String)
    (next : Nat) : Prop where
  nodup : numbered.Nodup
  numbered_lt : ∀ v ∈ numbered, v < next
  given_lt : ∀ p ∈ given, p.2 < next
  named : ∀ v ∈ numbered, name v ≠ ""
  origin : ∀ v, name v ≠ "" → Origin given numbered v (name v)

variable {given : List (String × Nat)} {numbered : List Nat} {name : Nat → String}
  {next k k' v w : Nat} {s label label' : String}

theorem toDigits_inj (h : Nat.toDigits 10 k = Nat.toDigits 10 k') : k = k' := by
  have hnum := congrArg (fun digits => Nat.ofDigitChars 10 digits 0) h
  simpa using hnum

theorem label_ne_empty (h : label ∈ ["arg", "label", "op"]) : label ++ s ≠ "" := by
  simp only [List.mem_cons, List.not_mem_nil, or_false] at h
  rcases h with rfl | rfl | rfl <;> simp

/-- A number follows each label, so that the labels and the numbers can be read off a name. -/
theorem label_append_inj (h : label ∈ ["arg", "label", "op"]) (h' : label' ∈ ["arg", "label", "op"])
    (he : label ++ toString k = label' ++ toString k') : k = k' := by
  have hlist := congrArg String.toList he
  clear he
  simp only [List.mem_cons, List.not_mem_nil, or_false] at h h'
  rcases h with rfl | rfl | rfl <;> rcases h' with rfl | rfl | rfl <;> simp at hlist <;>
    exact toDigits_inj hlist

theorem label_append_ne_given (h : label ∈ ["arg", "label", "op"]) :
    label ++ toString k ≠ "label_" ++ s := by
  intro he
  have hlist := congrArg String.toList he
  have hdigit : '_' ∉ Nat.toDigits 10 k := Nat.underscore_not_in_toDigits
  simp only [List.mem_cons, List.not_mem_nil, or_false] at h
  rcases h with rfl | rfl | rfl <;> simp at hlist
  rw [hlist] at hdigit
  simp at hdigit

/-- Values that share a name are one value, if the names given to blocks differ. -/
theorem NamesFrom.inj (h : NamesFrom given numbered name next) (hgiven : (given.map Prod.fst).Nodup)
    (he : name v = name w) (hv : name v ≠ "") : v = w := by
  have hw : name w ≠ "" := he ▸ hv
  rcases h.origin v hv with ⟨s, hmem, hs⟩ | ⟨label, k, hlabel, hk, hs⟩
  · rcases h.origin w hw with ⟨s', hmem', hs'⟩ | ⟨label, k, hlabel, -, hs'⟩
    · rw [he, hs', String.append_right_inj] at hs
      exact congrArg Prod.snd (List.inj_on_of_nodup_map hgiven hmem hmem' hs.symm)
    · exact absurd (hs'.symm.trans (he ▸ hs)) (label_append_ne_given hlabel)
  · rcases h.origin w hw with ⟨s', -, hs'⟩ | ⟨label', k', hlabel', hk', hs'⟩
    · exact absurd (hs.symm.trans (he.trans hs')) (label_append_ne_given hlabel)
    · obtain rfl := label_append_inj hlabel hlabel' (hs.symm.trans (he.trans hs'))
      exact Option.some.inj (hk.symm.trans hk')

/-- Each value is numbered once. -/
theorem NamesFrom.length_le (h : NamesFrom given numbered name next) : numbered.length ≤ next := by
  have hsub : numbered ⊆ List.range next := fun v hv => List.mem_range.mpr (h.numbered_lt v hv)
  have hlen := (List.subperm_of_subset h.nodup hsub).length_le
  rwa [List.length_range] at hlen

/-- The next number goes to a value without a name. -/
theorem NamesFrom.snoc (h : NamesFrom given numbered name next) (hv : name v = "") (hlt : v < next)
    (hlabel : label ∈ ["arg", "label", "op"]) : NamesFrom given (numbered ++ [v])
      (Function.update name v (label ++ toString numbered.length)) next := by
  have hnew : v ∉ numbered := fun hmem => h.named v hmem hv
  constructor
  · exact List.nodup_append.mpr ⟨h.nodup, List.nodup_singleton v, by
      rintro w hw _ hmem rfl
      exact hnew (List.mem_singleton.mp hmem ▸ hw)⟩
  · intro w hw
    rcases List.mem_append.mp hw with hw | hw
    · exact h.numbered_lt w hw
    · rw [List.mem_singleton.mp hw]
      exact hlt
  · exact h.given_lt
  · intro w hw
    by_cases hwv : w = v
    · rw [hwv, Function.update_self]
      exact label_ne_empty hlabel
    · rw [Function.update_of_ne hwv]
      exact h.named w (by simpa [hwv] using hw)
  · intro w hw
    by_cases hwv : w = v
    · rw [hwv, Function.update_self]
      exact .inr ⟨label, numbered.length, hlabel, by simp, rfl⟩
    · rw [Function.update_of_ne hwv] at hw ⊢
      rcases h.origin w hw with ⟨s, hmem, hs⟩ | ⟨label, k, hlabel, hk, hs⟩
      · exact .inl ⟨s, hmem, hs⟩
      · obtain ⟨hlt, -⟩ := List.getElem?_eq_some_iff.mp hk
        exact .inr ⟨label, k, hlabel, by rw [List.getElem?_append_left hlt, hk], hs⟩

/-- `name'` has the names of `name`. -/
def KeepsNames (name name' : Nat → String) : Prop := ∀ v, name v ≠ "" → name' v = name v

theorem KeepsNames.refl (name : Nat → String) : KeepsNames name name := fun _ _ => rfl

theorem KeepsNames.trans {name' name'' : Nat → String} (h : KeepsNames name name')
    (h' : KeepsNames name' name'') : KeepsNames name name'' := by
  intro v hv
  rw [h' v (by rwa [h v hv]), h v hv]

theorem KeepsNames.ne_empty {name' : Nat → String} (h : KeepsNames name name') (hv : name v ≠ "") :
    name' v ≠ "" := by
  rwa [h v hv]

/-- The state of the loops: the counter and the size of the map give the next number. -/
structure NamingInv (given : List (String × Nat)) (numbered : List Nat) (next : Nat)
    (seqCnt : BitVec 32) (s : Naming) : Prop where
  names : NamesFrom given numbered s.name next
  length_eq : s.seq.length + seqCnt.toNat = numbered.length
  seq_subset : s.seq ⊆ numbered

section Loops

variable {seqCnt : BitVec 32} {f : FunctionNames} {s : Naming}

theorem setName_inv (hs : NamingInv given numbered next seqCnt s) (hlt : v < next)
    (hlabel : label ∈ ["arg", "label", "op"]) :
    (∃ numbered', NamingInv given numbered' next seqCnt (s.setName seqCnt label v)) ∧
      KeepsNames s.name (s.setName seqCnt label v).name ∧ (s.setName seqCnt label v).name v ≠ "" := by
  unfold Naming.setName
  split
  · rename_i hmem
    exact ⟨⟨numbered, hs⟩, .refl _, hs.names.named v (hs.seq_subset hmem)⟩
  · split
    · rename_i hv
      refine ⟨⟨numbered ++ [v], ?_, ?_, ?_⟩, ?_, ?_⟩
      · rw [hs.length_eq]
        exact hs.names.snoc hv hlt hlabel
      · have hlen := hs.length_eq
        simp only [List.length_append, List.length_singleton]
        omega
      · exact List.append_subset.mpr ⟨fun w hw => List.mem_append_left _ (hs.seq_subset hw), by simp⟩
      · intro w hw
        exact Function.update_of_ne (by rintro rfl; exact hw hv) _ _
      · simp only [Function.update_self]
        exact label_ne_empty hlabel
    · rename_i hv
      exact ⟨⟨numbered, hs⟩, .refl _, hv⟩

/-- The values that `set_instr_name` visits, in order. -/
def FunctionNames.visits (f : FunctionNames) : List (String × Nat) :=
  f.args.map (fun v => ("arg", v)) ++ f.blocks.flatMap fun bb =>
    ("label", bb.val) :: (bb.instrs.filter fun instr => !instr.isVoid).map fun instr => ("op", instr.val)

theorem naming_eq : f.naming =
    f.visits.foldl (fun s p => s.setName f.seqCnt p.1 p.2) ⟨f.name, []⟩ := by
  have hblock : ∀ (s : Naming) (bb : NamedBlock), FunctionNames.nameBlock f.seqCnt s bb =
      (("label", bb.val) :: (bb.instrs.filter fun instr => !instr.isVoid).map
        fun instr => ("op", instr.val)).foldl (fun s p => s.setName f.seqCnt p.1 p.2) s := by
    intro s bb
    rw [List.foldl_cons, List.foldl_map, List.foldl_filter]
    unfold FunctionNames.nameBlock
    congr 1
    funext s instr
    cases h : instr.isVoid <;> simp [FunctionNames.nameInstr, h]
  rw [FunctionNames.visits, List.foldl_append, List.foldl_map, List.foldl_flatMap]
  simp only [← hblock]
  rfl

theorem mem_visits : v ∈ f.values ↔ ∃ label, (label, v) ∈ f.visits := by
  simp only [FunctionNames.values, FunctionNames.visits, List.mem_append, List.mem_flatMap,
    List.mem_map, List.mem_cons]
  constructor
  · rintro (hv | ⟨bb, hbb, rfl | ⟨instr, hi, rfl⟩⟩)
    · exact ⟨"arg", .inl ⟨v, hv, rfl⟩⟩
    · exact ⟨"label", .inr ⟨bb, hbb, .inl rfl⟩⟩
    · exact ⟨"op", .inr ⟨bb, hbb, .inr ⟨instr, hi, rfl⟩⟩⟩
  · rintro ⟨label, ⟨w, hw, he⟩ | ⟨bb, hbb, he | ⟨instr, hi, he⟩⟩⟩
    · cases he
      exact .inl hw
    · cases he
      exact .inr ⟨bb, hbb, .inl rfl⟩
    · cases he
      exact .inr ⟨bb, hbb, .inr ⟨instr, hi, rfl⟩⟩

theorem label_of_mem_visits (h : (label, v) ∈ f.visits) : label ∈ ["arg", "label", "op"] := by
  simp only [FunctionNames.visits, List.mem_append, List.mem_flatMap, List.mem_map,
    List.mem_cons] at h
  rcases h with ⟨w, -, he⟩ | ⟨bb, -, he | ⟨instr, -, he⟩⟩ <;> cases he <;> decide

/-- Every value that is visited has a name afterwards. -/
theorem visits_inv {visits : List (String × Nat)} (hs : NamingInv given numbered next seqCnt s)
    (hvisits : ∀ p ∈ visits, p.1 ∈ ["arg", "label", "op"] ∧ p.2 < next) :
    ∃ numbered', NamingInv given numbered' next seqCnt
        (visits.foldl (fun s p => s.setName seqCnt p.1 p.2) s) ∧
      KeepsNames s.name (visits.foldl (fun s p => s.setName seqCnt p.1 p.2) s).name ∧
      ∀ p ∈ visits, (visits.foldl (fun s p => s.setName seqCnt p.1 p.2) s).name p.2 ≠ "" := by
  induction visits generalizing s numbered with
  | nil => exact ⟨numbered, hs, .refl _, by simp⟩
  | cons p visits ih =>
    obtain ⟨⟨hlabel, hlt⟩, hvisits⟩ := List.forall_mem_cons.mp hvisits
    obtain ⟨⟨numbered₁, hs₁⟩, hext₁, hp⟩ := setName_inv hs hlt hlabel
    obtain ⟨numbered₂, hs₂, hext₂, hnamed⟩ := ih hs₁ hvisits
    refine ⟨numbered₂, hs₂, hext₁.trans hext₂, ?_⟩
    exact List.forall_mem_cons.mpr ⟨hext₂.ne_empty hp, hnamed⟩

end Loops

theorem NamesFrom.fresh (h : NamesFrom given numbered name next) : name next = "" := by
  by_contra hne
  rcases h.origin next hne with ⟨s, hmem, -⟩ | ⟨label, k, -, hk, -⟩
  · exact absurd (h.given_lt _ hmem) (Nat.lt_irrefl next)
  · exact absurd (h.numbered_lt next (List.mem_of_getElem? hk)) (Nat.lt_irrefl next)

theorem NamesFrom.succ (h : NamesFrom given numbered name next) :
    NamesFrom given numbered name (next + 1) where
  nodup := h.nodup
  numbered_lt v hv := Nat.lt_succ_of_lt (h.numbered_lt v hv)
  given_lt p hp := Nat.lt_succ_of_lt (h.given_lt p hp)
  named := h.named
  origin := h.origin

/-- A block is created with a name. -/
theorem NamesFrom.give (h : NamesFrom given numbered name next) :
    NamesFrom (given ++ [(s, next)]) numbered (Function.update name next ("label_" ++ s)) (next + 1) := by
  constructor
  · exact h.nodup
  · exact h.succ.numbered_lt
  · intro p hp
    rcases List.mem_append.mp hp with hp | hp
    · exact Nat.lt_succ_of_lt (h.given_lt p hp)
    · rw [List.mem_singleton.mp hp]
      exact Nat.lt_succ_self next
  · intro v hv
    rw [Function.update_of_ne (Nat.ne_of_lt (h.numbered_lt v hv))]
    exact h.named v hv
  · intro v hv
    by_cases hvn : v = next
    · rw [hvn, Function.update_self]
      exact .inl ⟨s, by simp, rfl⟩
    · rw [Function.update_of_ne hvn] at hv ⊢
      exact (h.origin v hv).imp_left fun ⟨text, hmem, he⟩ => ⟨text, List.mem_append_left _ hmem, he⟩

/-- Between the edits `seq_cnt_` counts the values numbered so far. -/
structure NamesInv (given : List (String × Nat)) (numbered : List Nat) (f : FunctionNames) :
    Prop where
  names : NamesFrom given numbered f.name f.next
  seqCnt_eq : f.seqCnt.toNat = numbered.length
  values_lt : ∀ v ∈ f.values, v < f.next

section Edits

open FunctionNames NameEdit

variable {f : FunctionNames} {edit : NameEdit} {edits : List NameEdit} {numArgs : Nat}

theorem mem_values : v ∈ f.values ↔ v ∈ f.args ∨ ∃ bb ∈ f.blocks, v = bb.val ∨
    ∃ instr ∈ bb.instrs, instr.isVoid = false ∧ v = instr.val := by
  simp only [FunctionNames.values, List.mem_append, List.mem_flatMap, List.mem_cons, List.mem_map,
    List.mem_filter, Bool.not_eq_true', and_assoc, eq_comm (a := v)]

theorem setInstrName_inv (h : NamesInv given numbered f) (hnext : f.next < 2 ^ 32) :
    (∃ numbered', NamesInv given numbered' f.setInstrName) ∧
      KeepsNames f.name f.setInstrName.name ∧ ∀ v ∈ f.values, f.setInstrName.name v ≠ "" := by
  have hs : NamingInv given numbered f.next f.seqCnt ⟨f.name, []⟩ :=
    ⟨h.names, by simpa using h.seqCnt_eq, by simp⟩
  have hvisits : ∀ p ∈ f.visits, p.1 ∈ ["arg", "label", "op"] ∧ p.2 < f.next :=
    fun p hp => ⟨label_of_mem_visits hp, h.values_lt _ (mem_visits.mpr ⟨p.1, hp⟩)⟩
  obtain ⟨numbered', hs', hext, hnamed⟩ := visits_inv hs hvisits
  rw [← naming_eq] at hs' hext hnamed
  refine ⟨⟨numbered', hs'.names, ?_, h.values_lt⟩, hext, ?_⟩
  · have hlen := hs'.length_eq
    have hle := hs'.names.length_le
    show (f.seqCnt + BitVec.ofNat 32 f.naming.seq.length).toNat = numbered'.length
    rw [BitVec.toNat_add, BitVec.toNat_ofNat, Nat.add_mod_mod, Nat.mod_eq_of_lt (by omega)]
    omega
  · intro v hv
    obtain ⟨label, hmem⟩ := mem_visits.mp hv
    exact hnamed _ hmem

theorem values_insertBlock {v : Nat} {label : String} (hv : v ∈ (f.insertBlock label).values) :
    v ∈ f.values ∨ v = f.next := by
  simp only [mem_values, FunctionNames.insertBlock, List.mem_append, List.mem_singleton] at hv ⊢
  rcases hv with hv | ⟨bb, hbb | rfl, hv⟩
  · exact .inl (.inl hv)
  · exact .inl (.inr ⟨bb, hbb, hv⟩)
  · exact .inr (by simpa using hv)

theorem values_insertInstr {v b pos : Nat} {isVoid : Bool}
    (hv : v ∈ (f.insertInstr b pos isVoid).values) : v ∈ f.values ∨ v = f.next := by
  simp only [mem_values, FunctionNames.insertInstr, List.mem_map] at hv ⊢
  rcases hv with hv | ⟨_, ⟨bb, hbb, rfl⟩, hv⟩
  · exact .inl (.inl hv)
  · split at hv
    · rcases hv with rfl | ⟨instr, hi, hvoid, rfl⟩
      · exact .inl (.inr ⟨bb, hbb, .inl rfl⟩)
      · rcases List.eq_or_mem_of_mem_insertIdx hi with rfl | hi
        · exact .inr rfl
        · exact .inl (.inr ⟨bb, hbb, .inr ⟨instr, hi, hvoid, rfl⟩⟩)
    · exact .inl (.inr ⟨bb, hbb, hv⟩)

theorem values_eraseInstr {u v : Nat} (hv : v ∈ (f.eraseInstr u).values) : v ∈ f.values := by
  simp only [mem_values, FunctionNames.eraseInstr, List.mem_map] at hv ⊢
  rcases hv with hv | ⟨_, ⟨bb, hbb, rfl⟩, hv | ⟨instr, hi, hv⟩⟩
  · exact .inl hv
  · exact .inr ⟨bb, hbb, .inl hv⟩
  · exact .inr ⟨bb, hbb, .inr ⟨instr, List.mem_of_mem_filter hi, hv⟩⟩

theorem values_eraseBlock {b v : Nat} (hv : v ∈ (f.eraseBlock b).values) : v ∈ f.values := by
  simp only [mem_values, FunctionNames.eraseBlock] at hv ⊢
  rcases hv with hv | ⟨bb, hbb, hv⟩
  · exact .inl hv
  · exact .inr ⟨bb, List.mem_of_mem_filter hbb, hv⟩

/-- Every edit keeps the names, and adds to the names given the one that it gives. -/
theorem apply_inv (h : NamesInv given numbered f) (hnext : f.next < 2 ^ 32) :
    ∃ given' numbered', NamesInv given' numbered' (edit.apply f) ∧
      given'.map Prod.fst = given.map Prod.fst ++ givenNames [edit] ∧
      KeepsNames f.name (edit.apply f).name := by
  have hlt : ∀ {v}, v ∈ f.values ∨ v = f.next → v < f.next + 1 := by
    rintro v (hv | rfl)
    · exact Nat.lt_succ_of_lt (h.values_lt v hv)
    · exact Nat.lt_succ_self f.next
  cases edit with
  | insertBlock name =>
    have hvalues : ∀ v ∈ (f.insertBlock name).values, v < f.next + 1 :=
      fun v hv => hlt (values_insertBlock hv)
    have hext : KeepsNames f.name (f.insertBlock name).name := by
      intro v hv
      exact Function.update_of_ne (by rintro rfl; exact hv h.names.fresh) _ _
    by_cases hname : name = ""
    · have hsame : (f.insertBlock name).name = f.name := by
        simp only [FunctionNames.insertBlock, hname, if_true]
        exact Function.update_eq_self_iff.mpr h.names.fresh.symm
      refine ⟨given, numbered, ⟨?_, h.seqCnt_eq, hvalues⟩, by simp [givenNames, hname], hext⟩
      show NamesFrom given numbered (f.insertBlock name).name (f.next + 1)
      rw [hsame]
      exact h.names.succ
    · refine ⟨given ++ [(name, f.next)], numbered, ⟨?_, h.seqCnt_eq, hvalues⟩,
        by simp [givenNames, hname], hext⟩
      have hgive : (f.insertBlock name).name = Function.update f.name f.next ("label_" ++ name) := by
        simp [FunctionNames.insertBlock, hname]
      show NamesFrom _ numbered (f.insertBlock name).name (f.next + 1)
      rw [hgive]
      exact h.names.give
  | insertInstr b pos isVoid =>
    exact ⟨given, numbered, ⟨h.names.succ, h.seqCnt_eq, fun v hv => hlt (values_insertInstr hv)⟩,
      by simp [givenNames], .refl _⟩
  | eraseInstr u =>
    have hvalues : ∀ v ∈ (f.eraseInstr u).values, v < f.next :=
      fun v hv => h.values_lt v (values_eraseInstr hv)
    exact ⟨given, numbered, ⟨h.names, h.seqCnt_eq, hvalues⟩, by simp [givenNames], .refl _⟩
  | eraseBlock b =>
    have hvalues : ∀ v ∈ (f.eraseBlock b).values, v < f.next :=
      fun v hv => h.values_lt v (values_eraseBlock hv)
    exact ⟨given, numbered, ⟨h.names, h.seqCnt_eq, hvalues⟩, by simp [givenNames], .refl _⟩
  | setInstrName =>
    obtain ⟨⟨numbered', h'⟩, hext, -⟩ := setInstrName_inv h hnext
    exact ⟨given, numbered', h', by simp [givenNames], hext⟩

theorem next_le_apply : f.next ≤ (edit.apply f).next := by
  cases edit <;> simp [apply, FunctionNames.insertBlock, FunctionNames.insertInstr,
    FunctionNames.eraseInstr, FunctionNames.eraseBlock, FunctionNames.setInstrName]

theorem next_le_run : f.next ≤ (run edits f).next := by
  induction edits generalizing f with
  | nil => exact Nat.le_refl _
  | cons edit edits ih => exact Nat.le_trans next_le_apply ih

theorem givenNames_cons : givenNames (edit :: edits) = givenNames [edit] ++ givenNames edits := by
  cases edit with
  | insertBlock name => by_cases hname : name = "" <;> simp [givenNames, hname]
  | _ => rfl

theorem givenNames_append {edits' : List NameEdit} :
    givenNames (edits ++ edits') = givenNames edits ++ givenNames edits' := by
  induction edits with
  | nil => rfl
  | cons edit edits ih =>
    rw [List.cons_append, givenNames_cons, ih, ← List.append_assoc, ← givenNames_cons]

theorem run_inv (h : NamesInv given numbered f) (hnext : (run edits f).next < 2 ^ 32) :
    ∃ given' numbered', NamesInv given' numbered' (run edits f) ∧
      given'.map Prod.fst = given.map Prod.fst ++ givenNames edits ∧
      KeepsNames f.name (run edits f).name := by
  induction edits generalizing f given numbered with
  | nil => exact ⟨given, numbered, h, by simp [givenNames], .refl _⟩
  | cons edit edits ih =>
    have hle : (edit.apply f).next ≤ (run edits (edit.apply f)).next := next_le_run
    have hle' : f.next ≤ (edit.apply f).next := next_le_apply
    have hnext' : (run edits (edit.apply f)).next < 2 ^ 32 := hnext
    obtain ⟨given₁, numbered₁, h₁, hgiven₁, hext₁⟩ : ∃ given' numbered',
        NamesInv given' numbered' (edit.apply f) ∧
          given'.map Prod.fst = given.map Prod.fst ++ givenNames [edit] ∧
          KeepsNames f.name (edit.apply f).name := apply_inv h (by omega)
    obtain ⟨given₂, numbered₂, h₂, hgiven₂, hext₂⟩ := ih h₁ hnext
    refine ⟨given₂, numbered₂, h₂, ?_, hext₁.trans hext₂⟩
    rw [hgiven₂, hgiven₁, List.append_assoc, ← givenNames_cons]

theorem create_inv : NamesInv [] [] (create numArgs) where
  names := ⟨List.nodup_nil, by simp, by simp, by simp, fun v hv => absurd rfl hv⟩
  seqCnt_eq := rfl
  values_lt v hv := by simpa [mem_values, create] using hv

/-- As long as blocks are created with different names and the counter does not overflow, all values
of a function have different names after each call, which they keep and which no other value ever
gets. -/
theorem setInstrName_unique {before after : List NameEdit}
    (hgiven : (givenNames (before ++ after)).Nodup)
    (hnext : (run (before ++ after) (create numArgs)).next < 2 ^ 32) :
    NamesUnique (run before (create numArgs)).setInstrName ∧
      ∀ v, (run before (create numArgs)).name v ≠ "" →
        (run (before ++ after) (create numArgs)).name v = (run before (create numArgs)).name v ∧
          ∀ w, (run (before ++ after) (create numArgs)).name w =
            (run before (create numArgs)).name v → w = v := by
  have hrun : run (before ++ after) (create numArgs) = run after (run before (create numArgs)) :=
    List.foldl_append
  rw [hrun] at hnext ⊢
  rw [givenNames_append] at hgiven
  have hle : (run before (create numArgs)).next ≤
      (run after (run before (create numArgs))).next := next_le_run
  have hbefore : (run before (create numArgs)).next < 2 ^ 32 := by omega
  obtain ⟨given₁, numbered₁, h₁, hgiven₁, -⟩ := run_inv create_inv hbefore
  obtain ⟨given₂, numbered₂, h₂, hgiven₂, hext⟩ := run_inv h₁ hnext
  rw [List.map_nil, List.nil_append] at hgiven₁
  rw [hgiven₁] at hgiven₂
  constructor
  · obtain ⟨⟨numbered', h'⟩, -, hnamed⟩ := setInstrName_inv h₁ hbefore
    intro v hv
    refine ⟨hnamed v hv, fun w hw he => h'.names.inj ?_ he (hnamed w hw)⟩
    rw [hgiven₁]
    exact (List.nodup_append.mp hgiven).1
  · intro v hv
    refine ⟨hext v hv, fun w hw => ?_⟩
    rw [← hext v hv] at hw
    exact (h₂.names.inj (hgiven₂ ▸ hgiven) hw.symm (hext.ne_empty hv)).symm

def entryEdits : List NameEdit :=
  [.insertBlock "entry", .insertInstr 1 0 false, .setInstrName, .insertInstr 1 0 false]

theorem setInstrName_unique_entryEdits : NamesUnique (run entryEdits (create 1)).setInstrName := by
  have hgiven : (givenNames (entryEdits ++ [.setInstrName])).Nodup := by decide
  have hnext : (run (entryEdits ++ [.setInstrName]) (create 1)).next < 2 ^ 32 := by decide
  exact (setInstrName_unique hgiven hnext).1

/-- Instructions that are named and erased again. -/
def churn : Nat → List NameEdit
  | 0 => [.insertBlock "", .insertInstr 0 0 false, .setInstrName]
  | k + 1 => churn k ++ [.insertInstr 0 1 false, .setInstrName, .eraseInstr (k + 2)]

structure Churned (f : FunctionNames) (k : Nat) : Prop where
  args : f.args = []
  blocks : f.blocks = [⟨0, [⟨1, false⟩]⟩]
  seqCnt : f.seqCnt = BitVec.ofNat 32 (k + 2)
  next : f.next = k + 2
  label : f.name 0 ≠ ""
  op : f.name 1 = "op1"
  fresh : ∀ v, k + 2 ≤ v → f.name v = ""

/-- The next instruction is named after the counter. -/
theorem Churned.naming (h : Churned f k) : (f.insertInstr 0 1 false).setInstrName =
    { f with
      blocks := [⟨0, [⟨1, false⟩, ⟨k + 2, false⟩]⟩]
      name := Function.update f.name (k + 2) ("op" ++ toString ((k + 2) % 2 ^ 32))
      seqCnt := BitVec.ofNat 32 (k + 3)
      next := k + 3 } := by
  have hop : f.name 1 ≠ "" := by simp [h.op]
  have hblocks : (f.insertInstr 0 1 false).blocks = [⟨0, [⟨1, false⟩, ⟨k + 2, false⟩]⟩] := by
    simp [FunctionNames.insertInstr, h.blocks, h.next]
  have hnaming : (f.insertInstr 0 1 false).naming =
      ⟨Function.update f.name (k + 2) ("op" ++ toString ((k + 2) % 2 ^ 32)), [k + 2]⟩ := by
    rw [FunctionNames.naming, hblocks]
    simp [FunctionNames.insertInstr, h.args, h.seqCnt, FunctionNames.nameBlock, Naming.setName,
      FunctionNames.nameInstr, h.label, hop, h.fresh]
  rw [FunctionNames.setInstrName, hnaming, hblocks]
  simp only [FunctionNames.insertInstr, h.seqCnt, h.next, List.length_singleton,
    BitVec.ofNat_add_ofNat]

theorem churned (k : Nat) : Churned (run (churn k) (create 0)) k := by
  induction k with
  | zero =>
    constructor <;> try rfl
    · decide
    · intro v hv
      have h0 : v ≠ 0 := by omega
      have h1 : v ≠ 1 := by omega
      simp [churn, run, apply, create, FunctionNames.insertBlock, FunctionNames.insertInstr,
        FunctionNames.setInstrName, FunctionNames.naming, FunctionNames.nameBlock, Naming.setName,
        FunctionNames.nameInstr, h0, h1]
  | succ k ih =>
    have hrun : run (churn (k + 1)) (create 0) =
        ((run (churn k) (create 0)).insertInstr 0 1 false).setInstrName.eraseInstr (k + 2) := by
      rw [churn, run, List.foldl_append]
      rfl
    rw [hrun, ih.naming]
    constructor
    · exact ih.args
    · simp [FunctionNames.eraseInstr]
    · rfl
    · rfl
    · simpa [FunctionNames.eraseInstr] using ih.label
    · simpa [FunctionNames.eraseInstr] using ih.op
    · intro v hv
      have hne : v ≠ k + 2 := by omega
      simpa [FunctionNames.eraseInstr, hne] using ih.fresh v (by omega)

/-- After `2 ^ 32` names the counter starts again. -/
theorem not_namesUnique_churn (hk : (k + 2) % 2 ^ 32 = 1) :
    ¬ NamesUnique ((run (churn k) (create 0)).insertInstr 0 1 false).setInstrName := by
  have h := churned k
  rw [h.naming]
  intro hu
  have hne : (1 : Nat) ≠ k + 2 := by omega
  have hop := (hu 1 (by simp [mem_values])).2 (k + 2) (by simp [mem_values])
  simp only [Function.update_self, Function.update_of_ne hne, h.op, hk] at hop
  exact hne (hop rfl).symm

/-- Two blocks may be created with one name, and the counter overflows. -/
theorem not_namesUnique :
    (¬ ∀ edits, (run edits (create 0)).next < 2 ^ 32 →
      NamesUnique (run edits (create 0)).setInstrName) ∧
      ¬ ∀ edits, givenNames edits = [] → NamesUnique (run edits (create 0)).setInstrName := by
  constructor
  · intro h
    have hu := h [.insertBlock "loop", .insertBlock "loop"] (by decide)
    exact absurd ((hu 0 (by decide)).2 1 (by decide) (by decide)) (by decide)
  · intro h
    have hgiven : ∀ k, givenNames (churn k ++ [.insertInstr 0 1 false]) = [] := by
      intro k
      induction k with
      | zero => rfl
      | succ k ih =>
        rw [givenNames_append] at ih ⊢
        rw [churn, givenNames_append, (List.append_eq_nil_iff.mp ih).1]
        rfl
    have hrun : ∀ k, run (churn k ++ [.insertInstr 0 1 false]) (create 0) =
        (run (churn k) (create 0)).insertInstr 0 1 false := by
      intro k
      rw [run, List.foldl_append]
      rfl
    have hu := h _ (hgiven (2 ^ 32 - 1))
    rw [hrun] at hu
    have hk : (2 ^ 32 - 1 + 2) % 2 ^ 32 = 1 := by decide
    exact not_namesUnique_churn hk hu

end Edits

end Cminusf
