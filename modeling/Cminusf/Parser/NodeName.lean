import Cminusf.Exec
import Cminusf.Parser.SyntaxTree

/-! The texts of tokens in the name fields of the nodes, and as they are read from there. -/

namespace Cminusf

open Grammar

/-- `name`, the last field of a node. -/
abbrev NodeName := Vector Char syntaxTreeNodeNameMax

/-- `strncpy` on the whole field. It fills the rest with zeros, and adds none behind a text that
takes all of the field. -/
def strncpy (text : String) : NodeName := Vector.ofFn fun i => text.toList.getD i '\x00'

/-- The field as a C string. A read that finds no zero in the field leaves the node. -/
def NodeName.cString (name : NodeName) : Exec String :=
  if '\x00' ∈ name.toList then return String.ofList (name.toList.takeWhile (· ≠ '\x00'))
  else throw .undefinedBehaviour

/-- A node as it lies in memory. -/
inductive StoredNode where
  | mk (name : NodeName) (children : List StoredNode)

mutual

/-- The node that `new_syntax_tree_node` makes of a text, with its children. -/
def SyntaxTreeNode.stored : SyntaxTreeNode → StoredNode
  | .mk name children => .mk (strncpy name) (storedAll children)

def storedAll : List SyntaxTreeNode → List StoredNode
  | [] => []
  | n :: ns => n.stored :: storedAll ns

end

mutual

/-- The tree that `transform_node_iter` reads. -/
def StoredNode.read : StoredNode → Exec SyntaxTreeNode
  | .mk name children => do return ⟨← name.cString, ← readAll children⟩

def readAll : List StoredNode → Exec (List SyntaxTreeNode)
  | [] => return []
  | n :: ns => do return (← n.read) :: (← readAll ns)

end

/-- The grammar, with a leaf for the text of each token. -/
def lexemes : Actions Terminal NonTerminal SyntaxTreeNode (Terminal × String) where
  productions := productions
  leaf k n w := ∃ text, k.Matches text ∧ n = ⟨text, []⟩ ∧ w = [(k, text)]
  action A children := node A.name children

mutual

/-- The names in a tree. -/
def SyntaxTreeNode.names : SyntaxTreeNode → List String
  | .mk name children => name :: namesAll children

def namesAll : List SyntaxTreeNode → List String
  | [] => []
  | n :: ns => n.names ++ namesAll ns

end

/-- The texts in the tree are read as they were written, and texts that differ are stored in
different names. -/
def Survive (n : SyntaxTreeNode) (w : List (Terminal × String)) : Prop :=
  n.stored.read = .ok n ∧ ∀ x ∈ w, ∀ y ∈ w, x.2 ≠ y.2 → strncpy x.2 ≠ strncpy y.2

variable {text : String} {n : SyntaxTreeNode} {ns : List SyntaxTreeNode} {k : Terminal}
  {w : List (Terminal × String)}

theorem toList_strncpy : (strncpy text).toList =
    (text.toList ++ List.replicate syntaxTreeNodeNameMax '\x00').take syntaxTreeNodeNameMax := by
  apply List.ext_getElem?
  intro i
  rw [strncpy, Vector.toList_ofFn, List.getElem?_ofFn, List.getElem?_take, List.getElem?_append]
  by_cases hi : i < syntaxTreeNodeNameMax
  · by_cases hlen : i < text.toList.length
    · simp [hi, hlen, List.getD]
    · have hzero : i - text.toList.length < syntaxTreeNodeNameMax := by omega
      simp [hi, hlen, List.getD, hzero]
  · simp [hi]

theorem toList_strncpy_of_lt (h : text.length < syntaxTreeNodeNameMax) : (strncpy text).toList =
    text.toList ++ List.replicate (syntaxTreeNodeNameMax - text.length) '\x00' := by
  have hlen : text.toList.length ≤ syntaxTreeNodeNameMax := by
    rw [String.length_toList]
    omega
  rw [toList_strncpy, List.take_append, List.take_of_length_le hlen, List.take_replicate, String.length_toList, Nat.min_eq_left (Nat.sub_le _ _)]

/-- A text with its terminator fits in the field or is not read back. -/
theorem cString_strncpy (hzero : '\x00' ∉ text.toList) : (strncpy text).cString =
    if text.length < syntaxTreeNodeNameMax then .ok text else .error .undefinedBehaviour := by
  split
  · rename_i hlen
    have hstop : ∀ c ∈ text.toList, decide (c ≠ '\x00') = true := by
      intro c hc
      apply decide_eq_true
      rintro rfl
      exact hzero hc
    rw [NodeName.cString, toList_strncpy_of_lt hlen, if_pos]
    · rw [List.takeWhile_append_of_pos hstop]
      simp [pure, Except.pure]
    · apply List.mem_append_right
      rw [List.mem_replicate]
      exact ⟨Nat.sub_ne_zero_of_lt hlen, rfl⟩
  · rename_i hlen
    have hlist : (strncpy text).toList = text.toList.take syntaxTreeNodeNameMax := by
      rw [toList_strncpy, List.take_append_of_le_length]
      rw [String.length_toList]
      omega
    rw [NodeName.cString, if_neg]
    · rfl
    · rw [hlist]
      exact fun hmem => hzero (List.mem_of_mem_take hmem)

theorem cString_strncpy_iff (hzero : '\x00' ∉ text.toList) :
    (strncpy text).cString = .ok text ↔ text.length < syntaxTreeNodeNameMax := by
  rw [cString_strncpy hzero]
  split <;> simp_all

/-- The leaves of the parser are the names that can be read. -/
theorem newSyntaxTreeNode_eq (hzero : '\x00' ∉ text.toList) :
    newSyntaxTreeNode text = (strncpy text).cString.toOption.map fun name => ⟨name, []⟩ := by
  rw [newSyntaxTreeNode, cString_strncpy hzero]
  split <;> rfl

theorem Terminal.Matches.no_zero (h : k.Matches text) : '\x00' ∉ text.toList := by
  intro hmem
  cases k with
  | identifier => exact absurd (h.2.1 _ hmem) (by decide)
  | integer => exact absurd (h.2 _ hmem) (by decide)
  | floatpoint =>
    obtain ⟨whole, part, he, -, hdigit⟩ := h
    have hmem' : '\x00' ∈ whole ++ part := by
      rw [he] at hmem
      simpa using hmem
    exact absurd (hdigit _ hmem') (by decide)
  | _ =>
    obtain rfl := h
    revert hmem
    decide

mutual

theorem read_stored_iff : ∀ n : SyntaxTreeNode, (∀ name ∈ n.names, '\x00' ∉ name.toList) →
    (n.stored.read = .ok n ↔ ∀ name ∈ n.names, name.length < syntaxTreeNodeNameMax)
  | .mk name children, hzero => by
    rw [SyntaxTreeNode.names, List.forall_mem_cons] at hzero ⊢
    rw [← cString_strncpy_iff hzero.1, ← readAll_storedAll_iff children hzero.2,
      SyntaxTreeNode.stored, StoredNode.read, Exec.bind_eq_ok]
    constructor
    · intro ⟨name', hname, h⟩
      obtain ⟨children', hchildren, h⟩ := Exec.bind_eq_ok.mp h
      cases h
      exact ⟨hname, hchildren⟩
    · intro ⟨hname, hchildren⟩
      refine ⟨name, hname, ?_⟩
      rw [hchildren]
      rfl

theorem readAll_storedAll_iff : ∀ ns : List SyntaxTreeNode,
    (∀ name ∈ namesAll ns, '\x00' ∉ name.toList) →
      (readAll (storedAll ns) = .ok ns ↔ ∀ name ∈ namesAll ns, name.length < syntaxTreeNodeNameMax)
  | [], _ => by simp [namesAll, storedAll, readAll, pure, Except.pure]
  | n :: ns, hzero => by
    rw [namesAll, List.forall_mem_append] at hzero ⊢
    rw [← read_stored_iff n hzero.1, ← readAll_storedAll_iff ns hzero.2, storedAll, readAll,
      Exec.bind_eq_ok]
    constructor
    · intro ⟨n', hn, h⟩
      obtain ⟨ns', hns, h⟩ := Exec.bind_eq_ok.mp h
      cases h
      exact ⟨hn, hns⟩
    · intro ⟨hn, hns⟩
      refine ⟨n, hn, ?_⟩
      rw [hns]
      rfl

end

mutual

/-- What is read back is the tree that was stored. -/
theorem eq_of_read_stored : ∀ n : SyntaxTreeNode, (∀ name ∈ n.names, '\x00' ∉ name.toList) →
    ∀ n', n.stored.read = .ok n' → n' = n
  | .mk name children, hzero => by
    intro n' h
    rw [SyntaxTreeNode.names, List.forall_mem_cons] at hzero
    rw [SyntaxTreeNode.stored, StoredNode.read] at h
    obtain ⟨name', hname, h⟩ := Exec.bind_eq_ok.mp h
    obtain ⟨children', hchildren, h⟩ := Exec.bind_eq_ok.mp h
    cases h
    rw [cString_strncpy hzero.1] at hname
    split at hname
    · cases hname
      rw [eq_of_readAll_storedAll children hzero.2 children' hchildren]
    · cases hname

theorem eq_of_readAll_storedAll : ∀ ns : List SyntaxTreeNode,
    (∀ name ∈ namesAll ns, '\x00' ∉ name.toList) →
      ∀ ns', readAll (storedAll ns) = .ok ns' → ns' = ns
  | [], _ => by
    intro ns' h
    cases h
    rfl
  | n :: ns, hzero => by
    intro ns' h
    rw [namesAll, List.forall_mem_append] at hzero
    rw [storedAll, readAll] at h
    obtain ⟨n', hn, h⟩ := Exec.bind_eq_ok.mp h
    obtain ⟨ns'', hns, h⟩ := Exec.bind_eq_ok.mp h
    cases h
    rw [eq_of_read_stored n hzero.1 n' hn, eq_of_readAll_storedAll ns hzero.2 ns'' hns]

end

theorem names_node {A : NonTerminal} {name : String} : name ∈ (node A.name ns).names →
    name = A.name ∨ name = "epsilon" ∨ name ∈ namesAll ns := by
  cases ns with
  | nil =>
    intro h
    simpa [node, SyntaxTreeNode.names, namesAll] using h
  | cons n ns =>
    intro h
    rcases List.mem_cons.mp h with h | h
    · exact .inl h
    · exact .inr (.inr h)

theorem namesAll_subset_node {A : NonTerminal} : namesAll ns ⊆ (node A.name ns).names := by
  cases ns with
  | nil => simp [namesAll]
  | cons n ns => exact fun name h => List.mem_cons_of_mem _ h

theorem NonTerminal.name_fits (A : NonTerminal) :
    A.name.length < syntaxTreeNodeNameMax ∧ '\x00' ∉ A.name.toList := by
  cases A <;> decide

/-- The names in a parse tree are the texts of its tokens and short names of the grammar. -/
theorem names_of_derives {s : Symbol Terminal NonTerminal} (h : Derives lexemes s n w) :
    (∀ x ∈ w, x.2 ∈ n.names ∧ x.1.Matches x.2) ∧ ∀ name ∈ n.names, (∃ x ∈ w, x.2 = name) ∨
      name.length < syntaxTreeNodeNameMax ∧ '\x00' ∉ name.toList := by
  apply h.rec_productions (P := fun _ n w => (∀ x ∈ w, x.2 ∈ n.names ∧ x.1.Matches x.2) ∧
    ∀ name ∈ n.names, (∃ x ∈ w, x.2 = name) ∨
      name.length < syntaxTreeNodeNameMax ∧ '\x00' ∉ name.toList)
  · rintro k n w ⟨text, hmatch, rfl, rfl⟩
    simp [SyntaxTreeNode.names, namesAll, hmatch]
  · intro A rhs hrhs ns w hall
    have hns : (∀ x ∈ w, x.2 ∈ namesAll ns ∧ x.1.Matches x.2) ∧
        ∀ name ∈ namesAll ns, (∃ x ∈ w, x.2 = name) ∨
          name.length < syntaxTreeNodeNameMax ∧ '\x00' ∉ name.toList := by
      clear h hrhs
      induction hall with
      | nil => simp [namesAll]
      | cons hn _ ih =>
        obtain ⟨hw, hnames⟩ := hn
        obtain ⟨hw', hnames'⟩ := ih
        simp only [namesAll, List.mem_append]
        constructor
        · intro x hx
          rcases hx with hx | hx
          · exact ⟨.inl (hw x hx).1, (hw x hx).2⟩
          · exact ⟨.inr (hw' x hx).1, (hw' x hx).2⟩
        · intro name hname
          rcases hname with hname | hname
          · exact (hnames name hname).imp_left fun ⟨x, hx, he⟩ => ⟨x, .inl hx, he⟩
          · exact (hnames' name hname).imp_left fun ⟨x, hx, he⟩ => ⟨x, .inr hx, he⟩
    constructor
    · exact fun x hx => ⟨namesAll_subset_node (hns.1 x hx).1, (hns.1 x hx).2⟩
    · intro name hname
      rcases names_node hname with rfl | rfl | hname
      · exact .inr A.name_fits
      · exact .inr (by decide)
      · exact hns.2 name hname

theorem names_no_zero {s : Symbol Terminal NonTerminal} (h : Derives lexemes s n w) :
    ∀ name ∈ n.names, '\x00' ∉ name.toList := by
  obtain ⟨htexts, hnames⟩ := names_of_derives h
  intro name hname
  rcases hnames name hname with ⟨x, hx, rfl⟩ | ⟨-, hzero⟩
  · exact (htexts x hx).2.no_zero
  · exact hzero

/-- A parse tree is read back just when each of its texts is shorter than the field. -/
theorem read_iff {s : Symbol Terminal NonTerminal} (h : Derives lexemes s n w) :
    n.stored.read = .ok n ↔ ∀ x ∈ w, x.2.length < syntaxTreeNodeNameMax := by
  obtain ⟨htexts, hnames⟩ := names_of_derives h
  rw [read_stored_iff n (names_no_zero h)]
  constructor
  · exact fun hlen x hx => hlen x.2 (htexts x hx).1
  · intro hlen name hname
    rcases hnames name hname with ⟨x, hx, rfl⟩ | ⟨hshort, -⟩
    · exact hlen x hx
    · exact hshort

/-- The texts of a parse tree survive in it just when each of them is shorter than the field. -/
theorem survive_iff {s : Symbol Terminal NonTerminal} (h : Derives lexemes s n w) :
    Survive n w ↔ ∀ x ∈ w, x.2.length < syntaxTreeNodeNameMax := by
  obtain ⟨htexts, -⟩ := names_of_derives h
  constructor
  · exact fun hs => (read_iff h).mp hs.1
  · intro hlen
    refine ⟨(read_iff h).mpr hlen, fun x hx y hy hne he => hne ?_⟩
    have hx' := (cString_strncpy_iff (htexts x hx).2.no_zero).mpr (hlen x hx)
    have hy' := (cString_strncpy_iff (htexts y hy).2.no_zero).mpr (hlen y hy)
    rw [he, hy'] at hx'
    exact (Except.ok.inj hx').symm

def paramTree : SyntaxTreeNode :=
  node "param" [node "type-specifier" [⟨"float", []⟩], ⟨"x", []⟩]

theorem derives_paramTree :
    Derives lexemes (.nonterminal .param) paramTree [(.float, "float"), (.identifier, "x")] := by
  have hx : Terminal.identifier.Matches "x" := ⟨by decide, by simp, by decide⟩
  have hfloat : Derives lexemes (.terminal .float) ⟨"float", []⟩ [(.float, "float")] :=
    .terminal ⟨"float", rfl, rfl, rfl⟩
  have hid : Derives lexemes (.terminal .identifier) ⟨"x", []⟩ [(.identifier, "x")] :=
    .terminal ⟨"x", hx, rfl, rfl⟩
  have hspecifier : [Symbol.terminal Terminal.float] ∈ productions .typeSpecifier := by decide
  have htype : Derives lexemes (.nonterminal .typeSpecifier) (node "type-specifier" [⟨"float", []⟩])
      [(.float, "float")] := .production hspecifier (.cons hfloat .nil)
  have hparam : [Symbol.nonterminal .typeSpecifier, .terminal Terminal.identifier] ∈
      productions .param := by decide
  exact .production hparam (.cons htype (.cons hid .nil))

def paramLexemes : List (Terminal × String) := [(.float, "float"), (.identifier, "x")]

theorem survive_iff_paramTree : Survive paramTree paramLexemes ↔
    ∀ x ∈ paramLexemes, x.2.length < syntaxTreeNodeNameMax :=
  survive_iff derives_paramTree

/-- An identifier of 31 letters. -/
def longIdentifier (last : Char) : String := String.ofList (List.replicate 30 'a' ++ [last])

theorem matches_longIdentifier {last : Char} (h : last.isAlpha) :
    Terminal.identifier.Matches (longIdentifier last) := by
  have hlen : (longIdentifier last).length = 31 := by
    rw [longIdentifier, String.length_ofList]
    rfl
  refine ⟨?_, ?_, ?_⟩
  · intro he
    rw [he] at hlen
    cases hlen
  · intro c hc
    simp only [longIdentifier, String.toList_ofList, List.mem_append, List.mem_singleton] at hc
    rcases hc with hc | rfl
    · rw [List.eq_of_mem_replicate hc]
      rfl
    · exact h
  · intro hmem
    have hshort : ∀ text ∈ ["else", "if", "int", "return", "void", "while", "float"],
        text.length < 31 := by decide
    exact absurd (hshort _ hmem) (by omega)

/-- Two identifiers that differ in the last letter only are stored in one name. -/
theorem not_survive_longIdentifier : ¬ ∀ text text' : String,
    Terminal.identifier.Matches text → Terminal.identifier.Matches text' → text ≠ text' →
      (strncpy text).cString = .ok text ∧ strncpy text ≠ strncpy text' := by
  intro h
  have hne : longIdentifier 'b' ≠ longIdentifier 'c' := by decide +kernel
  refine (h _ _ (matches_longIdentifier rfl) (matches_longIdentifier rfl) hne).2 ?_
  apply Vector.toList_inj.mp
  simp only [toList_strncpy, longIdentifier, String.toList_ofList]
  rfl

end Cminusf
