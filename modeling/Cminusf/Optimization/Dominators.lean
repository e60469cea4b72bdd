import Cminusf.Exec
import Cminusf.LightIR.Module

/-! The pass `Dominators`. Its maps are shared by all functions; a key that was never
inserted reads as the value `operator[]` inserts for it. -/

namespace Cminusf

structure Dominators where
  reversePostOrder : List Nat
  postOrderId : Nat → Nat
  idom : Nat → Option Nat
  domFrontier : Option Nat → List Nat
  domTreeSuccBlocks : Option Nat → List Nat

namespace Dominators

def empty : Dominators where
  reversePostOrder := []
  postOrderId _ := 0
  idom _ := none
  domFrontier _ := []
  domTreeSuccBlocks _ := []

/-- `get_idom`; the key `nullptr` is never set. -/
def getIdom (d : Dominators) : Option Nat → Option Nat
  | none => none
  | some bb => d.idom bb

def setIdom (d : Dominators) (bb : Nat) (idom : Option Nat) : Dominators :=
  { d with idom := Function.update d.idom bb idom }

/-- The state of `post_order_visit`. -/
structure PostOrder where
  visited : List Nat
  postOrderId : Nat → Nat
  order : List Nat

def postOrderVisit (m : Module) : Nat → Nat → PostOrder → Exec PostOrder
  | 0, _, _ => throw .outOfFuel
  | fuel + 1, bb, s => do
    let s ← (m.blocks bb).succBbs.foldlM
      (fun s b => if b ∈ s.visited then pure s else postOrderVisit m fuel b s)
      { s with visited := bb :: s.visited }
    return { s with
      postOrderId := Function.update s.postOrderId bb s.order.length
      order := s.order ++ [bb] }

def createReversePostOrder (m : Module) (entry fuel : Nat) (d : Dominators) : Exec Dominators := do
  let s ← postOrderVisit m fuel entry ⟨[], fun _ => 0, []⟩
  return { d with reversePostOrder := s.order.reverse, postOrderId := s.postOrderId }

/-- An inner loop of `intersect`: up from `b1` while its number is below that of `b2`. -/
def climb (d : Dominators) : Nat → Nat → Nat → Exec Nat
  | 0, _, _ => throw .outOfFuel
  | fuel + 1, b1, b2 =>
    if d.postOrderId b1 < d.postOrderId b2 then
      match d.idom b1 with
      | none => throw .assertion
      | some b => climb d fuel b b2
    else return b1

/-- `intersect`, its loops bounded by `bound`. -/
def intersect (d : Dominators) (bound : Nat) : Nat → Nat → Nat → Exec Nat
  | 0, _, _ => throw .outOfFuel
  | fuel + 1, b1, b2 =>
    if b1 = b2 then return b1
    else do
      let b1 ← climb d bound b1 b2
      let b2 ← climb d bound b2 b1
      intersect d bound fuel b1 b2

/-- `new_idom` of a block in the loop of `create_idom`. -/
def newIdom (m : Module) (fuel : Nat) (d : Dominators) (bb : Nat) : Exec Nat :=
  match (m.blocks bb).preBbs.find? (fun p => (d.idom p).isSome) with
  | none => throw .assertion
  | some pred =>
    (m.blocks bb).preBbs.foldlM
      (fun new p => if p = pred then pure new
        else if (d.idom p).isSome then intersect d fuel fuel p new else pure new)
      pred

/-- One round of the loop of `create_idom` over the rest of the order. -/
def idomRound (m : Module) (root fuel : Nat) : List Nat → Dominators × Bool → Exec (Dominators × Bool)
  | [], s => return s
  | bb :: bbs, (d, changed) => do
    if bb = root then idomRound m root fuel bbs (d, changed)
    else
      let new ← newIdom m fuel d bb
      if d.idom bb ≠ some new then idomRound m root fuel bbs (d.setIdom bb (some new), true)
      else idomRound m root fuel bbs (d, changed)

def idomLoop (m : Module) (root bound : Nat) : Nat → Dominators → Exec Dominators
  | 0, _ => throw .outOfFuel
  | fuel + 1, d => do
    let (d, changed) ← idomRound m root bound d.reversePostOrder (d, false)
    if changed then idomLoop m root bound fuel d else return d

def createIdom (m : Module) (blocks : List Nat) (root fuel : Nat) (d : Dominators) :
    Exec Dominators :=
  let d := blocks.foldl (fun d bb => d.setIdom bb none) d
  idomLoop m root fuel fuel (d.setIdom root (some root))

def addDominanceFrontier (addr : Nat → Nat) (d : Dominators) (bb : Option Nat) (frontier : Nat) :
    Dominators :=
  { d with
    domFrontier := Function.update d.domFrontier bb (ptrInsert addr frontier (d.domFrontier bb)) }

/-- The runner of `create_dominance_frontier`, which may step onto `nullptr`. -/
def runUp (addr : Nat → Nat) (bb : Nat) : Nat → Option Nat → Dominators → Exec Dominators
  | 0, _, _ => throw .outOfFuel
  | fuel + 1, runner, d =>
    if runner ≠ d.idom bb then
      runUp addr bb fuel (d.getIdom runner) (d.addDominanceFrontier addr runner bb)
    else return d

def createDominanceFrontier (m : Module) (addr : Nat → Nat) (blocks : List Nat) (fuel : Nat)
    (d : Dominators) : Exec Dominators :=
  blocks.foldlM
    (fun d bb => if 2 ≤ (m.blocks bb).preBbs.length then
        (m.blocks bb).preBbs.foldlM (fun d p => runUp addr bb fuel (some p) d) d
      else return d)
    d

def createDomTreeSucc (addr : Nat → Nat) (blocks : List Nat) (d : Dominators) : Dominators :=
  blocks.foldl
    (fun d bb => if d.idom bb ≠ some bb then
        { d with
          domTreeSuccBlocks := Function.update d.domTreeSuccBlocks (d.idom bb)
            (ptrInsert addr bb (d.domTreeSuccBlocks (d.idom bb))) }
      else d)
    d

/-- The body of the loop of `run` for a function with blocks. -/
def runOnFunction (m : Module) (addr : Nat → Nat) (fuel : Nat) (blocks : List Nat)
    (d : Dominators) : Exec Dominators :=
  match blocks with
  | [] => return d
  | entry :: _ => do
    let d ← createReversePostOrder m entry fuel d
    let d ← createIdom m blocks entry fuel d
    let d ← createDominanceFrontier m addr blocks fuel d
    return createDomTreeSucc addr blocks d

def run (m : Module) (addr : Nat → Nat) (fuel : Nat) : Exec Dominators :=
  (List.range m.numFunctions).foldlM
    (fun d f => runOnFunction m addr fuel (m.functions f).basicBlocks d) empty

section

variable {m : Module} {addr : Nat → Nat} {bound bound' fuel fuel' : Nat}

theorem postOrderVisit_mono (hf : fuel ≤ fuel') (bb : Nat) (s : PostOrder) :
    Exec.Le (postOrderVisit m fuel bb s) (postOrderVisit m fuel' bb s) := by
  induction fuel generalizing fuel' bb s with
  | zero => exact .of_outOfFuel _
  | succ fuel ih =>
    obtain ⟨fuel', rfl⟩ : ∃ n, fuel' = n + 1 := ⟨fuel' - 1, by omega⟩
    refine Exec.Le.bind (Exec.Le.foldlM (fun s b => ?_) _ _) (fun _ => .refl _)
    split
    · exact .refl _
    · exact ih (by omega) b s

theorem createReversePostOrder_mono (hf : fuel ≤ fuel') (entry : Nat) (d : Dominators) :
    Exec.Le (createReversePostOrder m entry fuel d) (createReversePostOrder m entry fuel' d) :=
  (postOrderVisit_mono hf entry _).bind fun _ => .refl _

theorem climb_mono (hf : fuel ≤ fuel') (d : Dominators) (b1 b2 : Nat) :
    Exec.Le (climb d fuel b1 b2) (climb d fuel' b1 b2) := by
  induction fuel generalizing fuel' b1 with
  | zero => exact .of_outOfFuel _
  | succ fuel ih =>
    obtain ⟨fuel', rfl⟩ : ∃ n, fuel' = n + 1 := ⟨fuel' - 1, by omega⟩
    simp only [climb]
    split
    · split
      · exact .refl _
      · exact ih (by omega) _
    · exact .refl _

theorem intersect_mono (hb : bound ≤ bound') (hf : fuel ≤ fuel') (d : Dominators) (b1 b2 : Nat) :
    Exec.Le (intersect d bound fuel b1 b2) (intersect d bound' fuel' b1 b2) := by
  induction fuel generalizing fuel' b1 b2 with
  | zero => exact .of_outOfFuel _
  | succ fuel ih =>
    obtain ⟨fuel', rfl⟩ : ∃ n, fuel' = n + 1 := ⟨fuel' - 1, by omega⟩
    simp only [intersect]
    split
    · exact .refl _
    · exact (climb_mono hb d b1 b2).bind fun c1 =>
        (climb_mono hb d b2 c1).bind fun c2 => ih (by omega) c1 c2

theorem newIdom_mono (hf : fuel ≤ fuel') (d : Dominators) (bb : Nat) :
    Exec.Le (newIdom m fuel d bb) (newIdom m fuel' d bb) := by
  unfold newIdom
  split
  · exact .refl _
  · refine Exec.Le.foldlM (fun new p => ?_) _ _
    split
    · exact .refl _
    · split
      · exact intersect_mono hf hf d p new
      · exact .refl _

theorem idomRound_mono (hf : fuel ≤ fuel') (root : Nat) (bbs : List Nat) (s : Dominators × Bool) :
    Exec.Le (idomRound m root fuel bbs s) (idomRound m root fuel' bbs s) := by
  induction bbs generalizing s with
  | nil => exact .refl _
  | cons bb bbs ih =>
    simp only [idomRound]
    split
    · exact ih _
    · refine (newIdom_mono hf s.1 bb).bind fun new => ?_
      split
      · exact ih _
      · exact ih _

theorem idomLoop_mono (hb : bound ≤ bound') (hf : fuel ≤ fuel') (root : Nat) (d : Dominators) :
    Exec.Le (idomLoop m root bound fuel d) (idomLoop m root bound' fuel' d) := by
  induction fuel generalizing fuel' d with
  | zero => exact .of_outOfFuel _
  | succ fuel ih =>
    obtain ⟨fuel', rfl⟩ : ∃ n, fuel' = n + 1 := ⟨fuel' - 1, by omega⟩
    refine (idomRound_mono hb root _ _).bind fun ⟨d, changed⟩ => ?_
    cases changed with
    | false => exact .refl _
    | true => exact ih (by omega) d

theorem createIdom_mono (hf : fuel ≤ fuel') (blocks : List Nat) (root : Nat) (d : Dominators) :
    Exec.Le (createIdom m blocks root fuel d) (createIdom m blocks root fuel' d) :=
  idomLoop_mono hf hf root _

theorem runUp_mono (hf : fuel ≤ fuel') (bb : Nat) (runner : Option Nat) (d : Dominators) :
    Exec.Le (runUp addr bb fuel runner d) (runUp addr bb fuel' runner d) := by
  induction fuel generalizing fuel' runner d with
  | zero => exact .of_outOfFuel _
  | succ fuel ih =>
    obtain ⟨fuel', rfl⟩ : ∃ n, fuel' = n + 1 := ⟨fuel' - 1, by omega⟩
    simp only [runUp]
    split
    · exact ih (by omega) _ _
    · exact .refl _

theorem createDominanceFrontier_mono (hf : fuel ≤ fuel') (blocks : List Nat) (d : Dominators) :
    Exec.Le (createDominanceFrontier m addr blocks fuel d)
      (createDominanceFrontier m addr blocks fuel' d) := by
  refine Exec.Le.foldlM (fun d bb => ?_) _ _
  split
  · exact Exec.Le.foldlM (fun d p => runUp_mono hf bb (some p) d) _ _
  · exact .refl _

theorem runOnFunction_mono (hf : fuel ≤ fuel') (blocks : List Nat) (d : Dominators) :
    Exec.Le (runOnFunction m addr fuel blocks d) (runOnFunction m addr fuel' blocks d) := by
  cases blocks with
  | nil => exact .refl _
  | cons entry blocks =>
    refine (createReversePostOrder_mono hf entry d).bind fun d => ?_
    refine (createIdom_mono hf _ entry d).bind fun d => ?_
    exact (createDominanceFrontier_mono hf _ d).bind fun _ => .refl _

theorem run_mono (hf : fuel ≤ fuel') : Exec.Le (run m addr fuel) (run m addr fuel') :=
  Exec.Le.foldlM (fun d _ => runOnFunction_mono hf _ d) _ _

end

end Dominators

end Cminusf
