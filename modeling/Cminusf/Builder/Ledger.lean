import Cminusf.Builder.Visit

/-! The blocks that a construction still has to terminate, and the edges that may still
lead to each block. -/

namespace Cminusf

namespace Builder

/-- The blocks left open are the one at the insert point and those of `todo`; `room b`
more edges may lead to the block `b`. -/
structure Owes (s : Site) (todo : List Nat) (room : Nat → Nat) : Prop where
  closed : ∀ b < s.module.numBlocks, b ≠ s.bb → b ∉ todo → (s.module.getTerminator b).isSome
  pre : ∀ b < s.module.numBlocks, (s.module.blocks b).preBbs.length + room b ≤ 2
  fresh : ∀ b, s.module.numBlocks ≤ b → room b = 0

/-- A part of the construction that leaves no more to do than it finds. -/
def Pays (s s' : Site) : Prop := ∀ todo room, Owes s todo room → Owes s' todo room

abbrev Site.Closed (s : Site) : Prop := (s.module.getTerminator s.bb).isSome

section

variable {s s' s'' : Site} {todo todo' : List Nat} {room room' : Nat → Nat} {b : Nat}
  {opId : OpID} {ty : Ty} {ops : List Value}

theorem le_update {t k : Nat} (h : room t ≤ k) (x : Nat) : room x ≤ Function.update room t k x :=
  le_update_iff.mpr ⟨h, fun _ _ => le_rfl⟩ x

theorem update_mono {t k k' : Nat} (hr : ∀ x, room x ≤ room' x) (hk : k ≤ k') (x : Nat) :
    Function.update room t k x ≤ Function.update room' t k' x :=
  update_le_update_iff.mpr ⟨hk, fun x _ => hr x⟩ x

theorem Pays.refl (s : Site) : Pays s s := fun _ _ h => h

theorem Pays.trans (h : Pays s s') (h' : Pays s' s'') : Pays s s'' :=
  fun todo room ho => h' todo room (h todo room ho)

theorem Owes.weaken (h : Owes s todo room) (ht : todo ⊆ todo') (hr : ∀ x, room' x ≤ room x) :
    Owes s todo' room' where
  closed b hb hne hmem := h.closed b hb hne fun hin => hmem (ht hin)
  pre b hb := by
    have := h.pre b hb
    have := hr b
    omega
  fresh b hb := by
    have := h.fresh b hb
    have := hr b
    omega

theorem emit_getTerminator (hi : Inv s.module s.origin) (hb : b < s.module.numBlocks)
    (hne : b ≠ s.bb) :
    (s.emit opId ty ops).module.getTerminator b = s.module.getTerminator b := by
  have hem := emitted s.module s.bb opId ty ops
  apply getTerminator_of_instrs
  · exact (hem.instrList b).trans (by simp [hne])
  · intro i hmem
    have hlt := (hi.instr_mem b hb i hmem).1
    exact (congrFun hem.instrs i).trans (Function.update_of_ne hlt.ne _ _)

theorem labels_condBr {c : Value} {t f : Nat} (hc : s.ValueAt c) :
    labels [c, .basicBlock t, .basicBlock f] = [t, f] := by
  cases c <;> first | rfl | exact absurd hc id

/-- A new instruction uses up the room of the blocks it branches to. -/
theorem Owes.emit (h : Owes s todo room) (hi : Inv s.module s.origin)
    (hr : ∀ x, room' x + (labels ops).count x ≤ room x) : Owes (s.emit opId ty ops) todo room' := by
  have hem := emitted s.module s.bb opId ty ops
  have hnum : (s.emit opId ty ops).module.numBlocks = s.module.numBlocks := hem.numBlocks
  constructor
  · intro b hb hne hmem
    rw [hnum] at hb
    rw [emit_getTerminator hi hb hne]
    exact h.closed b hb hne hmem
  · intro b hb
    rw [hnum] at hb
    have hpre : ((s.emit opId ty ops).module.blocks b).preBbs.length =
        (s.module.blocks b).preBbs.length + (labels ops).count b := by
      refine (congrArg List.length (hem.preBbs b)).trans ?_
      rw [List.length_append, List.length_map, List.count_eq_length_filter]
      rfl
    have := h.pre b hb
    have := hr b
    omega
  · intro b hb
    rw [hnum] at hb
    have := h.fresh b hb
    have := hr b
    omega

theorem Owes.branch {t f : Nat} (h : Owes s todo room) (hi : Inv s.module s.origin)
    (hl : labels ops = [t, f]) (hne : t ≠ f) (ht : room' t + 1 ≤ room t)
    (hf : room' f + 1 ≤ room f) (hr : ∀ x, room' x ≤ room x) :
    Owes (s.emit opId ty ops) todo room' := by
  apply h.emit hi
  intro x
  have := hr x
  rw [hl]
  by_cases hxt : x = t
  · subst hxt
    simpa [hne, hne.symm] using ht
  · by_cases hxf : x = f
    · subst hxf
      simpa [hne, hne.symm] using hf
    · simpa [Ne.symm hxt, Ne.symm hxf] using this

theorem Owes.jump {t : Nat} (h : Owes s todo room) (hi : Inv s.module s.origin)
    (ht : room' t + 1 ≤ room t) (hr : ∀ x, room' x ≤ room x) :
    Owes (s.emit opId ty [.basicBlock t]) todo room' := by
  apply h.emit hi
  intro x
  have := hr x
  by_cases hxt : x = t
  · subst hxt
    simpa [labels] using ht
  · simpa [labels, Ne.symm hxt] using this

theorem pays_emit (hi : Inv s.module s.origin) (hl : labels ops = []) :
    Pays s (s.emit opId ty ops) := by
  intro todo room h
  apply h.emit hi
  simp [hl]

/-- An instruction other than a branch makes no edge. -/
theorem Emits.pays (he : Emits s.module s.origin s.module.numInstrs s.bb opId ty ops)
    (hi : Inv s.module s.origin) (hop : opId ≠ .br) : Pays s (s.emit opId ty ops) := by
  rcases he.labels_eq with hl | ⟨hbr, -⟩
  · exact pays_emit hi hl
  · exact absurd hbr hop

theorem closed_emit (hop : opId = .br ∨ opId = .ret) : (s.emit opId ty ops).Closed := by
  have hem := emitted s.module s.bb opId ty ops
  have hlist := hem.instrList s.bb
  simp only [if_true] at hlist
  change (Module.getTerminator
    ((link s.module s.bb (labels ops)).createInstruction opId ty ops s.bb) s.bb).isSome
  simp only [Module.getTerminator, hlist, hem.instrs, List.getLast?_concat, Function.update_self,
    Instruction.isTerminator, Instruction.isBr, Instruction.isRet]
  rcases hop with rfl | rfl <;> rfl

/-- A new block is to be terminated, and two edges may lead to it. -/
theorem Owes.addBlock (h : Owes s todo room) (name : String) :
    Owes (s.addBlock name) (s.module.numBlocks :: todo)
      (Function.update room s.module.numBlocks 2) := by
  have hnum : (s.addBlock name).module.numBlocks = s.module.numBlocks + 1 := rfl
  have hold : ∀ b, b ≠ s.module.numBlocks →
      (s.addBlock name).module.blocks b = s.module.blocks b :=
    fun b hb => (createBasicBlock_blocks b).trans (if_neg hb)
  constructor
  · intro b hb hne hmem
    rw [hnum] at hb
    obtain ⟨hbn, hmem⟩ := not_or.mp (mt List.mem_cons.mpr hmem)
    have hs := h.closed b (by omega) hne hmem
    rwa [← getTerminator_of_instrs (congrArg BasicBlock.instrList (hold b hbn)) fun _ _ => rfl] at hs
  · intro b hb
    rw [hnum] at hb
    by_cases hbn : b = s.module.numBlocks
    · subst hbn
      have hnew : ((s.addBlock name).module.blocks s.module.numBlocks).preBbs = [] :=
        congrArg BasicBlock.preBbs ((createBasicBlock_blocks _).trans (if_pos rfl))
      simp [hnew]
    · rw [hold b hbn, Function.update_of_ne hbn]
      exact h.pre b (by omega)
  · intro b hb
    rw [hnum] at hb
    rw [Function.update_of_ne (by omega)]
    exact h.fresh b (by omega)

theorem Owes.terminated (h : Owes s [] room) (hc : s.Closed) (b : Nat)
    (hb : b < s.module.numBlocks) : (s.module.getTerminator b).isSome := by
  by_cases hbs : b = s.bb
  · rw [hbs]
    exact hc
  · exact h.closed b hb hbs List.not_mem_nil

/-- The insert point leaves a terminated block for one that was to be done. -/
theorem Owes.move (h : Owes s (b :: todo) room) (hc : s.Closed) :
    Owes { s with bb := b } todo room where
  closed x hx hne hmem := by
    by_cases hxs : x = s.bb
    · rw [hxs]
      exact hc
    · refine h.closed x hx hxs ?_
      exact List.not_mem_cons_of_ne_of_not_mem hne hmem
  pre := h.pre
  fresh := h.fresh

end

end Builder

end Cminusf
