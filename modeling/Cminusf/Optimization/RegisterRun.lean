import Cminusf.Optimization.Abort
import Cminusf.Optimization.Registers
import Cminusf.Optimization.Addresses
import Cminusf.Simulation

/-! What the rewritten program does in a run: it follows the first one, and waits where that executes
an instruction that is gone. -/

namespace Cminusf

namespace Mem2Reg

open Renaming Builder Machine DeadCode

variable {m m' m1 : Module} {ops : FloatOps} {f i j k p t g n entry fuel depth : Nat}
  {v u y : Value} {origin : Nat → Option Nat} {d : Dominators} {phis : Nat → List Nat}
  {r : Renaming} {addr : Nat → Nat} {is : List Nat} {frame frame' callee : Frame}
  {callers callers' : List Frame} {w w' w₁ w₁' : World} {x : Option Word} {act : Machine.Action}
  {a : Address} {args : List Word} {rest : List Nat} {s s' : State}

/-- The address of a variable that becomes a value is not that of one in memory. -/
theorem not_inMemory (hreg : IsRegister m j) : ¬ InMemory m (.slot depth j n) := fun h => h.2 hreg

theorem definedBefore_concat
    (h : DefinedBefore m' entry p (is ++ [i]) (.instruction j)) :
    j = i ∨ DefinedBefore m' entry p is (.instruction j) := by
  rcases h j rfl with hj | hj
  · rcases List.mem_append.mp hj with hj | hj
    · refine .inr fun k hk => ?_
      cases hk
      exact .inl hj
    · exact .inl (List.mem_singleton.mp hj)
  · refine .inr fun k hk => ?_
    cases hk
    exact .inr hj

theorem value_next {l : List Nat} (hv : v ≠ .instruction i) :
    (frame.next i l x).value v = frame.value v := by
  cases v with
  | instruction j =>
    have hji : j ≠ i := by
      rintro rfl
      exact hv rfl
    exact Function.update_of_ne hji _ _
  | _ => rfl

theorem value_jump (hv : ∀ p ∈ Gvn.phis m t, v ≠ .instruction p) :
    (frame.jump m t).value v = frame.value v := by
  cases v with
  | instruction j => exact if_neg fun hj => hv j hj rfl
  | _ => rfl

theorem action_alloca (hi : (m.instrs i).isAlloca)
    (hact : Machine.action ops m depth frame w i = some act) :
    act = .yields (some (.pointer ⟨.slot depth i (frame.count i), 0⟩)) w := by
  obtain ⟨ty, hty⟩ := FuncInfo.isAlloca_iff.mp hi
  simp only [Machine.action, hty, Option.some.injEq] at hact
  exact hact.symm

theorem action_converted (hi : Converted m (.instruction i))
    (hact : Machine.action ops m depth frame w i = some act) :
    ∃ n, act = .yields (some (.number n)) w := by
  obtain ⟨k, ty, hk, hop⟩ := hi
  cases hk
  have hspecial : ¬ IsSpecial (m.instrs i).opId := by
    rcases hop with hop | hop <;> simp [hop, IsSpecial]
  rw [action_of_computes hspecial] at hact
  obtain ⟨words, -, hact⟩ := Option.bind_eq_some_iff.mp hact
  rcases hop with hop | hop
  all_goals
    simp only [compute, hop, Option.bind_eq_bind] at hact
    obtain ⟨ds, -, hact⟩ := Option.bind_eq_some_iff.mp hact
    obtain ⟨n, -, rfl⟩ := Option.map_eq_some_iff.mp hact
    exact ⟨n, rfl⟩

section

variable (hw : Rewrites m origin addr d fuel m')
  (h : Described m origin addr d frame.func entry fuel m1 phis r m')
  (T : Tracks m entry m1 phis r m' is depth w frame frame')
include h T

/-- A value that replaces a load is there before the next instruction. -/
theorem Tracks.replaced_ne (hrest : frame.rest = i :: rest) {c : Nat}
    (hc : c ∈ (m.functions frame.func).basicBlocks) (hj : j ∈ (m.blocks c).instrList)
    (hsub : r.sub (.instruction j) ≠ .instruction j)
    (hdef : DefinedBefore m' entry frame.block (phis frame.block ++ is) (.instruction j)) :
    r.sub (.instruction j) ≠ .instruction i := by
  have hlist := T.split_cons hrest
  have hu := h.usable_replaced T.reached (h.split_laid (T.mem_blocks h) hlist) hc hj hsub hdef
  refine h.ne_of_usable T.reached hlist ⟨hu.not_block, hu.present, fun k hk => ?_⟩
  refine (hu.before k hk).imp_left fun hmem => ?_
  simp only [List.mem_append] at hmem ⊢
  tauto

/-- The frames behind an instruction that remains. -/
theorem Tracks.next (hrest : frame.rest = i :: rest)
    (hk : i ∈ (m'.blocks frame.block).instrList)
    (halloca : IsRegister m i → x = some (.pointer ⟨.slot depth i (frame.count i), 0⟩))
    (hconv : Converted m (.instruction i) → ∃ n, x = some (.number n))
    (hx : ¬ IsRegister m i → ∀ y, x = some y → Safe m y)
    (hreg : ∀ j n k, IsRegister m j →
      w₁.memory ⟨.slot depth j n, k⟩ = w.memory ⟨.slot depth j n, k⟩) :
    Tracks m entry m1 phis r m' (is ++ [i]) depth w₁ (frame.next i rest x)
      (frame'.next i (rest.filter (· ∈ (m'.blocks frame.block).instrList)) x) := by
  have hi := T.mem hrest
  have hsub := T.sub_kept h hrest hk
  obtain ⟨-, hst, -⟩ := (T.kept_iff h hrest).mp hk
  refine
    { func := T.func
      block := T.block
      args := T.args
      reached := T.reached
      split := by simpa [Frame.next] using T.split_cons hrest
      rest := rfl
      count := fun j hj hp => ?_
      env := fun j hj hp => ?_
      load := fun c hc j hj hne hdef => ?_
      slot := fun j y hj hy => ?_
      value := fun j n y hj hy hm => ?_
      fresh := fun j n k hj hle => ?_
      argsSafe := T.argsSafe
      envSafe := fun j y hj hy => ?_
      converted := fun j hj y hc hy => ?_ }
  · rcases eq_or_ne j i with rfl | hji
    · simp [Frame.next, T.count j hj hp]
    · simp [Frame.next, hji, T.count j hj hp]
  · rcases eq_or_ne j i with rfl | hji
    · simp [Frame.next]
    · simp [Frame.next, hji, T.env j hj hp]
  · rw [← List.append_assoc] at hdef
    rcases definedBefore_concat hdef with rfl | hdef
    · exact absurd hsub hne
    · have hji : j ≠ i := by
        rintro rfl
        exact hne hsub
      rw [value_next (T.replaced_ne h hrest hc hj hne hdef), ← T.load c hc j hj hne hdef]
      exact Function.update_of_ne hji _ _
  · rcases eq_or_ne j i with rfl | hji
    · rw [halloca hj] at hy
      simp only [Frame.next, Function.update_self, Option.some.injEq] at hy ⊢
      exact ⟨_, rfl, hy.symm⟩
    · simp only [Frame.next, Function.update_of_ne hji] at hy ⊢
      exact T.slot j y hj hy
  · rw [hreg j n 0 hj] at hm
    rcases eq_or_ne j i with rfl | hji
    · -- the variable has just been made
      rw [halloca hj] at hy
      simp only [Frame.next, Function.update_self, Option.some.injEq, Word.pointer.injEq,
        Address.mk.injEq, Object.slot.injEq, true_and, and_true] at hy
      rw [T.fresh j n 0 hj hy.le] at hm
      cases hm
    · simp only [Frame.next, Function.update_of_ne hji] at hy
      obtain ⟨z, hz, hval⟩ := T.value j n y hj hy hm
      refine ⟨z, ?_, (value_next (T.usable h hrest hz).2).trans hval⟩
      exact (h.valueAfter_other (T.mem_blocks h) hi (by simp [hst])).trans hz
  · rw [hreg j n k hj]
    rcases eq_or_ne j i with rfl | hji
    · simp only [Frame.next, Function.update_self] at hle
      exact T.fresh j n k hj (by omega)
    · simp only [Frame.next, Function.update_of_ne hji] at hle
      exact T.fresh j n k hj hle
  · rcases eq_or_ne j i with rfl | hji
    · exact hx hj y (by simpa [Frame.next] using hy)
    · exact T.envSafe j y hj (by simpa [Frame.next, hji] using hy)
  · rcases eq_or_ne j i with rfl | hji
    · obtain ⟨n, rfl⟩ := hconv hc
      simp only [Frame.next, Function.update_self, Option.some.injEq] at hy
      exact ⟨n, hy.symm⟩
    · exact T.converted j hj y hc (by simpa [Frame.next, hji] using hy)

theorem Tracks.yields (hrest : frame.rest = i :: rest)
    (hk : i ∈ (m'.blocks frame.block).instrList)
    (hact : Machine.action ops m depth frame w i = some (.yields x w₁))
    (hx : ¬ IsRegister m i → ∀ y, x = some y → Safe m y)
    (hmem : ∀ a : Address, ¬ InMemory m a.object → w₁.memory a = w.memory a) :
    Tracks m entry m1 phis r m' (is ++ [i]) depth w₁ (frame.next i rest x)
      (frame'.next i (rest.filter (· ∈ (m'.blocks frame.block).instrList)) x) := by
  refine T.next h hrest hk (fun hreg => ?_) (fun hconv => ?_) hx fun j n k hj => ?_
  · cases action_alloca hreg.1 hact
    rfl
  · obtain ⟨n, hn⟩ := action_converted hconv hact
    cases hn
    exact ⟨n, rfl⟩
  · exact hmem _ (not_inMemory hj)

theorem Tracks.not_present (hrest : frame.rest = i :: rest)
    (hk : i ∉ (m'.blocks frame.block).instrList) : ¬ m'.Present (.instruction i) := by
  have hbf := T.mem_blocks h
  rw [Module.present_instruction,
    h.parent_final hbf ((h.laid.mem_instrList hbf).mpr (.inr (T.mem hrest)))]
  exact hk

/-- The first frame goes on over an instruction that is gone. -/
theorem Tracks.skip (hrest : frame.rest = i :: rest)
    (hk : i ∉ (m'.blocks frame.block).instrList)
    (hx : ¬ IsRegister m i → ∀ y, x = some y → Safe m y)
    (hslot : IsRegister m i → x = some (.pointer ⟨.slot depth i (frame.count i), 0⟩))
    (hload : r.sub (.instruction i) ≠ .instruction i → x = frame'.value (r.sub (.instruction i)))
    (hvalue : ∀ j n y, IsRegister m j → j ≠ i → frame.env j = some (.pointer ⟨.slot depth j n, 0⟩) →
      w₁.memory ⟨.slot depth j n, 0⟩ = some y → ∃ z,
        valueAfter m1 phis r frame.block (is ++ [i]) (.instruction j) = some z ∧
          frame'.value z = some y)
    (hfresh : ∀ j n k, IsRegister m j → frame.count j ≤ n →
      w₁.memory ⟨.slot depth j n, k⟩ = none) :
    Tracks m entry m1 phis r m' (is ++ [i]) depth w₁ (frame.next i rest x) frame' := by
  have hne : ∀ j, m'.Present (.instruction j) → j ≠ i := by
    rintro j hp rfl
    exact T.not_present h hrest hk hp
  refine
    { func := T.func
      block := T.block
      args := T.args
      reached := T.reached
      split := by simpa [Frame.next] using T.split_cons hrest
      rest := ?_
      count := fun j hj hp => ?_
      env := fun j hj hp => ?_
      load := fun c hc j hj hsub hdef => ?_
      slot := fun j y hj hy => ?_
      value := fun j n y hj hy hm => ?_
      fresh := fun j n k hj hle => ?_
      argsSafe := T.argsSafe
      envSafe := fun j y hj hy => ?_
      converted := T.converted }
  · rw [T.rest, hrest, List.filter_cons_of_neg (by simpa using hk)]
    rfl
  · simp [Frame.next, hne j hp, T.count j hj hp]
  · simp [Frame.next, hne j hp, T.env j hj hp]
  · rw [← List.append_assoc] at hdef
    rcases eq_or_ne j i with rfl | hji
    · exact (Function.update_self ..).trans (hload hsub)
    · have hdef := (definedBefore_concat hdef).resolve_left hji
      exact (Function.update_of_ne hji _ _).trans (T.load c hc j hj hsub hdef)
  · rcases eq_or_ne j i with rfl | hji
    · rw [hslot hj] at hy
      simp only [Frame.next, Function.update_self, Option.some.injEq] at hy ⊢
      exact ⟨_, rfl, hy.symm⟩
    · simp only [Frame.next, Function.update_of_ne hji] at hy ⊢
      exact T.slot j y hj hy
  · rcases eq_or_ne j i with rfl | hji
    · rw [hslot hj] at hy
      simp only [Frame.next, Function.update_self, Option.some.injEq, Word.pointer.injEq,
        Address.mk.injEq, Object.slot.injEq, true_and, and_true] at hy
      rw [hfresh j n 0 hj hy.le] at hm
      cases hm
    · simp only [Frame.next, Function.update_of_ne hji] at hy
      exact hvalue j n y hj hji hy hm
  · rcases eq_or_ne j i with rfl | hji
    · simp only [Frame.next, Function.update_self] at hle
      exact hfresh j n k hj (by omega)
    · simp only [Frame.next, Function.update_of_ne hji] at hle
      exact hfresh j n k hj hle
  · rcases eq_or_ne j i with rfl | hji
    · exact hx hj y (by simpa [Frame.next] using hy)
    · exact T.envSafe j y hj (by simpa [Frame.next, hji] using hy)

/-- Only loads are replaced. -/
theorem Tracks.sub_of_not_load (hrest : frame.rest = i :: rest) (hop : ¬ (m.instrs i).isLoad) :
    r.sub (.instruction i) = .instruction i := by
  refine h.promoted.shaped.sub_eq fun j hj => ?_
  cases hj
  rw [(h.laid.old h.inv h.lt (T.mem_blocks h) (T.mem hrest)).2.1]
  exact hop

theorem Tracks.skip_alloca (hrest : frame.rest = i :: rest) (hsc : isScalarAlloca m i) :
    Tracks m entry m1 phis r m' (is ++ [i]) depth w (frame.next i rest
      (some (.pointer ⟨.slot depth i (frame.count i), 0⟩))) frame' := by
  have halloca : (m.instrs i).isAlloca := by
    cases ho : (m.instrs i).opId <;> simp_all [isScalarAlloca, Instruction.isAlloca]
  have hload : ¬ (m.instrs i).isLoad := by
    obtain ⟨ty, hty⟩ := FuncInfo.isAlloca_iff.mp halloca
    simp [Instruction.isLoad, hty]
  have hstore : storedVar m i = none := by
    obtain ⟨ty, hty⟩ := FuncInfo.isAlloca_iff.mp halloca
    simp [storedVar, Instruction.isStore, hty]
  refine T.skip h hrest ?_ (fun hni => absurd ⟨halloca, .inl hsc⟩ hni) (fun _ => rfl)
    (fun hsub => absurd (T.sub_of_not_load h hrest hload) hsub) ?_ T.fresh
  · rw [T.kept_iff h hrest]
    exact fun hk => hk.1 hsc
  · intro j n y hj _ hy hm
    rw [h.valueAfter_other (T.mem_blocks h) (T.mem hrest) (by simp [hstore])]
    exact T.value j n y hj hy hm

/-- The value of a load that is gone is the one that has replaced it. -/
theorem Tracks.skip_load (hag : Agree m w w') (hrest : frame.rest = i :: rest)
    (hv : loadedVar m i = some v) (hsub : r.sub (.instruction i) ≠ .instruction i)
    (hact : Machine.action ops m depth frame w i = some act) :
    ∃ x, act = .yields (some x) w ∧
      Tracks m entry m1 phis r m' (is ++ [i]) depth w (frame.next i rest (some x)) frame' := by
  have hop := opId_of_isLoad (isLoad_of_loadedVar hv)
  have hst := loadedVar_storedVar hv
  obtain ⟨j, rfl, hj⟩ := register_of_value h T.reached (T.split_cons hrest) hv hsub
  obtain ⟨ptr, hops, -, -⟩ := (h.inv.emits_of_opId (T.lt h hrest) hop).load_operands
  have hptr : ptr = .instruction j := by
    have := mem_operands_of_loadedVar hv
    rw [hops, List.mem_singleton] at this
    exact this.symm
  subst hptr
  obtain ⟨a, x, ha, hread, rfl⟩ := action_load hop hops hact
  obtain ⟨n, -, he⟩ := T.slot j _ hj ha
  cases he
  rw [World.read] at hread
  split at hread
  · obtain ⟨y, hy, hval⟩ := T.value j n x hj ha hread
    have hsuby := (h.sub_load T.reached (T.split_cons hrest) hv).1 y hy
    refine ⟨x, rfl, T.skip h hrest ?_ ?_ ?_ ?_ ?_ T.fresh⟩
    · rw [T.kept_iff h hrest, hv]
      exact fun hk => hk.2.2.elim (Option.some_ne_none _) hsub
    · rintro - z hz
      cases hz
      exact hag.safe _ _ hread
    · rintro hreg
      obtain ⟨ty, hty⟩ := isAlloca_of_isRegister hreg
      rw [hop] at hty
      cases hty
    · rw [hsuby, hval]
      exact fun _ => rfl
    · intro k l z hk _ hz hm
      rw [h.valueAfter_other (T.mem_blocks h) (T.mem hrest) (by simp [hst])]
      exact T.value k l z hk hz hm
  · cases hread

/-- What a store that is gone has written is the value of the variable. -/
theorem Tracks.skip_store (hag : Agree m w w') (hrest : frame.rest = i :: rest)
    (hv : storedVar m i = some v) (hact : Machine.action ops m depth frame w i = some act) :
    ∃ w₁, act = .yields none w₁ ∧ Agree m w₁ w' ∧
      Tracks m entry m1 phis r m' (is ++ [i]) depth w₁ (frame.next i rest none) frame' ∧
      ∀ a : Address, ¬ a.object.Above depth → w₁.memory a = w.memory a := by
  have hop := opId_of_isStore (isStore_of_storedVar hv)
  obtain ⟨j, u, rfl, hj, hops, hu⟩ := register_of_store h (T.mem_instructions h hrest) hv
  obtain ⟨x, a, w₁, hx, ha, hwrite, rfl⟩ := action_store hop hops hact
  obtain ⟨n, hn, he⟩ := T.slot j _ hj ha
  cases he
  rw [World.write] at hwrite
  split at hwrite
  · cases hwrite
    have hux := (T.value_eq h hrest (by simp [hops]) hu).trans hx
    refine ⟨_, rfl, ⟨fun b hb => ?_, hag.input, hag.events, fun b y hy => ?_⟩,
      T.skip h hrest ?_ ?_ ?_ ?_ ?_ ?_, fun b hb => ?_⟩
    · have hne : b ≠ ⟨.slot depth j n, 0⟩ := by
        rintro rfl
        exact not_inMemory hj hb
      simp only [Function.update_of_ne hne]
      exact hag.memory b hb
    · by_cases hb : b = ⟨.slot depth j n, 0⟩
      · subst hb
        simp only [Function.update_self, Option.some.injEq] at hy
        exact hy ▸ T.value_safe hu hx
      · simp only [Function.update_of_ne hb] at hy
        exact hag.safe b y hy
    · rw [T.kept_iff h hrest, hv]
      exact fun hk => Option.some_ne_none _ hk.2.1
    · rintro - y hy
      cases hy
    · intro hreg
      obtain ⟨ty, hty⟩ := isAlloca_of_isRegister hreg
      rw [hop] at hty
      cases hty
    · refine fun hsub => absurd (T.sub_of_not_load h hrest ?_) hsub
      simp [Instruction.isLoad, hop]
    · intro k l y hk _ hy hm
      by_cases hkj : k = j
      · -- the variable that is stored to
        subst hkj
        cases hy.symm.trans ha
        simp only [Function.update_self, Option.some.injEq] at hm
        subst hm
        exact ⟨_, h.valueAfter_store (T.mem_blocks h) (T.mem hrest) hv hops, hux⟩
      · have hne : (⟨.slot depth k l, 0⟩ : Address) ≠ ⟨.slot depth j n, 0⟩ := by simp [hkj]
        simp only [Function.update_of_ne hne] at hm
        rw [h.valueAfter_other (T.mem_blocks h) (T.mem hrest) (by simp [hv, Ne.symm hkj])]
        exact T.value k l y hk hy hm
    · intro k l c hk hle
      have hne : (⟨.slot depth k l, c⟩ : Address) ≠ ⟨.slot depth j n, 0⟩ := by
        rintro he
        cases he
        omega
      simp only [Function.update_of_ne hne]
      exact T.fresh k l c hk hle
    · have hne : b ≠ ⟨.slot depth j n, 0⟩ := by
        rintro rfl
        exact hb (le_refl depth)
      exact Function.update_of_ne hne _ _
  · cases hwrite

/-- What is gone computes nothing that the second program lacks. -/
theorem Tracks.erased (hag : Agree m w w') (hrest : frame.rest = i :: rest)
    (hk : i ∉ (m'.blocks frame.block).instrList)
    (hact : Machine.action ops m depth frame w i = some act) :
    ∃ x w₁, act = .yields x w₁ ∧ Agree m w₁ w' ∧
      Tracks m entry m1 phis r m' (is ++ [i]) depth w₁ (frame.next i rest x) frame' ∧
      ∀ a : Address, ¬ a.object.Above depth → w₁.memory a = w.memory a := by
  rw [T.kept_iff h hrest, not_and_or, not_not, not_and_or, not_or] at hk
  rcases hk with hsc | hst | ⟨hld, hsub⟩
  · have halloca : (m.instrs i).isAlloca := by
      cases ho : (m.instrs i).opId <;> simp_all [isScalarAlloca, Instruction.isAlloca]
    cases action_alloca halloca hact
    exact ⟨_, w, rfl, hag, T.skip_alloca h hrest hsc, fun _ _ => rfl⟩
  · obtain ⟨v, hv⟩ := Option.ne_none_iff_exists'.mp hst
    obtain ⟨w₁, rfl, hag₁, hT, hmem⟩ := T.skip_store h hag hrest hv hact
    exact ⟨none, w₁, rfl, hag₁, hT, hmem⟩
  · obtain ⟨v, hv⟩ := Option.ne_none_iff_exists'.mp hld
    obtain ⟨x, rfl, hT⟩ := T.skip_load h hag hrest hv hsub hact
    exact ⟨some x, w, rfl, hag, hT, fun _ _ => rfl⟩

/-- A branch goes to a successor, and ends its block. -/
theorem Tracks.branch (hrest : frame.rest = i :: rest)
    (hact : Machine.action ops m depth frame w i = some (.jumps t)) :
    Dominators.Succ m frame.block t ∧ rest = [] := by
  have hbn := (h.mem_blocks.mp (T.mem_blocks h)).1
  have hi := T.mem hrest
  obtain ⟨hop, ht⟩ := action_jumps hact
  refine ⟨(h.inv.succ _ hbn t).mpr ⟨i, hi, ht⟩, ?_⟩
  have hlast := h.inv.terminator _ hbn i hi (by simp [Instruction.isTerminator, Instruction.isBr, hop])
  have hnd := (h.inv.instr_sorted _ hbn).nodup
  rw [T.split_cons hrest] at hlast hnd
  by_contra hne
  rw [List.getLast?_append, List.getLast?_cons, List.getLast?_eq_some_getLast hne] at hlast
  simp only [Option.getD_some, Option.some_or, Option.some.injEq] at hlast
  have hmem := List.getLast_mem hne
  rw [hlast] at hmem
  exact (List.nodup_cons.mp (List.nodup_append.mp hnd).2.1).1 hmem

theorem Tracks.jump (hrest : frame.rest = i :: rest)
    (hact : Machine.action ops m depth frame w i = some (.jumps t)) :
    Tracks m entry m1 phis r m' [] depth w (frame.jump m t) (frame'.jump m' t) := by
  obtain ⟨hsucc, rfl⟩ := T.branch h hrest hact
  have hb := T.reached
  have ht : Graph.Reaches (Dominators.Succ m) entry t := hb.tail hsucc
  have hbf := T.mem_blocks h
  have htf := h.cfg.reaches_mem ht
  have hbr := (action_jumps hact).1
  have hlist := T.split_cons hrest
  have hphis : Gvn.phis m t = [] :=
    List.filter_eq_nil_iff.mpr fun p hp => h.not_isPhi htf hp
  have hold : ∀ j < m.numInstrs, j ∉ Gvn.phis m' t := fun j hj hp => by
    have := (h.laid.phi t j ((h.phis_final htf).mp hp)).1
    omega
  have henv : ∀ j, (frame.jump m t).env j = frame.env j := fun j => if_neg (by simp [hphis])
  have henv' : ∀ j < m.numInstrs, (frame'.jump m' t).env j = frame'.env j :=
    fun j hj => if_neg (hold j hj)
  -- the branch does not change the values of the variables
  have hafter : ∀ v, valueAfter m1 phis r frame.block (m.blocks frame.block).instrList v =
      valueAfter m1 phis r frame.block is v := by
    intro v
    rw [hlist]
    refine h.valueAfter_other hbf (T.mem hrest) ?_
    simp [storedVar, Instruction.isStore, hbr]
  refine
    { func := T.func
      block := rfl
      args := T.args
      reached := ht
      split := (h.body_old htf).symm
      rest := (h.body_final htf).trans (by rw [← h.body_old htf]; rfl)
      count := T.count
      env := fun j hj hp => (henv' j hj).trans ((T.env j hj hp).trans (henv j).symm)
      load := fun c hc j hj hne hdef => ?_
      slot := fun j y hj hy => T.slot j y hj (henv j ▸ hy)
      value := fun j n y hj hy hm => ?_
      fresh := T.fresh
      argsSafe := T.argsSafe
      envSafe := fun j y hj hy => T.envSafe j y hj (henv j ▸ hy)
      converted := fun j hj y hc hy => T.converted j hj y hc (henv' j hj ▸ hy) }
  · have hjn := (h.laid.old h.inv h.lt hc hj).1
    have hparent := h.parent_final hc ((h.laid.mem_instrList hc).mpr (.inr hj))
    have hdom : Graph.StrictlyDominates (Dominators.Succ m) entry c t := by
      rcases hdef j rfl with hmem | hdom
      · rw [List.append_nil] at hmem
        exact absurd ((h.phis_final htf).mpr hmem) (hold j hjn)
      · rwa [hparent, h.between.succ] at hdom
    have hbefore : DefinedBefore m' entry frame.block (phis frame.block ++ is) (.instruction j) := by
      rintro k hk
      cases hk
      rw [hparent, h.between.succ]
      by_cases hcb : c = frame.block
      · subst hcb
        left
        rw [hlist] at hj
        rcases List.mem_append.mp hj with hj | hj
        · exact List.mem_append_right _ hj
        · obtain rfl := List.mem_singleton.mp hj
          exact absurd (T.sub_of_not_load h hrest (by simp [Instruction.isLoad, hbr])) hne
      · exact .inr ⟨hdom.dominates_pred hsucc, hcb⟩
    rw [henv, T.load c hc j hj hne hbefore, value_jump]
    exact fun p hp => h.ne_phi_of_replaced ht hdom hj hne ((h.phis_final htf).mp hp)
  · rw [henv] at hy
    obtain ⟨z, hz, hval⟩ := T.value j n y hj hy hm
    rw [← hafter] at hz
    by_cases hphi : ∃ p ∈ phis t, phiVar m1 p = some (.instruction j)
    · obtain ⟨p, hp, hpv⟩ := hphi
      refine ⟨.instruction p, h.valueAfter_phi ht hp hpv, ?_⟩
      have hin := h.incoming_edge hb hsucc hp hpv hz
      rw [← T.block] at hin
      simp only [Frame.value, Frame.jump, if_pos ((h.phis_final htf).mpr hp), hin,
        Option.bind_some]
      exact hval
    · refine ⟨z, (h.valueAfter_edge hb hsucc hphi).trans hz, ?_⟩
      rw [value_jump, hval]
      exact fun p hp => h.ne_phi_of_edge hb hsucc hphi hz ((h.phis_final htf).mp hp)

omit h in
theorem Tracks.congr (hmem : ∀ j n k, IsRegister m j →
    w₁.memory ⟨.slot depth j n, k⟩ = w.memory ⟨.slot depth j n, k⟩) :
    Tracks m entry m1 phis r m' is depth w₁ frame frame' :=
  { T with
    value := fun j n y hj hy hm => T.value j n y hj hy ((hmem j n 0 hj).symm.trans hm)
    fresh := fun j n k hj hle => (hmem j n k hj).trans (T.fresh j n k hj hle) }

end

/-- The two frames of a call of a function that the pass has rewritten. -/
def Tracked (m : Module) (origin : Nat → Option Nat) (addr : Nat → Nat) (d : Dominators)
    (fuel : Nat) (m' : Module) (depth : Nat) (w : World) (frame frame' : Frame) : Prop :=
  ∃ entry m1 phis r is, Described m origin addr d frame.func entry fuel m1 phis r m' ∧
    Tracks m entry m1 phis r m' is depth w frame frame'

/-- The frames that wait for a call. -/
inductive Waiting (m : Module) (origin : Nat → Option Nat) (addr : Nat → Nat) (d : Dominators)
    (fuel : Nat) (m' : Module) (w : World) : List Frame → List Frame → Prop where
  | nil : Waiting m origin addr d fuel m' w [] []
  | cons {caller caller' : Frame} {callers callers' : List Frame} {i : Nat} {rest : List Nat} :
      Tracked m origin addr d fuel m' callers.length w caller caller' →
      caller.rest = i :: rest → i ∈ (m'.blocks caller.block).instrList →
      (m.instrs i).opId = .call → Waiting m origin addr d fuel m' w callers callers' →
      Waiting m origin addr d fuel m' w (caller :: callers) (caller' :: callers')

/-- How the two programs belong together. -/
inductive Sim (m : Module) (origin : Nat → Option Nat) (addr : Nat → Nat) (d : Dominators)
    (fuel : Nat) (m' : Module) : State → State → Prop where
  | running {frame frame' : Frame} {callers callers' : List Frame} {w w' : World} :
      Tracked m origin addr d fuel m' callers.length w frame frame' →
      Waiting m origin addr d fuel m' w callers callers' → Agree m w w' →
      Clean (callers.length + 1) w →
      Sim m origin addr d fuel m' (.running frame callers w) (.running frame' callers' w')
  | returned {x : Option Word} {w w' : World} : w'.events = w.events →
      Sim m origin addr d fuel m' (.returned x w) (.returned x w')
  | exited {w w' : World} : w'.events = w.events →
      Sim m origin addr d fuel m' (.exited w) (.exited w')

theorem Sim.outcome (h : Sim m origin addr d fuel m' s s') : s'.outcome = s.outcome := by
  cases h with
  | running => rfl
  | returned h => simp only [State.outcome, h]
  | exited h => simp only [State.outcome, h]

theorem Sim.events (h : Sim m origin addr d fuel m' s s') : s'.world.events = s.world.events := by
  cases h with
  | running _ _ hag _ => exact hag.events
  | returned h => exact h
  | exited h => exact h

theorem Waiting.length_eq (h : Waiting m origin addr d fuel m' w callers callers') :
    callers'.length = callers.length := by
  induction h with
  | nil => rfl
  | cons _ _ _ _ _ ih => rw [List.length_cons, List.length_cons, ih]

/-- The frames below see their own variables only. -/
theorem Waiting.congr (h : Waiting m origin addr d fuel m' w callers callers')
    (hmem : ∀ a : Address, ¬ InMemory m a.object → ¬ a.object.Above callers.length →
      w₁.memory a = w.memory a) : Waiting m origin addr d fuel m' w₁ callers callers' := by
  induction h with
  | nil => exact .nil
  | @cons caller caller' callers callers' i rest hT hrest hi hop _ ih =>
    obtain ⟨entry, m1, phis, r, is, hd, hT⟩ := hT
    refine .cons ⟨entry, m1, phis, r, is, hd, hT.congr fun j n k hj => ?_⟩ hrest hi hop
      (ih fun a ha hab => hmem a ha ?_)
    · refine hmem _ (not_inMemory hj) ?_
      simp [Object.Above]
    · intro hab'
      apply hab
      cases ho : a.object with
      | globalVariable g => simp [ho, Object.Above] at hab'
      | slot e j n =>
        simp only [ho, Object.Above, List.length_cons] at hab' ⊢
        omega

theorem Agree.leave (h : Agree m w w') (depth : Nat) : Agree m (w.leave depth) (w'.leave depth) where
  memory a ha := by
    simp only [World.leave]
    split
    · rfl
    · exact h.memory a ha
  input := h.input
  events := h.events
  safe a y hy := by
    simp only [World.leave] at hy
    split at hy
    · cases hy
    · exact h.safe a y hy

section

variable (hw : Rewrites m origin addr d fuel m')
include hw

theorem Rewrites.invoke (hg : g < m.numFunctions) (hcall : invoke m g args = some callee)
    (hclean : Clean depth w) (hargs : ∀ y ∈ args, Safe m y) :
    ∃ callee', Machine.invoke m' g args = some callee' ∧
      Tracked m origin addr d fuel m' depth w callee callee' := by
  obtain ⟨b, hb, rfl⟩ := Option.map_eq_some_iff.mp hcall
  obtain ⟨m1, phis, r, h⟩ := hw.described g hg b hb
  have hbf := List.mem_of_mem_head? hb
  refine ⟨⟨g, b, args, fun _ => none, fun _ => 0, Gvn.body m' b⟩, ?_, b, m1, phis, r, [], h, ?_⟩
  · rw [Machine.invoke, hw.between.functions, hb]
    rfl
  · exact
      { func := rfl
        block := rfl
        args := rfl
        reached := .refl
        split := (h.body_old hbf).symm
        rest := (h.body_final hbf).trans (by rw [← h.body_old hbf])
        count := fun _ _ _ => rfl
        env := fun _ _ _ => rfl
        load := fun c hc j hj hne hdef => by
          rw [List.append_nil] at hdef
          rcases hdef j rfl with hmem | hdom
          · have hlt := (h.laid.old h.inv h.lt hc hj).1
            have hle := (h.laid.phi b j hmem).1
            omega
          · exact absurd (.root (Ne.symm hdom.2)) hdom.1
        slot := fun j y _ hy => by cases hy
        value := fun j n y _ hy => by cases hy
        fresh := fun j n k _ _ => hclean _ (le_refl depth)
        argsSafe := hargs
        envSafe := fun j y _ hy => by cases hy
        converted := fun j _ y _ hy => by cases hy }

omit hw in
theorem Sim.resume (hcs : Waiting m origin addr d fuel m' w callers callers') (hag : Agree m w w')
    (hx : ∀ y, x = some y → Safe m y) (hres : resume callers x w = some s) :
    ∃ s', Machine.resume callers' x w' = some s' ∧ Sim m origin addr d fuel m' s s' := by
  cases hcs with
  | nil =>
    cases hres
    exact ⟨_, rfl, .returned hag.events⟩
  | @cons caller caller' callers callers' i rest hT hrest hi hop hcs =>
    obtain ⟨entry, m1, phis, r, is, h, T⟩ := hT
    have hrest' : caller'.rest =
        i :: rest.filter (· ∈ (m'.blocks caller.block).instrList) := by
      rw [T.rest, hrest, List.filter_cons_of_pos (by simpa using hi)]
    simp only [Machine.resume, Frame.finish, hrest, Option.map_some, Option.some.injEq] at hres
    subst hres
    refine ⟨_, by simp only [Machine.resume, Frame.finish, hrest', Option.map_some]; rfl, ?_⟩
    rw [hcs.length_eq]
    have hbelow : ∀ a : Address, ¬ a.object.Above (callers.length + 1) →
        (w.leave (callers.length + 1)).memory a = w.memory a := fun a ha => if_neg ha
    refine .running ⟨entry, m1, phis, r, _, h, T.next h hrest hi ?_ ?_ (fun _ => hx) ?_⟩
      (hcs.congr fun a _ ha => hbelow a fun hab => ha ?_) (hag.leave _) (clean_leave _ _)
    · intro hreg
      obtain ⟨ty, hty⟩ := isAlloca_of_isRegister hreg
      rw [hop] at hty
      cases hty
    · rintro ⟨j, ty, hj, hconv⟩
      cases hj
      rw [hop] at hconv
      rcases hconv with hconv | hconv <;> cases hconv
    · exact fun j n k _ => hbelow _ (by simp [Object.Above])
    · cases ho : a.object with
      | globalVariable g => simp [ho, Object.Above] at hab
      | slot e j n =>
        simp only [ho, Object.Above] at hab ⊢
        omega

theorem Sim.kept {entry : Nat} {m1 : Module} {phis : Nat → List Nat} {r : Renaming} {is : List Nat}
    (h : Described m origin addr d frame.func entry fuel m1 phis r m')
    (T : Tracks m entry m1 phis r m' is callers.length w frame frame')
    (hcs : Waiting m origin addr d fuel m' w callers callers') (hag : Agree m w w')
    (hclean : Clean (callers.length + 1) w) (hrest : frame.rest = i :: rest)
    (hk : i ∈ (m'.blocks frame.block).instrList)
    (hs : step ops m (.running frame callers w) = some s) :
    ∃ s', step ops m' (.running frame' callers' w') = some s' ∧
      Sim m origin addr d fuel m' s s' := by
  have hrest' : frame'.rest = i :: rest.filter (· ∈ (m'.blocks frame.block).instrList) := by
    rw [T.rest, hrest, List.filter_cons_of_pos (by simpa using hk)]
  simp only [step, hrest] at hs
  obtain ⟨act, hact, hs⟩ := Option.bind_eq_some_iff.mp hs
  obtain ⟨act', hact', hsame⟩ := T.action hw h hag hrest hk hact
  rw [← hcs.length_eq] at hact'
  simp only [step, hrest', hact', Option.bind_some]
  cases hsame with
  | @yields x w₁ w₁' hag₁ hmem hx =>
    cases hs
    have hT := T.yields h hrest hk hact hx hmem
    exact ⟨_, rfl, .running ⟨entry, m1, phis, r, _, h, hT⟩ (hcs.congr fun a ha _ => hmem a ha)
      hag₁ (hclean.of_action hact)⟩
  | @calls g args hargs =>
    obtain ⟨callee, hcallee, rfl⟩ := Option.map_eq_some_iff.mp hs
    obtain ⟨hop, operands, hops⟩ := action_calls hact
    have hg : g < m.numFunctions := by
      have hemits := h.inv.emits_of_opId (T.lt h hrest) hop
      rw [hops] at hemits
      generalize (m.instrs i).type = ty at hemits
      cases hemits
      assumption
    obtain ⟨callee', hcallee', hT⟩ := hw.invoke hg hcallee hclean hargs
    refine ⟨_, by rw [perform, hcallee']; rfl, .running hT
      (.cons ⟨entry, m1, phis, r, is, h, T⟩ hrest hk hop hcs) hag (hclean.mono ?_)⟩
    simp
  | @jumps t =>
    rw [perform] at hs ⊢
    split at hs
    · rename_i ht
      cases hs
      rw [hw.between.functions, T.func, if_pos ht]
      exact ⟨_, rfl, .running ⟨entry, m1, phis, r, _, h, T.jump h hrest hact⟩ hcs hag hclean⟩
    · cases hs
  | returns hx => exact Sim.resume hcs hag hx hs
  | exits he =>
    cases hs
    exact ⟨_, rfl, .exited he⟩

omit hw in
/-- The second program waits at what is gone. -/
theorem Sim.erased {entry : Nat} {m1 : Module} {phis : Nat → List Nat} {r : Renaming}
    {is : List Nat} (h : Described m origin addr d frame.func entry fuel m1 phis r m')
    (T : Tracks m entry m1 phis r m' is callers.length w frame frame')
    (hcs : Waiting m origin addr d fuel m' w callers callers') (hag : Agree m w w')
    (hclean : Clean (callers.length + 1) w) (hrest : frame.rest = i :: rest)
    (hk : i ∉ (m'.blocks frame.block).instrList)
    (hs : step ops m (.running frame callers w) = some s) :
    Sim m origin addr d fuel m' s (.running frame' callers' w') ∧
      ∃ x w₁, s = .running (frame.next i rest x) callers w₁ := by
  simp only [step, hrest] at hs
  obtain ⟨act, hact, hs⟩ := Option.bind_eq_some_iff.mp hs
  obtain ⟨x, w₁, rfl, hag₁, hT, hmem⟩ := T.erased h hag hrest hk hact
  cases hs
  exact ⟨.running ⟨entry, m1, phis, r, _, h, hT⟩ (hcs.congr fun a _ ha => hmem a ha) hag₁
    (hclean.of_action hact), x, w₁, rfl⟩

/-- The instructions left in the block. -/
def left : State → Nat
  | .running frame _ _ => frame.rest.length
  | _ => 0

theorem Rewrites.follows :
    Follows (step ops m) (step ops m') (Sim m origin addr d fuel m') left := by
  intro s s' t hsim hs
  cases hsim with
  | @running frame frame' callers callers' w w' hT hcs hag hclean =>
    obtain ⟨entry, m1, phis, r, is, h, T⟩ := hT
    cases hrest : frame.rest with
    | nil => simp [step, hrest] at hs
    | cons i rest =>
      by_cases hk : i ∈ (m'.blocks frame.block).instrList
      · exact .inl (Sim.kept hw h T hcs hag hclean hrest hk hs)
      · obtain ⟨hsim, x, w₁, rfl⟩ := Sim.erased h T hcs hag hclean hrest hk hs
        exact .inr ⟨hsim, by simp [left, hrest, Frame.next]⟩
  | returned => cases hs
  | exited => cases hs

theorem Rewrites.start_eq (input : List (BitVec 32)) : start m' input = start m input := by
  simp only [start, hw.between.globals, hw.between.numGlobals]

/-- The two programs before their first step. -/
theorem Rewrites.sim_start {input : List (BitVec 32)} (hg : g < m.numFunctions)
    (hcall : Machine.invoke m g [] = some callee) :
    ∃ callee', Machine.invoke m' g [] = some callee' ∧ Sim m origin addr d fuel m'
      (.running callee [] (start m input)) (.running callee' [] (start m' input)) := by
  have hclean : Clean 0 (start m input) := by
    intro a ha
    cases ho : a.object with
    | globalVariable j => simp [ho, Object.Above] at ha
    | slot e j n => simp [start, ho]
  obtain ⟨callee', hcallee', hT⟩ := hw.invoke hg hcall hclean (by simp)
  rw [hw.start_eq]
  refine ⟨callee', hcallee', .running hT .nil ⟨fun _ _ => rfl, rfl, rfl, fun a x hx => ?_⟩
    (hclean.mono (Nat.zero_le _))⟩
  simp only [start] at hx
  split at hx
  · split at hx
    · unfold Machine.initial at hx
      split at hx
      · obtain ⟨n, -, rfl⟩ := Option.map_eq_some_iff.mp hx
        exact safe_number n
      · obtain ⟨n, -, rfl⟩ := Option.map_eq_some_iff.mp hx
        exact safe_number n
      · cases hx
    · cases hx
  · cases hx

/-- What the first program reaches, the second one does. -/
theorem Rewrites.reaches {input : List (BitVec 32)} (hg : g < m.numFunctions)
    (hcall : Machine.invoke m g [] = some callee)
    (hs : Reaches ops m (.running callee [] (start m input)) s) :
    ∃ callee' s', Machine.invoke m' g [] = some callee' ∧
      Reaches ops m' (.running callee' [] (start m' input)) s' ∧
      Sim m origin addr d fuel m' s s' := by
  obtain ⟨callee', hcall', hsim⟩ := hw.sim_start  hg hcall
  obtain ⟨s', hs', hsim⟩ := hw.follows.reaches hsim hs
  exact ⟨callee', s', hcall', hs', hsim⟩

/-- What the second program reaches, the first one does. -/
theorem Rewrites.reaches_back {input : List (BitVec 32)} (hdef : Defined ops m input)
    (hg : g < m.numFunctions) (hmain : (m.functions g).name = "main")
    (hcall : Machine.invoke m' g [] = some callee)
    (hs : Reaches ops m' (.running callee [] (start m' input)) s') :
    ∃ frame s, Machine.invoke m g [] = some frame ∧
      Reaches ops m (.running frame [] (start m input)) s ∧ Sim m origin addr d fuel m' s s' := by
  obtain ⟨b, hb, -⟩ := Option.map_eq_some_iff.mp hcall
  rw [hw.between.functions] at hb
  obtain ⟨frame, hframe⟩ : ∃ frame, Machine.invoke m g [] = some frame := by
    rw [Machine.invoke, hb]
    exact ⟨_, rfl⟩
  obtain ⟨callee', hcall', hsim⟩ := hw.sim_start  hg hframe
  cases hcall.symm.trans hcall'
  -- where the first program stops, it has ended
  have hstop : ∀ u u', Reaches ops m (.running frame [] (start m input)) u →
      Sim m origin addr d fuel m' u u' → step ops m u = none → step ops m' u' = none := by
    intro u u' hu hsim hstop
    obtain ⟨o, ho⟩ := Option.ne_none_iff_exists'.mp (hdef g hg hmain _ u hframe hu hstop)
    exact step_of_outcome (hsim.outcome.trans ho)
  obtain ⟨s, hreach, hsim⟩ := hw.follows.reaches_back hstop hsim hs
  exact ⟨frame, s, hframe, hreach, hsim⟩

/-- The values of the operands of an instruction that remains. -/
theorem Rewrites.operands {input : List (BitVec 32)} (hg : g < m.numFunctions)
    (hcall : Machine.invoke m g [] = some callee)
    (hs : Reaches ops m (.running callee [] (start m input)) (.running frame callers w))
    (hi : frame.rest.head? = some i) (hk : i ∈ (m'.blocks frame.block).instrList)
    (hact : Machine.action ops m callers.length frame w i = some act) :
    ∃ callee' frame' callers' w', Machine.invoke m' g [] = some callee' ∧
      Reaches ops m' (.running callee' [] (start m' input)) (.running frame' callers' w') ∧
      frame'.func = frame.func ∧ frame'.rest.head? = some i ∧
      (m'.instrs i).operands.map frame'.value = (m.instrs i).operands.map frame.value := by
  obtain ⟨callee', s', hcall', hs', hsim⟩ := hw.reaches hg hcall hs
  cases hsim with
  | @running _ frame' _ callers' _ w' hT _ _ _ =>
    obtain ⟨entry, m1, phis, r, is, h, T⟩ := hT
    obtain ⟨rest, hrest⟩ := List.head?_eq_some_iff.mp hi
    have hvalue : ∀ v ∈ (m.instrs i).operands, frame'.value (r.sub v) = frame.value v :=
      fun v hv => T.value_eq h hrest hv fun j hj =>
        T.kept_operand hw h hrest hk hact (hj ▸ hv)
    have hrest' : frame'.rest = i :: rest.filter (· ∈ (m'.blocks frame.block).instrList) := by
      rw [T.rest, hrest, List.filter_cons_of_pos (by simpa using hk)]
    refine ⟨callee', frame', callers', w', hcall', hs', T.func, by rw [hrest']; rfl, ?_⟩
    rw [h.operands_old (T.mem_blocks h) (T.mem hrest) hk, List.map_map]
    exact List.map_congr_left hvalue

theorem Rewrites.preserves (input : List (BitVec 32)) :
    (∀ es, MakesCalls ops m input es → MakesCalls ops m' input es) ∧
      ∀ o, Ends ops m input o → Ends ops m' input o := by
  have hname : ∀ {g}, (m.functions g).name = "main" → (m'.functions g).name = "main" := by
    rw [hw.between.functions]
    exact id
  constructor
  · rintro es ⟨g, hg, hmain, frame, s, hcall, hs, he⟩
    obtain ⟨frame', s', hcall', hs', hsim⟩ := hw.reaches hg hcall hs
    exact ⟨g, hw.between.numFunctions ▸ hg, hname hmain, frame', s', hcall', hs',
      hsim.events.trans he⟩
  · rintro o ⟨g, hg, hmain, frame, s, hcall, hs, ho⟩
    obtain ⟨frame', s', hcall', hs', hsim⟩ := hw.reaches hg hcall hs
    exact ⟨g, hw.between.numFunctions ▸ hg, hname hmain, frame', s', hcall', hs',
      hsim.outcome.trans ho⟩

theorem Rewrites.reflects {input : List (BitVec 32)} (hdef : Defined ops m input) :
    (∀ es, MakesCalls ops m' input es → MakesCalls ops m input es) ∧
      ∀ o, Ends ops m' input o → Ends ops m input o := by
  have hname : ∀ {g}, (m'.functions g).name = "main" → (m.functions g).name = "main" := by
    rw [hw.between.functions]
    exact id
  constructor
  · rintro es ⟨g, hg, hmain, frame', s', hcall', hs', he⟩
    rw [hw.between.numFunctions] at hg
    obtain ⟨frame, s, hcall, hs, hsim⟩ := hw.reaches_back hdef hg (hname hmain) hcall' hs'
    exact ⟨g, hg, hname hmain, frame, s, hcall, hs, hsim.events.symm.trans he⟩
  · rintro o ⟨g, hg, hmain, frame', s', hcall', hs', ho⟩
    rw [hw.between.numFunctions] at hg
    obtain ⟨frame, s, hcall, hs, hsim⟩ := hw.reaches_back hdef hg (hname hmain) hcall' hs'
    exact ⟨g, hg, hname hmain, frame, s, hcall, hs, hsim.outcome.symm.trans ho⟩

end

/-- What a run of the pass does to the functions of a module of the visitors. -/
theorem rewrites_of_run {program : ASTProgram} {addr : Value → Nat}
    (h : buildModule program = some m) (haddr : Function.Injective addr)
    (hrun : run m addr fuel = .ok m') (hu : Unsubscripted m) :
    ∃ origin d n, Rewrites m origin (fun bb => addr (.basicBlock bb)) d n m' := by
  obtain ⟨origin, hm⟩ := CminusfBuilder.buildModule_inv h
  obtain ⟨hbet, d, n, hdesc⟩ := describe hm haddr hrun
  exact ⟨origin, d, n, hm, hbet, hdesc, CminusfBuilder.buildModule_storesFit h, hu⟩

/-- `int main(void) { int x; int a[2]; x = 1; if (input()) x = 2; a[1] = x; return a[1]; }`. -/
def storeProgram : ASTProgram :=
  let last : ASTFactor := .var (.subscript "a" (Dominators.literal 1))
  let value (f : ASTFactor) : ASTExpression := .simple (.ofTerm (.ofFactor f))
  let assign (v : ASTVar) (e : ASTExpression) : ASTStatement := .expressionStmt (some (.assign v e))
  ⟨[.fun ⟨.int, "main", [], [⟨.int, "x", none⟩, ⟨.int, "a", some 2⟩],
    [assign (.scalar "x") (Dominators.literal 1),
      .selection (value (.call "input" [])) (assign (.scalar "x") (Dominators.literal 2)),
      assign (.subscript "a" (Dominators.literal 1)) (value (.var (.scalar "x"))),
      .return (some (value last))]⟩]⟩

theorem storeProgram_module : ∃ m, buildModule storeProgram = some m ∧
    ∃ m', run m Value.code 30 = .ok m' ∧ Unsubscripted m ∧ Defined Gvn.noFloats m [1] := by
  obtain ⟨m, hm, hok, hu, hend⟩ := exists_buildModule storeProgram
    (fun m => (run m Value.code 30).isOk ∧ Unsubscripted m ∧ endsWithin Gvn.noFloats m [1] 60)
    (by decide +kernel)
  cases hrun : run m Value.code 30 with
  | error fault =>
    rw [hrun] at hok
    cases hok
  | ok m' => exact ⟨m, hm, m', hrun, hu, defined_of_endsWithin hend⟩

/-- The program that the pass returns makes the same calls of the library and ends in the same
way. -/
theorem run_preserves {program : ASTProgram} {addr : Value → Nat}
    (h : buildModule program = some m) (haddr : Function.Injective addr)
    (hrun : run m addr fuel = .ok m') (hu : Unsubscripted m) (ops : FloatOps)
    (input : List (BitVec 32)) :
    (∀ es, MakesCalls ops m input es → MakesCalls ops m' input es) ∧
      ∀ o, Ends ops m input o → Ends ops m' input o := by
  obtain ⟨origin, d, n, hw⟩ := rewrites_of_run h haddr hrun hu
  exact hw.preserves input

theorem run_preserves_storeProgram : ∃ m, buildModule storeProgram = some m ∧
    ∃ m', run m Value.code 30 = .ok m' ∧
      (∀ es, MakesCalls Gvn.noFloats m [1] es → MakesCalls Gvn.noFloats m' [1] es) ∧
        ∀ o, Ends Gvn.noFloats m [1] o → Ends Gvn.noFloats m' [1] o := by
  obtain ⟨m, hm, m', hrun, hu, -⟩ := storeProgram_module
  exact ⟨m, hm, m', hrun, run_preserves hm Value.code_injective hrun hu Gvn.noFloats [1]⟩

/-- It does nothing else, if the program has no undefined behaviour. -/
theorem run_reflects {program : ASTProgram} {addr : Value → Nat}
    (h : buildModule program = some m) (haddr : Function.Injective addr)
    (hrun : run m addr fuel = .ok m') (hu : Unsubscripted m) {input : List (BitVec 32)}
    (hdef : Defined ops m input) :
    (∀ es, MakesCalls ops m' input es → MakesCalls ops m input es) ∧
      ∀ o, Ends ops m' input o → Ends ops m input o := by
  obtain ⟨origin, d, n, hw⟩ := rewrites_of_run h haddr hrun hu
  exact hw.reflects hdef

theorem run_reflects_storeProgram : ∃ m, buildModule storeProgram = some m ∧
    ∃ m', run m Value.code 30 = .ok m' ∧
      (∀ es, MakesCalls Gvn.noFloats m' [1] es → MakesCalls Gvn.noFloats m [1] es) ∧
        ∀ o, Ends Gvn.noFloats m' [1] o → Ends Gvn.noFloats m [1] o := by
  obtain ⟨m, hm, m', hrun, hu, hdef⟩ := storeProgram_module
  exact ⟨m, hm, m', hrun, run_reflects hm Value.code_injective hrun hu hdef⟩

/-- Where the program executes an instruction that the pass keeps, the other one executes it with
operands of the same values, those that stand for loads that are gone among them. -/
def KeepsOperands (ops : FloatOps) (m m' : Module) (input : List (BitVec 32)) : Prop :=
  ∀ g < m.numFunctions, ∀ callee frame callers w i act, Machine.invoke m g [] = some callee →
    Reaches ops m (.running callee [] (start m input)) (.running frame callers w) →
    frame.rest.head? = some i → i ∈ (m'.blocks frame.block).instrList →
    Machine.action ops m callers.length frame w i = some act →
    ∃ callee' frame' callers' w', Machine.invoke m' g [] = some callee' ∧
      Reaches ops m' (.running callee' [] (start m' input)) (.running frame' callers' w') ∧
      frame'.func = frame.func ∧ frame'.rest.head? = some i ∧
      (m'.instrs i).operands.map frame'.value = (m.instrs i).operands.map frame.value

/-- The pass keeps what a program does where only arrays are subscripted and only scalars are
assigned as a whole. -/
theorem run_keeps {program : ASTProgram} {addr : Value → Nat} (h : buildModule program = some m)
    (haddr : Function.Injective addr) (hrun : run m addr fuel = .ok m') (hu : Unsubscripted m)
    (ops : FloatOps) (input : List (BitVec 32)) :
    (∀ es, MakesCalls ops m input es → MakesCalls ops m' input es) ∧
      (∀ o, Ends ops m input o → Ends ops m' input o) ∧
      (Defined ops m input → (∀ es, MakesCalls ops m' input es → MakesCalls ops m input es) ∧
        ∀ o, Ends ops m' input o → Ends ops m input o) ∧
      KeepsOperands ops m m' input := by
  obtain ⟨origin, d, n, hw⟩ := rewrites_of_run h haddr hrun hu
  refine ⟨(hw.preserves input).1, (hw.preserves input).2, fun hdef => hw.reflects hdef, ?_⟩
  intro g hg callee frame callers w i act hcall hs hi hk hact
  exact hw.operands hg hcall hs hi hk hact

theorem run_keeps_storeProgram : ∃ m, buildModule storeProgram = some m ∧
    ∃ m', run m Value.code 30 = .ok m' ∧
      (∀ es, MakesCalls Gvn.noFloats m [1] es ↔ MakesCalls Gvn.noFloats m' [1] es) ∧
      (∀ o, Ends Gvn.noFloats m [1] o ↔ Ends Gvn.noFloats m' [1] o) ∧
      KeepsOperands Gvn.noFloats m m' [1] := by
  obtain ⟨m, hm, m', hrun, hu, hdef⟩ := storeProgram_module
  obtain ⟨hcalls, hends, hback, hkeeps⟩ :=
    run_keeps hm Value.code_injective hrun hu Gvn.noFloats [1]
  obtain ⟨hcalls', hends'⟩ := hback hdef
  exact ⟨m, hm, m', hrun, fun es => ⟨hcalls es, hcalls' es⟩, fun o => ⟨hends o, hends' o⟩, hkeeps⟩

/-- `int main(void) { int x; x = 5; return x[0]; }`. -/
def subscriptProgram : ASTProgram := ⟨[.fun ⟨.int, "main", [], [⟨.int, "x", none⟩],
  [.expressionStmt (some (.assign (.scalar "x") (Dominators.literal 5))),
    .return (some (.simple (.ofTerm (.ofFactor
      (.var (.subscript "x" (Dominators.literal 0)))))))]⟩]⟩

/-- Whether the call of `f` stops after at most `fuel` steps without having ended. -/
def getsStuck (m : Module) (f fuel : Nat) : Bool :=
  (Machine.invoke m f []).all fun frame =>
    let s := Machine.run Gvn.noFloats m fuel (.running frame [] (start m []))
    (step Gvn.noFloats m s).isNone && s.outcome.isNone

theorem not_ends_of_getsStuck {o : Machine.Outcome} (h : getsStuck m f fuel)
    (hname : ∀ g < m.numFunctions, (m.functions g).name = "main" → g = f) :
    ¬ Ends Gvn.noFloats m [] o := by
  rintro ⟨g, hg, hmain, frame, s, hcall, hs, ho⟩
  obtain rfl := hname g hg hmain
  rw [getsStuck, hcall, Option.all_some] at h
  simp only [Bool.and_eq_true, Option.isNone_iff_eq_none] at h
  obtain ⟨hstop, hnone⟩ := h
  obtain rfl := stuck_unique hs (step_of_outcome ho) (reaches_run _ _ _ _) hstop
  rw [ho] at hnone
  cases hnone

theorem subscriptProgram_module : ∃ m, buildModule subscriptProgram = some m ∧
    m.numFunctions = 5 ∧ (∀ f < 4, (m.functions f).basicBlocks = []) ∧
    (m.functions 4).basicBlocks = [0, 1, 2] ∧ 1 ∈ (m.blocks 0).succBbs ∧
    2 ∈ (m.blocks 0).succBbs ∧ (∀ i < m.numInstrs, loadedVar m i = none) ∧
    (m.functions 4).name = "main" ∧ (∀ f < 5, (m.functions f).name = "main" → f = 4) ∧
    ((Machine.invoke m 4 []).any fun frame =>
      (Machine.run Gvn.noFloats m 30 (.running frame [] (start m []))).outcome =
        some (.returned (some (.number (.int 5))) [])) ∧
    (run m Value.code 20).toOption.any fun m' => getsStuck m' 4 30 :=
  exists_buildModule subscriptProgram _ (by decide +kernel)

/-- The variable is gone, but its element is still loaded. -/
theorem not_keeps_subscriptProgram : ¬ ∀ (program : ASTProgram) (m m' : Module)
    (addr : Value → Nat) (fuel : Nat), buildModule program = some m → Function.Injective addr →
    AllReachable m → StoredBeforeLoaded m → run m addr fuel = .ok m' →
    ∀ ops input o, Ends ops m input o → Ends ops m' input o := by
  intro hall
  obtain ⟨m, hm, hn, hnil, hblocks, h1, h2, hload, hname, huniq, hend, hstuck⟩ :=
    subscriptProgram_module
  obtain ⟨m', hrun, hstuck⟩ := (Option.any_eq_true _ _).mp hstuck
  have hrun := Exec.ok_of_toOption hrun
  obtain ⟨frame, hcall, hend⟩ := (Option.any_eq_true _ _).mp hend
  obtain ⟨origin, hinv⟩ := CminusfBuilder.buildModule_inv hm
  have hf : ∀ f < m.numFunctions, ∀ entry, (m.functions f).basicBlocks.head? = some entry →
      f = 4 ∧ entry = 0 := by
    intro f hf entry hh
    by_cases h4 : f < 4
    · rw [hnil f h4] at hh
      cases hh
    · obtain rfl : f = 4 := by omega
      rw [hblocks] at hh
      cases hh
      exact ⟨rfl, rfl⟩
  have hreach : AllReachable m := by
    intro f hlt entry hh b hb
    obtain ⟨rfl, rfl⟩ := hf f hlt entry hh
    rw [hblocks] at hb
    simp only [List.mem_cons, List.not_mem_nil, or_false] at hb
    rcases hb with rfl | rfl | rfl
    · exact .refl
    · exact .single h1
    · exact .single h2
  have hstored : StoredBeforeLoaded m := storedBeforeLoaded_of_none hinv hload
  have hends : Ends Gvn.noFloats m [] (.returned (some (.number (.int 5))) []) :=
    ⟨4, by omega, hname, frame, _, hcall, reaches_run _ _ _ _, of_decide_eq_true hend⟩
  have hends' := hall subscriptProgram m m' Value.code 20 hm Value.code_injective hreach hstored
    hrun Gvn.noFloats [] _ hends
  have hbet := (describe hinv Value.code_injective hrun).1
  refine not_ends_of_getsStuck hstuck ?_ hends'
  rw [hbet.functions, hbet.numFunctions, hn]
  exact huniq

end Mem2Reg

end Cminusf
