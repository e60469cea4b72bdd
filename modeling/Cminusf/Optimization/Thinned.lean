import Cminusf.Optimization.Purity

/-! Programs from which instructions have been removed that nothing depends on. The program that is
left follows the first one; it waits while that executes what has been removed. -/

namespace Cminusf

namespace Machine

open DeadCode Execution

/-- `m'` has the instructions of `m` that are kept. What is kept depends on what is kept, and what is
removed is computed without effect. -/
structure Thinned (m m' : Module) (keep : Nat → Bool) (P : Nat → Prop) : Prop where
  functions : m'.functions = m.functions
  globals : m'.globals = m.globals
  numGlobals : m'.numGlobals = m.numGlobals
  instrs : m'.instrs = m.instrs
  numFunctions : m'.numFunctions = m.numFunctions
  blocks : ∀ f < m.numFunctions, ∀ b ∈ (m.functions f).basicBlocks,
    (m'.blocks b).instrList = (m.blocks b).instrList.filter keep
  operands : ∀ f < m.numFunctions, ∀ i ∈ instructions m f, keep i → ∀ j,
    .instruction j ∈ (m.instrs i).operands → keep j
  effect : ∀ f < m.numFunctions, ∀ i ∈ instructions m f, keep i = false →
    (m.instrs i).opId ≠ .br ∧ (m.instrs i).opId ≠ .ret ∧ (m.instrs i).opId ≠ .store
  callee : ∀ f < m.numFunctions, ∀ i ∈ instructions m f, keep i = false →
    (m.instrs i).opId = .call → ∀ g operands, (m.instrs i).operands = .function g :: operands → P g
  calls : ∀ f < m.numFunctions, ∀ i ∈ instructions m f, ∀ g operands,
    (m.instrs i).operands = .function g :: operands → g < m.numFunctions
  quiet : Quiet m P

variable {ops : FloatOps} {m m' : Module} {keep : Nat → Bool} {P : Nat → Prop} {depth i t g : Nat}
  {frame frame' callee : Frame} {callers callers' : List Frame} {w w' : World} {v : Option Word}
  {a : Address} {x : Word} {act : Action} {s s' : State} {args : List Word} {rest : List Nat}

/-- The two frames of a call. -/
structure Matches (m : Module) (keep : Nat → Bool) (frame frame' : Frame) : Prop where
  func : frame'.func = frame.func
  block : frame'.block = frame.block
  args : frame'.args = frame.args
  env : ∀ i, keep i → frame'.env i = frame.env i
  count : ∀ i, keep i → frame'.count i = frame.count i
  rest : frame'.rest = frame.rest.filter keep
  inside : ∀ i ∈ frame.rest, i ∈ instructions m frame.func
  defined : frame.func < m.numFunctions

/-- The frames wait for a call that is kept. -/
structure Awaits (m : Module) (keep : Nat → Bool) (frame frame' : Frame) : Prop
    extends Matches m keep frame frame' where
  kept : ∀ i ∈ frame.rest.head?, keep i

/-- There are no variables above the frame that runs. -/
def Clean (depth : Nat) (w : World) : Prop := ∀ a : Address, a.object.Above depth → w.memory a = none

theorem Clean.mono {depth' : Nat} (h : Clean depth w) (hle : depth ≤ depth') : Clean depth' w := by
  intro a ha
  apply h a
  cases ho : a.object with
  | globalVariable g => simp [ho, Object.Above] at ha
  | slot d j n =>
    simp only [ho, Object.Above] at ha ⊢
    omega

theorem clean_leave (depth : Nat) (w : World) : Clean depth (w.leave depth) :=
  fun _ ha => if_pos ha

theorem Clean.write {w' : World} (h : Clean (depth + 1) w) (hw : w.write m depth a x = some w') :
    Clean (depth + 1) w' := by
  rw [World.write] at hw
  split at hw
  · rename_i hvalid
    cases hw
    intro b hb
    have hne : b ≠ a := by
      rintro rfl
      exact hvalid.2.2 hb
    exact (Function.update_of_ne hne _ _).trans (h b hb)
  · cases hw

theorem Clean.of_external {name : String} (h : Clean depth w)
    (hact : external name args w = some (.yields v w')) : Clean depth w' := by
  unfold external at hact
  split at hact
  · split at hact
    · cases hact
    · cases hact
      exact h
  · split at hact
    · cases hact
    · split at hact
      · split at hact
        · cases hact
          exact h
        · cases hact
      · split at hact
        · cases hact
          exact h
        · cases hact
      · cases hact

theorem Clean.of_action (h : Clean (depth + 1) w)
    (hact : action ops m depth frame w i = some (.yields v w')) : Clean (depth + 1) w' := by
  generalize hy : Action.yields v w' = act at hact
  cases performs_of_action hact with
  | value =>
    cases hy
    exact h
  | store _ hw =>
    cases hy
    exact h.write hw
  | library _ _ _ hext =>
    subst hy
    exact h.of_external hext
  | _ => cases hy

theorem Matches.value {v : Value} (h : Matches m keep frame frame')
    (hv : ∀ j, v = .instruction j → keep j) : frame'.value v = frame.value v := by
  cases v with
  | instruction j => exact h.env j (hv j rfl)
  | argument f n => simp only [Frame.value, h.func, h.args]
  | _ => rfl

theorem mapM_congr_value {f g : Value → Option Word} {vs : List Value} (h : ∀ v ∈ vs, f v = g v) :
    vs.mapM f = vs.mapM g := by
  induction vs with
  | nil => rfl
  | cons v vs ih =>
    rw [List.mapM_cons, List.mapM_cons, h v List.mem_cons_self,
      ih fun u hu => h u (List.mem_cons_of_mem _ hu)]

theorem Thinned.valid (h : Thinned m m' keep P) : a.Valid m' depth ↔ a.Valid m depth := by
  have hwords : a.object.words m' = a.object.words m := by
    cases a.object with
    | globalVariable g => simp only [Object.words, h.globals]
    | slot d j n => simp only [Object.words, h.instrs]
  rw [Address.Valid, Address.Valid, hwords]

theorem Thinned.getType (h : Thinned m m' keep P) (v : Value) : m'.getType v = m.getType v := by
  cases v <;> simp only [Module.getType, h.globals, h.functions, h.instrs]

theorem Thinned.compute_eq (h : Thinned m m' keep P) (ins : Instruction) (words : List Word) :
    compute ops m' depth w ins words = compute ops m depth w ins words := by
  unfold compute
  simp only [World.read, World.write, h.valid, h.getType]

/-- A kept instruction does the same in both programs. -/
theorem Thinned.action_eq (h : Thinned m m' keep P) (hf : Matches m keep frame frame')
    (hi : i ∈ instructions m frame.func) (hk : keep i) :
    action ops m' depth frame' w i = action ops m depth frame w i := by
  have hvalue : ∀ v ∈ (m.instrs i).operands, frame'.value v = frame.value v := by
    intro v hv
    apply hf.value
    rintro j rfl
    exact h.operands _ hf.defined i hi hk j hv
  unfold action
  rw [h.instrs, hf.count i hk, h.functions]
  split
  · rfl
  · rename_i hops
    rw [mapM_congr_value fun v hv => hvalue v (by rw [hops]; exact List.mem_cons_of_mem _ hv)]
  · rfl
  · rename_i c _ _ _ hops
    rw [hvalue c (by simp [hops])]
  · rfl
  · rfl
  · rfl
  · rw [mapM_congr_value hvalue]
    refine congrArg _ (funext fun words => ?_)
    exact h.compute_eq _ words

/-- What is removed changes nothing, unless it is a call. -/
theorem Thinned.removed (h : Thinned m m' keep P) (hf : frame.func < m.numFunctions)
    (hi : i ∈ instructions m frame.func) (hk : keep i = false)
    (hact : action ops m depth frame w i = some act) :
    (∃ v, act = .yields v w) ∨ ∃ g args, act = .calls g args ∧ P g := by
  obtain ⟨hbr, hret, hstore⟩ := h.effect _ hf i hi hk
  cases performs_of_action hact with
  | value => exact .inl ⟨_, rfl⟩
  | store hop _ => exact absurd hop hstore
  | library hop hops hdecl _ =>
    simp [h.quiet.defined _ (h.callee _ hf i hi hk hop _ _ hops)] at hdecl
  | call hop hops => exact .inr ⟨_, _, rfl, h.callee _ hf i hi hk hop _ _ hops⟩
  | branch hop => exact absurd hop hbr
  | ret hop => exact absurd hop hret

theorem Matches.next (h : Matches m keep frame frame') (hrest : frame.rest = i :: rest)
    (hk : keep i) (v : Option Word) :
    Matches m keep (frame.next i rest v) (frame'.next i (rest.filter keep) v) where
  func := h.func
  block := h.block
  args := h.args
  env j hj := by
    by_cases hji : j = i
    · subst hji
      simp [Frame.next]
    · simp [Frame.next, hji, h.env j hj]
  count j hj := by
    by_cases hji : j = i
    · subst hji
      simp [Frame.next, h.count j hj]
    · simp [Frame.next, hji, h.count j hj]
  rest := rfl
  inside j hj := h.inside j (by rw [hrest]; exact List.mem_cons_of_mem _ hj)
  defined := h.defined

theorem func_of_calls (h : Thinned m m' keep P) (hf : frame.func < m.numFunctions)
    (hi : i ∈ instructions m frame.func)
    (hact : action ops m depth frame w i = some (.calls g args)) : g < m.numFunctions := by
  generalize hc : Action.calls g args = act at hact
  cases performs_of_action hact with
  | library _ _ _ hext =>
    rw [← hc] at hext
    exact absurd hext external_ne_calls
  | call _ hops =>
    cases hc
    exact h.calls _ hf i hi _ _ hops
  | _ => cases hc

/-- The frame goes on over an instruction that has been removed. -/
theorem Matches.skip (h : Matches m keep frame frame') (hrest : frame.rest = i :: rest)
    (hk : keep i = false) (v : Option Word) :
    Matches m keep (frame.next i rest v) frame' where
  func := h.func
  block := h.block
  args := h.args
  env j hj := by
    have hji : j ≠ i := by
      rintro rfl
      simp [hj] at hk
    simp [Frame.next, hji, h.env j hj]
  count j hj := by
    have hji : j ≠ i := by
      rintro rfl
      simp [hj] at hk
    simp [Frame.next, hji, h.count j hj]
  rest := by rw [h.rest, hrest, List.filter_cons_of_neg (by simp [hk])]; rfl
  inside j hj := h.inside j (by rw [hrest]; exact List.mem_cons_of_mem _ hj)
  defined := h.defined

theorem mem_pairUp {vs : List Value} {v b : Value} (h : (v, b) ∈ pairUp vs) : v ∈ vs := by
  induction vs using pairUp.induct with
  | case1 u c vs ih =>
    rcases List.mem_cons.mp h with he | h
    · cases he
      exact List.mem_cons_self
    · exact List.mem_cons_of_mem _ (List.mem_cons_of_mem _ (ih h))
  | case2 vs hvs =>
    rw [pairUp] at h
    · cases h
    · exact hvs

theorem mem_operands_of_incoming {b : Nat} {v : Value}
    (h : incoming m (.instruction i) b = some v) : v ∈ (m.instrs i).operands := by
  obtain ⟨pair, hpair, rfl⟩ := Option.map_eq_some_iff.mp h
  exact mem_pairUp (List.mem_of_find?_eq_some hpair)

theorem Thinned.phis (h : Thinned m m' keep P) {f : Nat} (hf : f < m.numFunctions)
    (ht : t ∈ (m.functions f).basicBlocks) :
    Gvn.phis m' t = (Gvn.phis m t).filter keep ∧ Gvn.body m' t = (Gvn.body m t).filter keep := by
  simp only [Gvn.phis, Gvn.body, h.blocks f hf t ht, h.instrs, List.filter_filter, Bool.and_comm,
    and_self]

theorem Thinned.jumps (h : Thinned m m' keep P) (hf : Matches m keep frame frame')
    (ht : t ∈ (m.functions frame.func).basicBlocks) :
    Matches m keep (frame.jump m t) (frame'.jump m' t) where
  func := hf.func
  block := rfl
  args := hf.args
  env j hj := by
    obtain ⟨hphis, -⟩ := h.phis hf.defined ht
    have hmem : j ∈ Gvn.phis m' t ↔ j ∈ Gvn.phis m t := by rw [hphis, List.mem_filter]; simp [hj]
    by_cases hphi : j ∈ Gvn.phis m t
    · have hjin : j ∈ instructions m frame.func :=
        mem_instructions.mpr ⟨t, ht, List.mem_of_mem_filter hphi⟩
      have hinc : incoming m' (.instruction j) frame'.block =
          incoming m (.instruction j) frame.block := by
        simp only [incoming, h.instrs, hf.block]
      simp only [Frame.jump, if_pos hphi, if_pos (hmem.mpr hphi), hinc]
      cases hv : incoming m (.instruction j) frame.block with
      | none => rfl
      | some v =>
        apply hf.value
        rintro k rfl
        exact h.operands _ hf.defined j hjin hj k (mem_operands_of_incoming hv)
    · simp only [Frame.jump, if_neg hphi, if_neg (mt hmem.mp hphi)]
      exact hf.env j hj
  count := hf.count
  rest := (h.phis hf.defined ht).2
  inside j hj := mem_instructions.mpr ⟨t, ht, List.mem_of_mem_filter hj⟩
  defined := hf.defined

theorem Thinned.invokes (h : Thinned m m' keep P) (hg : g < m.numFunctions)
    (hcall : invoke m g args = some callee) :
    ∃ callee', invoke m' g args = some callee' ∧ Matches m keep callee callee' := by
  obtain ⟨b, hb, rfl⟩ := Option.map_eq_some_iff.mp hcall
  have hmem := List.mem_of_mem_head? hb
  refine ⟨⟨g, b, args, fun _ => none, fun _ => 0, Gvn.body m' b⟩, ?_, ?_⟩
  · rw [invoke, h.functions, hb]
    rfl
  · refine ⟨rfl, rfl, rfl, fun _ _ => rfl, fun _ _ => rfl, (h.phis hg hmem).2, fun j hj => ?_, hg⟩
    exact mem_instructions.mpr ⟨b, hmem, List.mem_of_mem_filter hj⟩

/-- How the two programs belong together while the first one runs. -/
inductive Sim (m : Module) (keep : Nat → Bool) (P : Nat → Prop) : State → State → Prop where
  | running {frame frame' : Frame} {callers callers' : List Frame} {w : World} :
      Matches m keep frame frame' → List.Forall₂ (Awaits m keep) callers callers' →
      Clean (callers.length + 1) w →
      Sim m keep P (.running frame callers w) (.running frame' callers' w)
  | removed {frame frame' : Frame} {callers callers' : List Frame} {w : World} {s : State} {i : Nat}
      {rest : List Nat} :
      Matches m keep frame frame' → List.Forall₂ (Awaits m keep) callers callers' →
      Clean (callers.length + 1) w → frame.rest = i :: rest → keep i = false →
      Twin m P (frame :: callers) (frame :: callers) w w s s →
      Sim m keep P s (.running frame' callers' w)
  | returned {v : Option Word} {w : World} : Sim m keep P (.returned v w) (.returned v w)
  | exited {w : World} : Sim m keep P (.exited w) (.exited w)

theorem Sim.outcome (h : Sim m keep P s s') {o : Outcome} (ho : s.outcome = some o) :
    s'.outcome = some o := by
  cases h with
  | running => cases ho
  | removed _ _ _ _ _ htwin =>
    obtain ⟨_, _, _, rfl⟩ := htwin.inCall
    cases ho
  | returned => exact ho
  | exited => exact ho

theorem Clean.eq_leave {w' : World} (h : Clean depth w) (hw : Unchanged depth w w') :
    w'.leave depth = w := by
  have hmemory : (w'.leave depth).memory = w.memory := by
    funext a
    by_cases ha : a.object.Above depth
    · rw [h a ha]
      exact if_pos ha
    · exact (if_neg ha).trans (hw.memory a ha)
  cases w
  cases w'
  simp only [World.leave] at hmemory ⊢
  simp_all only [World.mk.injEq]
  exact ⟨trivial, hw.input, hw.events⟩

theorem Sim.resume (hf : List.Forall₂ (Awaits m keep) callers callers')
    (hres : resume callers v w = some s) :
    ∃ s', resume callers' v w = some s' ∧ Sim m keep P s s' := by
  cases hf with
  | nil =>
    cases hres
    exact ⟨_, rfl, .returned⟩
  | @cons caller caller' callers callers' hcaller hf =>
    cases hrest : caller.rest with
    | nil => simp [Machine.resume, Frame.finish, hrest] at hres
    | cons i rest =>
      have hk : keep i := hcaller.kept i (by simp [hrest])
      have hrest' : caller'.rest = i :: rest.filter keep := by
        rw [hcaller.rest, hrest, List.filter_cons_of_pos hk]
      simp only [Machine.resume, Frame.finish, hrest, Option.map_some, Option.some.injEq] at hres
      subst hres
      refine ⟨_, by simp only [Machine.resume, Frame.finish, hrest', Option.map_some]; rfl, ?_⟩
      rw [← hf.length_eq]
      exact .running (hcaller.next hrest hk v) hf (clean_leave _ _)

/-- A step of an instruction that is kept. -/
theorem Sim.kept (h : Thinned m m' keep P) (hf : Matches m keep frame frame')
    (hcs : List.Forall₂ (Awaits m keep) callers callers') (hw : Clean (callers.length + 1) w)
    (hrest : frame.rest = i :: rest) (hk : keep i)
    (hs : step ops m (.running frame callers w) = some s) :
    ∃ s', step ops m' (.running frame' callers' w) = some s' ∧ Sim m keep P s s' := by
  have hi := hf.inside i (by rw [hrest]; exact List.mem_cons_self)
  have hrest' : frame'.rest = i :: rest.filter keep := by
    rw [hf.rest, hrest, List.filter_cons_of_pos hk]
  simp only [step, hrest] at hs
  obtain ⟨act, hact, hs⟩ := Option.bind_eq_some_iff.mp hs
  have hact' : action ops m' callers'.length frame' w i = some act := by
    rw [h.action_eq hf hi hk, ← hcs.length_eq, hact]
  simp only [step, hrest', hact', Option.bind_some]
  cases act with
  | yields v w' =>
    cases hs
    exact ⟨_, rfl, .running (hf.next hrest hk v) hcs (hw.of_action hact)⟩
  | calls g args =>
    obtain ⟨callee, hcallee, rfl⟩ := Option.map_eq_some_iff.mp hs
    obtain ⟨callee', hcallee', hmatch⟩ := h.invokes (func_of_calls h hf.defined hi hact) hcallee
    have hawait : Awaits m keep frame frame' := ⟨hf, by simp [hrest, hk]⟩
    refine ⟨_, by rw [perform, hcallee']; rfl, .running hmatch (.cons hawait hcs) ?_⟩
    exact hw.mono (by simp)
  | jumps t =>
    rw [perform] at hs ⊢
    split at hs
    · rename_i ht
      cases hs
      rw [h.functions, hf.func, if_pos ht]
      exact ⟨_, rfl, .running (h.jumps hf ht) hcs hw⟩
    · cases hs
  | returns v => exact Sim.resume hcs hs
  | exits w' =>
    cases hs
    exact ⟨_, rfl, .exited⟩

/-- The second program follows each step of the first one, or waits. -/
theorem Sim.step (h : Thinned m m' keep P) (hsim : Sim m keep P s s')
    {t : State} (hs : step ops m s = some t) :
    ∃ t', (t' = s' ∨ Machine.step ops m' s' = some t') ∧ Sim m keep P t t' := by
  cases hsim with
  | @running frame frame' callers callers' w hf hcs hw =>
    cases hrest : frame.rest with
    | nil => simp [Machine.step, hrest] at hs
    | cons i rest =>
      cases hk : keep i with
      | true =>
        obtain ⟨t', ht', hsim⟩ := Sim.kept h hf hcs hw hrest hk hs
        exact ⟨t', .inr ht', hsim⟩
      | false =>
        have hi := hf.inside i (by rw [hrest]; exact List.mem_cons_self)
        simp only [Machine.step, hrest] at hs
        obtain ⟨act, hact, hs⟩ := Option.bind_eq_some_iff.mp hs
        refine ⟨_, .inl rfl, ?_⟩
        rcases h.removed hf.defined hi hk hact with ⟨v, rfl⟩ | ⟨g, args, rfl, hg⟩
        · cases hs
          exact .running (hf.skip hrest hk v) hcs hw
        · obtain ⟨callee, hcallee, rfl⟩ := Option.map_eq_some_iff.mp hs
          exact .removed hf hcs hw hrest hk (twin_start hg (map_relocate_self args) hcallee hw hw)
  | @removed frame frame' callers callers' w s i rest hf hcs hw hrest hk htwin =>
    refine ⟨_, .inl rfl, ?_⟩
    rcases htwin.step h.quiet hs with ⟨t', ht', htwin'⟩ | ⟨v, w', hunch, hres⟩
    · rw [hs] at ht'
      cases ht'
      exact .removed hf hcs hw hrest hk htwin'
    · simp only [Machine.resume, Frame.finish, hrest, Option.map_some, Option.some.injEq] at hres
      subst hres
      have hleave : w'.leave (callers.length + 1) = w := hw.eq_leave hunch
      rw [hleave]
      exact .running (hf.skip hrest hk v) hcs hw
  | returned => cases hs
  | exited => cases hs

theorem Sim.reaches (h : Thinned m m' keep P) (hsim : Sim m keep P s s') {t : State}
    (hs : Reaches ops m s t) : ∃ t', Reaches ops m' s' t' ∧ Sim m keep P t t' := by
  induction hs with
  | refl => exact ⟨s', .refl, hsim⟩
  | tail _ hst ih =>
    obtain ⟨u, hu, hsim⟩ := ih
    obtain ⟨u', hu', hsim'⟩ := hsim.step h hst
    rcases hu' with rfl | hu'
    · exact ⟨_, hu, hsim'⟩
    · exact ⟨u', hu.tail hu', hsim'⟩

theorem Thinned.start_eq (h : Thinned m m' keep P) (input : List (BitVec 32)) :
    start m' input = start m input := by
  simp only [start, h.globals, h.numGlobals]

/-- What is left of a program ends like the whole. -/
theorem Thinned.ends (h : Thinned m m' keep P) {input : List (BitVec 32)} {o : Outcome}
    (hend : Ends ops m input o) : Ends ops m' input o := by
  obtain ⟨f, hf, hname, frame, s, hcall, hs, ho⟩ := hend
  obtain ⟨frame', hcall', hmatch⟩ := h.invokes hf hcall
  have hclean : Clean (0 + 1) (start m input) := by
    intro a ha
    cases hobj : a.object with
    | globalVariable g => simp [hobj, Object.Above] at ha
    | slot d i n => simp only [start, hobj]
  obtain ⟨s', hs', hsim⟩ := (Sim.running hmatch .nil hclean).reaches h hs
  refine ⟨f, by rwa [h.numFunctions], by rwa [h.functions], frame', s', hcall', ?_, hsim.outcome ho⟩
  rwa [h.start_eq]

end Machine

end Cminusf
