import Cminusf.Optimization.FuncInfo
import Cminusf.Optimization.Machine
import Mathlib.Tactic.IntervalCases

/-! What a function without side effects does when it is called: it leaves the memory of its callers
as it is, and its result depends on its arguments only. -/

namespace Cminusf

namespace Machine

open DeadCode

variable {ops : FloatOps} {m : Module} {P : Nat → Prop} {depth d d' i k t : Nat}
  {frame callee : Frame} {callers fs below : List Frame} {w w' w₁ w₂ : World} {v : Option Word}
  {a b : Address} {o : Object} {x : Word} {act : Action} {s s' : State} {u : Value}

/-- The instructions of `L` give addresses of variables of their function: they are `alloca`s,
elements of the array at such an address, and phis of such addresses. -/
def OwnAddresses (m : Module) (L : Nat → Prop) : Prop :=
  ∀ i, L i → (m.instrs i).isAlloca ∨
    ((m.instrs i).isGep ∧ ∃ j, (m.instrs i).getOperand 0 = some (.instruction j) ∧ L j) ∨
    ((m.instrs i).isPhi ∧ ∀ pair ∈ pairUp (m.instrs i).operands, ∃ j, pair.1 = .instruction j ∧ L j)

/-- The address of a variable of the function, from whatever block control comes to the phis. -/
def Local (m : Module) (v : Value) : Prop :=
  ∃ L, OwnAddresses m L ∧ ∃ i, v = .instruction i ∧ L i

theorem local_alloca (h : (m.instrs i).isAlloca) : Local m (.instruction i) := by
  refine ⟨fun j => j = i, fun j hj => ?_, i, rfl, rfl⟩
  subst hj
  exact .inl h

theorem local_gep (h : (m.instrs i).isGep) (hop : (m.instrs i).getOperand 0 = some u)
    (hu : Local m u) : Local m (.instruction i) := by
  obtain ⟨L, hL, j, rfl, hj⟩ := hu
  refine ⟨fun n => n = i ∨ L n, fun n hn => ?_, i, rfl, .inl rfl⟩
  rcases hn with rfl | hn
  · exact .inr (.inl ⟨h, j, hop, .inr hj⟩)
  · rcases hL n hn with ha | ⟨hg, l, hl, hLl⟩ | ⟨hp, hall⟩
    · exact .inl ha
    · exact .inr (.inl ⟨hg, l, hl, .inr hLl⟩)
    · refine .inr (.inr ⟨hp, fun pair hpair => ?_⟩)
      obtain ⟨l, hl, hLl⟩ := hall pair hpair
      exact ⟨l, hl, .inr hLl⟩

theorem Local.cases (h : Local m (.instruction i)) : (m.instrs i).isAlloca ∨
    ((m.instrs i).isGep ∧ ∃ u, (m.instrs i).getOperand 0 = some u ∧ Local m u) ∨
    ((m.instrs i).isPhi ∧ ∀ pair ∈ pairUp (m.instrs i).operands, Local m pair.1) := by
  obtain ⟨L, hL, j, hij, hj⟩ := h
  cases hij
  rcases hL i hj with ha | ⟨hg, l, hl, hLl⟩ | ⟨hp, hall⟩
  · exact .inl ha
  · exact .inr (.inl ⟨hg, _, hl, L, hL, l, rfl, hLl⟩)
  · exact .inr (.inr ⟨hp, fun pair hpair => ⟨L, hL, hall pair hpair⟩⟩)

/-- The functions of `P` are defined, they call each other only, and they access their own
variables only. -/
structure Quiet (m : Module) (P : Nat → Prop) : Prop where
  defined : ∀ f, P f → (m.functions f).isDeclaration = false
  calls : ∀ f, P f → ∀ i ∈ instructions m f, ∀ g operands, (m.instrs i).opId = .call →
    (m.instrs i).operands = .function g :: operands → P g
  accesses : ∀ f, P f → ∀ i ∈ instructions m f, ∀ v, FuncInfo.Accesses m i v → Local m v

/-- The word is the address of a variable in the frame at `depth`. -/
def Word.IsLocal (depth : Nat) (x : Word) : Prop :=
  ∃ i n k, x = .pointer ⟨.slot depth i n, k⟩

/-- A frame of one of the functions, at `depth`. -/
structure Owns (m : Module) (P : Nat → Prop) (depth : Nat) (frame : Frame) : Prop where
  func : P frame.func
  rest : ∀ i ∈ frame.rest, i ∈ instructions m frame.func
  env : ∀ i x, Local m (.instruction i) → frame.env i = some x → x.IsLocal depth

/-- Nothing that is seen from below the frame at `d` has changed. -/
structure Unchanged (d : Nat) (w w' : World) : Prop where
  input : w'.input = w.input
  events : w'.events = w.events
  memory : ∀ a : Address, ¬ a.object.Above d → w'.memory a = w.memory a

theorem Unchanged.refl (d : Nat) (w : World) : Unchanged d w w := ⟨rfl, rfl, fun _ _ => rfl⟩

theorem Unchanged.trans {w'' : World} (h : Unchanged d w w') (h' : Unchanged d w' w'') :
    Unchanged d w w'' where
  input := h'.input.trans h.input
  events := h'.events.trans h.events
  memory a ha := (h'.memory a ha).trans (h.memory a ha)

theorem Unchanged.leave (h : Unchanged d w w') (hd : d ≤ depth) :
    Unchanged d w (w'.leave depth) where
  input := h.input
  events := h.events
  memory a ha := by
    have hno : ¬ a.object.Above depth := by
      intro hab
      apply ha
      cases ho : a.object with
      | globalVariable g => simp [ho, Object.Above] at hab
      | slot e i n =>
        simp only [ho, Object.Above] at hab ⊢
        omega
    simp only [World.leave, if_neg hno]
    exact h.memory a ha

theorem Word.IsLocal.above (h : (Word.pointer a).IsLocal depth) (hd : d ≤ depth) :
    a.object.Above d := by
  obtain ⟨i, n, k, he⟩ := h
  cases he
  exact hd

/-! ### The same call at another depth of the stack -/

/-- The variables from the frame at `d` on, in a run where this frame is at `d'`. -/
def Object.relocate (d d' : Nat) : Object → Object
  | .globalVariable g => .globalVariable g
  | .slot e i n => .slot (if d ≤ e then e - d + d' else e) i n

def Address.relocate (d d' : Nat) (a : Address) : Address :=
  ⟨a.object.relocate d d', a.offset⟩

def Word.relocate (d d' : Nat) : Word → Word
  | .number x => .number x
  | .pointer a => .pointer (a.relocate d d')

def Frame.relocate (d d' : Nat) (frame : Frame) : Frame :=
  { frame with
    args := frame.args.map (Word.relocate d d')
    env := fun i => (frame.env i).map (Word.relocate d d') }

/-- The variables from the frame at `d` on have the contents of those from `d'` on. -/
def Alike (d d' : Nat) (w w' : World) : Prop :=
  ∀ a : Address, a.object.Above d →
    w'.memory (a.relocate d d') = (w.memory a).map (Word.relocate d d')

@[simp] theorem relocate_number {x : Datum} : (Word.number x).relocate d d' = .number x := rfl

@[simp] theorem relocate_pointer :
    (Word.pointer a).relocate d d' = .pointer (a.relocate d d') := rfl

@[simp] theorem words_relocate : (o.relocate d d').words m = o.words m := by cases o <;> rfl

@[simp] theorem datum_relocate : (x.relocate d d').datum = x.datum := by cases x <;> rfl

@[simp] theorem index_relocate : (x.relocate d d').index = x.index := by cases x <;> rfl

theorem above_relocate (d' k : Nat) (h : o.Above d) :
    (o.relocate d d').Above (k + d') ↔ o.Above (k + d) := by
  cases o with
  | globalVariable g => cases h
  | slot e i n =>
    have hd : d ≤ e := h
    simp only [Object.relocate, Object.Above, if_pos hd]
    omega

theorem above_of_relocate (h : o.Above d) : (o.relocate d d').Above d' := by
  have ho := above_relocate d' 0 h
  rw [Nat.zero_add, Nat.zero_add] at ho
  exact ho.mpr h

theorem relocate_injective (ha : a.object.Above d) (hb : b.object.Above d)
    (h : a.relocate d d' = b.relocate d d') : a = b := by
  obtain ⟨o, n⟩ := a
  obtain ⟨o', n'⟩ := b
  obtain ⟨ho, rfl⟩ := Address.mk.inj h
  cases o with
  | globalVariable g => cases ha
  | slot e i l =>
    cases o' with
    | globalVariable g => cases hb
    | slot e' i' l' =>
      have hd : d ≤ e := ha
      have hd' : d ≤ e' := hb
      simp only [Object.relocate, if_pos hd, if_pos hd', Object.slot.injEq] at ho
      obtain ⟨he, rfl, rfl⟩ := ho
      obtain rfl : e = e' := by omega
      rfl

theorem valid_relocate (h : a.object.Above d) :
    (a.relocate d d').Valid m (k + d') ↔ a.Valid m (k + d) := by
  have habove := above_relocate d' (k + 1) h
  have hcomm : ∀ d, k + d + 1 = k + 1 + d := by omega
  simp only [Address.Valid, Address.relocate, words_relocate, hcomm, habove]

theorem value_relocate (v : Value) :
    (frame.relocate d d').value v = (frame.value v).map (Word.relocate d d') := by
  cases v with
  | argument f n =>
    by_cases hf : f = frame.func
    · simp [Frame.value, Frame.relocate, hf]
    · simp [Frame.value, Frame.relocate, hf]
  | instruction i => rfl
  | globalVariable g => rfl
  | _ => rfl

theorem mapM_relocate (vs : List Value) : vs.mapM (frame.relocate d d').value =
    (vs.mapM frame.value).map (List.map (Word.relocate d d')) := by
  induction vs with
  | nil => rfl
  | cons v vs ih =>
    rw [List.mapM_cons, List.mapM_cons, ih, value_relocate]
    cases frame.value v with
    | none => rfl
    | some x =>
      cases vs.mapM frame.value with
      | none => rfl
      | some xs => rfl

theorem next_relocate {rest : List Nat} : (frame.next i rest v).relocate d d' =
    (frame.relocate d d').next i rest (v.map (Word.relocate d d')) := by
  have henv : (fun j => (Function.update frame.env i v j).map (Word.relocate d d')) =
      Function.update (fun j => (frame.env j).map (Word.relocate d d')) i
        (v.map (Word.relocate d d')) := by
    funext j
    by_cases hj : j = i
    · subst hj
      simp
    · simp [hj]
  simp only [Frame.relocate, Frame.next, henv]

theorem finish_relocate {caller : Frame} (h : frame.finish v = some caller) :
    (frame.relocate d d').finish (v.map (Word.relocate d d')) = some (caller.relocate d d') := by
  cases hrest : frame.rest with
  | nil => simp [Frame.finish, hrest] at h
  | cons i rest =>
    simp only [Frame.finish, hrest] at h
    cases h
    have hrest' : (frame.relocate d d').rest = i :: rest := hrest
    simp only [Frame.finish, hrest', next_relocate]

theorem jump_relocate : (frame.jump m t).relocate d d' = (frame.relocate d d').jump m t := by
  have henv : (fun j => (if j ∈ Gvn.phis m t then
      (Execution.incoming m (.instruction j) frame.block).bind frame.value else frame.env j).map
        (Word.relocate d d')) =
      fun j => if j ∈ Gvn.phis m t then
        (Execution.incoming m (.instruction j) frame.block).bind (frame.relocate d d').value
        else (frame.env j).map (Word.relocate d d') := by
    funext j
    split
    · cases Execution.incoming m (.instruction j) frame.block with
      | none => rfl
      | some v => exact (value_relocate v).symm
    · rfl
  simp only [Frame.relocate, Frame.jump] at henv ⊢
  rw [henv]

theorem invoke_relocate (d d' : Nat) {g : Nat} {args : List Word}
    (h : invoke m g args = some callee) :
    invoke m g (args.map (Word.relocate d d')) = some (callee.relocate d d') := by
  obtain ⟨b, hb, rfl⟩ := Option.map_eq_some_iff.mp h
  rw [invoke, hb]
  rfl

theorem Alike.leave (h : Alike d d' w w') (k : Nat) :
    Alike d d' (w.leave (k + d)) (w'.leave (k + d')) := by
  intro a ha
  simp only [World.leave, Address.relocate, above_relocate _ _ ha]
  split
  · rfl
  · exact h a ha

theorem read_alike (h : Alike d d' w₁ w₂) (ha : a.object.Above d) :
    w₂.read m (k + d') (a.relocate d d') =
      (w₁.read m (k + d) a).map (Word.relocate d d') := by
  simp only [World.read, valid_relocate ha]
  split
  · exact h a ha
  · rfl

/-- Both runs write to a variable of theirs, or neither does. -/
theorem write_both (h : Alike d d' w₁ w₂) (ha : a.object.Above d) {w₁' : World}
    (hw : w₁.write m (k + d) a x = some w₁') :
    ∃ w₂', w₂.write m (k + d') (a.relocate d d') (x.relocate d d') = some w₂' ∧
      Unchanged d w₁ w₁' ∧ Unchanged d' w₂ w₂' ∧ Alike d d' w₁' w₂' := by
  simp only [World.write] at hw ⊢
  split at hw
  · rename_i hvalid
    cases hw
    have hne : ∀ b : Address, ¬ b.object.Above d → b ≠ a := by
      rintro b hb rfl
      exact hb ha
    have hne' : ∀ b : Address, ¬ b.object.Above d' → b ≠ a.relocate d d' := by
      rintro b hb rfl
      exact hb (above_of_relocate ha)
    refine ⟨_, if_pos ((valid_relocate ha).mpr hvalid), ⟨rfl, rfl, fun b hb => ?_⟩,
      ⟨rfl, rfl, fun b hb => ?_⟩, ?_⟩
    · exact Function.update_of_ne (hne b hb) _ _
    · exact Function.update_of_ne (hne' b hb) _ _
    · intro b hb
      by_cases hba : b = a
      · subst hba
        simp
      · have hrel : b.relocate d d' ≠ a.relocate d d' :=
          fun he => hba (relocate_injective hb ha he)
        simp only [Function.update_of_ne hba, Function.update_of_ne hrel]
        exact h b hb
  · cases hw

/-- What two runs do in the same frame. -/
inductive Both (P : Nat → Prop) (d d' : Nat) (w₁ w₂ : World) : Action → Action → Prop where
  | yields {v : Option Word} {w₁' w₂' : World} : Unchanged d w₁ w₁' → Unchanged d' w₂ w₂' →
      Alike d d' w₁' w₂' →
      Both P d d' w₁ w₂ (.yields v w₁') (.yields (v.map (Word.relocate d d')) w₂')
  | calls {g : Nat} {args : List Word} : P g →
      Both P d d' w₁ w₂ (.calls g args) (.calls g (args.map (Word.relocate d d')))
  | jumps {t : Nat} : Both P d d' w₁ w₂ (.jumps t) (.jumps t)
  | returns {v : Option Word} :
      Both P d d' w₁ w₂ (.returns v) (.returns (v.map (Word.relocate d d')))

theorem Owns.value_local {v : Value} (h : Owns m P depth frame) (hv : Local m v)
    (hx : frame.value v = some x) : x.IsLocal depth := by
  obtain ⟨L, hL, i, rfl, hi⟩ := hv
  exact h.env i x ⟨L, hL, i, rfl, hi⟩ hx

theorem mapM_index_relocate (d d' : Nat) (words : List Word) :
    (words.map (Word.relocate d d')).mapM Word.index = words.mapM Word.index := by
  induction words with
  | nil => rfl
  | cons x words ih => rw [List.map_cons, List.mapM_cons, List.mapM_cons, ih, index_relocate]

/-- Words that are numbers stay as they are. -/
theorem map_relocate_of_datum {words : List Word} {ds : List Datum}
    (h : words.mapM Word.datum = some ds) : words.map (Word.relocate d d') = words := by
  have hall := mapM_eq_some_iff.mp h
  clear h
  induction hall with
  | nil => rfl
  | @cons x _ _ _ hx _ ih =>
    rw [List.map_cons, ih]
    cases x with
    | number n => rfl
    | pointer a => cases hx

/-- The instructions other than loads and stores do not look at the memory. -/
theorem compute_both {ins : Instruction} {words : List Word} (h : Alike d d' w₁ w₂)
    (hload : ins.opId = .load → ∀ a, words = [.pointer a] → a.object.Above d)
    (hstore : ins.opId = .store → ∀ x a, words = [x, .pointer a] → a.object.Above d)
    (hact : compute ops m (k + d) w₁ ins words = some act) :
    ∃ act', compute ops m (k + d') w₂ ins (words.map (Word.relocate d d')) = some act' ∧
      Both P d d' w₁ w₂ act act' := by
  unfold compute at hact
  split at hact
  · rename_i a hop
    obtain ⟨x, hx, rfl⟩ := Option.map_eq_some_iff.mp hact
    refine ⟨_, ?_, .yields (.refl d w₁) (.refl d' w₂) h⟩
    have hread := read_alike (m := m) (k := k) h (hload hop a rfl)
    rw [hx] at hread
    simp only [compute, hop, List.map_cons, List.map_nil, relocate_pointer, hread, Option.map_some]
  · rename_i x a hop
    obtain ⟨w₁', hw, rfl⟩ := Option.map_eq_some_iff.mp hact
    obtain ⟨w₂', hw₂, h₁, h₂, h'⟩ := write_both h (hstore hop x a rfl) hw
    refine ⟨_, ?_, .yields h₁ h₂ h'⟩
    simp only [compute, hop, List.map_cons, List.map_nil, relocate_pointer, hw₂, Option.map_some,
      Option.map_none]
  · rename_i a idxs hop
    obtain ⟨ty, hty, hact⟩ := Option.bind_eq_some_iff.mp hact
    obtain ⟨ns, hns, hact⟩ := Option.bind_eq_some_iff.mp hact
    obtain ⟨n, hn, hact⟩ := Option.bind_eq_some_iff.mp hact
    cases hact
    refine ⟨_, ?_, .yields (.refl d w₁) (.refl d' w₂) h⟩
    rw [← mapM_index_relocate d d'] at hns
    simp only [compute, hop, List.map_cons, relocate_pointer]
    exact Option.bind_eq_some_iff.mpr ⟨ty, hty, Option.bind_eq_some_iff.mpr
      ⟨ns, hns, Option.bind_eq_some_iff.mpr ⟨n, hn, rfl⟩⟩⟩
  · rename_i hop
    cases hact
    exact ⟨.returns none, by simp only [compute, hop, List.map_nil], .returns⟩
  · rename_i x hop
    cases hact
    exact ⟨.returns (some (x.relocate d d')),
      by simp only [compute, hop, List.map_cons, List.map_nil], .returns⟩
  · simp only [Option.bind_eq_bind, Option.bind_eq_some_iff, Option.map_eq_some_iff] at hact
    obtain ⟨ds, hds, y, hy, rfl⟩ := hact
    refine ⟨.yields (some (.number y)) w₂, ?_, .yields (.refl d w₁) (.refl d' w₂) h⟩
    rw [map_relocate_of_datum hds]
    unfold compute
    simp [*]

theorem of_mapM_singleton {f : Value → Option Word} {vs : List Value}
    (h : vs.mapM f = some [x]) : ∃ v, vs = [v] ∧ f v = some x := by
  cases mapM_eq_some_iff.mp h with
  | cons hv h =>
    cases h
    exact ⟨_, rfl, hv⟩

theorem of_mapM_pair {f : Value → Option Word} {vs : List Value} {y : Word}
    (h : vs.mapM f = some [y, x]) : ∃ u v, vs = [u, v] ∧ f v = some x := by
  cases mapM_eq_some_iff.mp h with
  | cons _ h =>
    cases h with
    | cons hv h =>
      cases h
      exact ⟨_, _, rfl, hv⟩

/-- The operands of an instruction, when it is none of those that `action` treats by themselves. -/
theorem action_both (hq : Quiet m P) (h : Owns m P (k + d) frame)
    (hi : i ∈ instructions m frame.func) (hw : Alike d d' w₁ w₂)
    (hact : action ops m (k + d) frame w₁ i = some act) :
    ∃ act', action ops m (k + d') (frame.relocate d d') w₂ i = some act' ∧
      Both P d d' w₁ w₂ act act' := by
  have own : ∀ v a, FuncInfo.Accesses m i v → frame.value v = some (.pointer a) →
      a.object.Above d := by
    intro v a hv hx
    exact (h.value_local (hq.accesses frame.func h.func i hi v hv) hx).above (Nat.le_add_left _ _)
  rcases action_cases hact with ⟨ty, hop, rfl⟩ | ⟨g, operands, args, hop, hops, hargs, hact⟩ |
    ⟨t, hop, hops, rfl⟩ | ⟨c, t, e, b, hop, hops, hc, rfl⟩ | ⟨hop, words, hwords, hact⟩
  · refine ⟨_, ?_, .yields (.refl d w₁) (.refl d' w₂) hw⟩
    have hk : (if d ≤ k + d then k + d - d + d' else k + d) = k + d' := by
      rw [if_pos (Nat.le_add_left _ _), Nat.add_sub_cancel]
    simp only [action, hop, Option.map_some, relocate_pointer, Address.relocate, Object.relocate, hk]
    rfl
  · have hg := hq.calls frame.func h.func i hi _ _ hop hops
    rw [if_neg (by simp [hq.defined _ hg])] at hact
    cases hact
    refine ⟨_, ?_, .calls hg⟩
    simp only [action, hop, hops, mapM_relocate, hargs, hq.defined _ hg]
    rfl
  · refine ⟨_, ?_, .jumps⟩
    simp only [action, hop, hops]
  · refine ⟨_, ?_, .jumps⟩
    have hc' : (frame.relocate d d').value c = some (.number (.bool b)) := by
      rw [value_relocate, hc]
      rfl
    simp only [action, hop, hops, hc']
  · have hload : (m.instrs i).opId = .load → ∀ a, words = [.pointer a] → a.object.Above d := by
      intro hop a he
      subst he
      obtain ⟨p, hp, hx⟩ := of_mapM_singleton hwords
      exact own p a (.inl ⟨FuncInfo.isLoad_iff.mpr hop, by simp [Instruction.getOperand, hp]⟩) hx
    have hstore : (m.instrs i).opId = .store → ∀ x a, words = [x, .pointer a] →
        a.object.Above d := by
      intro hop x a he
      subst he
      obtain ⟨v, p, hp, hx⟩ := of_mapM_pair hwords
      exact own p a (.inr ⟨FuncInfo.isStore_iff.mpr hop, by simp [Instruction.getOperand, hp]⟩) hx
    obtain ⟨act', hact', hboth⟩ := compute_both (P := P) hw hload hstore hact
    refine ⟨act', ?_, hboth⟩
    rw [action_of_computes hop, mapM_relocate, hwords]
    exact hact'

/-- An address of a variable of the function is an address in the frame. -/
theorem action_local (h : Owns m P depth frame) (hl : Local m (.instruction i))
    (hact : action ops m depth frame w i = some (.yields (some x) w')) : x.IsLocal depth := by
  rcases hl.cases with hi | ⟨hi, v, hv, hl⟩ | ⟨hi, -⟩
  · obtain ⟨ty, hop⟩ := FuncInfo.isAlloca_iff.mp hi
    simp only [action, hop] at hact
    cases hact
    exact ⟨i, frame.count i, 0, rfl⟩
  · obtain ⟨ty, hop⟩ := FuncInfo.isGep_iff.mp hi
    rw [action_of_computes (by simp [hop, IsSpecial])] at hact
    obtain ⟨words, hwords, hact⟩ := Option.bind_eq_some_iff.mp hact
    unfold compute at hact
    rw [hop] at hact
    have hwords := mapM_eq_some_iff.mp hwords
    cases words with
    | nil => simp [OpID.eval] at hact
    | cons y idxs =>
      cases y with
      | number d => simp [OpID.eval] at hact
      | pointer a =>
        obtain ⟨ty', -, hact⟩ := Option.bind_eq_some_iff.mp hact
        obtain ⟨ns, -, hact⟩ := Option.bind_eq_some_iff.mp hact
        obtain ⟨n, -, hact⟩ := Option.bind_eq_some_iff.mp hact
        cases hact
        cases hops : (m.instrs i).operands with
        | nil => simp [Instruction.getOperand, hops] at hv
        | cons u us =>
          rw [hops] at hwords
          obtain ⟨hu, -⟩ := List.forall₂_cons.mp hwords
          have huv : u = v := by simpa [Instruction.getOperand, hops] using hv
          subst huv
          obtain ⟨j, k, o, he⟩ := h.value_local hl hu
          cases he
          exact ⟨j, k, o + n, rfl⟩
  · cases hop : (m.instrs i).opId with
    | phi u => simp [action, hop] at hact
    | _ => simp [Instruction.isPhi, hop] at hi

/-- The entries of a phi of addresses. -/
theorem Local.incoming {b : Nat} (hl : Local m (.instruction i)) (hi : (m.instrs i).isPhi)
    (hu : Execution.incoming m (.instruction i) b = some u) : Local m u := by
  obtain ⟨pair, hpair, rfl⟩ := Option.map_eq_some_iff.mp hu
  have hmem := List.mem_of_find?_eq_some hpair
  rcases hl.cases with ha | ⟨hg, -⟩ | ⟨-, hall⟩
  · cases hop : (m.instrs i).opId <;> simp_all [Instruction.isPhi, Instruction.isAlloca]
  · cases hop : (m.instrs i).opId <;> simp_all [Instruction.isPhi, Instruction.isGep]
  · exact hall pair hmem

/-- A frame that waits for a call. -/
structure Waits (m : Module) (P : Nat → Prop) (depth : Nat) (frame : Frame) : Prop
    extends Owns m P depth frame where
  call : ∀ i ∈ frame.rest.head?, ¬ Local m (.instruction i)

/-- The frames between the call at `d` and the one that runs. -/
inductive Stacked (m : Module) (P : Nat → Prop) (d : Nat) : List Frame → Prop where
  | nil : Stacked m P d []
  | cons {frame : Frame} {fs : List Frame} : Waits m P (fs.length + d) frame → Stacked m P d fs →
      Stacked m P d (frame :: fs)

theorem Owns.next {rest : List Nat} (h : Owns m P depth frame) (hrest : frame.rest = i :: rest)
    (hv : ∀ x, Local m (.instruction i) → v = some x → x.IsLocal depth) :
    Owns m P depth (frame.next i rest v) where
  func := h.func
  rest j hj := h.rest j (by rw [hrest]; exact List.mem_cons_of_mem _ hj)
  env j x hl hx := by
    by_cases hji : j = i
    · subst hji
      simp only [Frame.next, Function.update_self] at hx
      exact hv x hl hx
    · simp only [Frame.next, Function.update_of_ne hji] at hx
      exact h.env j x hl hx

theorem Owns.jump (h : Owns m P depth frame)
    (ht : t ∈ (m.functions frame.func).basicBlocks) : Owns m P depth (frame.jump m t) where
  func := h.func
  rest j hj := mem_instructions.mpr ⟨t, ht, List.mem_of_mem_filter hj⟩
  env j x hl hx := by
    simp only [Frame.jump] at hx
    split at hx
    · rename_i hj
      obtain ⟨u, hu, hx⟩ := Option.bind_eq_some_iff.mp hx
      exact h.value_local (hl.incoming (List.mem_filter.mp hj).2 hu) hx
    · exact h.env j x hl hx

theorem owns_invoke {g : Nat} {args : List Word} (hg : P g)
    (h : invoke m g args = some callee) : Owns m P depth callee := by
  obtain ⟨b, hb, rfl⟩ := Option.map_eq_some_iff.mp h
  refine ⟨hg, fun j hj => ?_, fun j x _ hx => by cases hx⟩
  exact mem_instructions.mpr ⟨b, List.mem_of_mem_head? hb, List.mem_of_mem_filter hj⟩

theorem not_local_of_calls {g : Nat} {args : List Word}
    (hact : action ops m depth frame w i = some (.calls g args)) : ¬ Local m (.instruction i) := by
  have hcall := (action_calls hact).1
  intro hl
  rcases hl.cases with hi | ⟨hi, -⟩ | ⟨hi, -⟩
  · simp [Instruction.isAlloca, hcall] at hi
  · simp [Instruction.isGep, hcall] at hi
  · simp [Instruction.isPhi, hcall] at hi

theorem Waits.finish (h : Waits m P depth frame) (hf : frame.finish v = some callee) :
    Owns m P depth callee := by
  cases hrest : frame.rest with
  | nil => simp [Frame.finish, hrest] at hf
  | cons i rest =>
    simp only [Frame.finish, hrest] at hf
    cases hf
    exact h.next hrest fun x hl _ => absurd hl (h.call i (by simp [hrest]))

/-- Two runs of a call that do the same. -/
inductive Twin (m : Module) (P : Nat → Prop) (below₁ below₂ : List Frame) (W₁ W₂ : World) :
    State → State → Prop where
  | mk {frame : Frame} {fs : List Frame} {w₁ w₂ : World} :
      Owns m P (fs.length + below₁.length) frame → Stacked m P below₁.length fs →
      Unchanged below₁.length W₁ w₁ → Unchanged below₂.length W₂ w₂ →
      Alike below₁.length below₂.length w₁ w₂ →
      Twin m P below₁ below₂ W₁ W₂ (.running frame (fs ++ below₁) w₁)
        (.running (frame.relocate below₁.length below₂.length)
          (fs.map (Frame.relocate below₁.length below₂.length) ++ below₂) w₂)

/-- The call above `callers` is about to return `v`. -/
def Returns (ops : FloatOps) (m : Module) (callers : List Frame) (v : Option Word) (s : State) :
    Prop :=
  ∃ frame w i rest, s = .running frame callers w ∧ frame.rest = i :: rest ∧
    action ops m callers.length frame w i = some (.returns v)

variable {below₁ below₂ : List Frame} {W₁ W₂ : World} {s₁ s₂ : State}

theorem Twin.inCall (h : Twin m P below₁ below₂ W₁ W₂ s₁ s₂) :
    ∃ frame fs w, s₂ = .running frame (fs ++ below₂) w := by
  obtain @⟨frame, fs, w₁, w₂, -, -, -, -, -⟩ := h
  exact ⟨_, _, w₂, rfl⟩

theorem Twin.step (hq : Quiet m P) (h : Twin m P below₁ below₂ W₁ W₂ s₁ s₂)
    (hs : step ops m s₁ = some s') :
    (∃ s₂', step ops m s₂ = some s₂' ∧ Twin m P below₁ below₂ W₁ W₂ s' s₂') ∨
      ∃ v w, Unchanged below₁.length W₁ w ∧ resume below₁ v w = some s' := by
  obtain @⟨frame, fs, w₁, w₂, hown, hfs, hw₁, hw₂, hw⟩ := h
  cases hrest : frame.rest with
  | nil => simp [Machine.step, hrest] at hs
  | cons i rest =>
    simp only [Machine.step, hrest] at hs
    obtain ⟨act, hact, hs⟩ := Option.bind_eq_some_iff.mp hs
    have hi := hown.rest i (by rw [hrest]; exact List.mem_cons_self)
    rw [List.length_append] at hact
    obtain ⟨act', hact', hboth⟩ := action_both hq hown hi hw hact
    have hrest' : (frame.relocate below₁.length below₂.length).rest = i :: rest := hrest
    simp only [Machine.step, hrest', List.length_append, List.length_map, hact', Option.bind_some]
    cases hboth with
    | @yields v w₁' w₂' h₁ h₂ h' =>
      cases hs
      refine .inl ⟨_, rfl, ?_⟩
      rw [← next_relocate]
      refine .mk ?_ hfs (hw₁.trans h₁) (hw₂.trans h₂) h'
      exact hown.next hrest fun x hl hv => action_local hown hl (by rw [hact, hv])
    | @calls g args hg =>
      obtain ⟨callee, hcallee, rfl⟩ := Option.map_eq_some_iff.mp hs
      have hwait : Waits m P (fs.length + below₁.length) frame := by
        refine ⟨hown, fun j hj => ?_⟩
        rw [hrest, List.head?_cons, Option.mem_some_iff] at hj
        subst hj
        exact not_local_of_calls hact
      refine .inl ⟨_, by rw [perform, invoke_relocate _ _ hcallee]; rfl, ?_⟩
      have hstack : Stacked m P below₁.length (frame :: fs) := .cons hwait hfs
      exact .mk (owns_invoke hg hcallee) hstack hw₁ hw₂ hw
    | @jumps t =>
      rw [perform] at hs
      split at hs
      · rename_i ht
        cases hs
        refine .inl ⟨_, if_pos ht, ?_⟩
        rw [← jump_relocate]
        exact .mk (hown.jump ht) hfs hw₁ hw₂ hw
      · cases hs
    | @returns v =>
      cases hfs with
      | nil => exact .inr ⟨v, w₁, hw₁, hs⟩
      | @cons caller fs hcaller hfs =>
        obtain ⟨caller', hfin, rfl⟩ := Option.map_eq_some_iff.mp hs
        refine .inl ⟨_, by rw [perform, List.map_cons, List.cons_append, resume,
          finish_relocate hfin]; rfl, ?_⟩
        have hlen₁ : (fs ++ below₁).length + 1 = fs.length + 1 + below₁.length := by
          rw [List.length_append]
          omega
        have hlen₂ : (fs.map (Frame.relocate below₁.length below₂.length) ++ below₂).length + 1 =
            fs.length + 1 + below₂.length := by
          rw [List.length_append, List.length_map]
          omega
        rw [List.append_eq, hlen₁, hlen₂]
        exact .mk (hcaller.finish hfin) hfs (hw₁.leave (Nat.le_add_left _ _))
          (hw₂.leave (Nat.le_add_left _ _)) (hw.leave _)

/-- A step of the call above `callers`. -/
def CallStep (ops : FloatOps) (m : Module) (callers : List Frame) (s s' : State) : Prop :=
  (∃ frame fs w, s = .running frame (fs ++ callers) w) ∧ step ops m s = some s'

abbrev CallReaches (ops : FloatOps) (m : Module) (callers : List Frame) :=
  Relation.ReflTransGen (CallStep ops m callers)

theorem resume_spec (h : resume callers v w = some s) :
    s.world = w.leave callers.length ∧
      ∀ frame fs w', s ≠ .running frame (fs ++ callers) w' := by
  cases callers with
  | nil =>
    cases h
    exact ⟨rfl, by rintro _ _ _ ⟨⟩⟩
  | cons caller callers =>
    obtain ⟨caller', -, rfl⟩ := Option.map_eq_some_iff.mp h
    refine ⟨rfl, fun frame fs w' he => ?_⟩
    obtain ⟨-, hc, -⟩ := State.running.inj he
    have hlen := congrArg List.length hc
    simp only [List.length_append, List.length_cons] at hlen
    omega

/-- The other run returns the same. -/
theorem Twin.returns (hq : Quiet m P) (h : Twin m P below₁ below₂ W₁ W₂ s₁ s₂)
    (hv : Returns ops m below₁ v s₁) :
    Returns ops m below₂ (v.map (Word.relocate below₁.length below₂.length)) s₂ := by
  obtain ⟨frame, w, i, rest, hs, hrest, hact⟩ := hv
  obtain @⟨frame', fs, w₁, w₂, hown, -, -, -, hw⟩ := h
  obtain ⟨rfl, hfs, rfl⟩ := State.running.inj hs
  obtain rfl : fs = [] := by simpa using hfs
  have hi := hown.rest i (by rw [hrest]; exact List.mem_cons_self)
  rw [← Nat.zero_add below₁.length] at hact
  obtain ⟨act', hact', hboth⟩ := action_both hq hown hi hw hact
  cases hboth
  rw [List.length_nil, Nat.zero_add] at hact'
  exact ⟨_, w₂, i, rest, rfl, hrest, hact'⟩

/-- After its return the call makes no step. -/
theorem Returns.callStep (h : Returns ops m callers v s) (hs : CallStep ops m callers s s') :
    ∀ s'', ¬ CallStep ops m callers s' s'' := by
  obtain ⟨frame, w, i, rest, rfl, hrest, hact⟩ := h
  rintro s'' ⟨⟨frame', fs, w', rfl⟩, -⟩
  have hs := hs.2
  simp only [step, hrest, hact, Option.bind_some, perform] at hs
  exact (resume_spec hs).2 _ _ _ rfl

/-- A call returns once. -/
theorem Returns.unique {v' : Option Word} {s₀ : State} (h₁ : CallReaches ops m callers s₀ s)
    (h : Returns ops m callers v s) (h₂ : CallReaches ops m callers s₀ s')
    (h' : Returns ops m callers v' s') : v = v' := by
  have same : ∀ {v v' s s'}, Returns ops m callers v s → Returns ops m callers v' s' →
      CallReaches ops m callers s s' → v = v' := by
    intro v v' s s' h h' hr
    rcases hr.cases_head with rfl | ⟨t, hst, hr⟩
    · obtain ⟨frame, w, i, rest, rfl, hrest, hact⟩ := h
      obtain ⟨frame', w', i', rest', he, hrest', hact'⟩ := h'
      cases he
      rw [hrest] at hrest'
      cases hrest'
      rw [hact] at hact'
      cases hact'
      rfl
    · have hstuck := h.callStep hst
      rcases hr.cases_head with rfl | ⟨u, htu, -⟩
      · obtain ⟨frame', w', i', rest', rfl, hrest', hact'⟩ := h'
        obtain ⟨frame, w, i, rest, rfl, hrest, hact⟩ := h
        have hs := hst.2
        simp only [step, hrest, hact, Option.bind_some, perform] at hs
        exact absurd rfl ((resume_spec hs).2 frame' [] w')
      · exact absurd htu (hstuck u)
  have hdet : Relator.RightUnique (CallStep ops m callers) := by
    intro a b c hab hac
    exact Option.some.inj (hab.2.symm.trans hac.2)
  rcases Relation.ReflTransGen.total_of_right_unique hdet h₁ h₂ with hr | hr
  · exact same h h' hr
  · exact (same h' h hr).symm

/-- Two calls of a function of `P` with the same arguments. -/
theorem twin_start {g : Nat} {args : List Word} (hg : P g)
    (hargs : args.map (Word.relocate below₁.length below₂.length) = args)
    (hcall : invoke m g args = some callee)
    (h₁ : ∀ a : Address, a.object.Above below₁.length → W₁.memory a = none)
    (h₂ : ∀ a : Address, a.object.Above below₂.length → W₂.memory a = none) :
    Twin m P below₁ below₂ W₁ W₂ (.running callee below₁ W₁) (.running callee below₂ W₂) := by
  have halike : Alike below₁.length below₂.length W₁ W₂ := fun a ha => by
    rw [h₁ a ha, h₂ _ (above_of_relocate ha)]
    rfl
  have hsame := invoke_relocate below₁.length below₂.length hcall
  rw [hargs, hcall] at hsame
  have hstack : Stacked m P below₁.length [] := .nil
  have htwin := Twin.mk (owns_invoke hg hcall) hstack (.refl _ W₁) (.refl _ W₂) halike
  rwa [← Option.some.inj hsame] at htwin

@[simp] theorem relocate_self : x.relocate d d = x := by
  cases x with
  | number n => rfl
  | pointer a =>
    obtain ⟨o, n⟩ := a
    cases o with
    | globalVariable g => rfl
    | slot e i l =>
      have he : (if d ≤ e then e - d + d else e) = e := by
        split
        · omega
        · rfl
      simp only [relocate_pointer, Address.relocate, Object.relocate, he]

theorem map_relocate_self (args : List Word) : args.map (Word.relocate d d) = args := by
  induction args with
  | nil => rfl
  | cons x args ih => rw [List.map_cons, relocate_self, ih]

/-- Arguments that are no addresses of the variables of the call. -/
theorem map_relocate_args {args : List Word}
    (h : ∀ a : Address, .pointer a ∈ args → ¬ a.object.Above d) :
    args.map (Word.relocate d d') = args := by
  induction args with
  | nil => rfl
  | cons x args ih =>
    rw [List.map_cons, ih fun a ha => h a (List.mem_cons_of_mem _ ha)]
    cases x with
    | number n => rfl
    | pointer a =>
      have hno := h a List.mem_cons_self
      obtain ⟨o, n⟩ := a
      cases o with
      | globalVariable g => rfl
      | slot e i l =>
        have he : ¬ d ≤ e := hno
        simp only [relocate_pointer, Address.relocate, Object.relocate, if_neg he]

/-- A call of a function of `P` is followed by the other one, up to its return. -/
theorem twin_reaches (hq : Quiet m P) (h : Twin m P below₁ below₂ W₁ W₂ s₁ s₂)
    (hs : CallReaches ops m below₁ s₁ s) :
    (∃ s', CallReaches ops m below₂ s₂ s' ∧ Twin m P below₁ below₂ W₁ W₂ s s') ∨
      (∃ w v, Unchanged below₁.length W₁ w ∧ resume below₁ v w = some s) := by
  induction hs with
  | refl => exact .inl ⟨s₂, .refl, h⟩
  | @tail s t _ hst ih =>
    obtain ⟨⟨frame, fs, w, rfl⟩, hst⟩ := hst
    rcases ih with ⟨s', hr, htwin⟩ | ⟨w', v, -, hres⟩
    · rcases htwin.step hq hst with ⟨t', ht', htwin'⟩ | ⟨v, w', hw, hres⟩
      · exact .inl ⟨t', hr.tail ⟨htwin.inCall, ht'⟩, htwin'⟩
      · exact .inr ⟨w', v, hw, hres⟩
    · exact absurd rfl ((resume_spec hres).2 _ _ _)

/-- What is seen from below does not change while a call of `P` runs, nor by its return. -/
theorem unchanged_of_callReaches (hq : Quiet m P) {g : Nat} {args : List Word} (hg : P g)
    (hcall : invoke m g args = some callee)
    (hw : ∀ a : Address, a.object.Above callers.length → w.memory a = none)
    (hs : CallReaches ops m callers (.running callee callers w) s) :
    Unchanged callers.length w s.world := by
  have htwin := twin_start hg (map_relocate_self args) hcall hw hw
  rcases twin_reaches hq htwin hs with ⟨s', -, h⟩ | ⟨w', v, h, hres⟩
  · cases h with
    | mk _ _ h _ _ => exact h
  · rw [(resume_spec hres).1]
    exact h.leave le_rfl

/-- Each address that is read or written in `f` is one of a variable of `f`, over every entry of the
phis on the way to it, or `get_first_addr` does not find that it is. -/
def Addressed (m : Module) (f : Nat) : Prop :=
  ∀ i ∈ instructions m f, ∀ v, FuncInfo.Accesses m i v → FuncInfo.SideEffect m i ∨ Local m v

/-- Functions that reach no impure one. -/
theorem quiet_of_not_impure
    (hdefined : ∀ f, P f → f < m.numFunctions ∧ ¬ FuncInfo.Impure m f ∧ Addressed m f)
    (hcalls : ∀ f, P f → ∀ g, FuncInfo.Calls m f g → P g) : Quiet m P where
  defined f hf := by
    by_contra hdecl
    exact (hdefined f hf).2.1 ⟨f, .refl, .inl (by simpa using hdecl)⟩
  calls f hf i hi g operands hop hops := by
    have hcall : (m.instrs i).isCall := by simp [Instruction.isCall, hop]
    exact hcalls f hf g
      ⟨(hdefined f hf).1, i, hi, hcall, by simp [Instruction.getOperand, hops]⟩
  accesses f hf i hi v hv := by
    obtain ⟨-, hpure, haddr⟩ := hdefined f hf
    rcases haddr i hi v hv with heff | hlocal
    · exact absurd ⟨f, .refl, .inr (.inr (.inr ⟨i, hi, heff⟩))⟩ hpure
    · exact hlocal

theorem not_impure_of_isPureFunction {fuel f : Nat} {isPure : Nat → Option Bool} {r : FuncInfo}
    (hc : FuncInfo.Consistent m) (hrun : FuncInfo.run m fuel isPure = .ok r)
    (hf : f < m.numFunctions) (hp : r.isPureFunction f = some true) :
    ¬ FuncInfo.Impure m f := by
  obtain ⟨ht, hw⟩ := FuncInfo.run_spec hc hrun
  intro himp
  have hfalse := (ht.isPure_iff hc hw hf).mpr himp
  rw [FuncInfo.isPureFunction, hfalse] at hp
  cases hp

theorem not_impure_of_calls {f g : Nat} (h : FuncInfo.Calls m f g) (hf : ¬ FuncInfo.Impure m f) :
    ¬ FuncInfo.Impure m g := by
  rintro ⟨n, hgn, hn⟩
  exact hf ⟨n, .head h hgn, hn⟩

/-- A call of a function that is reported pure changes nothing that its callers see, in any run and
at any time of it, and what it returns depends on its arguments only: two calls return the same
number, or the same address of a variable of the call. -/
theorem isPureFunction_sound {fuel f : Nat} {isPure : Nat → Option Bool} {r : FuncInfo}
    {args : List Word} (hc : FuncInfo.Consistent m)
    (hm : ∀ g, Relation.ReflTransGen (FuncInfo.Calls m) f g → Addressed m g)
    (hrun : FuncInfo.run m fuel isPure = .ok r) (hf : f < m.numFunctions)
    (hp : r.isPureFunction f = some true) (hcall : invoke m f args = some callee) :
    (∀ callers w s, (∀ a : Address, a.object.Above callers.length → w.memory a = none) →
      CallReaches ops m callers (.running callee callers w) s →
      Unchanged callers.length w s.world) ∧
    ∀ callers₁ callers₂ w₁ w₂ s₁ s₂ v₁ v₂,
      (∀ a : Address, .pointer a ∈ args → ¬ a.object.Above callers₁.length) →
      (∀ a : Address, a.object.Above callers₁.length → w₁.memory a = none) →
      (∀ a : Address, a.object.Above callers₂.length → w₂.memory a = none) →
      CallReaches ops m callers₁ (.running callee callers₁ w₁) s₁ →
      CallReaches ops m callers₂ (.running callee callers₂ w₂) s₂ →
      Returns ops m callers₁ v₁ s₁ → Returns ops m callers₂ v₂ s₂ →
      v₂ = v₁.map (Word.relocate callers₁.length callers₂.length) := by
  have hpure := not_impure_of_isPureFunction hc hrun hf hp
  have hq : Quiet m fun g => g < m.numFunctions ∧ Relation.ReflTransGen (FuncInfo.Calls m) f g ∧
      ¬ FuncInfo.Impure m g := by
    refine quiet_of_not_impure (fun g hg => ⟨hg.1, hg.2.2, hm g hg.2.1⟩) fun g hg n hn => ?_
    exact ⟨(hc.use_of_calls hn).1, hg.2.1.tail hn, not_impure_of_calls hn hg.2.2⟩
  have hP : f < m.numFunctions ∧ Relation.ReflTransGen (FuncInfo.Calls m) f f ∧
      ¬ FuncInfo.Impure m f := ⟨hf, .refl, hpure⟩
  refine ⟨fun callers w s hw hs => unchanged_of_callReaches hq hP hcall hw hs, ?_⟩
  intro callers₁ callers₂ w₁ w₂ s₁ s₂ v₁ v₂ hargs hw₁ hw₂ hs₁ hs₂ hv₁ hv₂
  have htwin := twin_start (P := fun g => g < m.numFunctions ∧
    Relation.ReflTransGen (FuncInfo.Calls m) f g ∧ ¬ FuncInfo.Impure m g)
    hP (map_relocate_args hargs) hcall hw₁ hw₂
  rcases twin_reaches hq htwin hs₁ with ⟨t, ht, htt⟩ | ⟨w', v, -, hres⟩
  · exact Returns.unique hs₂ hv₂ ht (htt.returns hq hv₁)
  · obtain ⟨frame, w'', i, rest, rfl, -, -⟩ := hv₁
    exact absurd rfl ((resume_spec hres).2 frame [] w'')

/-- Whether the value is an `alloca` or an element of one. -/
def findsLocal (m : Module) : Nat → Value → Bool
  | 0, _ => false
  | fuel + 1, .instruction i =>
    (m.instrs i).isAlloca ||
      (m.instrs i).isGep && ((m.instrs i).getOperand 0).any (findsLocal m fuel)
  | _ + 1, _ => false

theorem local_of_findsLocal {fuel : Nat} {v : Value} (h : findsLocal m fuel v) : Local m v := by
  induction fuel generalizing v with
  | zero => cases h
  | succ fuel ih =>
    cases v with
    | instruction i =>
      simp only [findsLocal, Bool.or_eq_true, Bool.and_eq_true, Option.any_eq_true] at h
      rcases h with ha | ⟨hg, u, hu, hfind⟩
      · exact local_alloca ha
      · exact local_gep hg hu (ih hfind)
    | _ => cases h

def addressed (m : Module) (fuel f : Nat) : Bool :=
  (instructions m f).all fun i =>
    match (m.instrs i).opId with
    | .load => ((m.instrs i).getOperand 0).any (findsLocal m fuel)
    | .store => ((m.instrs i).getOperand 1).any (findsLocal m fuel)
    | _ => true

theorem addressed_of {fuel f : Nat} (h : addressed m fuel f) : Addressed m f := by
  intro i hi v hv
  have h := List.all_eq_true.mp h i hi
  rcases hv with ⟨hl, hv⟩ | ⟨hs, hv⟩
  · rw [FuncInfo.isLoad_iff.mp hl] at h
    dsimp only at h
    rw [hv] at h
    exact .inr (local_of_findsLocal h)
  · rw [FuncInfo.isStore_iff.mp hs] at h
    dsimp only at h
    rw [hv] at h
    exact .inr (local_of_findsLocal h)

/-- `int next(int n) { return n + 1; } int main(void) { next(2); return 0; }`. -/
def nextProgram : ASTProgram :=
  let n : ASTAdditiveExpression := .ofTerm (.ofFactor (.var (.scalar "n")))
  ⟨[.fun ⟨.int, "next", [⟨.int, "n", false⟩], [],
      [.return (some (.simple (.additive n .plus (.ofFactor (.num (.int 1))))))]⟩,
    .fun ⟨.int, "main", [], [],
      [.expressionStmt (some (.simple (.ofTerm (.ofFactor
        (.call "next" [Dominators.literal 2]))))), .return (some (Dominators.literal 0))]⟩]⟩

/-- The arithmetic on floats does not matter to it. -/
def noFloats : FloatOps := ⟨fun a _ => a, fun a _ => a, fun a _ => a, fun a _ => a,
  fun _ => false, fun _ _ _ => false, fun a => a, fun _ => none⟩

theorem nextProgram_module : ∃ m, buildModule nextProgram = some m ∧
    (∀ f < m.numFunctions, addressed m 9 f) ∧
    4 < m.numFunctions ∧ (m.functions 4).basicBlocks = [0] ∧
    ((FuncInfo.run m 50 fun _ => none).toOption.bind fun r => r.isPureFunction 4) = some true :=
  exists_buildModule nextProgram _ (by decide +kernel)

theorem isPureFunction_sound_nextProgram : ∃ (m : Module) (r : FuncInfo) (callee : Frame),
    buildModule nextProgram = some m ∧ r.isPureFunction 4 = some true ∧
    invoke m 4 [.number (.int 2)] = some callee ∧
    (∀ callers w s, (∀ a : Address, a.object.Above callers.length → w.memory a = none) →
      CallReaches noFloats m callers (.running callee callers w) s →
      Unchanged callers.length w s.world) ∧
    ∀ callers₁ callers₂ w₁ w₂ s₁ s₂ v₁ v₂,
      (∀ a : Address, .pointer a ∈ [Word.number (.int 2)] → ¬ a.object.Above callers₁.length) →
      (∀ a : Address, a.object.Above callers₁.length → w₁.memory a = none) →
      (∀ a : Address, a.object.Above callers₂.length → w₂.memory a = none) →
      CallReaches noFloats m callers₁ (.running callee callers₁ w₁) s₁ →
      CallReaches noFloats m callers₂ (.running callee callers₂ w₂) s₂ →
      Returns noFloats m callers₁ v₁ s₁ → Returns noFloats m callers₂ v₂ s₂ →
      v₂ = v₁.map (Word.relocate callers₁.length callers₂.length) := by
  obtain ⟨m, hm, haddr, hlt, hblocks, hpure⟩ := nextProgram_module
  have hc := FuncInfo.consistent_of_buildModule hm
  obtain ⟨r, hr, hp⟩ := Option.bind_eq_some_iff.mp hpure
  have hcall : invoke m 4 [.number (.int 2)] = some
      ⟨4, 0, [.number (.int 2)], fun _ => none, fun _ => 0, Gvn.body m 0⟩ := by
    rw [invoke, hblocks]
    rfl
  have hreach : ∀ g, Relation.ReflTransGen (FuncInfo.Calls m) 4 g → Addressed m g := by
    intro g hg
    cases hg with
    | refl => exact addressed_of (haddr 4 hlt)
    | tail _ hcalls => exact addressed_of (haddr g (hc.use_of_calls hcalls).1)
  exact ⟨m, r, _, hm, hp, hcall,
    isPureFunction_sound hc hreach (Exec.ok_of_toOption hr) hlt hp hcall⟩

/-- `int x; void set(bool b) { int y; *(b ? &y : &x) = 1; } int main(void) { set(false);
output(x); return 0; }`, where the address is a phi. -/
def writerModule : Module :=
  let instrs : Nat → Instruction := fun
    | 0 => ⟨.alloca .int32, .pointer .int32, [], 0⟩
    | 1 => ⟨.br, .void, [.argument 1 0, .basicBlock 1, .basicBlock 2], 0⟩
    | 2 => ⟨.br, .void, [.basicBlock 2], 1⟩
    | 3 => ⟨.phi (.instruction 0), .pointer .int32,
        [.instruction 0, .basicBlock 1, .globalVariable 0, .basicBlock 0], 2⟩
    | 4 => ⟨.store, .void, [.constInt 1, .instruction 3], 2⟩
    | 5 => ⟨.ret, .void, [], 2⟩
    | 6 => ⟨.call, .void, [.function 1, .constBool false], 3⟩
    | 7 => ⟨.load, .int32, [.globalVariable 0], 3⟩
    | 8 => ⟨.call, .void, [.function 0, .instruction 7], 3⟩
    | 9 => ⟨.ret, .void, [.constInt 0], 3⟩
    | _ => ⟨.ret, .void, [], 0⟩
  { functions := fun
      | 0 => ⟨"output", .void, [.int32], []⟩
      | 1 => ⟨"set", .void, [.int1], [0, 1, 2]⟩
      | 2 => ⟨"main", .int32, [], [3]⟩
      | _ => ⟨"", .void, [], []⟩
    numFunctions := 3
    globals := fun
      | 0 => ⟨"x", .int32, [.constZero .int32]⟩
      | _ => ⟨"", .void, []⟩
    numGlobals := 1
    blocks := fun
      | 0 => ⟨"", 1, [0, 1], [], [1, 2]⟩
      | 1 => ⟨"", 1, [2], [0], [2]⟩
      | 2 => ⟨"", 1, [3, 4, 5], [0, 1], []⟩
      | 3 => ⟨"", 2, [6, 7, 8, 9], [], []⟩
      | _ => ⟨"", 0, [], [], []⟩
    numBlocks := 4
    instrs := instrs
    numInstrs := 10
    useList := fun v =>
      (if v = .constZero .int32 then [⟨.globalVariable 0, 0⟩] else []) ++
        (List.range 10).flatMap fun i =>
          ((instrs i).operands.zipIdx.filter fun op => op.1 = v).map fun op =>
            ⟨.instruction i, op.2⟩ }

theorem writerModule_parented : Parented writerModule where
  instr b i hi := by
    have h : ∀ b < 4, ∀ i ∈ (writerModule.blocks b).instrList,
        (writerModule.instrs i).parent = b := by decide
    by_cases hb : b < 4
    · exact h b hb i hi
    · obtain ⟨k, rfl⟩ := Nat.exists_eq_add_of_le (not_lt.mp hb)
      rw [Nat.add_comm] at hi
      cases hi
  block := by decide

theorem mem_instructions_writerModule : i < 10 ↔ ∃ f < 3, i ∈ instructions writerModule f := by
  constructor
  · revert i
    decide
  · have h : ∀ f < 3, ∀ j ∈ instructions writerModule f, j < 10 := by decide
    rintro ⟨f, hf, hi⟩
    exact h f hf i hi

theorem writerModule_consistent : FuncInfo.Consistent writerModule where
  toParented := writerModule_parented
  useList g hg use := by
    have hmem : use ∈ writerModule.useList (.function g) ↔ ∃ i < 10, use.val = .instruction i ∧
        (writerModule.instrs i).operands[use.argNo]? = some (.function g) := by
      obtain ⟨u, n⟩ := use
      simp only [writerModule, reduceCtorEq, if_false, List.nil_append, List.mem_flatMap,
        List.mem_range, List.mem_map, List.mem_filter, decide_eq_true_eq, Prod.exists, Use.mk.injEq,
        List.mk_mem_zipIdx_iff_getElem?]
      constructor
      · rintro ⟨i, hi, v, k, ⟨hv, rfl⟩, rfl, rfl⟩
        exact ⟨i, hi, rfl, hv⟩
      · rintro ⟨i, hi, rfl, hv⟩
        exact ⟨i, hi, _, n, ⟨hv, rfl⟩, rfl, rfl⟩
    rw [hmem]
    constructor
    · rintro ⟨i, hi, hu, hv⟩
      obtain ⟨f, hf, hi⟩ := mem_instructions_writerModule.mp hi
      exact ⟨f, hf, i, hi, hu, hv⟩
    · rintro ⟨f, hf, i, hi, hu, hv⟩
      exact ⟨i, mem_instructions_writerModule.mpr ⟨f, hf, hi⟩, hu, hv⟩
  calls f hf i hi n g hv := by
    have hlt := mem_instructions_writerModule.mpr ⟨f, hf, hi⟩
    interval_cases i <;> rcases n with _ | _ | _ | _ | n <;> simp [writerModule] at hv <;>
      subst hv <;> decide

/-- The function that writes to `x` is reported pure. -/
theorem writerModule_pure :
    ((FuncInfo.run writerModule 9 fun _ => none).toOption.bind fun r => r.isPureFunction 1) =
      some true := by
  decide +kernel

theorem callReaches_run (fuel : Nat) (s : State) : CallReaches ops m [] s (run ops m fuel s) := by
  induction fuel generalizing s with
  | zero => exact .refl
  | succ fuel ih =>
    rw [run]
    cases hs : step ops m s with
    | none => exact .refl
    | some s' =>
      refine .head ⟨?_, hs⟩ (ih s')
      cases s with
      | running frame callers w => exact ⟨frame, callers, w, by rw [List.append_nil]⟩
      | returned => cases hs
      | exited => cases hs

/-- Where the address is a phi, a function that is reported pure writes to a global variable. -/
theorem not_unchanged_writerModule : ∃ (r : FuncInfo) (callee : Frame) (s : State),
    FuncInfo.Consistent writerModule ∧ FuncInfo.run writerModule 9 (fun _ => none) = .ok r ∧
    1 < writerModule.numFunctions ∧ r.isPureFunction 1 = some true ∧
    invoke writerModule 1 [.number (.bool false)] = some callee ∧
    (∀ a : Address, a.object.Above 0 → (start writerModule []).memory a = none) ∧
    CallReaches noFloats writerModule [] (.running callee [] (start writerModule [])) s ∧
    ¬ Unchanged 0 (start writerModule []) s.world := by
  obtain ⟨r, hr, hp⟩ := Option.bind_eq_some_iff.mp writerModule_pure
  refine ⟨r, _, _, writerModule_consistent, Exec.ok_of_toOption hr, by decide, hp, rfl, ?_,
    callReaches_run 4 _, fun h => ?_⟩
  · intro a ha
    cases hobj : a.object with
    | globalVariable g => simp [hobj, Object.Above] at ha
    | slot d j n => simp only [start, hobj]
  · have hx := h.memory ⟨.globalVariable 0, 0⟩ (by decide)
    revert hx
    decide

end Machine

end Cminusf
