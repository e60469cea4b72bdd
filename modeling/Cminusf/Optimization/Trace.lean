import Cminusf.Optimization.Machine

/-! The calls of the library in the order in which a run makes them. -/

namespace Cminusf

namespace Machine

variable {ops : FloatOps} {m : Module} {s s' s'' : State} {w w' : World} {name : String}
  {args : List Word} {act : Action} {depth i : Nat} {frame : Frame} {es : List Event}

/-- One call of the library more at most. -/
def World.Grows (w w' : World) : Prop := w'.events = w.events ∨ ∃ e, w'.events = w.events ++ [e]

theorem external_grows (h : external name args w = some act) :
    (∃ x w', act = .yields x w' ∧ w.Grows w') ∨ ∃ w', act = .exits w' ∧ w.Grows w' := by
  unfold external at h
  split at h
  · split at h
    · cases h
    · cases h
      exact .inl ⟨_, _, rfl, .inr ⟨_, rfl⟩⟩
  · split at h
    · cases h
      exact .inr ⟨_, rfl, .inr ⟨_, rfl⟩⟩
    · split at h
      · split at h
        · cases h
          exact .inl ⟨_, _, rfl, .inr ⟨_, rfl⟩⟩
        · cases h
      · split at h
        · cases h
          exact .inl ⟨_, _, rfl, .inr ⟨_, rfl⟩⟩
        · cases h
      · cases h

theorem action_grows (h : action ops m depth frame w i = some act) :
    (∀ x w', act = .yields x w' → w.Grows w') ∧ ∀ w', act = .exits w' → w.Grows w' := by
  cases performs_of_action h with
  | library _ _ _ hext =>
    rcases external_grows hext with ⟨x, w', rfl, hg⟩ | ⟨w', rfl, hg⟩
    · refine ⟨fun x' w'' he => ?_, fun w'' he => by cases he⟩
      cases he
      exact hg
    · refine ⟨fun x' w'' he => ?_, fun w'' he => ?_⟩
      · cases he
      · cases he
        exact hg
  | store _ hw =>
    refine ⟨fun x' w'' he => ?_, fun w'' he => by cases he⟩
    cases he
    rw [World.write, Option.ite_none_right_eq_some] at hw
    obtain ⟨-, hw⟩ := hw
    cases hw
    exact .inl rfl
  | value =>
    refine ⟨fun x' w'' he => ?_, fun w'' he => by cases he⟩
    cases he
    exact .inl rfl
  | _ =>
    constructor
    · intro _ _ he
      cases he
    · intro _ he
      cases he

theorem resume_events {callers : List Frame} {v : Option Word} (h : resume callers v w = some s) :
    s.world.events = w.events := by
  cases callers with
  | nil =>
    cases h
    rfl
  | cons caller callers =>
    obtain ⟨frame, -, rfl⟩ := Option.map_eq_some_iff.mp h
    rfl

/-- A step makes one call of the library at most. -/
theorem step_grows (h : step ops m s = some s') : s.world.Grows s'.world := by
  cases s with
  | running frame callers w =>
    rw [step] at h
    split at h
    · obtain ⟨act, hact, h⟩ := Option.bind_eq_some_iff.mp h
      obtain ⟨hyields, hexits⟩ := action_grows hact
      cases act with
      | yields v w' =>
        cases h
        exact hyields v w' rfl
      | calls g args =>
        obtain ⟨callee, -, rfl⟩ := Option.map_eq_some_iff.mp h
        exact .inl rfl
      | jumps t =>
        rw [perform, Option.ite_none_right_eq_some] at h
        obtain ⟨-, h⟩ := h
        cases h
        exact .inl rfl
      | returns v => exact .inl (resume_events h)
      | exits w' =>
        cases h
        exact hexits w' rfl
    · cases h
  | returned => cases h
  | exited => cases h

/-- No call is taken back. -/
theorem events_prefix (h : Reaches ops m s s') : s.world.events <+: s'.world.events := by
  induction h with
  | refl => exact List.prefix_rfl
  | tail _ hs ih =>
    rcases step_grows hs with he | ⟨e, he⟩
    · rwa [he]
    · rw [he]
      exact ih.trans (List.prefix_append _ _)

/-- Between two states every number of calls occurs. -/
theorem exists_events (h : Reaches ops m s s') (hs : s.world.events <+: es)
    (hs' : es <+: s'.world.events) : ∃ s'', Reaches ops m s s'' ∧ s''.world.events = es := by
  induction h with
  | refl =>
    refine ⟨s, .refl, ?_⟩
    exact hs.eq_of_length_le hs'.length_le
  | @tail u u' hu hstep ih =>
    rcases step_grows hstep with he | ⟨e, he⟩
    · exact ih (he ▸ hs')
    · rw [he] at hs'
      rcases List.prefix_concat_iff.mp hs' with heq | hpre
      · exact ⟨u', .tail hu hstep, he.trans heq.symm⟩
      · exact ih hpre

end Machine

end Cminusf
