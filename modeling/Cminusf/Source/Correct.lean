import Cminusf.Builder.TypedProgram
import Cminusf.Optimization.Addresses
import Cminusf.Optimization.Trace
import Cminusf.Source.Calls
import Cminusf.Source.Fuel

/-! The module that the visitors build does what the program means. -/

namespace Cminusf

namespace Source

open Machine Builder CminusfBuilder

def Val.word : Val → Option Word
  | .int n => some (.number (.int n))
  | .float x => some (.number (.float x))
  | .array _ _ => none

/-- How the module of a program ends. -/
def Outcome.lower : Outcome → Machine.Outcome
  | .returned v es => .returned (v.bind Val.word) es
  | .exited es => .exited es

section

variable {g : Globals} {σ : BuilderState} {ops : FloatOps} {program : ASTProgram} {m : Module}
  {input : List (BitVec 32)} {k : Nat} {frame : Frame} {s : State}

theorem Answers.word {ret : CminusType} {o : Option Val} {x : Option Word} (h : Answers ret o x) :
    o.bind Val.word = x := by
  cases h <;> rfl

theorem made_globalLayout (m : Module) (depth : Nat) (count : Nat → Nat) :
    (globalLayout m).Made depth count := by
  intro l o ty hl
  rw [globalLayout, Option.ite_none_right_eq_some] at hl
  obtain ⟨-, hl⟩ := hl
  cases hl
  exact trivial

/-- The memory at the start. -/
theorem mirrors_start (h : Declared g σ) (input : List (BitVec 32)) :
    Mirrors σ.module (globalLayout σ.module) (g.start input) (start σ.module input) := by
  have hinv : ∀ {l o ty}, globalLayout σ.module l = some (o, ty) → o = .globalVariable l ∧
      l < g.cells.length ∧ ty = cellTy (σ.module.globals l).valueType := by
    intro l o ty hl
    rw [globalLayout, Option.ite_none_right_eq_some] at hl
    obtain ⟨hlt, hl⟩ := hl
    cases hl
    exact ⟨rfl, h.numGlobals ▸ hlt, rfl⟩
  refine ⟨fun l p hl => (hinv hl).2.1, ?_, ?_, ?_, rfl, rfl⟩
  · intro l l' o ty ty' hl hl'
    have he := (hinv hl).1.symm.trans (hinv hl').1
    cases he
    rfl
  · intro l o ty hl
    obtain ⟨rfl, hlt, -⟩ := hinv hl
    obtain ⟨decl, -, hglob, hcell⟩ := h.cells l hlt
    have hcells : (g.start input).cells l = List.replicate (size decl) (zero decl.type) := by
      simp only [Globals.start, List.getD_eq_getElem?_getD, hcell, Option.getD_some]
    rw [Object.words, hglob, hcells, List.length_replicate]
    exact words_varTy decl
  · intro l o ty hl n v hv
    obtain ⟨rfl, hlt, rfl⟩ := hinv hl
    obtain ⟨decl, hty, hglob, hcell⟩ := h.cells l hlt
    have hcells : (g.start input).cells l = List.replicate (size decl) (zero decl.type) := by
      simp only [Globals.start, List.getD_eq_getElem?_getD, hcell, Option.getD_some]
    rw [hcells] at hv
    have hz : some v = zero decl.type := by
      have hmem := List.mem_of_getElem? hv
      exact (List.mem_replicate.mp hmem).2
    have hmemory : (start σ.module input).memory ⟨.globalVariable l, n⟩ =
        (varTy decl).zero.map .number := by
      simp only [start, h.numGlobals, if_pos hlt, hglob, Machine.initial]
    rw [hglob, cellTy_varTy hty, hmemory]
    have hzero : (varTy decl).zero = decl.type.ty.zero := by
      rw [varTy, elementTy_eq hty]
      cases decl.num <;> rfl
    rw [hzero]
    cases hdecl : decl.type with
    | void => exact absurd hdecl hty
    | int =>
      rw [hdecl] at hz
      cases hz
      exact ⟨_, rfl, .int 0⟩
    | float =>
      rw [hdecl] at hz
      cases hz
      exact ⟨_, rfl, .float 0⟩

/-- A program without undefined behaviour has a `main`. -/
theorem run_main {fuel : Nat} (h : (run ops program input fuel).1 ≠ .error .undefined) :
    ∃ g k, Globals.ofProgram program = some g ∧ g.env.find "main" = some (.function (.user k)) ∧
      ∀ fuel, run ops program input fuel = callFunction ops g fuel (.user k) [] (g.start input) := by
  unfold run at h
  split at h
  · exact absurd rfl h
  · rename_i g hg
    split at h
    · rename_i k hk
      have hrun : ∀ fuel, run ops program input fuel =
          callFunction ops g fuel (.user k) [] (g.start input) := by
        intro fuel
        simp only [run, hg, hk]
      exact ⟨g, k, hg, hk, hrun⟩
    · exact absurd rfl h

/-- There is one `main` in the module. -/
theorem main_unique (hl : Linked g σ.module) (hd : Declared g σ)
    (hk : g.env.find "main" = some (.function (.user k))) :
    (4 + k < σ.module.numFunctions ∧ (σ.module.functions (4 + k)).name = "main") ∧
      ∀ f < σ.module.numFunctions, (σ.module.functions f).name = "main" → f = 4 + k := by
  obtain ⟨⟨node, Γ⟩, hbody, hid⟩ := hd.user "main" k hk
  obtain ⟨σ₀, σ₁, hv⟩ := hl.visit k node Γ hbody
  have hlt := (List.getElem?_eq_some_iff.mp hbody).1
  refine ⟨⟨by rw [hl.numFunctions]; omega, hv.signature.1.trans hid⟩, fun f hf hname => ?_⟩
  by_cases hf4 : f < 4
  · rw [hl.library f hf4] at hname
    have hnot : ∀ f < 4, (CminusfBuilder.initial.module.functions f).name ≠ "main" := by decide
    exact absurd hname (hnot f hf4)
  · obtain ⟨n, rfl⟩ := Nat.exists_eq_add_of_le (Nat.le_of_not_lt hf4)
    rw [hl.numFunctions] at hf
    have hn : n < g.bodies.length := by omega
    obtain ⟨⟨node', Γ'⟩, hbody'⟩ : ∃ body, g.bodies[n]? = some body :=
      ⟨_, List.getElem?_eq_getElem hn⟩
    obtain ⟨σ₀', σ₁', hv'⟩ := hl.visit n node' Γ' hbody'
    have hfind := hd.named n _ hbody'
    rw [← hv'.signature.1, hname, hk] at hfind
    cases hfind
    rfl

/-- The whole run of a program. -/
theorem run_emulates (hl : Linked g σ.module) (hd : Declared g σ)
    (hk : g.env.find "main" = some (.function (.user k))) (ops : FloatOps)
    (input : List (BitVec 32)) :
    ∃ frame, invoke σ.module (4 + k) [] = some frame ∧ ∀ fuel,
      Emulates (step ops σ.module) (fun o t s => ∃ w, s = .returned (o.bind Val.word) w ∧
          w.events = t.events)
        (Source.Fails ops σ.module (fuel - 1) fun _ _ _ => False)
        (.running frame [] (start σ.module input))
        (callFunction ops g fuel (.user k) [] (g.start input)) := by
  obtain ⟨⟨node, Γ⟩, hbody, -⟩ := hd.user "main" k hk
  have hmem := mirrors_start hd input
  obtain ⟨σ₀, σ₁, hv⟩ := hl.visit k node Γ hbody
  obtain ⟨frame, -, -, hinv, -⟩ := hv.enter hl.phis []
  refine ⟨frame, hinv, fun fuel => ?_⟩
  cases fuel with
  | zero => exact ⟨0, _, le_rfl, rfl, rfl⟩
  | succ fuel =>
    cases hparams : node.params with
    | nil =>
      have hpass : Passes (globalLayout σ.module) (g.params (.user k)) [] [] := by
        rw [Globals.params, hbody, Option.elim_some, hparams]
        exact .nil
      obtain ⟨frame', hinv', hrun⟩ := function_emulates hl hbody (callsAt hl ops fuel) (.refl _)
        (made_globalLayout σ.module _) hmem hpass fun x w =>
          (⟨.returned x (w.leave 0), rfl⟩ : ∃ s', resume [] x w = some s')
      obtain rfl : frame = frame' := Option.some.inj (hinv.symm.trans hinv')
      refine hrun.mono (fun o t s hs => ?_) fun _ _ he => he
      obtain ⟨x, w, ha, hm, -, hs⟩ := hs
      cases hs
      exact ⟨w.leave 0, by rw [ha.word], hm.events⟩
    | cons param params =>
      -- a `main` with parameters is not called
      have hcall : callFunction ops g (fuel + 1) (.user k) [] (g.start input) =
          (.error .undefined, g.start input) := by
        rw [callFunction, hbody]
        dsimp only
        rw [hparams]
        rfl
      rw [hcall]
      exact trivial

theorem ne_undefined_of_outcome {r : Except Stop (Option Val) × Store} {o : Outcome}
    (h : outcome r = some o) : r.1 ≠ .error .undefined := by
  intro he
  obtain ⟨a, t⟩ := r
  cases he
  cases h

/-- What a state of the machine comes to: either the program ends, or the run is longer than the
fuel. -/
theorem reaches_outcome {fuel : Nat} {s₀ : State} {r : Except Stop (Option Val) × Store}
    (h : Emulates (step ops m) (fun o t s => ∃ w, s = .returned (o.bind Val.word) w ∧
        w.events = t.events) (Source.Fails ops m fuel fun _ _ _ => False) s₀ r)
    (hr : r.1 ≠ .error .undefined) :
    (∃ o s, outcome r = some o ∧ Reaches ops m s₀ s ∧ s.outcome = some o.lower ∧
      s.world.events = r.2.events) ∨
    outcome r = none ∧ ∃ n s, fuel ≤ n ∧ Takes (step ops m) n s₀ s ∧ s.world.events = r.2.events := by
  obtain ⟨a | a, t⟩ := r
  · cases a with
    | returned v => exact h.elim
    | exited =>
      obtain ⟨w, hw, he⟩ := h
      exact .inl ⟨.exited t.events, .exited w, rfl, hw, by rw [State.outcome, he]; rfl, he⟩
    | outOfFuel =>
      obtain ⟨n, s, hn, hs, he⟩ := h
      exact .inr ⟨rfl, n, s, hn, hs, he⟩
    | undefined => exact absurd rfl hr
  · obtain ⟨s, hs, w, rfl, he⟩ := h
    exact .inl ⟨.returned a t.events, _, rfl, hs, by rw [State.outcome, he]; rfl, he⟩

/-- The call of `main` in the module follows that of the program, with any fuel. -/
theorem main_emulates (h : buildModule program = some m) {fuel : Nat}
    (hdef : (run ops program input fuel).1 ≠ .error .undefined) :
    ∃ f frame, f < m.numFunctions ∧ (m.functions f).name = "main" ∧
      (∀ f' < m.numFunctions, (m.functions f').name = "main" → f' = f) ∧
      invoke m f [] = some frame ∧ ∀ fuel,
        Emulates (step ops m) (fun o t s => ∃ w, s = .returned (o.bind Val.word) w ∧
            w.events = t.events)
          (Source.Fails ops m (fuel - 1) fun _ _ _ => False)
          (.running frame [] (start m input)) (run ops program input fuel) := by
  obtain ⟨g, k, hg, hk, hrun⟩ := run_main hdef
  obtain ⟨hl, σ, rfl, hd⟩ := linked_of_buildModule h hg
  obtain ⟨frame, hinv, hem⟩ := run_emulates hl hd hk ops input
  obtain ⟨⟨hf, hname⟩, huniq⟩ := main_unique hl hd hk
  exact ⟨4 + k, frame, hf, hname, huniq, hinv, fun fuel => by rw [hrun]; exact hem fuel⟩

theorem ends_of_source (h : buildModule program = some m) {o : Outcome}
    (ho : Ends ops program input o) : Machine.Ends ops m input o.lower := by
  obtain ⟨fuel, ho⟩ := ho
  have hdef := ne_undefined_of_outcome ho
  obtain ⟨f, frame, hf, hname, -, hinv, hem⟩ := main_emulates h hdef
  rcases reaches_outcome (hem fuel) hdef with ⟨o', s, ho', hs, hout, -⟩ | ⟨hnone, -⟩
  · rw [ho] at ho'
    cases ho'
    exact ⟨f, hf, hname, frame, s, hinv, hs, hout⟩
  · rw [ho] at hnone
    cases hnone

theorem makesCalls_of_source (h : buildModule program = some m) {es : List Event}
    (hes : MakesCalls ops program input es) : Machine.MakesCalls ops m input es := by
  obtain ⟨fuel, hdef, hes⟩ := hes
  obtain ⟨f, frame, hf, hname, -, hinv, hem⟩ := main_emulates h hdef
  obtain ⟨s, hs, he⟩ : ∃ s, Reaches ops m (.running frame [] (start m input)) s ∧
      s.world.events = (run ops program input fuel).2.events := by
    rcases reaches_outcome (hem fuel) hdef with ⟨o, s, -, hs, -, he⟩ | ⟨-, n, s, -, hs, he⟩
    · exact ⟨s, hs, he⟩
    · exact ⟨s, hs.reaches, he⟩
  obtain ⟨s', hs', he'⟩ := exists_events hs List.nil_prefix (he ▸ hes)
  exact ⟨f, hf, hname, frame, s', hinv, hs', he'⟩

/-- What the program does, its module does. The program evaluates the right-hand side of an
assignment before the subscript of its target, and does not compare what is no number. -/
theorem build_preserves (h : buildModule program = some m) (ops : FloatOps)
    (input : List (BitVec 32)) :
    (∀ o, Ends ops program input o → Machine.Ends ops m input o.lower) ∧
      ∀ es, MakesCalls ops program input es → Machine.MakesCalls ops m input es :=
  ⟨fun _ => ends_of_source h, fun _ => makesCalls_of_source h⟩

/-- `int calls; int total(int a[], int n) { int i; int s; i = 0; s = 0;
while (i < n) { s = s + a[i]; i = i + 1; } calls = calls + 1; return s; }
void main(void) { int a[2]; int n; int i; n = 2; i = 0; while (i < n) { a[i] = input(); i = i + 1; }
if (total(a, n) > 3) output(calls); else output(a[calls - n]); }`. -/
def totalProgram : ASTProgram :=
  let simple (f : ASTFactor) : ASTExpression := .simple (.ofTerm (.ofFactor f))
  let var (id : String) : ASTFactor := .var (.scalar id)
  let sum (x : ASTFactor) (op : AddOp) (y : ASTFactor) : ASTExpression :=
    .simple (.additive (.ofTerm (.ofFactor x)) op (.ofFactor y))
  let less (x y : ASTFactor) : ASTExpression :=
    .relation (.ofTerm (.ofFactor x)) .lt (.ofTerm (.ofFactor y))
  let assign (v : ASTVar) (e : ASTExpression) : ASTStatement := .expressionStmt (some (.assign v e))
  let output (e : ASTExpression) : ASTStatement :=
    .expressionStmt (some (simple (.call "output" [e])))
  let next (id : String) : ASTStatement := assign (.scalar id) (sum (var id) .plus (.num (.int 1)))
  let zero (id : String) : ASTStatement := assign (.scalar id) (Dominators.literal 0)
  let element (e : ASTExpression) : ASTVar := .subscript "a" e
  ⟨[.var ⟨.int, "calls", none⟩,
    .fun ⟨.int, "total", [⟨.int, "a", true⟩, ⟨.int, "n", false⟩],
      [⟨.int, "i", none⟩, ⟨.int, "s", none⟩],
      [zero "i", zero "s",
      .iteration (less (var "i") (var "n")) (.compound []
        [assign (.scalar "s") (sum (var "s") .plus (.var (element (simple (var "i"))))), next "i"]),
      next "calls",
      .return (some (simple (var "s")))]⟩,
    .fun ⟨.void, "main", [], [⟨.int, "a", some 2⟩, ⟨.int, "n", none⟩, ⟨.int, "i", none⟩],
      [assign (.scalar "n") (Dominators.literal 2), zero "i",
      .iteration (less (var "i") (var "n")) (.compound []
        [assign (element (simple (var "i"))) (simple (.call "input" [])), next "i"]),
      .selectionElse (less (.num (.int 3)) (.call "total" [simple (var "a"), simple (var "n")]))
        (output (simple (var "calls")))
        (output (simple (.var (element (sum (var "calls") .minus (var "n"))))))]⟩]⟩

theorem totalProgram_module : ∃ m, buildModule totalProgram = some m ∧ 5 < m.numFunctions :=
  exists_buildModule totalProgram _ (by decide +kernel)

theorem build_preserves_totalProgram : ∃ m, buildModule totalProgram = some m ∧
    Machine.Ends Gvn.noFloats m [1, 4] (.returned none [.input 1, .input 4, .output 1]) ∧
    Machine.Ends Gvn.noFloats m [1, 1] (.exited [.input 1, .input 1, .negIdxExcept]) ∧
    Machine.MakesCalls Gvn.noFloats m [1, 4] [.input 1, .input 4] := by
  obtain ⟨m, hm, -⟩ := totalProgram_module
  have hret := (build_preserves hm Gvn.noFloats [1, 4]).1
    (.returned none [.input 1, .input 4, .output 1]) ⟨5, by decide +kernel⟩
  have hexit := (build_preserves hm Gvn.noFloats [1, 1]).1
    (.exited [.input 1, .input 1, .negIdxExcept]) ⟨5, by decide +kernel⟩
  have hcalls := (build_preserves hm Gvn.noFloats [1, 4]).2 [.input 1, .input 4]
    ⟨3, by decide +kernel, by decide +kernel⟩
  exact ⟨m, hm, hret, hexit, hcalls⟩

/-- Where the run of a module without undefined behaviour goes from any of its states. -/
theorem follows_run {s₀ : State} {n : Nat} (hdef : Source.Defined ops program input)
    (hrun : ∀ fuel, Emulates (step ops m) (fun o t s => ∃ w, s = .returned (o.bind Val.word) w ∧
        w.events = t.events) (Source.Fails ops m (fuel - 1) fun _ _ _ => False) s₀
        (run ops program input fuel)) (hs : Takes (step ops m) n s₀ s) :
    ∃ fuel s', Reaches ops m s s' ∧
      s'.world.events = (run ops program input fuel).2.events ∧
      (step ops m s = none → ∃ o, outcome (run ops program input fuel) = some o ∧
        s'.outcome = some o.lower) := by
  have hr := reaches_outcome (hrun (n + 2)) (hdef (n + 2))
  rcases hr with ⟨o, s', ho, hreach, hout, he⟩ | ⟨-, k, s', hk, htakes, he⟩
  · have hdet : Relator.RightUnique fun s s' => step ops m s = some s' := by
      intro a b c hab hac
      exact Option.some.inj (hab.symm.trans hac)
    refine ⟨n + 2, s', ?_, he, fun _ => ⟨o, ho, hout⟩⟩
    rcases Relation.ReflTransGen.total_of_right_unique hdet hs.reaches hreach with h | h
    · exact h
    · obtain rfl := eq_of_stuck (step_of_outcome hout) h
      exact .refl
  · obtain ⟨d, rfl⟩ : ∃ d, k = n + (d + 1) := ⟨k - n - 1, by omega⟩
    have hrest := hs.prefix htakes
    refine ⟨n + 2, s', hrest.reaches, he, fun hstop => ?_⟩
    obtain ⟨u, hu, -⟩ := hrest
    rw [hstop] at hu
    cases hu

/-- Where the module of a program without undefined behaviour goes from any of its states. -/
theorem follows_main (h : buildModule program = some m) (hdef : Source.Defined ops program input)
    {f : Nat} (hf : f < m.numFunctions) (hname : (m.functions f).name = "main")
    (hinv : invoke m f [] = some frame)
    (hs : Reaches ops m (.running frame [] (start m input)) s) :
    ∃ fuel s', Reaches ops m s s' ∧
      s'.world.events = (run ops program input fuel).2.events ∧
      (step ops m s = none → ∃ o, outcome (run ops program input fuel) = some o ∧
        s'.outcome = some o.lower) := by
  obtain ⟨f', frame', -, -, huniq, hinv', hem⟩ := main_emulates h (hdef 0)
  obtain rfl := huniq f hf hname
  obtain rfl : frame' = frame := Option.some.inj (hinv'.symm.trans hinv)
  obtain ⟨n, hn⟩ := exists_takes hs
  exact follows_run hdef hem hn

theorem defined_of_source (h : buildModule program = some m)
    (hdef : Source.Defined ops program input) : Machine.Defined ops m input := by
  intro f hf hname frame s hinv hs hstop
  obtain ⟨fuel, s', hs', -, hend⟩ := follows_main h hdef hf hname hinv hs
  obtain ⟨o, -, hout⟩ := hend hstop
  obtain rfl := eq_of_stuck hstop hs'
  rw [hout]
  exact Option.some_ne_none _

theorem source_of_ends (h : buildModule program = some m) (hdef : Source.Defined ops program input)
    {o : Machine.Outcome} (ho : Machine.Ends ops m input o) :
    ∃ o', Ends ops program input o' ∧ o'.lower = o := by
  obtain ⟨f, hf, hname, frame, s, hinv, hs, ho⟩ := ho
  have hstop : step ops m s = none := step_of_outcome ho
  obtain ⟨fuel, s', hs', -, hend⟩ := follows_main h hdef hf hname hinv hs
  obtain ⟨o', hrun', hout⟩ := hend hstop
  obtain rfl := eq_of_stuck hstop hs'
  exact ⟨o', ⟨fuel, hrun'⟩, Option.some.inj (hout.symm.trans ho)⟩

theorem source_of_makesCalls (h : buildModule program = some m)
    (hdef : Source.Defined ops program input) {es : List Event}
    (hes : Machine.MakesCalls ops m input es) : MakesCalls ops program input es := by
  obtain ⟨f, hf, hname, frame, s, hinv, hs, rfl⟩ := hes
  obtain ⟨fuel, s', hs', he, -⟩ := follows_main h hdef hf hname hinv hs
  exact ⟨fuel, hdef fuel, he ▸ events_prefix hs'⟩

/-- A program without undefined behaviour has a module without it, which does nothing else. As
above, the right-hand side of an assignment comes before the subscript of its target, and the
comparison of what is no number counts as undefined. -/
theorem build_reflects (h : buildModule program = some m) {ops : FloatOps}
    {input : List (BitVec 32)} (hdef : Source.Defined ops program input) :
    Machine.Defined ops m input ∧
      (∀ o, Machine.Ends ops m input o → ∃ o', Ends ops program input o' ∧ o'.lower = o) ∧
      ∀ es, Machine.MakesCalls ops m input es → MakesCalls ops program input es :=
  ⟨defined_of_source h hdef, fun _ => source_of_ends h hdef, fun _ => source_of_makesCalls h hdef⟩

theorem build_reflects_totalProgram : ∃ m, buildModule totalProgram = some m ∧
    Machine.Defined Gvn.noFloats m [1, 1] ∧
    (∀ o, Machine.Ends Gvn.noFloats m [1, 1] o →
      ∃ o', Ends Gvn.noFloats totalProgram [1, 1] o' ∧ o'.lower = o) ∧
    ∀ es, Machine.MakesCalls Gvn.noFloats m [1, 1] es →
      MakesCalls Gvn.noFloats totalProgram [1, 1] es := by
  obtain ⟨m, hm, -⟩ := totalProgram_module
  have hends : Ends Gvn.noFloats totalProgram [1, 1]
      (.exited [.input 1, .input 1, .negIdxExcept]) := ⟨5, by decide +kernel⟩
  exact ⟨m, hm, build_reflects hm hends.defined⟩

/-- The builder ends on a legal program, and the module does what the program means: on every input
it makes the same calls of the library and ends in the same way, and where the program has no
undefined behaviour it does nothing else, so that it runs for ever if the program does. -/
theorem buildModule_correct (program : ASTProgram) (hlegal : program.legal) :
    ∃ m, buildModule program = some m ∧ ∀ ops input,
      (∀ es, MakesCalls ops program input es → Machine.MakesCalls ops m input es) ∧
      (∀ o, Ends ops program input o → Machine.Ends ops m input o.lower) ∧
      (Source.Defined ops program input → Machine.Defined ops m input ∧
        (∀ o, Machine.Ends ops m input o → ∃ o', Ends ops program input o' ∧ o'.lower = o) ∧
        ∀ es, Machine.MakesCalls ops m input es → MakesCalls ops program input es) := by
  obtain ⟨_, σ, hrun, -⟩ :=
    visitDeclarations_succeeds program.declarations outside_initial hlegal
  have hbuild : buildModule program = some σ.module := by
    rw [buildModule, hrun]
    rfl
  refine ⟨σ.module, hbuild, fun ops input => ⟨?_, ?_, fun hdef => ⟨?_, ?_, ?_⟩⟩⟩
  · exact fun _ => makesCalls_of_source hbuild
  · exact fun _ => ends_of_source hbuild
  · exact defined_of_source hbuild hdef
  · exact fun _ => source_of_ends hbuild hdef
  · exact fun _ => source_of_makesCalls hbuild hdef

theorem buildModule_correct_totalProgram : ∃ m, buildModule totalProgram = some m ∧
    Machine.Ends Gvn.noFloats m [1, 4] (.returned none [.input 1, .input 4, .output 1]) ∧
    (∀ o, Machine.Ends Gvn.noFloats m [1, 1] o →
      ∃ o', Ends Gvn.noFloats totalProgram [1, 1] o' ∧ o'.lower = o) ∧
    Machine.Ends Gvn.noFloats m [1, 1] (.exited [.input 1, .input 1, .negIdxExcept]) := by
  obtain ⟨m, hm, hall⟩ := buildModule_correct totalProgram (by decide +kernel)
  have hends : Ends Gvn.noFloats totalProgram [1, 1]
      (.exited [.input 1, .input 1, .negIdxExcept]) := ⟨5, by decide +kernel⟩
  refine ⟨m, hm, ?_, ?_, ?_⟩
  · exact (hall Gvn.noFloats [1, 4]).2.1 (.returned none [.input 1, .input 4, .output 1])
      ⟨5, by decide +kernel⟩
  · exact ((hall Gvn.noFloats [1, 1]).2.2 hends.defined).2.1
  · exact (hall Gvn.noFloats [1, 1]).2.1 _ hends

end

end Source

end Cminusf
