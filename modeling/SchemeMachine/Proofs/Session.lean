import SchemeMachine.Proofs.Simulation.Forms

/-!
# Machines that evaluate texts

A machine is driven when it was made new and has since then only evaluated texts and been reset.
Between two evaluations such a machine is at rest: nothing is saved, and its store stands for one of
the evaluator.  Every evaluation goes through sound scenes, with or without a limit, and leaves the
machine at rest again, whatever it ends with.
-/

namespace SchemeMachine

/-- Machines that are made new, evaluate texts and are reset. -/
inductive Machine.Driven : Machine → Prop
  | new (maxSteps : Option Nat) : Driven (Machine.new maxSteps)
  | eval {m m' : Machine} {fuel : Nat} {source : String} {result : Except EvalError Value}
      (driven : Driven m) (evaluated : m.eval fuel source = some (result, m')) : Driven m'
  | reset {m : Machine} (driven : Driven m) : Driven m.reset

/-- What is true of a machine between two evaluations. -/
structure Machine.AtRest (m : Machine) : Prop where
  stack : m.stack = #[]
  represented : ∃ W w, Represents W w m.store

/-! ## Runs that follow the evaluator to their end -/

/-- What is true wherever a run of compiled code stands. -/
def Stage.Sound : Stage → Prop
  | running s => s.Sound
  | finished stack store outcome =>
    (∃ W w, Represents W w store) ∧ Ordinary outcome ∧ ∀ v, outcome = .ok v → stack = #[]

/-- The scene is the last before a run ends with a value of the evaluator. -/
def Scene.EndsWith (s : Scene) (v : Value Procedure) (w : Store Procedure) : Prop :=
  s.Sound ∧ ∃ store v' W, s.next = .finished #[] store (.ok v') ∧ Represents W w store ∧
    v.Like compiled W v'

namespace Reaches

variable {count : Nat} {s s' : Scene}

theorem after_add (h : Reaches count s s') (more : Nat) :
    Stage.after (count + more) (.running s) = Stage.after more (.running s') := by
  induction h with
  | refl s => rw [Nat.zero_add]
  | step _ next _ ih =>
      rw [Nat.succ_add, Stage.after, next]
      exact ih

/-- On the way there is a scene at every step, and all but the last are sound. -/
theorem scene_at (h : Reaches count s s') {i : Nat} (hi : i ≤ count) :
    ∃ s'', Stage.after i (.running s) = .running s'' ∧ (i < count → s''.Sound) := by
  induction h generalizing i with
  | refl s =>
      obtain rfl : i = 0 := by omega
      exact ⟨s, rfl, fun hlt => by omega⟩
  | @step count s s₁ s₂ sound next _ ih =>
      cases i with
      | zero => exact ⟨s, rfl, fun _ => sound⟩
      | succ i =>
          obtain ⟨s'', hat, hsound⟩ := ih (i := i) (by omega)
          refine ⟨s'', ?_, fun hlt => hsound (by omega)⟩
          rw [Stage.after, next]
          exact hat

theorem sound_before (h : Reaches count s s') {i : Nat} (hi : i < count) :
    (Stage.after i (.running s)).Sound := by
  obtain ⟨s'', hat, hsound⟩ := h.scene_at (Nat.le_of_lt hi)
  rw [hat]
  exact hsound hi

/-- A run that ends after a sound scene was sound all along. -/
theorem sound_throughout (h : Reaches count s s') (hs : s'.Sound) {stack : Array Value}
    {store : Store} {outcome : Except RunError Value}
    (hend : s'.next = .finished stack store outcome)
    (hfinished : (Stage.finished stack store outcome).Sound) (i : Nat) :
    (Stage.after i (.running s)).Sound := by
  rcases Nat.lt_or_ge i count with hi | hi
  · exact h.sound_before hi
  · obtain ⟨more, rfl⟩ := Nat.exists_eq_add_of_le hi
    rw [h.after_add]
    cases more with
    | zero => exact hs
    | succ more =>
        rw [Stage.after, hend, Stage.after_finished]
        exact hfinished

end Reaches

namespace Follows

variable {depth : Nat} {s : Scene}

/-- A run that follows a computation to the end is sound, as far as it is known. -/
theorem sound {x : Option (Except (RunError Procedure) (Value Procedure) × Store Procedure)}
    (h : Follows depth s x fun v w s' => s'.EndsWith v w) {i : Nat} (hi : i < depth) :
    (Stage.after i (.running s)).Sound := by
  match x with
  | some (.ok v, w) =>
      obtain ⟨count, s', hreach, hsound, store, v', W, hend, hrep, -⟩ := h
      exact hreach.sound_throughout hsound hend ⟨⟨W, w, hrep⟩, .ok v', fun _ _ => rfl⟩ i
  | some (.error e, w) =>
      obtain ⟨count, s', hreach, hsound, store, e', W, hend, hrep, -, he⟩ := h
      exact hreach.sound_throughout hsound hend ⟨⟨W, w, hrep⟩, .error he, nofun⟩ i
  | none =>
      obtain ⟨count, s', hreach, hle⟩ := h
      exact hreach.sound_before (by omega)

/-- A run that follows a computation with a result ends with that result. -/
theorem ends {result : Except (RunError Procedure) (Value Procedure)} {w : Store Procedure}
    (h : Follows depth s (some (result, w)) fun v w s' => s'.EndsWith v w) :
    ∃ count stack store outcome W, Stage.after count (.running s) = .finished stack store outcome ∧
      Represents W w store ∧
      ResultLike (RunError.Like compiled W) (Value.Like compiled W) result outcome := by
  match result with
  | .ok v =>
      obtain ⟨count, s', hreach, -, store, v', W, hend, hrep, hv⟩ := h
      refine ⟨count + 1, #[], store, .ok v', W, ?_, hrep, .ok hv⟩
      rw [hreach.after_add, Stage.after, hend, Stage.after]
  | .error e =>
      obtain ⟨count, s', hreach, -, store, e', W, hend, hrep, he, -⟩ := h
      refine ⟨count + 1, s'.stack, store, .error e', W, ?_, hrep, .error he⟩
      rw [hreach.after_add, Stage.after, hend, Stage.after]

/-- A run that follows a computation which is given up goes on. -/
theorem goes_on {post : Value Procedure → Store Procedure → Scene → Prop}
    (h : Follows depth s none post) :
    ∃ s', Stage.after depth (.running s) = .running s' := by
  obtain ⟨count, s', hreach, hle⟩ := h
  obtain ⟨s'', hat, -⟩ := hreach.scene_at hle
  exact ⟨s'', hat⟩

end Follows

/-! ## Starting a program -/

namespace Machine

/-- The machine once it has loaded a program. -/
def loaded (m : Machine) : Machine :=
  ⟨m.maxSteps, m.registers.set .env (.environment global), m.stack,
    { m.store with nextTag := m.store.nextTag + 1 }, { bounces := 1 }⟩

/-- A program that is loaded next. -/
def site (m : Machine) {statements : List Statement} {p : Program}
    (h : Program.assemble statements = .ok p) : Site :=
  ⟨⟨m.store.nextTag, p⟩, statements, h⟩

variable {m : Machine} {statements : List Statement} {p : Program}

theorem start_eq (m : Machine) (h : Program.assemble statements = .ok p) :
    m.start p = .running m.loaded ((m.site h).before statements) :=
  Site.enter_entry (m.site h) m.loaded

/-- What a machine shows once it stands at the entry of a program. -/
def opening (m : Machine) (h : Program.assemble statements = .ok p) : Scene :=
  m.loaded.scene ((m.site h).before statements) ⟨false, []⟩

/-- A run without a limit follows the evaluator to the end. -/
theorem AtRest.follows {W : TagMatch} {w : Store Procedure} (hm : m.AtRest)
    (hrep : Represents W w m.store) {forms : List Datum} (hne : forms ≠ []) {n n' : Nat}
    {code : Sequence} (hcode : Expression.compileProgram forms n = .ok code n')
    (h : Program.assemble code.statements = .ok p) (depth : Nat) :
    Follows depth (m.opening h) (evaluateForms depth forms w) fun v w' s' => s'.EndsWith v w' := by
  -- Loading has taken a tag, which stands for nothing of the evaluator.
  have hloaded : Represents W w (m.opening h).store := hrep.skip (Nat.le_succ _)
  have hstack : (m.opening h).stack = #[] := hm.stack
  have hready : Ready global W w code.needs (m.opening h) :=
    ⟨hloaded, nofun, rfl, fun _ => rfl⟩
  have hcovers : (m.site h).Covers (code.statements ++ []) := by
    rw [List.append_nil]
    exact List.suffix_refl _
  have hc : (m.opening h).control = (m.site h).before (code.statements ++ []) := by
    rw [List.append_nil]
    rfl
  refine (Expression.compileProgram_runs depth hne hcode hcovers hc hready trivial rfl).andThen ?_
  intro v w' s' harrived
  have hsteady : s'.Steady := harrived.steady nofun
  obtain ⟨W', -, hrep', hv⟩ := harrived.represented
  refine Follows.done ⟨hsteady.sound_end harrived.control, s'.store, s'.registers.val, W', ?_,
    hrep', hv⟩
  rw [Scene.next_halt harrived.control, harrived.stack, hstack]

/-- A program with no forms halts at once. -/
theorem AtRest.opening_empty (hm : m.AtRest) (h : Program.assemble [] = .ok p) (i : Nat) :
    (Stage.after i (.running (m.opening h))).Sound := by
  obtain ⟨W, w, hrep⟩ := hm.represented
  have hsteady : (m.opening h).Steady := ⟨⟨W, w, hrep.skip (Nat.le_succ _)⟩, nofun⟩
  refine (Reaches.refl (m.opening h)).sound_throughout (hsteady.sound_end rfl)
    (Scene.next_halt rfl) ⟨hsteady.represented, .ok _, fun _ _ => hm.stack⟩ i

/-- A run without a limit is sound throughout. -/
theorem AtRest.opening_sound (hm : m.AtRest) {forms : List Datum} {n n' : Nat} {code : Sequence}
    (hcode : Expression.compileProgram forms n = .ok code n')
    (h : Program.assemble code.statements = .ok p) (i : Nat) :
    (Stage.after i (.running (m.opening h))).Sound := by
  cases forms with
  | nil =>
      cases hcode
      exact hm.opening_empty h i
  | cons form rest =>
      obtain ⟨W, w, hrep⟩ := hm.represented
      -- Procedures entered deeper than `i` within each other do not matter in the first `i` steps.
      exact (hm.follows hrep (List.cons_ne_nil form rest) hcode h (i + 1)).sound (Nat.lt_succ_self i)

end Machine

/-! ## Running a program -/

/-- If the scenes of a run without a limit are sound, so is the run under any limit. -/
theorem Watched.sound_of_stages {m : Machine} {c : Control} {calls : Calls}
    (h : ∀ i, (Stage.after i (.running (m.scene c calls))).Sound) (count : Nat) :
    (Watched.after count ⟨.running m c, calls⟩).stage.Sound := by
  rcases Watched.after_stage count m c calls with
    heq | ⟨earlier, -, s, m', limit, hs, hstop, -, hstore⟩
  · rw [heq]
    exact h count
  · -- The limit stops a run between two steps, where the store is that of a sound scene.
    have hsound := h earlier
    rw [hs] at hsound
    rw [Watched.stage, hstop, Progress.stage, hstore]
    exact ⟨hsound.represented, .error id, by simp⟩

theorem Expression.compileText_eq_ok {source : String} {code : Sequence}
    (h : Expression.compileText source = .ok code) :
    ∃ forms n, Datum.parse source = .ok forms ∧
      Expression.compileProgram forms 0 = .ok code n := by
  unfold Expression.compileText at h
  generalize Datum.parse source = parsed at h ⊢
  cases parsed with
  | error e => cases h
  | ok forms =>
      dsimp only at h
      generalize hcode : Expression.compileProgram forms 0 = result at h
      cases result with
      | error e n => cases h
      | ok code n =>
          cases h
          exact ⟨forms, n, rfl, hcode⟩

/-- The parts that the program of a text was made from. -/
theorem Program.ofText_eq_ok {source : String} {p : Program} (h : Program.ofText source = .ok p) :
    ∃ forms code n, Datum.parse source = .ok forms ∧
      Expression.compileProgram forms 0 = .ok code n ∧
      Program.assemble code.statements = .ok p := by
  unfold Program.ofText at h
  generalize hcompile : Expression.compileText source = compiled at h
  cases compiled with
  | error e => cases h
  | ok code =>
      dsimp only at h
      generalize hassemble : Program.assemble code.statements = assembled at h
      cases assembled with
      | error e => cases h
      | ok q =>
          cases h
          obtain ⟨forms, n, hparse, hcode⟩ := Expression.compileText_eq_ok hcompile
          exact ⟨forms, code, n, hparse, hcode, hassemble⟩

namespace Machine

variable {m m' : Machine} {source : String} {p : Program} {fuel : Nat}

/-- Where a machine stands after some steps of a program, with the calls under way. -/
def watch (m : Machine) (p : Program) (count : Nat) : Watched :=
  Watched.after count ⟨m.start p, ⟨false, []⟩⟩

theorem AtRest.watch_sound (hm : m.AtRest) (hp : Program.ofText source = .ok p) (count : Nat) :
    (m.watch p count).stage.Sound := by
  obtain ⟨forms, code, n, -, hcode, h⟩ := Program.ofText_eq_ok hp
  rw [watch, start_eq m h]
  exact Watched.sound_of_stages (hm.opening_sound hcode h) count

/-- Executing a program is told by where its run stands in the end. -/
theorem execute_eq (m : Machine) (p : Program) (fuel : Nat) :
    m.execute fuel p =
      match (m.watch p fuel).progress with
      | .running _ _ => none
      | .finished m' (.ok v) => some (.ok v, m')
      | .finished m' (.error e) => some (.error e, m'.clearStack) := by
  rw [watch, Watched.progress_after, Machine.execute]
  cases hafter : (m.start p).after fuel with
  | running m' c =>
      cases hrun : runWithin fuel (m.start p) with
      | none => rfl
      | some result =>
          rw [Progress.runWithin_eq_some_iff.mp hrun] at hafter
          cases hafter
  | finished m' outcome =>
      rw [Progress.runWithin_eq_some_iff.mpr hafter]
      cases outcome <;> rfl

theorem AtRest.execute (hm : m.AtRest) (hp : Program.ofText source = .ok p)
    {outcome : Except RunError Value} (h : m.execute fuel p = some (outcome, m')) :
    m'.AtRest ∧ Ordinary outcome := by
  have hsound := hm.watch_sound hp fuel
  rw [execute_eq] at h
  generalize m.watch p fuel = x at h hsound
  obtain ⟨progress, calls⟩ := x
  cases progress with
  | running m'' c => cases h
  | finished m'' result =>
      obtain ⟨hrep, hordinary, hstack⟩ := hsound
      cases result with
      | ok v =>
          cases h
          exact ⟨⟨hstack v rfl, hrep⟩, hordinary⟩
      | error e =>
          cases h
          exact ⟨⟨rfl, hrep⟩, hordinary⟩

/-- An evaluation leaves the machine at rest and fails with no internal error. -/
theorem AtRest.eval (hm : m.AtRest) {result : Except EvalError Value}
    (h : m.eval fuel source = some (result, m')) :
    m'.AtRest ∧ ∀ e, result = .error (.run e) → ¬ e.Internal := by
  unfold Machine.eval at h
  cases hp : Program.ofText source with
  | error e =>
      rw [hp] at h
      cases h
      exact ⟨hm, nofun⟩
  | ok p =>
      simp only [hp] at h
      cases hexecute : m.execute fuel p with
      | none => simp [hexecute] at h
      | some x =>
          obtain ⟨outcome, m''⟩ := x
          obtain ⟨hrest, hordinary⟩ := hm.execute hp hexecute
          rw [hexecute] at h
          cases outcome with
          | ok v =>
              cases h
              exact ⟨hrest, nofun⟩
          | error e =>
              cases h
              refine ⟨hrest, ?_⟩
              rintro _ ⟨⟩
              exact hordinary e rfl

theorem atRest_new (maxSteps : Option Nat) : (Machine.new maxSteps).AtRest :=
  ⟨rfl, _, _, represents_new maxSteps⟩

/-- A driven machine is at rest between two evaluations. -/
theorem Driven.atRest (h : m.Driven) : m.AtRest := by
  induction h with
  | new maxSteps => exact atRest_new maxSteps
  | eval _ evaluated ih => exact (ih.eval evaluated).1
  | @reset m _ _ => exact atRest_new m.maxSteps

/-- Whether an evaluation failed in a procedure that expected something else. -/
def mistyped (procedure expected : String) : Except EvalError Value → Bool
  | .error (.run (.typeMismatch procedure' expected' _)) =>
    procedure' == procedure && expected' == expected
  | _ => false

theorem eq_of_mistyped {procedure expected : String} {result : Except EvalError Value}
    (h : mistyped procedure expected result = true) :
    ∃ v, result = .error (.run (.typeMismatch procedure expected v)) := by
  unfold mistyped at h
  split at h
  next procedure' expected' v =>
    rw [Bool.and_eq_true, beq_iff_eq, beq_iff_eq] at h
    obtain ⟨rfl, rfl⟩ := h
    exact ⟨v, rfl⟩
  · cases h

/-- No text makes a driven machine fail with an internal error, and nothing is left on its save stack
whatever an evaluation ends with. -/
theorem driven_never_goes_wrong (h : m.Driven) :
    m.stack.size = 0 ∧ m.reset.stack.size = 0 ∧
      ∀ fuel source result m', m.eval fuel source = some (result, m') →
        m'.stack.size = 0 ∧ ∀ e, result = .error (.run e) → ¬ e.Internal := by
  have hrest := h.atRest
  refine ⟨by rw [hrest.stack]; rfl, rfl, ?_⟩
  intro fuel source result m' heval
  obtain ⟨hrest', hordinary⟩ := hrest.eval heval
  exact ⟨by rw [hrest'.stack]; rfl, hordinary⟩

/-- An operand fails while a register is saved, and the save stack is empty all the same. -/
theorem failing_operand_never_goes_wrong :
    ∃ v m', (Machine.new (some 100)).eval 100 "(+ 1 (car 5))" =
        some (.error (.run (.typeMismatch "car" "pair" v)), m') ∧
      m'.stack.size = 0 ∧ ¬ (RunError.typeMismatch "car" "pair" v).Internal := by
  have hfails : ((Machine.new (some 100)).eval 100 "(+ 1 (car 5))").any
      (fun x => mistyped "car" "pair" x.1) = true := by
    decide +kernel
  obtain ⟨⟨result, m'⟩, heval, hresult⟩ := (Option.any_eq_true _ _).mp hfails
  obtain ⟨v, rfl⟩ := eq_of_mistyped hresult
  obtain ⟨-, -, hsafe⟩ := driven_never_goes_wrong (.new (some 100))
  obtain ⟨hstack, hordinary⟩ := hsafe 100 "(+ 1 (car 5))" _ m' heval
  exact ⟨v, m', heval, hstack, hordinary _ rfl⟩

end Machine
end SchemeMachine
