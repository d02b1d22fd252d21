import SchemeMachine.Proofs.Scene

/-!
# Runs under a budget

A machine with a limit takes the steps that it would take without one, until it has counted as many
as the limit allows.  The step after that is counted and refused.  So a run under a budget always
ends: as the run without a limit does, if that ends within the budget, and with the error that the
limit is exceeded otherwise.

Every step counts, whatever it does.  No loop, whether through jumps, branches or registers, can
avoid the count, and this is all that termination rests on.
-/

namespace SchemeMachine

/-- The machine under another limit. -/
def Machine.withLimit {C : Type} (m : Machine C) (limit : Option Nat) : Machine C :=
  { m with maxSteps := limit }

namespace Progress

/-- The run under another limit. -/
def withLimit (limit : Option Nat) : Progress → Progress
  | running m c => running (m.withLimit limit) c
  | finished m outcome => finished (m.withLimit limit) outcome

/-- The steps that a run has counted. -/
def steps (p : Progress) : Nat :=
  p.quota.2

theorem after_add (j k : Nat) (p : Progress) : after (j + k) p = after k (after j p) := by
  induction j generalizing p with
  | zero => rw [Nat.zero_add, after]
  | succ j ih => rw [Nat.succ_add, after, ih, after]

/-- A finished run is finished ever after. -/
theorem after_of_le {j k : Nat} (hle : j ≤ k) {p : Progress} {m : Machine}
    {outcome : Except RunError Value} (h : after j p = finished m outcome) :
    after k p = finished m outcome := by
  obtain ⟨more, rfl⟩ := Nat.exists_eq_add_of_le hle
  rw [after_add, h, after_finished]

end Progress

namespace Machine

variable {m : Machine} {c : Control}

/-! ## One step -/

theorem enter_withLimit (code : Loaded) (id : BlockId) (m : Machine) (limit : Option Nat) :
    enter code id (m.withLimit limit) = (enter code id m).withLimit limit := by
  unfold enter
  cases code.program.block? id <;> rfl

theorem bounce_withLimit (target : CodeRef) (m : Machine) (limit : Option Nat) :
    bounce target (m.withLimit limit) = (bounce target m).withLimit limit :=
  enter_withLimit ⟨target.load, target.program⟩ target.block
    { m with stats := { m.stats with bounces := m.stats.bounces + 1 } } limit

theorem leave_withLimit (code : Loaded) (exit : Exit) (m : Machine) (limit : Option Nat) :
    leave code exit (m.withLimit limit) = (leave code exit m).withLimit limit := by
  cases exit with
  | halt => rfl
  | jump transfer =>
      cases transfer with
      | direct target => exact enter_withLimit code target m limit
      | indirect r =>
          have hget : (m.withLimit limit).registers.get r = m.registers.get r := rfl
          simp only [leave, hget]
          cases m.registers.get r with
          | label target => exact bounce_withLimit target m limit
          | _ => rfl

/-- What a step does, counting apart, does not depend on the limit. -/
theorem advance_withLimit (c : Control) (m : Machine) (limit : Option Nat) :
    advance c (m.withLimit limit) = (advance c m).withLimit limit := by
  unfold advance
  cases c.operations with
  | nil => exact leave_withLimit c.code c.exit m limit
  | cons operation rest =>
      obtain ⟨maxSteps, rs, stack, store, stats⟩ := m
      cases operation with
      | assign target source =>
          simp only [withLimit, perform]
          cases evaluate c.code.ref rs store source <;> rfl
      | restore r =>
          simp only [withLimit, perform]
          cases stack.back? <;> rfl
      | define name =>
          simp only [withLimit, perform]
          cases rs.frame <;> rfl
      | set name =>
          simp only [withLimit, perform]
          cases rs.frame with
          | error e => rfl
          | ok f =>
              simp only
              cases store.binder? f name <;> rfl
      | branch target =>
          simp only [withLimit, perform]
          by_cases hflag : rs.flag.isTrue = true
          · simp only [hflag, if_true]
            exact enter_withLimit c.code target ⟨maxSteps, rs, stack, store, stats⟩ limit
          · simp only [hflag]
            rfl
      | _ => rfl

theorem steps_step (c : Control) (m : Machine) : (step c m).steps = m.stats.steps + 1 := by
  cases h : m.tick.exceeded? with
  | some limit =>
      simp only [step, h]
      rfl
  | none =>
      simp only [step, h, Progress.steps, advance_quota]
      rfl

theorem step_maxSteps (c : Control) (m : Machine) : (step c m).maxSteps = m.maxSteps := by
  cases h : m.tick.exceeded? with
  | some limit =>
      simp only [step, h]
      rfl
  | none =>
      simp only [step, h, advance_maxSteps]
      rfl

/-- A step within the budget is the step that is taken without a limit. -/
theorem step_of_lt {budget : Nat} (h : m.stats.steps < budget) :
    step c (m.withLimit (some budget)) = (step c (m.withLimit none)).withLimit (some budget) := by
  have hwithin : (m.withLimit (some budget)).tick.exceeded? = none := by
    have hcount : ¬ budget < m.stats.steps + 1 := by omega
    exact if_neg hcount
  have hunlimited : (m.withLimit none).tick.exceeded? = none := rfl
  simp only [step, hwithin, hunlimited]
  rw [← advance_withLimit]
  rfl

/-- The step after the last that the budget allows is refused. -/
theorem step_of_eq {budget : Nat} (h : m.stats.steps = budget) :
    step c (m.withLimit (some budget)) =
      .finished (m.tick.withLimit (some budget)) (.error (.stepLimitExceeded budget)) := by
  have hbeyond : (m.withLimit (some budget)).tick.exceeded? = some budget := by
    have hcount : budget < m.stats.steps + 1 := by omega
    exact if_pos hcount
  simp only [step, hbeyond]
  rfl

end Machine

/-! ## A run -/

namespace Progress

variable {p : Progress} {m : Machine} {c : Control} {outcome : Except RunError Value}

/-- A run stays under its limit. -/
theorem maxSteps_after (count : Nat) (p : Progress) : (after count p).maxSteps = p.maxSteps := by
  induction count generalizing p with
  | zero => rfl
  | succ count ih =>
      rw [after, ih]
      cases p with
      | finished m outcome => rfl
      | running m c => exact Machine.step_maxSteps c m

/-- A run that is still going on has counted every step. -/
theorem steps_after_running {count : Nat} (h : after count p = running m c) :
    m.stats.steps = p.steps + count := by
  induction count generalizing p with
  | zero =>
      cases h
      rfl
  | succ count ih =>
      cases p with
      | finished m' outcome =>
          rw [after_finished] at h
          cases h
      | running m' c' =>
          have hstep : (Machine.step c' m').steps = m'.stats.steps + 1 := Machine.steps_step c' m'
          have hrest := ih (p := Machine.step c' m') h
          rw [hrest, hstep]
          show m'.stats.steps + 1 + count = m'.stats.steps + (count + 1)
          omega

/-- A run counts no more than one for each step. -/
theorem steps_after_le (count : Nat) (p : Progress) : (after count p).steps ≤ p.steps + count := by
  induction count generalizing p with
  | zero => exact Nat.le_refl p.steps
  | succ count ih =>
      cases p with
      | finished m outcome =>
          rw [after_finished]
          exact Nat.le_add_right _ _
      | running m c =>
          have hstep : (Machine.step c m).steps = m.stats.steps + 1 := Machine.steps_step c m
          have hrest := ih (Machine.step c m)
          rw [hstep] at hrest
          show (after count (Machine.step c m)).steps ≤ m.stats.steps + (count + 1)
          omega

/-- A run counts at least one step more before it ends. -/
theorem steps_lt_of_finished {count : Nat} {m' : Machine}
    (h : after count (running m c) = finished m' outcome) : m.stats.steps < m'.stats.steps := by
  induction count generalizing m c with
  | zero => cases h
  | succ count ih =>
      have hstep := Machine.steps_step c m
      rw [after, next] at h
      cases hnext : Machine.step c m with
      | finished m₁ outcome₁ =>
          rw [hnext, after_finished] at h
          cases h
          rw [hnext] at hstep
          have : m'.stats.steps = m.stats.steps + 1 := hstep
          omega
      | running m₁ c₁ =>
          rw [hnext] at h hstep
          have hrest := ih h
          have : m₁.stats.steps = m.stats.steps + 1 := hstep
          omega

/-- As long as the budget lasts, a run goes the way it goes without a limit. -/
theorem after_withLimit {budget count : Nat} (h : p.steps + count ≤ budget) :
    after count (p.withLimit (some budget)) =
      (after count (p.withLimit none)).withLimit (some budget) := by
  induction count generalizing p with
  | zero => cases p <;> rfl
  | succ count ih =>
      cases p with
      | finished m outcome => simp only [withLimit, after_finished, Machine.withLimit]
      | running m c =>
          have hcount : m.stats.steps + (count + 1) ≤ budget := h
          have hsteps : (Machine.step c (m.withLimit none)).steps = m.stats.steps + 1 :=
            Machine.steps_step c (m.withLimit none)
          -- Without a limit the limit stays away, so the induction goes on from the next step.
          have hnone : (Machine.step c (m.withLimit none)).withLimit none =
              Machine.step c (m.withLimit none) := by
            have hunlimited : (m.withLimit none).tick.exceeded? = none := rfl
            simp only [Machine.step, hunlimited]
            rw [← Machine.advance_withLimit]
            rfl
          have hrest := ih (p := Machine.step c (m.withLimit none)) (by omega)
          rw [hnone] at hrest
          show after count (Machine.step c (m.withLimit (some budget))) =
            (after count (Machine.step c (m.withLimit none))).withLimit (some budget)
          rw [Machine.step_of_lt (by omega), hrest]

/-- A run that ends having counted no more than the budget has ended when the budget is spent. -/
theorem after_budget {budget fuel : Nat} (h : after fuel p = finished m outcome)
    (hsteps : m.stats.steps ≤ p.steps + budget) : after budget p = finished m outcome := by
  rcases Nat.le_total fuel budget with hle | hle
  · exact after_of_le hle h
  · obtain ⟨more, rfl⟩ := Nat.exists_eq_add_of_le hle
    rw [after_add] at h
    cases hbudget : after budget p with
    | finished m' outcome' =>
        rw [hbudget, after_finished] at h
        exact h
    | running m' c =>
        -- It would have to count one step more than the budget to end.
        rw [hbudget] at h
        have hmore := steps_lt_of_finished h
        have hspent := steps_after_running hbudget
        omega

end Progress

namespace Machine

/-- The machine as a run leaves it: an error clears the save stack. -/
def settled (m : Machine) : Except RunError Value → Machine
  | .ok _ => m
  | .error _ => m.clearStack

theorem execute_eq_some_iff {m last : Machine} {p : Program} {fuel : Nat}
    {outcome : Except RunError Value} :
    m.execute fuel p = some (outcome, last) ↔
      ∃ m', (m.start p).after fuel = .finished m' outcome ∧ last = m'.settled outcome := by
  unfold execute
  constructor
  · intro h
    cases hrun : runWithin fuel (m.start p) with
    | none => simp [hrun] at h
    | some x =>
        obtain ⟨outcome', m'⟩ := x
        have hafter := Progress.runWithin_eq_some_iff.mp hrun
        rw [hrun] at h
        cases outcome' with
        | ok v =>
            cases h
            exact ⟨last, hafter, rfl⟩
        | error e =>
            cases h
            exact ⟨m', hafter, rfl⟩
  · rintro ⟨m', hafter, rfl⟩
    rw [Progress.runWithin_eq_some_iff.mpr hafter]
    cases outcome <;> rfl

/-- A run that ends also ends with more fuel, and just so. -/
theorem execute_of_le {m last : Machine} {p : Program} {fuel fuel' : Nat} (hle : fuel ≤ fuel')
    {outcome : Except RunError Value} (h : m.execute fuel p = some (outcome, last)) :
    m.execute fuel' p = some (outcome, last) := by
  obtain ⟨m', hafter, rfl⟩ := execute_eq_some_iff.mp h
  exact execute_eq_some_iff.mpr ⟨m', Progress.after_of_le hle hafter, rfl⟩

/-- A run leaves the limit as it was. -/
theorem execute_maxSteps {m last : Machine} {p : Program} {fuel : Nat}
    {outcome : Except RunError Value} (h : m.execute fuel p = some (outcome, last)) :
    last.maxSteps = m.maxSteps := by
  obtain ⟨m', hafter, rfl⟩ := execute_eq_some_iff.mp h
  have hstart : (m.start p).maxSteps = m.maxSteps := by
    rw [← Progress.quota_fst]
    exact congrArg Prod.fst (enter_quota ⟨m.store.nextTag, p⟩ p.entry _)
  have hlast : m'.maxSteps = (m.start p).maxSteps := by
    rw [← Progress.maxSteps_after fuel, hafter]
    rfl
  rw [← hstart, ← hlast]
  cases outcome <;> rfl

theorem start_withLimit (m : Machine) (p : Program) (limit : Option Nat) :
    (m.withLimit limit).start p = (m.start p).withLimit limit :=
  bounce_withLimit ⟨m.store.nextTag, p, p.entry⟩
    ⟨m.maxSteps, m.registers.set .env (.environment global), m.stack,
      { m.store with nextTag := m.store.nextTag + 1 }, {}⟩ limit

theorem steps_start (m : Machine) (p : Program) : (m.start p).steps = 0 := by
  show (enter _ _ _).quota.2 = 0
  rw [enter_quota]

theorem settled_withLimit (m : Machine) (limit : Option Nat) (outcome : Except RunError Value) :
    (m.withLimit limit).settled outcome = (m.settled outcome).withLimit limit := by
  cases outcome <;> rfl

theorem steps_settled (m : Machine) (outcome : Except RunError Value) :
    (m.settled outcome).stats = m.stats := by
  cases outcome <;> rfl

variable {m : Machine} {p : Program} {budget : Nat}

/-- A run without a limit that is over when the budget is spent ends under the budget just so. -/
theorem execute_of_finished_within {m' : Machine} {outcome : Except RunError Value}
    (h : ((m.withLimit none).start p).after budget = .finished m' outcome) {fuel : Nat}
    (hfuel : budget ≤ fuel) :
    (m.withLimit (some budget)).execute fuel p =
      some (outcome, (m'.settled outcome).withLimit (some budget)) := by
  have hsteps : (m.start p).steps + budget ≤ budget := by
    have := steps_start m p
    omega
  rw [start_withLimit] at h
  have hafter : ((m.start p).withLimit (some budget)).after budget =
      .finished (m'.withLimit (some budget)) outcome := by
    rw [Progress.after_withLimit hsteps, h]
    rfl
  apply execute_eq_some_iff.mpr
  rw [start_withLimit, ← settled_withLimit]
  exact ⟨_, Progress.after_of_le hfuel hafter, rfl⟩

/-- A run without a limit that goes on when the budget is spent is stopped by the budget. -/
theorem execute_of_running_within {m' : Machine} {c : Control}
    (h : ((m.withLimit none).start p).after budget = .running m' c) {fuel : Nat}
    (hfuel : budget < fuel) :
    (m.withLimit (some budget)).execute fuel p =
      some (.error (.stepLimitExceeded budget),
        (m'.tick.withLimit (some budget)).settled (.error (.stepLimitExceeded budget))) := by
  have hsteps : (m.start p).steps + budget ≤ budget := by
    have := steps_start m p
    omega
  have hcount : m'.stats.steps = budget := by
    rw [Progress.steps_after_running h, steps_start, Nat.zero_add]
  rw [start_withLimit] at h
  have hafter : ((m.start p).withLimit (some budget)).after (budget + 1) =
      .finished (m'.tick.withLimit (some budget)) (.error (.stepLimitExceeded budget)) := by
    rw [Progress.after_add, Progress.after_withLimit hsteps, h]
    exact step_of_eq hcount
  apply execute_eq_some_iff.mpr
  rw [start_withLimit]
  exact ⟨_, Progress.after_of_le hfuel hafter, rfl⟩

theorem finished_of_execute {fuel : Nat} {outcome : Except RunError Value} {last : Machine}
    (h : (m.withLimit none).execute fuel p = some (outcome, last))
    (hsteps : last.stats.steps ≤ budget) :
    ∃ m', ((m.withLimit none).start p).after budget = .finished m' outcome ∧
      last = m'.settled outcome := by
  obtain ⟨m', hafter, rfl⟩ := execute_eq_some_iff.mp h
  rw [steps_settled] at hsteps
  refine ⟨m', Progress.after_budget hafter ?_, rfl⟩
  rw [steps_start, Nat.zero_add]
  exact hsteps

/-- Any program, run on any machine under a budget, ends.  If the run without a limit ends having
counted no more steps than the budget, both end with the same result, and the machines are the same
but for their limits.  In every other case the budget is exceeded: one step too many has been
counted, nothing is saved, and the store is that of the run without a limit when the budget is
spent.  What comes out under a budget comes out under every larger one. -/
theorem execute_under_budget (m : Machine) (p : Program) (budget : Nat) :
    ∃ outcome last,
      (∀ fuel, budget < fuel →
        (m.withLimit (some budget)).execute fuel p = some (outcome, last)) ∧
      (∀ fuel outcome' last', (m.withLimit none).execute fuel p = some (outcome', last') →
        last'.stats.steps ≤ budget → outcome = outcome' ∧ last = last'.withLimit (some budget)) ∧
      ((∀ fuel outcome' last', (m.withLimit none).execute fuel p = some (outcome', last') →
          budget < last'.stats.steps) →
        outcome = .error (.stepLimitExceeded budget) ∧ last.stats.steps = budget + 1 ∧
        last.stack = #[] ∧ ∃ m' c,
          ((m.withLimit none).start p).after budget = .running m' c ∧ last.store = m'.store) ∧
      (outcome ≠ .error (.stepLimitExceeded budget) → ∀ larger, budget ≤ larger →
        ∀ fuel, larger < fuel → (m.withLimit (some larger)).execute fuel p =
          some (outcome, last.withLimit (some larger))) := by
  cases hspent : ((m.withLimit none).start p).after budget with
  | finished m' outcome =>
      refine ⟨outcome, (m'.settled outcome).withLimit (some budget), ?_, ?_, ?_, ?_⟩
      · intro fuel hfuel
        exact execute_of_finished_within hspent (Nat.le_of_lt hfuel)
      · intro fuel outcome' last' hexecute hsteps
        obtain ⟨m'', hfinished, rfl⟩ := finished_of_execute hexecute hsteps
        rw [hspent] at hfinished
        cases hfinished
        exact ⟨rfl, rfl⟩
      · -- This run does end within the budget.
        intro hbeyond
        have hended := hbeyond budget outcome _ (execute_eq_some_iff.mpr ⟨m', hspent, rfl⟩)
        have hwithin := Progress.steps_after_le budget ((m.withLimit none).start p)
        rw [hspent, steps_start] at hwithin
        rw [steps_settled] at hended
        have : m'.stats.steps ≤ 0 + budget := hwithin
        omega
      · intro _ larger hlarger fuel hfuel
        have hlater := Progress.after_of_le hlarger hspent
        exact execute_of_finished_within hlater (Nat.le_of_lt hfuel)
  | running m' c =>
      have hcount : m'.stats.steps = budget := by
        rw [Progress.steps_after_running hspent, steps_start, Nat.zero_add]
      refine ⟨_, _, fun fuel hfuel => execute_of_running_within hspent hfuel, ?_, ?_, ?_⟩
      · -- This run does not end within the budget.
        intro fuel outcome' last' hexecute hsteps
        obtain ⟨m'', hfinished, -⟩ := finished_of_execute hexecute hsteps
        rw [hspent] at hfinished
        cases hfinished
      · intro _
        refine ⟨rfl, ?_, rfl, m', c, rfl, rfl⟩
        show m'.stats.steps + 1 = budget + 1
        rw [hcount]
      · intro hother
        exact absurd rfl hother

/-- A block that saves a register and begins again, forever: of the four registers it saves under a
budget of seven none is left on the stack, and the eighth step is counted and refused. -/
example :
    (((new none).withLimit (some 7)).execute 8
        ⟨#[⟨"loop", [.save .env], .jump (.direct 0)⟩], 0⟩).map (fun result =>
      (result.1, result.2.stats.steps, result.2.stats.maxStackDepth, result.2.stack)) =
    some (.error (.stepLimitExceeded 7), 8, 4, #[]) :=
  rfl

end Machine
end SchemeMachine
