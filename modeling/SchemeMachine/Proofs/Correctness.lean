import SchemeMachine.Proofs.Labels
import SchemeMachine.Proofs.Session

/-!
# Compiled programs do what their forms mean

The forms of a program can be evaluated directly, or compiled, assembled and run.  On a machine that
has evaluated any texts before, and has no limit, both come to the same: they end with alike results
in stores that stand for each other, or they both go on forever.
-/

namespace SchemeMachine

/-- Whether a value is that integer. -/
def Value.isInt {C : Type} (i : Int64) : Value C → Bool
  | .number (.int j) => j == i
  | _ => false

theorem Value.eq_of_isInt {C : Type} {i : Int64} {v : Value C} (h : v.isInt i = true) :
    v = .number (.int i) := by
  unfold isInt at h
  split at h
  next j => rw [beq_iff_eq.mp h]
  · cases h

/-! ## Stages -/

namespace Stage

theorem after_add (j k : Nat) (s : Stage) : after (j + k) s = after k (after j s) := by
  induction j generalizing s with
  | zero =>
      rw [Nat.zero_add]
      cases s <;> rfl
  | succ j ih =>
      rw [Nat.succ_add]
      cases s with
      | running s => exact ih s.next
      | finished stack store outcome => simp only [after_finished]

/-- A run has one end. -/
theorem finished_unique {j k : Nat} {s : Stage} {stack stack' : Array Value} {store store' : Store}
    {outcome outcome' : Except RunError Value} (h : after j s = finished stack store outcome)
    (h' : after k s = finished stack' store' outcome') :
    finished stack store outcome = finished stack' store' outcome' := by
  have hj : after (j + k) s = finished stack store outcome := by
    rw [after_add, h, after_finished]
  have hk : after (k + j) s = finished stack' store' outcome' := by
    rw [after_add, h', after_finished]
  rw [← hj, ← hk, Nat.add_comm]

end Stage

/-! ## Runs and the evaluator -/

namespace Machine

variable {m : Machine} {statements : List Statement} {p : Program}

/-- A run that ends, and not because of its limit, goes through the scenes from the opening on. -/
theorem stage_of_execute (h : Program.assemble statements = .ok p) {fuel : Nat}
    {outcome : Except RunError Value} {m' : Machine}
    (hexecute : m.execute fuel p = some (outcome, m'))
    (hstop : ∀ limit, m.maxSteps = some limit → outcome ≠ .error (.stepLimitExceeded limit)) :
    ∃ stack, Stage.after fuel (.running (m.opening h)) = .finished stack m'.store outcome := by
  have hwatched := Watched.after_stage fuel m.loaded ((m.site h).before statements) ⟨false, []⟩
  rw [execute_eq, watch, start_eq m h] at hexecute
  generalize Watched.after fuel _ = x at hexecute hwatched
  obtain ⟨progress, calls⟩ := x
  rcases hwatched with heq | ⟨_, _, _, m₁, limit, _, hlimited, hmax, _⟩
  · rw [opening, ← heq]
    cases progress with
    | running m₁ c => cases hexecute
    | finished m₁ result =>
        cases result with
        | ok v =>
            cases hexecute
            exact ⟨_, rfl⟩
        | error e =>
            cases hexecute
            exact ⟨m₁.stack, rfl⟩
  · dsimp only at hlimited
    subst hlimited
    cases hexecute
    exact absurd rfl (hstop limit hmax)

/-- A run without a limit goes through the scenes from the opening on. -/
theorem watch_stage (hlimit : m.maxSteps = none) (h : Program.assemble statements = .ok p)
    (count : Nat) : (m.watch p count).stage = Stage.after count (.running (m.opening h)) := by
  rw [watch, start_eq m h]
  rcases Watched.after_stage count m.loaded ((m.site h).before statements) ⟨false, []⟩ with
    heq | ⟨_, _, _, _, limit, _, _, hsome, _⟩
  · exact heq
  · have hnone : m.loaded.maxSteps = none := hlimit
    rw [hnone] at hsome
    cases hsome

theorem execute_of_finished {fuel : Nat} {stack : Array Value} {store : Store}
    {outcome : Except RunError Value}
    (h : (m.watch p fuel).stage = .finished stack store outcome) :
    ∃ m', m.execute fuel p = some (outcome, m') ∧ m'.store = store := by
  rw [execute_eq]
  generalize m.watch p fuel = x at h
  obtain ⟨progress, calls⟩ := x
  cases progress with
  | running m' c => cases h
  | finished m' result =>
      cases h
      cases outcome with
      | ok v => exact ⟨m', rfl, rfl⟩
      | error e => exact ⟨m'.clearStack, rfl, rfl⟩

theorem execute_of_running {fuel : Nat} {s : Scene} (h : (m.watch p fuel).stage = .running s) :
    m.execute fuel p = none := by
  rw [execute_eq]
  generalize m.watch p fuel = x at h
  obtain ⟨progress, calls⟩ := x
  cases progress with
  | running m' c => rfl
  | finished m' result => cases h

section Forms

variable {W : TagMatch} {w : Store Procedure} {forms : List Datum} {n n' : Nat} {code : Sequence}

/-- If the evaluator ends, so does a run without a limit, and alike. -/
theorem AtRest.execute_of_evaluated (hm : m.AtRest) (hlimit : m.maxSteps = none)
    (hrep : Represents W w m.store) (hne : forms ≠ [])
    (hcode : Expression.compileProgram forms n = .ok code n')
    (h : Program.assemble code.statements = .ok p) {depth : Nat}
    {result : Except (RunError Procedure) (Value Procedure)} {w' : Store Procedure}
    (heval : evaluateForms depth forms w = some (result, w')) :
    ∃ fuel outcome m' W', m.execute fuel p = some (outcome, m') ∧ Represents W' w' m'.store ∧
      ResultLike (RunError.Like compiled W') (Value.Like compiled W') result outcome := by
  have hends := hm.follows hrep hne hcode h depth
  rw [heval] at hends
  obtain ⟨fuel, stack, store, outcome, W', hstage, hrep', hlike⟩ := hends.ends
  rw [← watch_stage hlimit h] at hstage
  obtain ⟨m', hexecute, hstore⟩ := execute_of_finished hstage
  rw [← hstore] at hrep'
  exact ⟨fuel, outcome, m', W', hexecute, hrep', hlike⟩

/-- If the evaluator ends at no depth, a run without a limit never ends. -/
theorem AtRest.execute_of_given_up (hm : m.AtRest) (hlimit : m.maxSteps = none)
    (hrep : Represents W w m.store) (hne : forms ≠ [])
    (hcode : Expression.compileProgram forms n = .ok code n')
    (h : Program.assemble code.statements = .ok p)
    (hnone : ∀ depth, evaluateForms depth forms w = none) (fuel : Nat) :
    m.execute fuel p = none := by
  have hgoes := hm.follows hrep hne hcode h fuel
  rw [hnone fuel] at hgoes
  obtain ⟨s, hstage⟩ := hgoes.goes_on
  rw [← watch_stage hlimit h] at hstage
  exact execute_of_running hstage

/-- If a run ends, and not because of its limit, the evaluator ends too, and alike.  It need not enter
procedures deeper than the run has taken steps. -/
theorem AtRest.evaluated_of_execute (hm : m.AtRest) (hrep : Represents W w m.store)
    (hne : forms ≠ []) (hcode : Expression.compileProgram forms n = .ok code n')
    (h : Program.assemble code.statements = .ok p) {fuel : Nat} {outcome : Except RunError Value}
    {m' : Machine} (hexecute : m.execute fuel p = some (outcome, m'))
    (hstop : ∀ limit, m.maxSteps = some limit → outcome ≠ .error (.stepLimitExceeded limit)) :
    ∃ result w' W', evaluateForms fuel forms w = some (result, w') ∧
      Represents W' w' m'.store ∧
      ResultLike (RunError.Like compiled W') (Value.Like compiled W') result outcome := by
  obtain ⟨stack, hstage⟩ := stage_of_execute h hexecute hstop
  have hfollows := hm.follows hrep hne hcode h fuel
  cases heval : evaluateForms fuel forms w with
  | none =>
      rw [heval] at hfollows
      obtain ⟨s, hrunning⟩ := hfollows.goes_on
      rw [hstage] at hrunning
      cases hrunning
  | some x =>
      obtain ⟨result, w'⟩ := x
      rw [heval] at hfollows
      obtain ⟨count, stack', store, outcome', W', hends, hrep', hlike⟩ := hfollows.ends
      cases Stage.finished_unique hstage hends
      exact ⟨result, w', W', rfl, hrep', hlike⟩

end Forms

/-- Forms that can be compiled make a program, and running it does what evaluating the forms does.
The store of a driven machine stands for one of the evaluator.  From there, if the evaluator ends, so
does the run, with an alike value or error and in a store that stands for the evaluator's; and if the
evaluator ends at no depth, the run never ends. -/
theorem driven_executes_as_evaluated (hm : m.Driven) (hlimit : m.maxSteps = none)
    {forms : List Datum} (hne : forms ≠ []) {n n' : Nat} {code : Sequence}
    (hcode : Expression.compileProgram forms n = .ok code n') :
    ∃ p, Program.assemble code.statements = .ok p ∧ (∃ W w, Represents W w m.store) ∧
      ∀ W w, Represents W w m.store →
        (∀ depth result w', evaluateForms depth forms w = some (result, w') →
          ∃ fuel outcome m' W', m.execute fuel p = some (outcome, m') ∧ Represents W' w' m'.store ∧
            ResultLike (RunError.Like compiled W') (Value.Like compiled W') result outcome) ∧
        ((∀ depth, evaluateForms depth forms w = none) → ∀ fuel, m.execute fuel p = none) := by
  obtain ⟨p, h⟩ := Expression.compileProgram_assembles hcode
  have hrest := hm.atRest
  refine ⟨p, h, hrest.represented, ?_⟩
  intro W w hrep
  refine ⟨?_, ?_⟩
  · intro depth result w' heval
    exact hrest.execute_of_evaluated hlimit hrep hne hcode h heval
  · intro hnone fuel
    exact hrest.execute_of_given_up hlimit hrep hne hcode h hnone fuel

/-- A recursive procedure: evaluating the forms gives six, and so does running their program. -/
theorem factorial_executes_as_evaluated :
    ∃ forms code n p fuel m',
      Datum.parse "(define (f n) (if (< n 1) 1 (* n (f (- n 1))))) (f 3)" = .ok forms ∧
      Expression.compileProgram forms 0 = .ok code n ∧ Program.assemble code.statements = .ok p ∧
      (Machine.new none).execute fuel p = some (.ok (.number (.int 6)), m') := by
  have hcompiles : (Expression.compileText
      "(define (f n) (if (< n 1) 1 (* n (f (- n 1))))) (f 3)").toOption.isSome = true := by
    decide +kernel
  have hevaluates : ((Datum.parse
      "(define (f n) (if (< n 1) 1 (* n (f (- n 1))))) (f 3)").toOption.any fun forms =>
        !forms.isEmpty && (evaluateForms 4 forms (Store.empty.newRoot.2.install global)).any
          fun x => x.1.toOption.any (Value.isInt 6)) = true := by
    decide +kernel
  cases hcompile : Expression.compileText
      "(define (f n) (if (< n 1) 1 (* n (f (- n 1))))) (f 3)" with
  | error e =>
      rw [hcompile] at hcompiles
      cases hcompiles
  | ok code =>
      obtain ⟨forms, n, hforms, hcode⟩ := Expression.compileText_eq_ok hcompile
      rw [hforms, Except.toOption, Option.any_some, Bool.and_eq_true] at hevaluates
      obtain ⟨hnonempty, hevaluates⟩ := hevaluates
      have hne : forms ≠ [] := by
        rintro rfl
        cases hnonempty
      obtain ⟨⟨e | v, w⟩, heval, hsix⟩ := (Option.any_eq_true _ _).mp hevaluates
      · cases hsix
      · obtain rfl : v = .number (.int 6) := Value.eq_of_isInt hsix
        obtain ⟨p, hp, -, hruns⟩ := driven_executes_as_evaluated (.new none) rfl hne hcode
        obtain ⟨fuel, outcome, m', W, hexecute, -, hlike⟩ :=
          (hruns _ _ (represents_new none)).1 4 _ w heval
        cases hlike with
        | ok hv =>
            cases hv
            exact ⟨forms, code, n, p, fuel, m', hforms, hcode, hp, hexecute⟩

end Machine
end SchemeMachine
