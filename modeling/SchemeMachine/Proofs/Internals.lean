import SchemeMachine.Proofs.Budget
import SchemeMachine.Proofs.Correctness

/-!
# Internal values

Places in code and frames are values that the machine keeps in its registers; programs never see
them.  A text with forms evaluates to a value of the evaluator, in which no part is internal.

A text without forms evaluates to what the register `val` happens to hold.  A run that ends with a
value leaves it there, but a run that fails leaves what it was working on, and that may be the place
of a procedure it was about to enter.  So an internal value can come out of a text without forms,
and only out of such a text, after a run has failed.
-/

namespace SchemeMachine

namespace Value

variable {C : Type}

mutual

/-- Whether no part of a value is a place in code or a frame. -/
def isPlain : Value C → Bool
  | label _ | environment _ => false
  | pair _ a d => isPlain a && isPlain d
  | vector _ items => allPlain items
  | _ => true

/-- Whether all of a row of values are plain. -/
def allPlain : List (Value C) → Bool
  | [] => true
  | x :: xs => isPlain x && allPlain xs

end

theorem allPlain_of_forall₂ {D : Type} {R : Value D → Value C → Prop} {xs : List (Value D)}
    {ys : List (Value C)} (hR : ∀ x y, R x y → y.isPlain = true) (h : List.Forall₂ R xs ys) :
    allPlain ys = true := by
  induction h with
  | nil => rfl
  | cons head _ ih =>
      rw [allPlain, hR _ _ head, ih]
      rfl

/-- A value of the machine that is like one of the evaluator is plain. -/
theorem isPlain_of_like {W : TagMatch} {v : Value Procedure} {v' : Value}
    (h : v.Like compiled W v') : v'.isPlain = true := by
  induction h using Value.Like.elementwise with
  | pair s t a d a' d' tag _ _ car cdr =>
      rw [Value.isPlain, car, cdr]
      rfl
  | vector s t xs ys tag _ items =>
      rw [Value.isPlain]
      apply allPlain_of_forall₂ _ items
      rintro x y ⟨_, hplain⟩
      exact hplain
  | label c d place => exact place.elim
  | environment f g frame => exact frame.elim
  | _ => rfl

end Value

namespace Machine

variable {m m' : Machine} {p : Program} {fuel : Nat}

/-! ## What a run leaves in `val` -/

theorem enter_ne_ok (code : Loaded) (id : BlockId) (m m' : Machine) (v : Value) :
    enter code id m ≠ .finished m' (.ok v) := by
  unfold enter
  cases code.program.block? id <;> simp

theorem leave_ok {code : Loaded} {exit : Exit} {v : Value}
    (h : leave code exit m = .finished m' (.ok v)) : m'.registers.val = v := by
  cases exit with
  | halt =>
      cases h
      rfl
  | jump transfer =>
      cases transfer with
      | direct target => exact absurd h (enter_ne_ok code target m m' v)
      | indirect r =>
          simp only [leave] at h
          cases hget : m.registers.get r with
          | label target =>
              rw [hget] at h
              exact absurd h (enter_ne_ok _ _ _ m' v)
          | _ =>
              rw [hget] at h
              cases h

theorem step_ok {c : Control} {v : Value} (h : step c m = .finished m' (.ok v)) :
    m'.registers.val = v := by
  unfold step at h
  cases hexceeded : m.tick.exceeded? with
  | some limit => simp [hexceeded] at h
  | none =>
      simp only [hexceeded, advance] at h
      cases hoperations : c.operations with
      | nil =>
          rw [hoperations] at h
          exact leave_ok h
      | cons operation rest =>
          rw [hoperations] at h
          simp only at h
          cases hperform : perform c.code.ref operation m.tick with
          | error e m₁ => simp [hperform] at h
          | ok target m₁ =>
              rw [hperform] at h
              cases target with
              | none => cases h
              | some target => exact absurd h (enter_ne_ok _ _ _ m' v)

/-- The run lemma: a value that a run ends with is in `val`. -/
theorem after_ok {c : Control} {count : Nat} {v : Value}
    (h : (Progress.running m c).after count = .finished m' (.ok v)) : m'.registers.val = v := by
  induction count generalizing m c with
  | zero => cases h
  | succ count ih =>
      rw [Progress.after, Progress.next] at h
      cases hstep : step c m with
      | running m₁ c₁ =>
          rw [hstep] at h
          exact ih h
      | finished m₁ outcome =>
          rw [hstep, Progress.after_finished] at h
          cases h
          exact step_ok hstep

/-- The value of a program is what `val` holds in the end. -/
theorem execute_ok_val {v : Value} (h : m.execute fuel p = some (.ok v, m')) :
    m'.registers.val = v := by
  obtain ⟨last, hafter, hlast⟩ := execute_eq_some_iff.mp h
  obtain rfl : m' = last := hlast
  cases hstart : m.start p with
  | running m₁ c =>
      rw [hstart] at hafter
      exact after_ok hafter
  | finished m₁ outcome =>
      rw [hstart, Progress.after_finished] at hafter
      cases hafter
      exact absurd hstart (enter_ne_ok _ _ _ m' v)

/-- A program without statements leaves `val` and the frames alone, and its value is what `val`
holds. -/
theorem execute_empty (hp : Program.assemble [] = .ok p) {outcome : Except RunError Value}
    (h : m.execute fuel p = some (outcome, m')) :
    m'.registers.val = m.registers.val ∧ m'.store.frames = m.store.frames ∧
      ∀ v, outcome = .ok v → v = m.registers.val := by
  obtain ⟨last, hafter, rfl⟩ := execute_eq_some_iff.mp h
  rw [start_eq m hp] at hafter
  cases fuel with
  | zero => cases hafter
  | succ fuel =>
      rw [Progress.after, Progress.next, step] at hafter
      cases hexceeded : m.loaded.tick.exceeded? with
      | some limit =>
          simp only [hexceeded, Progress.after_finished] at hafter
          cases hafter
          exact ⟨rfl, rfl, fun v hv => by cases hv⟩
      | none =>
          have hhalt : advance ((m.site hp).before []) m.loaded.tick =
              .finished m.loaded.tick (.ok m.registers.val) := rfl
          simp only [hexceeded, hhalt, Progress.after_finished] at hafter
          cases hafter
          refine ⟨rfl, rfl, ?_⟩
          rintro v ⟨⟩
          rfl

/-- Without a limit, a program without statements ends after its first step. -/
theorem execute_empty_unlimited (hp : Program.assemble [] = .ok p) (hlimit : m.maxSteps = none)
    (fuel : Nat) : m.execute (fuel + 1) p = some (.ok m.registers.val, m.loaded.tick) := by
  have hexceeded : m.loaded.tick.exceeded? = none := by
    have hnone : m.loaded.tick.maxSteps = none := hlimit
    simp only [exceeded?, hnone]
  have hstep : step ((m.site hp).before []) m.loaded =
      .finished m.loaded.tick (.ok m.registers.val) := by
    simp only [step, hexceeded]
    rfl
  apply execute_eq_some_iff.mpr
  refine ⟨m.loaded.tick, ?_, rfl⟩
  rw [start_eq m hp, Progress.after, Progress.next, hstep, Progress.after_finished]

/-! ## Evaluations -/

variable {source : String}

/-- An evaluation either finds that the text makes no program, or is a run of its program. -/
theorem eval_eq_some {result : Except EvalError Value}
    (h : m.eval fuel source = some (result, m')) :
    (∃ e, Program.ofText source = .error e ∧ result = .error (.build e) ∧ m' = m) ∨
    ∃ p outcome, Program.ofText source = .ok p ∧ m.execute fuel p = some (outcome, m') ∧
      result = outcome.mapError .run := by
  unfold eval at h
  cases hp : Program.ofText source with
  | error e =>
      rw [hp] at h
      cases h
      exact Or.inl ⟨e, rfl, rfl, rfl⟩
  | ok p =>
      simp only [hp] at h
      cases hexecute : m.execute fuel p with
      | none => simp [hexecute] at h
      | some x =>
          obtain ⟨outcome, last⟩ := x
          rw [hexecute] at h
          cases outcome with
          | ok v =>
              cases h
              exact Or.inr ⟨p, .ok v, rfl, hexecute, rfl⟩
          | error e =>
              cases h
              exact Or.inr ⟨p, .error e, rfl, hexecute, rfl⟩

theorem eval_ok {v : Value} (h : m.eval fuel source = some (.ok v, m')) :
    ∃ p, Program.ofText source = .ok p ∧ m.execute fuel p = some (.ok v, m') := by
  rcases eval_eq_some h with ⟨e, -, hresult, -⟩ | ⟨p, outcome, hp, hexecute, hresult⟩
  · cases hresult
  · cases outcome with
    | error e => cases hresult
    | ok v' =>
        cases hresult
        exact ⟨p, hp, hexecute⟩

theorem assemble_nil_of_ofText (hforms : Datum.parse source = .ok [])
    (hp : Program.ofText source = .ok p) : Program.assemble [] = .ok p := by
  obtain ⟨forms, code, n, hparse, hcode, hassemble⟩ := Program.ofText_eq_ok hp
  rw [hforms] at hparse
  cases hparse
  cases hcode
  exact hassemble

/-- A text with forms evaluates to a plain value. -/
theorem AtRest.eval_isPlain (hm : m.AtRest) {v : Value}
    (heval : m.eval fuel source = some (.ok v, m')) (hforms : Datum.parse source ≠ .ok []) :
    v.isPlain = true := by
  obtain ⟨p, hp, hexecute⟩ := eval_ok heval
  obtain ⟨forms, code, n, hparse, hcode, hassemble⟩ := Program.ofText_eq_ok hp
  have hne : forms ≠ [] := by
    rintro rfl
    exact hforms hparse
  obtain ⟨W, w, hrep⟩ := hm.represented
  obtain ⟨result, w', W', -, -, hlike⟩ :=
    hm.evaluated_of_execute hrep hne hcode hassemble hexecute (by simp)
  cases hlike with
  | ok hv => exact Value.isPlain_of_like hv

/-- Driven machines whose last run of a text with forms, if there was one since they were new or
reset, has ended with a value. -/
inductive Unbroken : Machine → Prop
  | new (maxSteps : Option Nat) : Unbroken (Machine.new maxSteps)
  | reset {m : Machine} (driven : m.Driven) : Unbroken m.reset
  | value {m m' : Machine} {fuel : Nat} {source : String} {v : Value} (driven : m.Driven)
      (forms : Datum.parse source ≠ .ok []) (evaluated : m.eval fuel source = some (.ok v, m')) :
      Unbroken m'
  | idle {m m' : Machine} {fuel : Nat} {source : String} {result : Except EvalError Value}
      (unbroken : Unbroken m) (forms : Datum.parse source = .ok [])
      (evaluated : m.eval fuel source = some (result, m')) : Unbroken m'
  | unbuilt {m m' : Machine} {fuel : Nat} {source : String} {e : BuildError}
      (unbroken : Unbroken m) (evaluated : m.eval fuel source = some (.error (.build e), m')) :
      Unbroken m'

theorem Unbroken.val_isPlain (h : m.Unbroken) : m.registers.val.isPlain = true := by
  induction h with
  | new maxSteps => rfl
  | reset driven => rfl
  | value driven forms evaluated =>
      obtain ⟨p, -, hexecute⟩ := eval_ok evaluated
      rw [execute_ok_val hexecute]
      exact driven.atRest.eval_isPlain evaluated forms
  | idle _ forms evaluated ih =>
      rcases eval_eq_some evaluated with ⟨e, -, -, rfl⟩ | ⟨p, outcome, hp, hexecute, -⟩
      · exact ih
      · rw [(execute_empty (assemble_nil_of_ofText forms hp) hexecute).1]
        exact ih
  | unbuilt _ evaluated ih =>
      rcases eval_eq_some evaluated with ⟨e, -, -, rfl⟩ | ⟨p, outcome, -, -, hresult⟩
      · exact ih
      · cases outcome <;> cases hresult

/-- What a driven machine evaluates a text with forms to is plain, whatever came before.  A text
without forms evaluates to what `val` holds, which is plain as well unless a run has failed since
the last that ended with a value. -/
theorem driven_eval_isPlain (hm : m.Driven) {v : Value}
    (heval : m.eval fuel source = some (.ok v, m')) :
    (Datum.parse source ≠ .ok [] → v.isPlain = true) ∧
    (Datum.parse source = .ok [] → v = m.registers.val) ∧
    (m.Unbroken → v.isPlain = true) := by
  have hidle : Datum.parse source = .ok [] → v = m.registers.val := by
    intro hforms
    obtain ⟨p, hp, hexecute⟩ := eval_ok heval
    exact (execute_empty (assemble_nil_of_ofText hforms hp) hexecute).2.2 v rfl
  refine ⟨hm.atRest.eval_isPlain heval, hidle, ?_⟩
  intro hunbroken
  by_cases hforms : Datum.parse source = .ok []
  · rw [hidle hforms]
    exact hunbroken.val_isPlain
  · exact hm.atRest.eval_isPlain heval hforms

/-- After a run has failed, a text with forms evaluates to a plain value all the same. -/
theorem list_after_failure_isPlain :
    ∃ e m v m', (Machine.new none).eval 20 "((lambda (x) x))" = some (.error e, m) ∧
      m.eval 20 "(list car 2)" = some (.ok v, m') ∧ v.isPlain = true := by
  have hruns : ((Machine.new none).eval 20 "((lambda (x) x))").any (fun x =>
      x.1.toOption.isNone && (x.2.eval 20 "(list car 2)").any fun y => y.1.toOption.isSome)
        = true := by
    decide +kernel
  have hforms : (Datum.parse "(list car 2)").toOption.any (fun forms => !forms.isEmpty) = true := by
    decide +kernel
  obtain ⟨⟨result, m⟩, hfails, hthen⟩ := (Option.any_eq_true _ _).mp hruns
  rw [Bool.and_eq_true] at hthen
  obtain ⟨hfailed, hthen⟩ := hthen
  obtain ⟨⟨result', m'⟩, hlist, hvalue⟩ := (Option.any_eq_true _ _).mp hthen
  cases result with
  | ok v => cases hfailed
  | error e =>
      cases result' with
      | error e' => cases hvalue
      | ok v =>
          have hne : Datum.parse "(list car 2)" ≠ .ok [] := by
            intro hparse
            simp [hparse, Except.toOption] at hforms
          exact ⟨e, m, v, m', hfails, hlist,
            (driven_eval_isPlain ((Driven.new none).eval hfails) hlist).1 hne⟩

/-- A procedure is called with too few arguments.  The place where it is entered is left in `val`,
and is what a text without forms then evaluates to. -/
theorem entry_leaks_after_failure :
    ∃ e m v m', (Machine.new none).eval 20 "((lambda (x) x))" = some (.error e, m) ∧
      m.eval 20 "" = some (.ok v, m') ∧ v.text = "#<label entry0>" ∧ v.isPlain = false := by
  have hruns : ((Machine.new none).eval 20 "((lambda (x) x))").any (fun x =>
      x.1.toOption.isNone && (x.2.eval 20 "").any fun y => y.1.toOption.any fun v =>
        v.text == "#<label entry0>" && !v.isPlain) = true := by
    decide +kernel
  obtain ⟨⟨result, m⟩, hfails, hthen⟩ := (Option.any_eq_true _ _).mp hruns
  rw [Bool.and_eq_true] at hthen
  obtain ⟨hfailed, hthen⟩ := hthen
  obtain ⟨⟨result', m'⟩, hidle, hvalue⟩ := (Option.any_eq_true _ _).mp hthen
  obtain ⟨v, hv, hleak⟩ := (Option.any_eq_true _ _).mp hvalue
  rw [Bool.and_eq_true, beq_iff_eq, Bool.not_eq_true'] at hleak
  cases result with
  | ok v => cases hfailed
  | error e =>
      obtain rfl : result' = .ok v := eq_ok_of_toOption hv
      exact ⟨e, m, v, m', hfails, hidle, hleak⟩

end Machine
end SchemeMachine
