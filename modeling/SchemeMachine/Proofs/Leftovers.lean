import SchemeMachine.Proofs.Correctness
import SchemeMachine.Proofs.Registers.Tandem

/-!
# Leftovers do not matter

What earlier evaluations have left in the registers and on the save stack has no bearing on the
next.  Two machines with the same store and the same limit evaluate a text to the same result and
with the same changes to the store, whatever else they hold, and a value leaves either save stack as
it was.

The runs of both machines go on in tandem: they take the same steps, so that the limit stops both or
neither.
-/

namespace SchemeMachine

/-! ## Steps within the limit -/

namespace Machine

variable {m : Machine} {c : Control} {calls : Calls}

theorem step_of_next_finished (hquota : m.tick.exceeded? = none) {stack : Array Value}
    {store : Store} {outcome : Except RunError Value}
    (h : (m.scene c calls).next = .finished stack store outcome) :
    ∃ m', step c m = .finished m' outcome ∧ m'.stack = stack ∧ m'.store = store := by
  rw [← Watched.next_stage hquota, Watched.stage, Watched.next] at h
  dsimp only at h
  cases hstep : step c m with
  | running m' c' =>
      rw [hstep] at h
      cases h
  | finished m' outcome' =>
      rw [hstep] at h
      cases h
      exact ⟨m', rfl, rfl, rfl⟩

theorem step_of_next_running (hquota : m.tick.exceeded? = none) {t : Scene}
    (h : (m.scene c calls).next = .running t) :
    ∃ m' c' calls', step c m = .running m' c' ∧ t = m'.scene c' calls' ∧
      m'.maxSteps = m.maxSteps ∧ m'.stats.steps = m.stats.steps + 1 := by
  rw [← Watched.next_stage hquota, Watched.stage, Watched.next] at h
  dsimp only at h
  have hcount : (step c m).quota = (m.maxSteps, m.stats.steps + 1) := by
    simp only [step, hquota]
    exact advance_quota c m.tick
  cases hstep : step c m with
  | finished m' outcome =>
      rw [hstep] at h
      cases h
  | running m' c' =>
      rw [hstep] at h hcount
      cases h
      obtain ⟨hmax, hsteps⟩ := Prod.mk.inj hcount
      exact ⟨m', c', _, rfl, rfl, hmax, hsteps⟩

theorem runWithin_finished (fuel : Nat) (m : Machine) (outcome : Except RunError Value) :
    runWithin fuel (.finished m outcome) = some (outcome, m) := by
  cases fuel <;> rfl

/-- What two runs come to that have begun with the save stacks `stack` and `stack'`: the same result
and the same store, and the save stacks as they were if the result is a value. -/
structure EndAlike {ε : Type} (stack stack' : Array Value) (x x' : Except ε Value × Machine) :
    Prop where
  result : x'.1 = x.1
  store : x'.2.store = x.2.store
  saves : ∀ v, x.1 = .ok v → x.2.stack = stack ∧ x'.2.stack = stack'

theorem EndAlike.error {ε : Type} {stack stack' : Array Value} {e : ε} {m m' : Machine}
    (h : m'.store = m.store) : EndAlike stack stack' (.error e, m) (.error e, m') := by
  refine ⟨rfl, h, ?_⟩
  intro v hv
  cases hv

end Machine

/-- By induction on the steps, machines whose runs go on in tandem come to the same. -/
theorem Tandem.runWithin_alike {home v : Visit} {known modifies : RegisterSet}
    {here : List Statement} {gives : List Register} {position : Nat}
    (hfalls : home.ending = .falls [] modifies gives) (hval : .val ∈ gives) (fuel : Nat)
    {m m' : Machine} {c c' : Control} {calls calls' : Calls}
    (h : Tandem home known v here position (m.scene c calls) (m'.scene c' calls'))
    (hmax : m'.maxSteps = m.maxSteps) (hsteps : m'.stats.steps = m.stats.steps) :
    Option.Rel (Machine.EndAlike home.base home.base') (Machine.runWithin fuel (.running m c))
      (Machine.runWithin fuel (.running m' c')) := by
  induction fuel generalizing known v here position m m' c c' calls calls' with
  | zero => exact .none
  | succ fuel ih =>
      have hexceeded' : m'.tick.exceeded? = m.tick.exceeded? := by
        have hlimit : m'.tick.maxSteps = m.tick.maxSteps := hmax
        have hcount : m'.tick.stats.steps = m.tick.stats.steps := congrArg (· + 1) hsteps
        rw [Machine.exceeded?, Machine.exceeded?, hlimit, hcount]
      rw [Machine.runWithin, Machine.runWithin]
      cases hexceeded : m.tick.exceeded? with
      | some limit =>
          rw [Machine.step, Machine.step, hexceeded', hexceeded]
          simp only [Machine.runWithin_finished]
          exact .some (.error h.agree.store)
      | none =>
          rw [hexceeded] at hexceeded'
          rcases h.step hfalls with ⟨rfl, hempty, -⟩ | hfail | hstep
          · -- The code has come to its end, where the program halts.
            have harrived := h.arrived hfalls hempty
            obtain ⟨m₁, hstep, hstack, hstore⟩ :=
              Machine.step_of_next_finished hexceeded (Scene.next_halt h.control)
            obtain ⟨m₁', hstep', hstack', hstore'⟩ := Machine.step_of_next_finished hexceeded'
              (Scene.next_halt (h.agree.control.trans h.control))
            rw [hstep, hstep', Machine.runWithin_finished, Machine.runWithin_finished]
            refine .some ⟨?_, ?_, fun _ _ => ⟨?_, ?_⟩⟩
            · exact congrArg Except.ok (harrived.given .val hval)
            · exact hstore'.trans (harrived.store.trans hstore.symm)
            · exact hstack.trans harrived.stack.1
            · exact hstack'.trans harrived.stack.2
          · obtain ⟨e, store, hnext, hnext'⟩ := hfail
            obtain ⟨m₁, hstep, -, hstore⟩ := Machine.step_of_next_finished hexceeded hnext
            obtain ⟨m₁', hstep', -, hstore'⟩ := Machine.step_of_next_finished hexceeded' hnext'
            rw [hstep, hstep', Machine.runWithin_finished, Machine.runWithin_finished]
            exact .some (.error (hstore'.trans hstore.symm))
          · obtain ⟨t, t', known', v', here', hnext, hnext', -, htandem⟩ := hstep
            obtain ⟨m₁, c₁, calls₁, hstep, rfl, hmax₁, hsteps₁⟩ :=
              Machine.step_of_next_running hexceeded hnext
            obtain ⟨m₁', c₁', calls₁', hstep', rfl, hmax₁', hsteps₁'⟩ :=
              Machine.step_of_next_running hexceeded' hnext'
            rw [hstep, hstep']
            exact ih htandem (by rw [hmax₁', hmax₁, hmax]) (by rw [hsteps₁', hsteps₁, hsteps])

namespace Machine

variable {m m' : Machine}

/-- Executing the program of some forms comes to the same on machines that have the same store and
limit. -/
theorem execute_alike (hlimit : m'.maxSteps = m.maxSteps) (hstore : m'.store = m.store)
    (hcompiled : m.store.Compiled) {forms : List Datum} (hne : forms ≠ []) {n n' : Nat}
    {code : Sequence} (hcode : Expression.compileProgram forms n = .ok code n') {p : Program}
    (hp : Program.assemble code.statements = .ok p) (fuel : Nat) :
    Option.Rel (EndAlike m.stack m'.stack) (m.execute fuel p) (m'.execute fuel p) := by
  have hdisciplined := Expression.compileSequence_orderly hne (Or.inl rfl) hcode
  have hat : (m.site hp).At 0 (code.statements ++ []) := by
    rw [List.append_nil]
    exact Site.at_length (List.nil_append _)
  have hagree : (m.opening hp).Agree code.needs (m'.opening hp) := by
    refine ⟨?_, ?_, hcompiled, ?_, ?_⟩
    · simp only [opening, scene, site, hstore]
    · simp only [opening, scene, loaded, hstore]
    · -- The only register that the program may need is `env`, which loading sets.
      intro r hr
      obtain rfl := List.mem_singleton.mp (hdisciplined.asked r hr)
      rfl
    · intro r hr henv
      exact absurd (List.mem_singleton.mp (hdisciplined.asked r hr)) henv
  have hbegun := Tandem.begun hat (hdisciplined.keeps_through []) (by simp [opening, scene]) rfl rfl
    hagree
  have halike := hbegun.runWithin_alike rfl List.mem_cons_self fuel hlimit rfl
  rw [execute, execute, start_eq m hp, start_eq m' hp]
  generalize runWithin fuel (.running m.loaded _) = x at halike ⊢
  generalize runWithin fuel (.running m'.loaded _) = x' at halike ⊢
  cases halike with
  | none => exact .none
  | @some x x' h =>
      obtain ⟨outcome, m₁⟩ := x
      obtain ⟨outcome', m₁'⟩ := x'
      obtain rfl : outcome' = outcome := h.result
      cases outcome' with
      | ok v => exact .some ⟨rfl, h.store, h.saves⟩
      | error e => exact .some (.error h.store)

/-- Evaluating a text with forms comes to the same on machines that have the same store and limit,
whatever is in their registers and on their save stacks. -/
theorem eval_ignores_leftovers (hlimit : m'.maxSteps = m.maxSteps) (hstore : m'.store = m.store)
    (hcompiled : m.store.Compiled) {source : String} (hforms : Datum.parse source ≠ .ok [])
    (fuel : Nat) :
    Option.Rel (EndAlike m.stack m'.stack) (m.eval fuel source) (m'.eval fuel source) := by
  unfold eval
  cases hp : Program.ofText source with
  | error e => exact .some (.error hstore)
  | ok p =>
      obtain ⟨forms, code, n, hparse, hcode, hassemble⟩ := Program.ofText_eq_ok hp
      have hne : forms ≠ [] := by
        rintro rfl
        exact hforms hparse
      have halike := execute_alike hlimit hstore hcompiled hne hcode hassemble fuel
      simp only
      generalize m.execute fuel p = x at halike ⊢
      generalize m'.execute fuel p = x' at halike ⊢
      cases halike with
      | none => exact .none
      | @some x x' h =>
          obtain ⟨outcome, m₁⟩ := x
          obtain ⟨outcome', m₁'⟩ := x'
          obtain rfl : outcome' = outcome := h.result
          cases outcome' with
          | ok v => exact .some ⟨rfl, h.store, fun _ _ => h.saves v rfl⟩
          | error e => exact .some (.error h.store)

/-- A procedure that was defined before is called, on a machine that holds what the definition has
left and on one with other registers and something saved. -/
theorem defined_call_ignores_leftovers :
    ∃ result m x x', (Machine.new (some 100)).eval 100 "(define (f x) (+ x 1))" = some (result, m) ∧
      m.eval 100 "(f 41)" = some x ∧
      eval 100 { m with registers := .blank, stack := #[.boolean true] } "(f 41)" = some x' ∧
      x.1 = .ok (.number (.int 42)) ∧ EndAlike m.stack #[.boolean true] x x' := by
  have hruns : ((Machine.new (some 100)).eval 100 "(define (f x) (+ x 1))").any (fun y =>
      (y.2.eval 100 "(f 41)").any fun x => x.1.toOption.any (Value.isInt 42)) = true := by
    decide +kernel
  have hforms : (Datum.parse "(f 41)").toOption.any (fun forms => !forms.isEmpty) = true := by
    decide +kernel
  obtain ⟨⟨result, m⟩, hdefine, hcall⟩ := (Option.any_eq_true _ _).mp hruns
  obtain ⟨x, hx, hvalue⟩ := (Option.any_eq_true _ _).mp hcall
  obtain ⟨v, hv, hint⟩ := (Option.any_eq_true _ _).mp hvalue
  obtain ⟨W, w, hrep⟩ := ((Driven.new (some 100)).eval hdefine).atRest.represented
  have hne : Datum.parse "(f 41)" ≠ .ok [] := by
    intro hparse
    simp [hparse, Except.toOption] at hforms
  let other : Machine := { m with registers := .blank, stack := #[.boolean true] }
  have hlimit : other.maxSteps = m.maxSteps := rfl
  have hstore : other.store = m.store := rfl
  have halike := eval_ignores_leftovers hlimit hstore hrep.compiled hne 100
  rw [hx] at halike
  generalize hx' : other.eval 100 "(f 41)" = y' at halike
  cases halike with
  | @some _ x' halike =>
      rw [Value.eq_of_isInt hint] at hv
      exact ⟨result, m, x, x', hdefine, hx, hx', eq_ok_of_toOption hv, halike⟩

end Machine
end SchemeMachine
