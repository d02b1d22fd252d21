import SchemeMachine.Proofs.Registers.Tandem

/-!
# What a sequence says of its registers is true

A sequence comes with the registers that it needs and those that it modifies.  Nothing else depends
on what was in the other registers, and nothing else is changed: run from its first statement until
control falls off its end, the code of an expression leaves the save stack and the registers that it
does not modify as they were.  Two runs that have the same store and the same contents of the needed
registers end alike, whatever is in the other registers and on the save stack.
-/

namespace SchemeMachine

/-- A scene before some statements of a site, with no call under way. -/
def Site.scene (site : Site) (ahead : List Statement) (registers : Registers) (stack : Array Value)
    (store : Store) : Scene :=
  ⟨registers, stack, store, site.before ahead, ⟨false, []⟩⟩

/-- Runs the statements of a sequence where they stand in a site, between `pre` and `rest`, until
control first falls off their end in the same activation. -/
def Sequence.runIn (code : Sequence) (site : Site) (pre rest : List Statement) (fuel : Nat)
    (registers : Registers) (stack : Array Value) (store : Store) : Option Stage :=
  site.runTo (pre.length + code.statements.length) fuel
    (site.scene (code.statements ++ rest) registers stack store) pre.length

/-- How two runs of a sequence end that have begun with the registers `rs` and `rs'` and the save
stacks `stack` and `stack'`.  Both fall off the end of the sequence, to `beyond`, or both fail. -/
inductive Stage.EndAlike (modifies : RegisterSet) (beyond : Control) (rs rs' : Registers)
    (stack stack' : Array Value) : Stage → Stage → Prop
  | arrived {t t' : Scene} (control : t.control = beyond ∧ t'.control = beyond)
      (saves : t.stack = stack ∧ t'.stack = stack')
      (kept : ∀ r, modifies.contains r = false →
        t.registers.get r = rs.get r ∧ t'.registers.get r = rs'.get r)
      (store : t'.store = t.store)
      (same : ∀ r, t'.registers.get r = t.registers.get r ∨
        t.registers.get r = rs.get r ∧ t'.registers.get r = rs'.get r) :
      EndAlike modifies beyond rs rs' stack stack' (.running t) (.running t')
  | failed (left left' : Array Value) (store : Store) (e : RunError) :
      EndAlike modifies beyond rs rs' stack stack' (.finished left store (.error e))
        (.finished left' store (.error e))

namespace Tandem

variable {home v : Visit} {known modifies : RegisterSet} {here goal : List Statement}
  {gives : List Register} {position stop : Nat} {s s' : Scene}

/-- Where a run stands in the outermost activation, the position tells the statements ahead. -/
theorem stopped_iff (hstop : home.site.At stop goal) (h : Tandem home known v here position s s') :
    (s.calls.activations.isEmpty && position == stop) = true ↔
      s.calls.activations = [] ∧ here = goal := by
  rw [Bool.and_eq_true, List.isEmpty_iff, beq_iff_eq]
  refine and_congr_right fun hempty => ?_
  obtain ⟨-, -, hat⟩ := h.callers.home_of_nil hempty
  constructor
  · rintro rfl
    exact hat.drop.symm.trans hstop.drop
  · rintro rfl
    exact hat.unique hstop

/-- By induction on the steps, runs in tandem end alike. -/
theorem runTo_alike (hfalls : home.ending = .falls goal modifies gives)
    (hstop : home.site.At stop goal) (fuel : Nat) (h : Tandem home known v here position s s') :
    Option.Rel (Stage.EndAlike modifies (home.site.before goal) home.registers home.registers'
        home.base home.base')
      (home.site.runTo stop fuel s position) (home.site.runTo stop fuel s' position) := by
  induction fuel generalizing known v here position s s' with
  | zero => exact .none
  | succ fuel ih =>
      have hempty : s'.calls.activations.isEmpty = s.calls.activations.isEmpty :=
        h.callers.isEmpty_eq
      rw [Site.runTo, Site.runTo, hempty]
      by_cases hdone : (s.calls.activations.isEmpty && position == stop) = true
      · obtain ⟨hnone, rfl⟩ := (h.stopped_iff hstop).mp hdone
        rw [if_pos hdone, if_pos hdone]
        have harrived := h.arrived hfalls hnone
        obtain ⟨rfl, -⟩ := h.callers.home_of_nil hnone
        exact .some (.arrived ⟨h.control, h.agree.control.trans h.control⟩ harrived.stack
          harrived.kept harrived.store harrived.same)
      · rw [if_neg hdone, if_neg hdone]
        rcases h.step hfalls with ⟨hgoal, hnone, -⟩ | hfail | hstep
        · exact absurd ((h.stopped_iff hstop).mpr ⟨hnone, hgoal⟩) hdone
        · obtain ⟨e, store, hnext, hnext'⟩ := hfail
          rw [hnext, hnext']
          exact .some (.failed _ _ store e)
        · obtain ⟨t, t', known', v', here', hnext, hnext', hfollow, htandem⟩ := hstep
          rw [hnext, hnext']
          simp only
          rw [hfollow]
          exact ih htandem

end Tandem

/-- The code of an expression depends on no registers but those it needs and changes none but those
it modifies.  Wherever it stands in a site, two runs of it in one store whose procedures were compiled
end alike if the needed registers hold the same in both; a single run is the case that both begin
alike. -/
theorem Expression.compile_registers_sound {d : Datum} {target : Register} {n n' : Nat}
    {code : Sequence} (htarget : target.IsTarget)
    (hcode : compile target .next (ofDatum d) n = .ok code n') {site : Site}
    {pre rest : List Statement} (hsite : pre ++ (code.statements ++ rest) = site.statements)
    {store : Store} (hstore : store.Compiled) {rs rs' : Registers}
    (hneeds : ∀ r, code.needs.contains r = true → rs'.get r = rs.get r)
    (stack stack' : Array Value) (fuel : Nat) :
    Option.Rel (Stage.EndAlike code.modifies (site.before rest) rs rs' stack stack')
      (code.runIn site pre rest fuel rs stack store)
      (code.runIn site pre rest fuel rs' stack' store) := by
  have hdisciplined := (proper_ofDatum d).orderly htarget hcode
  have hstop : site.At (pre.length + code.statements.length) rest := by
    rw [← List.length_append]
    exact Site.at_length (by rw [List.append_assoc]; exact hsite)
  have hagree : (site.scene (code.statements ++ rest) rs stack store).Agree code.needs
      (site.scene (code.statements ++ rest) rs' stack' store) := by
    refine ⟨rfl, rfl, hstore, hneeds, ?_⟩
    -- The only register that an expression may need is `env`.
    intro r hr henv
    exact absurd (List.mem_singleton.mp (hdisciplined.asked r hr)) henv
  have hbegun := Tandem.begun (Site.at_length hsite) (hdisciplined.keeps_through rest) rfl rfl rfl
    hagree
  exact hbegun.runTo_alike rfl hstop fuel

/-- Whether a run has not come to its end. -/
def Stage.isRunning : Stage → Bool
  | running _ => true
  | finished _ _ _ => false

/-- Registers with the global environment and the same value everywhere else. -/
def Registers.filled (v : Value) : Registers :=
  ⟨.environment Machine.global, v, v, v, v, v⟩

/-- An operand that calls a procedure, with registers saved meanwhile.  Both runs arrive. -/
theorem Expression.nested_call_registers_sound :
    ∃ d code n site t t', Datum.parse "(+ 1 ((lambda (x) x) 5))" = .ok [d] ∧
      compile .val .next (ofDatum d) 0 = .ok code n ∧ site.statements = code.statements ∧
      code.runIn site [] [] 60 (.filled (.boolean true)) #[] (Machine.new none).store =
        some (.running t) ∧
      code.runIn site [] [] 60 (.filled (.boolean false)) #[.boolean true]
        (Machine.new none).store = some (.running t') ∧
      Stage.EndAlike code.modifies (site.before []) (.filled (.boolean true))
        (.filled (.boolean false)) #[] #[.boolean true] (.running t) (.running t') := by
  have hruns : ((Datum.parse "(+ 1 ((lambda (x) x) 5))").toOption.any fun forms =>
      forms.head?.any fun d => forms.tail.isEmpty &&
        (Compile.made? (compile .val .next (ofDatum d) 0)).any fun code =>
          decide (code.needs = .ofList [.env]) &&
          (Program.assemble code.statements).toOption.attach.any fun p =>
            (code.runIn ⟨⟨0, p.1⟩, code.statements, eq_ok_of_toOption p.2⟩ [] [] 60
              (.filled (.boolean true)) #[] (Machine.new none).store).any
                Stage.isRunning) = true := by
    decide +kernel
  obtain ⟨forms, hparse, hruns⟩ := (Option.any_eq_true _ _).mp hruns
  obtain ⟨d, hd, hruns⟩ := (Option.any_eq_true _ _).mp hruns
  obtain ⟨hsingle, hruns⟩ := (Bool.and_eq_true _ _).mp hruns
  obtain ⟨code, hmade, hruns⟩ := (Option.any_eq_true _ _).mp hruns
  obtain ⟨hneeds, hruns⟩ := (Bool.and_eq_true _ _).mp hruns
  obtain ⟨p, -, hruns⟩ := (Option.any_eq_true _ _).mp hruns
  obtain ⟨stage, hstage, hrunning⟩ := (Option.any_eq_true _ _).mp hruns
  obtain rfl : forms = [d] := by
    obtain ⟨rest, rfl⟩ := List.head?_eq_some_iff.mp hd
    rw [List.tail_cons, List.isEmpty_iff] at hsingle
    rw [hsingle]
  obtain ⟨n, hcode⟩ := Compile.eq_ok_of_made? hmade
  let site : Site := ⟨⟨0, p.1⟩, code.statements, eq_ok_of_toOption p.2⟩
  have hsite : [] ++ (code.statements ++ []) = site.statements := by simp [site]
  have hagree : ∀ r, code.needs.contains r = true →
      (Registers.filled (.boolean false)).get r = (Registers.filled (.boolean true)).get r := by
    intro r hr
    rw [of_decide_eq_true hneeds] at hr
    obtain rfl : r = .env := by simpa using hr
    rfl
  have halike := compile_registers_sound (Or.inl rfl) hcode hsite (represents_new none).compiled
    hagree #[] #[.boolean true] 60
  rw [hstage] at halike
  generalize hrun' : code.runIn site [] [] 60 (.filled (.boolean false)) #[.boolean true]
    (Machine.new none).store = run' at halike
  cases halike with
  | @some _ stage' halike =>
      cases halike with
      | @arrived t t' control saves kept store same =>
          exact ⟨d, code, n, site, t, t', eq_ok_of_toOption hparse, hcode, rfl, hstage, hrun',
            .arrived control saves kept store same⟩
      | failed => cases hrunning

end SchemeMachine
