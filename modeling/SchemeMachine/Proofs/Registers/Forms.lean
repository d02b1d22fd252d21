import SchemeMachine.Proofs.Registers.Discipline
import SchemeMachine.Proofs.Simulation.Forms

/-!
# Compiled code keeps to its register use

One rule for each way in which the compiler puts code together, then one for each form of
expression.  The code of an expression asks for `env` alone, and for `kontinue` if it is to return,
and makes its target known.

The bodies of procedures are not followed where the procedures are made: that their code stands
among the statements is enough, and it is followed when they are entered.
-/

namespace SchemeMachine
namespace Expression

open Sequence

variable {target : Register} {linkage : Linkage}

theorem constantCode_disciplined (value : Constant) (htarget : target.IsTarget)
    (linkage : Linkage) :
    (constantCode value target linkage).Disciplined (.env :: linkage.asks) [target] linkage := by
  have hassign : (of [] [target] [.assign target (.const value)]).Disciplined [] [target] .next :=
    assign_disciplined (by simp [Operand.reads]) fun _ => htarget.ne_kontinue
  have hweak : (of [] [target] [.assign target (.const value)]).Disciplined [.env] [target] .next :=
    hassign.weaken (by simp)
  exact hweak.after htarget linkage

theorem variableCode_disciplined (name : String) (htarget : target.IsTarget) (linkage : Linkage) :
    (variableCode name target linkage).Disciplined (.env :: linkage.asks) [target] linkage := by
  have hassign : (of [.env] [target] [.assign target (.lookup name)]).Disciplined [.env] [target]
      .next :=
    assign_disciplined (by simp [Operand.reads]) fun _ => htarget.ne_kontinue
  exact hassign.after htarget linkage

/-- Storing `val` under a name. -/
theorem store_disciplined {store : Operation Label} (hplain : ∀ rest, store.Plain rest)
    (hreads : store.reads = .ofList [.env, .val]) (hwrites : store.writes = .none)
    (htarget : target.IsTarget) :
    (of [.env, .val] [target] [.perform store, .assign target (.const (.symbol "ok"))]).Disciplined
      [.env, .val] [target] .next := by
  refine ⟨by simp [of], by simp [of], ?_⟩
  intro ending c rest hknown honward
  have hwrote : c.wrote .none = c := by
    obtain ⟨⟨_, _, _, _, _, _⟩, ⟨_, _, _, _, _, _⟩, saved⟩ := c
    simp [Context.wrote, RegisterSet.union, RegisterSet.diff, RegisterSet.ofPred,
      RegisterSet.contains, RegisterSet.none]
  refine .perform (hplain _) ?_ (.perform htarget.ne_kontinue ?_ ?_)
  · rw [hreads]
    exact hknown
  · simp [Operation.reads, Operand.reads]
  · rw [hwrites, hwrote]
    exact honward _ (c.becomes_wrote [target])

theorem storeCode_disciplined (store : Operation Label) (hplain : ∀ rest, store.Plain rest)
    (hreads : store.reads = .ofList [.env, .val]) (hwrites : store.writes = .none)
    {value : Sequence} (hvalue : value.Disciplined [.env] [.val] .next) (htarget : target.IsTarget)
    (linkage : Linkage) :
    (storeCode store value target linkage).Disciplined (.env :: linkage.asks) [target] linkage := by
  have hstore := store_disciplined hplain hreads hwrites htarget
  have hboth : (preserving [.env] value (of [.env, .val] [target]
      [.perform store, .assign target (.const (.symbol "ok"))])).Disciplined
        [.env] [target] .next :=
    hvalue.preserving hstore (by simp) (by simp) (by simp) (by simp)
  exact hboth.after htarget linkage

/-- Code for one expression and then others. -/
theorem sequence_disciplined {first rest : Sequence}
    (hfirst : first.Disciplined [.env] [.val] .next)
    (hrest : rest.Disciplined (.env :: linkage.asks) [target] linkage) :
    (preserving [.env, .kontinue] first rest).Disciplined (.env :: linkage.asks) [target]
      linkage := by
  refine hfirst.preserving hrest (by simp) ?_ (by simp) (by simp)
  cases linkage <;> simp [Linkage.asks]

/-! ## Arguments -/

theorem consNext_disciplined {code : Sequence} (h : code.Disciplined [.env] [.val] .next) :
    (restArguments.consNext code).Disciplined [.env, .argl] [.argl] .next := by
  have hcons : (of [.val, .argl] [.argl] [.assign .argl .consArg]).Disciplined [.val, .argl] [.argl]
      .next :=
    assign_disciplined (by simp [Operand.reads]) fun _ => by simp [Operation.Plain]
  exact h.preserving hcons (by simp) (by simp) (by simp) (by simp)

theorem restArguments_disciplined {codes : List Sequence}
    (h : ∀ code ∈ codes, code.Disciplined [.env] [.val] .next) (hne : codes ≠ []) :
    (restArguments codes).Disciplined [.env, .argl] [.argl] .next := by
  induction codes with
  | nil => exact absurd rfl hne
  | cons code codes ih =>
      have hhead := consNext_disciplined (h code List.mem_cons_self)
      cases codes with
      | nil => exact hhead
      | cons code' codes =>
          have htail := ih (fun code hcode => h code (List.mem_cons_of_mem _ hcode))
            (List.cons_ne_nil _ _)
          exact hhead.preserving htail (by simp) (by simp) (by simp) (by simp)

/-- Code that makes the argument list. -/
theorem argumentCode_disciplined {codes : List Sequence}
    (h : ∀ code ∈ codes, code.Disciplined [.env] [.val] .next) :
    (argumentCode codes).Disciplined [.env] [.argl] .next := by
  have hreverse : ∀ code ∈ codes.reverse, code.Disciplined [.env] [.val] .next :=
    fun code hcode => h code (List.mem_reverse.mp hcode)
  unfold argumentCode
  generalize codes.reverse = codes at hreverse ⊢
  cases codes with
  | nil =>
      have hempty : (of [] [.argl] [.assign .argl (.const .empty)]).Disciplined [] [.argl] .next :=
        assign_disciplined (by simp [Operand.reads]) fun _ => by simp [Operation.Plain]
      exact hempty.weaken (by simp)
  | cons last before =>
      have hlist : (of [.val] [.argl] [.assign .argl .listArg]).Disciplined [.val] [.argl] .next :=
        assign_disciplined (by simp [Operand.reads]) fun _ => by simp [Operation.Plain]
      -- Without other arguments nothing has to be kept, which is preserving no registers.
      have hsingle : (preserving [] last (of [.val] [.argl] [.assign .argl .listArg])).Disciplined
          [.env] [.argl] .next :=
        (hreverse last List.mem_cons_self).preserving hlist (by simp) (by simp) (by simp) (by simp)
      simp only
      cases before with
      | nil => exact hsingle
      | cons code codes =>
          have hrest := restArguments_disciplined
            (fun code hcode => hreverse code (List.mem_cons_of_mem _ hcode)) (List.cons_ne_nil _ _)
          exact hsingle.preserving hrest (by simp) (by simp) (by simp) (by simp)

/-! ## Choosing between two codes -/

/-- A test, after which either of two codes may be run. -/
theorem fork_keeps {ending : Ending} {c : Context} {test : Operation Label} {reads : Register}
    {firstLabel secondLabel after : Label} {first second : Sequence} {rest : List Statement}
    (hplain : ∀ rest, test.Plain rest) (hreads : test.reads = .ofList [reads])
    (hwrites : test.writes = .ofList [.flag]) (hknown : c.known.contains reads = true)
    (hfirst : Keeps ending (c.wrote (.ofList [.flag]))
      (first.statements ++ .label secondLabel :: (second.statements ++ .label after :: rest)))
    (hsecond : Keeps ending (c.wrote (.ofList [.flag]))
      (second.statements ++ .label after :: rest)) :
    Keeps ending c
      ((fork test reads firstLabel secondLabel after first second).statements ++ rest) := by
  have hstatements : (fork test reads firstLabel secondLabel after first second).statements ++
      rest = .perform test :: .perform (.branch secondLabel) :: .label firstLabel ::
        (first.statements ++ .label secondLabel ::
          (second.statements ++ .label after :: rest)) := by
    simp [fork_statements_eq]
  rw [hstatements]
  refine .perform (hplain _) ?_ ?_
  · intro r hr
    rw [hreads, RegisterSet.contains_ofList, List.contains_iff_mem, List.mem_singleton] at hr
    rw [hr]
    exact hknown
  · rw [hwrites]
    refine .branch (by simp [Context.wrote]) ?_ hsecond (.label hfirst)
    exact (List.suffix_append _ _).trans (List.suffix_cons _ _)

/-- Where a fork leads, both of its codes lead, the first by jumping over the second. -/
theorem fork_proceeds {ending : Ending} {c : Context} (test : Operation Label) (reads : Register)
    (firstLabel secondLabel : Label) {after : Label} {first second : Sequence}
    {rest : List Statement} {gives : List Register}
    (h : linkage.Proceeds ending
      (fork test reads firstLabel secondLabel after first second).needs
      (fork test reads firstLabel secondLabel after first second).modifies gives c rest) :
    (linkage.orLabel after).Proceeds ending first.needs first.modifies gives
        (c.wrote (.ofList [.flag]))
        (.label secondLabel :: (second.statements ++ .label after :: rest)) ∧
      linkage.Proceeds ending second.needs second.modifies gives (c.wrote (.ofList [.flag]))
        (.label after :: rest) := by
  have hmodifies : ∀ r, (fork test reads firstLabel secondLabel after first
      second).modifies.contains r = false → (RegisterSet.ofList [.flag]).contains r = false ∧
        first.modifies.contains r = false ∧ second.modifies.contains r = false := by
    intro r hr
    simpa [contains_modifies_fork] using hr
  refine ⟨?_, ?_⟩
  · have hfirst : linkage.Proceeds ending first.needs first.modifies gives
        (c.wrote (.ofList [.flag])) rest := by
      refine h.resume (c.becomes_wrote [.flag]) (fun r hr => ⟨(hmodifies r hr).1, ?_⟩)
        (fun r hr => Or.inr hr) fun _ hneeds => ⟨by simp [contains_needs_fork, hneeds], rfl⟩
      exact (hmodifies r hr).2.1
    exact hfirst.orLabel ((List.suffix_append _ _).trans (List.suffix_cons _ _))
  · have hsecond : linkage.Proceeds ending second.needs second.modifies gives
        (c.wrote (.ofList [.flag])) rest := by
      refine h.resume (c.becomes_wrote [.flag]) (fun r hr => ⟨(hmodifies r hr).1, ?_⟩)
        (fun r hr => Or.inr hr) fun _ hneeds => ⟨by simp [contains_needs_fork, hneeds], rfl⟩
      exact (hmodifies r hr).2.2
    exact hsecond.pastLabel after

/-- What a code needs is known in a fork once the test is made. -/
theorem fork_known {c : Context} {needs : RegisterSet} {registers : RegisterSet}
    (hknown : ∀ r, needs.contains r = true → c.known.contains r = true)
    (hneeds : ∀ r, r ≠ .flag → registers.contains r = true → needs.contains r = true) :
    ∀ r, registers.contains r = true → (c.wrote (.ofList [.flag])).known.contains r = true := by
  intro r hr
  by_cases hflag : r = .flag
  · simp [Context.wrote, hflag]
  · simp [Context.wrote, hknown r (hneeds r hflag hr)]

/-- Code for a conditional. -/
theorem conditionalCode_disciplined (trueBranch falseBranch afterIf : Label)
    {test consequent alternative : Sequence} (htest : test.Disciplined [.env] [.val] .next)
    (hconsequent : consequent.Disciplined (.env :: (linkage.orLabel afterIf).asks) [target]
      (linkage.orLabel afterIf))
    (halternative : alternative.Disciplined (.env :: linkage.asks) [target] linkage) :
    (conditionalCode trueBranch falseBranch afterIf test consequent alternative).Disciplined
      (.env :: linkage.asks) [target] linkage := by
  have hlinkage : (linkage.orLabel afterIf).asks = linkage.asks := by
    cases linkage <;> rfl
  rw [hlinkage] at hconsequent
  have hfork : (fork .testFalse .val trueBranch falseBranch afterIf consequent
      alternative).Disciplined (.val :: .env :: linkage.asks) [target] linkage := by
    refine ⟨?_, ?_, ?_⟩
    · intro r hr
      simp only [contains_needs_fork, Bool.or_eq_true, Bool.and_eq_true, decide_eq_true_eq] at hr
      rcases hr with rfl | ⟨hr | hr, -⟩
      · exact List.mem_cons_self
      · exact List.mem_cons_of_mem _ (hconsequent.asked r hr)
      · exact List.mem_cons_of_mem _ (halternative.asked r hr)
    · intro r hr
      simp [contains_modifies_fork, halternative.given r hr]
    · intro ending c rest hknown hproceeds
      obtain ⟨hfirst, hsecond⟩ := fork_proceeds _ _ _ _ hproceeds
      refine fork_keeps (fun _ => trivial) rfl rfl (hknown .val (by simp [contains_needs_fork]))
        (hconsequent.keeps (fork_known hknown ?_) hfirst)
        (halternative.keeps (fork_known hknown ?_) hsecond)
      · intro r hflag hr
        simp [contains_needs_fork, hr, hflag]
      · intro r hflag hr
        simp [contains_needs_fork, hr, hflag]
  refine htest.preserving hfork (by simp) ?_ (by simp) (by simp)
  cases linkage <;> simp [Linkage.asks]

/-! ## Procedures and calls -/

/-- Code that makes a procedure; the code of the procedure itself stands after it. -/
theorem lambdaCode_disciplined (procedure : Procedure) {body : Sequence} {n n' : Nat}
    (hbody : compileSequence .val .caller (procedure.body.map ofDatum) n = .ok body n')
    (hne : procedure.body ≠ []) (entry afterLambda : Label) (htarget : target.IsTarget)
    (linkage : Linkage) :
    (lambdaCode entry afterLambda procedure.formals body target linkage).Disciplined
      (.env :: linkage.asks) [target] linkage := by
  have hasks : (linkage.orLabel afterLambda).asks = linkage.asks := by
    cases linkage <;> rfl
  refine ⟨?_, ?_, ?_⟩
  · intro r hr
    simp only [lambdaCode, Linkage.after, preserving, protectFor_assign htarget, tackOn,
      contains_needs_append] at hr
    rw [← hasks]
    simp only [of, Sequence.label, RegisterSet.contains_ofList, Bool.or_eq_true,
      Bool.and_eq_true] at hr
    rcases hr with (hr | ⟨hr, -⟩) | hr
    · simp at hr
      simp [hr]
    · exact List.mem_cons_of_mem _ ((linkage_disciplined _).asked r hr)
    · simp at hr
  · intro r hr
    simp only [lambdaCode, Linkage.after, preserving, protectFor_assign htarget, tackOn, append]
    simp [of, hr]
  · intro ending c rest hknown hproceeds
    have henv := hknown .env
      (contains_needs_lambdaCode entry afterLambda _ body htarget linkage (Or.inl rfl))
    simp only [lambdaCode_statements_eq _ _ _ _ htarget, List.cons_append, List.append_assoc,
      List.nil_append]
    refine .perform ⟨htarget.ne_kontinue, procedure, body, _, n, n', hne, hbody,
      List.suffix_append _ _⟩ ?_ ?_
    · intro r hr
      simp only [Operation.reads, Operand.reads, RegisterSet.contains_ofList,
        List.contains_iff_mem, List.mem_singleton] at hr
      rw [hr]
      exact henv
    · have hwrote := c.becomes_wrote [target]
      refine (linkage_disciplined (linkage.orLabel afterLambda)).keeps ?_ ?_
      · intro r hr
        by_cases heq : r = target
        · exact hwrote.known r (Or.inr (by simp [heq]))
        · exact hwrote.known r (Or.inl (hknown r (contains_needs_lambdaCode entry afterLambda _ body
            htarget linkage (Or.inr ⟨heq, hr⟩))))
      · refine Linkage.Proceeds.orLabel (hproceeds.resume hwrote ?_ (fun r hr => Or.inl hr) ?_) ?_
        · intro r hr
          obtain ⟨hr, hmodifies⟩ := contains_modifies_lambdaCode _ _ _ _ htarget linkage hr
          exact ⟨by simp [hr], hmodifies⟩
        · intro _ hneeds
          refine ⟨contains_needs_lambdaCode _ _ _ _ htarget linkage
            (Or.inr ⟨htarget.ne_kontinue.symm, hneeds⟩), ?_⟩
          simp [htarget.ne_kontinue.symm]
        · exact (List.suffix_append _ _).trans ((List.suffix_cons _ _).trans
            ((List.suffix_cons _ _).trans (List.suffix_cons _ _)))

/-- Code that enters what is in `proc`, with the arguments in `argl`. -/
theorem enterCode_keeps (htarget : target.IsTarget) (hlinkage : linkage ≠ .next) {n n' : Nat}
    {code : Sequence} (hcode : enterCode target linkage.returnTo? n = .ok code n')
    {ending : Ending} {c : Context} {rest : List Statement}
    (hproc : c.known.contains .proc = true) (hargl : c.known.contains .argl = true)
    (hknown : ∀ r, code.needs.contains r = true → c.known.contains r = true)
    (hproceeds : linkage.Proceeds ending code.needs code.modifies [target] c rest) :
    Keeps ending c (code.statements ++ rest) := by
  have hreturned : c.Becomes .full [.val] c.returned := by
    refine ⟨?_, by simp, rfl⟩
    rintro r (hr | hr)
    · simp [Context.returned, hr]
    · simp [Context.returned, List.mem_singleton.mp hr]
  cases linkage with
  | next => exact absurd rfl hlinkage
  | caller =>
      rcases htarget with rfl | rfl
      · cases hcode
        obtain ⟨hending, hsaved, hintact⟩ := hproceeds
        exact .tailCall hending hsaved hproc hargl (hknown .kontinue rfl) (hintact rfl)
      · cases hcode
  | label name =>
      obtain ⟨dest, hdest, honward⟩ := hproceeds
      rcases htarget with rfl | rfl
      · cases hcode
        exact .call hproc hargl hdest (honward _ hreturned)
      · -- The procedure returns to a label of the call, where its value is moved to the target.
        cases hcode
        refine .call hproc hargl (List.suffix_refl _) (.perform (by simp [Operation.Plain]) ?_ ?_)
        · intro r hr
          simp only [Operation.reads, Operand.reads, RegisterSet.contains_ofList,
            List.contains_iff_mem, List.mem_singleton] at hr
          exact hreturned.known r (Or.inr (by simp [hr]))
        · refine .direct hdest (honward _ ?_)
          exact hreturned.trans (Context.becomes_wrote _ [.proc]) (by simp) fun r hr => Or.inr hr

theorem enterCode_asks (htarget : target.IsTarget) (hlinkage : linkage ≠ .next) {n n' : Nat}
    {code : Sequence} (hcode : enterCode target linkage.returnTo? n = .ok code n') (r : Register)
    (hr : code.needs.contains r = true) : r ∈ .proc :: linkage.asks := by
  cases linkage with
  | next => exact absurd rfl hlinkage
  | caller =>
      rcases htarget with rfl | rfl
      · cases hcode
        simpa [Linkage.asks] using hr
      · cases hcode
  | label name =>
      rcases htarget with rfl | rfl
      · cases hcode
        simpa [Linkage.asks] using hr
      · cases hcode
        simpa [Linkage.asks] using hr

/-- Code that applies what is in `proc` to the arguments in `argl`. -/
theorem callCode_disciplined (htarget : target.IsTarget) {n n' : Nat} {code : Sequence}
    (hcode : callCode target linkage n = .ok code n') :
    code.Disciplined (.proc :: .argl :: linkage.asks) [target] linkage := by
  obtain ⟨enter, henter, rfl⟩ := callCode_eq_ok hcode
  have hlinkage : linkage.orLabel (Compile.numbered "afterCall" (n + 2)) ≠ .next := by
    cases linkage <;> exact nofun
  have hasks : (linkage.orLabel (Compile.numbered "afterCall" (n + 2))).asks = linkage.asks := by
    cases linkage <;> rfl
  have hprimitive : (linkage.after
      (of [.proc, .argl] [target] [.assign target .applyPrimitive])).Disciplined
        ([.proc, .argl] ++ linkage.asks) [target] linkage := by
    have hassign : (of [.proc, .argl] [target] [.assign target .applyPrimitive]).Disciplined
        [.proc, .argl] [target] .next :=
      assign_disciplined (by simp [Operand.reads]) fun _ => htarget.ne_kontinue
    exact hassign.after htarget linkage
  have hargl : (linkage.after
      (of [.proc, .argl] [target] [.assign target .applyPrimitive])).needs.contains .argl =
        true := by
    simp only [Linkage.after, preserving, protectFor_assign htarget, contains_needs_append]
    simp [of]
  refine ⟨?_, ?_, ?_⟩
  · intro r hr
    simp only [contains_needs_fork, Bool.or_eq_true, Bool.and_eq_true, decide_eq_true_eq] at hr
    rcases hr with rfl | ⟨hr | hr, -⟩
    · exact List.mem_cons_self
    · have hasked := enterCode_asks htarget hlinkage henter r hr
      rw [hasks] at hasked
      rcases List.mem_cons.mp hasked with rfl | h
      · exact List.mem_cons_self
      · exact List.mem_cons_of_mem _ (List.mem_cons_of_mem _ h)
    · exact hprimitive.asked r hr
  · intro r hr
    simp [contains_modifies_fork, hprimitive.given r hr]
  · intro ending c rest hknown hproceeds
    obtain ⟨hfirst, hsecond⟩ := fork_proceeds _ _ _ _ hproceeds
    have hprocKnown := hknown .proc (by simp [contains_needs_fork])
    have harglKnown := hknown .argl (by simp [contains_needs_fork, hargl])
    refine fork_keeps (fun _ => trivial) rfl rfl hprocKnown
      (enterCode_keeps htarget hlinkage henter (by simp [Context.wrote, hprocKnown])
        (by simp [Context.wrote, harglKnown]) (fork_known hknown ?_) hfirst)
      (hprimitive.keeps (fork_known hknown ?_) hsecond)
    · intro r hflag hr
      simp [contains_needs_fork, hr, hflag]
    · intro r hflag hr
      simp [contains_needs_fork, hr, hflag]

/-- Code for an application. -/
theorem applicationCode_disciplined {operator call : Sequence} {operands : List Sequence}
    (hoperator : operator.Disciplined [.env] [.proc] .next)
    (hoperands : ∀ code ∈ operands, code.Disciplined [.env] [.val] .next)
    (hcall : call.Disciplined (.proc :: .argl :: linkage.asks) [target] linkage) :
    (applicationCode operator operands call).Disciplined (.env :: linkage.asks) [target]
      linkage := by
  have hrest : (preserving [.proc, .kontinue] (argumentCode operands) call).Disciplined
      (.env :: .proc :: linkage.asks) [target] linkage := by
    refine (argumentCode_disciplined hoperands).preserving hcall (by simp) ?_ (by simp) (by simp)
    cases linkage <;> simp [Linkage.asks]
  refine hoperator.preserving hrest (by simp) ?_ (by simp) (by simp)
  cases linkage <;> simp [Linkage.asks]

/-! ## Expressions -/

/-- Code for an expression keeps to its register use, for whatever target and linkage it was
compiled. -/
def Orderly (e : Expression) : Prop :=
  ∀ ⦃target : Register⦄ ⦃linkage : Linkage⦄ ⦃n : Nat⦄ ⦃code : Sequence⦄ ⦃n' : Nat⦄,
    target.IsTarget → compile target linkage e n = .ok code n' →
    code.Disciplined (.env :: linkage.asks) [target] linkage

namespace Orderly

theorem malformed (why : Malformed) : Orderly (.malformed why) := by
  intro target linkage n code n' htarget h
  rw [compile] at h
  cases h

theorem constant (value : Constant) : Orderly (.constant value) := by
  intro target linkage n code n' htarget h
  rw [compile] at h
  obtain ⟨rfl, rfl⟩ := Compile.pure_eq_ok h
  exact constantCode_disciplined value htarget linkage

theorem reference (name : String) : Orderly (.reference name) := by
  intro target linkage n code n' htarget h
  rw [compile] at h
  obtain ⟨rfl, rfl⟩ := Compile.pure_eq_ok h
  exact variableCode_disciplined name htarget linkage

theorem assignment (name : String) {value : Expression} (hvalue : Orderly value) :
    Orderly (.assignment name value) := by
  intro target linkage n code n' htarget h
  obtain ⟨valueCode, hcode, rfl⟩ := compile_assignment h
  exact storeCode_disciplined (.set name) (fun _ => trivial) rfl rfl
    (hvalue (Or.inl rfl) hcode) htarget linkage

theorem definition (name : String) {value : Expression} (hvalue : Orderly value) :
    Orderly (.definition name value) := by
  intro target linkage n code n' htarget h
  obtain ⟨valueCode, hcode, rfl⟩ := compile_definition h
  exact storeCode_disciplined (.define name) (fun _ => trivial) rfl rfl
    (hvalue (Or.inl rfl) hcode) htarget linkage

theorem conditional {test consequent alternative : Expression} (htest : Orderly test)
    (hconsequent : Orderly consequent) (halternative : Orderly alternative) :
    Orderly (.conditional test consequent alternative) := by
  intro target linkage n code n' htarget h
  obtain ⟨t, c, a, m, m', ht, hc, ha, rfl⟩ := compile_conditional h
  exact conditionalCode_disciplined _ _ _ (htest (Or.inl rfl) ht) (hconsequent htarget hc)
    (halternative htarget ha)

theorem lambda (formals : List String) {body : List Datum} (hne : body ≠ []) :
    Orderly (.lambda formals (body.map ofDatum)) := by
  intro target linkage n code n' htarget h
  obtain ⟨bodyCode, hbody, rfl⟩ := compile_lambda h
  exact lambdaCode_disciplined ⟨formals, body⟩ hbody hne _ _ htarget linkage

/-- Expressions one after the other. -/
theorem compileSequence_disciplined {es : List Expression} (h : ∀ e ∈ es, Orderly e)
    (hne : es ≠ []) {target : Register} {linkage : Linkage} {n n' : Nat} {code : Sequence}
    (htarget : target.IsTarget) (hcode : compileSequence target linkage es n = .ok code n') :
    code.Disciplined (.env :: linkage.asks) [target] linkage := by
  induction es generalizing n code with
  | nil => exact absurd rfl hne
  | cons e es ih =>
      have hhead := h e List.mem_cons_self
      cases es with
      | nil =>
          rw [compileSequence] at hcode
          exact hhead htarget hcode
      | cons e' es =>
          obtain ⟨first, rest, m, hfirst, hrest, rfl⟩ := compileSequence_cons hcode
          exact sequence_disciplined (hhead (Or.inl rfl) hfirst)
            (ih (fun e he => h e (List.mem_cons_of_mem _ he)) (List.cons_ne_nil _ _) hrest)

theorem sequence {es : List Expression} (h : ∀ e ∈ es, Orderly e) (hne : es ≠ []) :
    Orderly (.sequence es) := by
  intro target linkage n code n' htarget hcode
  rw [compile] at hcode
  exact compileSequence_disciplined h hne htarget hcode

theorem compileOperands_disciplined {es : List Expression} (h : ∀ e ∈ es, Orderly e) {n n' : Nat}
    {codes : List Sequence} (hcodes : compileOperands es n = .ok codes n') :
    ∀ code ∈ codes, code.Disciplined [.env] [.val] .next := by
  induction es generalizing n codes with
  | nil =>
      rw [compileOperands] at hcodes
      obtain ⟨rfl, rfl⟩ := Compile.pure_eq_ok hcodes
      intro code hcode
      cases hcode
  | cons e es ih =>
      obtain ⟨code, rest, m, hcode, hrest, rfl⟩ := compileOperands_cons hcodes
      intro code' hcode'
      rcases List.mem_cons.mp hcode' with rfl | hcode'
      · exact h e List.mem_cons_self (Or.inl rfl) hcode
      · exact ih (fun e he => h e (List.mem_cons_of_mem _ he)) hrest code' hcode'

theorem application {operator : Expression} {operands : List Expression}
    (hoperator : Orderly operator) (hoperands : ∀ e ∈ operands, Orderly e) :
    Orderly (.application operator operands) := by
  intro target linkage n code n' htarget h
  obtain ⟨operatorCode, operandCodes, call, m, m', ho, hos, hcall, rfl⟩ := compile_application h
  exact applicationCode_disciplined (hoperator (Or.inr rfl) ho)
    (compileOperands_disciplined hoperands hos) (callCode_disciplined htarget hcall)

end Orderly

/-! ## Forms -/

/-- Expressions as data mean them: procedures and sequences have at least one expression.  The body
of a procedure is made of data, of which nothing else is said. -/
inductive Proper : Expression → Prop
  | malformed (why : Malformed) : Proper (.malformed why)
  | constant (value : Constant) : Proper (.constant value)
  | reference (name : String) : Proper (.reference name)
  | assignment (name : String) {value : Expression} (hvalue : Proper value) :
      Proper (.assignment name value)
  | definition (name : String) {value : Expression} (hvalue : Proper value) :
      Proper (.definition name value)
  | conditional {test consequent alternative : Expression} (htest : Proper test)
      (hconsequent : Proper consequent) (halternative : Proper alternative) :
      Proper (.conditional test consequent alternative)
  | lambda (formals : List String) {body : List Datum} (hne : body ≠ []) :
      Proper (.lambda formals (body.map ofDatum))
  | sequence {es : List Expression} (hes : ∀ e ∈ es, Proper e) (hne : es ≠ []) :
      Proper (.sequence es)
  | application {operator : Expression} {operands : List Expression} (hoperator : Proper operator)
      (hoperands : ∀ e ∈ operands, Proper e) : Proper (.application operator operands)

section Forms

variable {rest : Datum} (span : Option Span)

theorem ofQuote_proper : Proper (ofQuote span rest) := by
  unfold ofQuote
  split
  · exact .constant _
  · exact .malformed _

theorem lambda_proper (formals : List String) (a d : Datum) :
    Proper (.lambda formals (ofDatum a :: ofItems d)) := by
  rw [ofItems_eq_map]
  exact Proper.lambda formals (List.cons_ne_nil a d.elements)

theorem ofLambda_proper : Proper (ofLambda span rest) := by
  unfold ofLambda
  split
  · next m formals body a d =>
    cases lambdaFormals formals with
    | error fault => exact .malformed _
    | ok names => exact lambda_proper names a d
  · exact .malformed _

variable (ih : ∀ d, sizeOf d < sizeOf rest → Proper (ofDatum d))
include ih

theorem ofDefine_proper : Proper (ofDefine span rest) := by
  unfold ofDefine
  split
  · next m _ name _ value _ => exact .definition name (ih value (by simp; omega))
  · exact .malformed _
  · next m header body a d _ _ =>
    cases headerFormals header with
    | error fault => exact .malformed _
    | ok found => exact .definition found.1 (lambda_proper found.2 a d)
  · exact .malformed _

theorem ofSet_proper : Proper (ofSet span rest) := by
  unfold ofSet
  split
  · next m _ name _ value _ => exact .assignment name (ih value (by simp; omega))
  · exact .malformed _
  · exact .malformed _

theorem ofCond_proper : Proper (ofCond span rest) := by
  unfold ofCond
  split
  · next m test _ consequent _ alternative _ =>
    exact .conditional (ih test (by simp; omega)) (ih consequent (by simp; omega))
      (ih alternative (by simp; omega))
  · exact .malformed _

theorem ofItems_proper : ∀ e ∈ ofItems rest, Proper e := by
  rw [ofItems_eq_map]
  intro e he
  obtain ⟨d, hd, rfl⟩ := List.mem_map.mp he
  exact ih d (Datum.sizeOf_lt_of_mem_elements hd)

theorem ofBegin_proper : Proper (ofBegin span rest) := by
  have hitems := ofItems_proper ih
  unfold ofBegin
  split
  · exact .sequence hitems (List.cons_ne_nil _ _)
  · exact .malformed _

theorem ofBinding_proper : Proper (ofBinding span rest) := by
  unfold ofBinding
  split
  · next m bindings body a d =>
    cases bindingFormals bindings with
    | error fault => exact .malformed _
    | ok names =>
        refine .application (lambda_proper names a d) ?_
        rw [ofValues_eq_map]
        intro e he
        obtain ⟨value, hvalue, rfl⟩ := List.mem_map.mp he
        have := Datum.sizeOf_lt_of_mem_boundValues hvalue
        exact ih value (by simp; omega)
  · exact .malformed _

end Forms

theorem proper_ofDatum (d : Datum) : Proper (ofDatum d) := by
  induction hsize : sizeOf d using Nat.strongRecOn generalizing d with
  | ind size ih =>
      subst hsize
      cases d with
      | literal m l => exact .constant _
      | vector m items => exact .constant _
      | symbol m name => exact .reference name
      | empty m => exact .malformed _
      | pair m head rest =>
          have hhead : Proper (ofDatum head) := ih _ (by simp; omega) head rfl
          -- Parts of forms lie at several depths in `rest`, so the induction goes by size.
          have hrest : ∀ d, sizeOf d < sizeOf rest → Proper (ofDatum d) :=
            fun d hd => ih _ (by simp; omega) d rfl
          rw [ofDatum]
          split
          · exact .malformed _
          · split
            · exact ofQuote_proper m.span
            · exact ofLambda_proper m.span
            · exact ofDefine_proper m.span hrest
            · exact ofSet_proper m.span hrest
            · exact ofCond_proper m.span hrest
            · exact ofBegin_proper m.span hrest
            · exact ofBinding_proper m.span hrest
            · exact .application hhead (ofItems_proper hrest)

/-- By induction on an expression, its code keeps to its register use. -/
theorem Proper.orderly {e : Expression} (h : e.Proper) : e.Orderly := by
  induction h with
  | malformed why => exact .malformed why
  | constant value => exact .constant value
  | reference name => exact .reference name
  | assignment name _ ih => exact .assignment name ih
  | definition name _ ih => exact .definition name ih
  | conditional _ _ _ htest hconsequent halternative =>
      exact .conditional htest hconsequent halternative
  | lambda formals hne => exact .lambda formals hne
  | sequence _ hne ih => exact .sequence ih hne
  | application _ _ hoperator hoperands => exact .application hoperator hoperands

/-- The code of forms one after the other keeps to its register use. -/
theorem compileSequence_orderly {forms : List Datum} (hne : forms ≠ []) {target : Register}
    {linkage : Linkage} {n n' : Nat} {code : Sequence} (htarget : target.IsTarget)
    (hcode : compileSequence target linkage (forms.map ofDatum) n = .ok code n') :
    code.Disciplined (.env :: linkage.asks) [target] linkage := by
  refine Orderly.compileSequence_disciplined ?_ (by simpa using hne) htarget hcode
  intro e he
  obtain ⟨d, -, rfl⟩ := List.mem_map.mp he
  exact (proper_ofDatum d).orderly

/-- What is known when a procedure is entered. -/
def entered : Context :=
  ⟨.ofList [.proc, .argl, .kontinue, .val], .ofList [.kontinue], []⟩

/-- The code of a procedure keeps to its register use and returns. -/
theorem procedure_keeps {formals : List String} {forms : List Datum} (hne : forms ≠ []) {n n' : Nat}
    {body : Sequence} (hbody : compileSequence .val .caller (forms.map ofDatum) n = .ok body n')
    (rest : List Statement) :
    Keeps .returns entered (.assign .env .closureEnv :: .assign .env (.extendEnv formals) ::
      (body.statements ++ rest)) := by
  have hdisciplined := compileSequence_orderly hne (Or.inl rfl) hbody
  refine .perform (by simp [Operation.Plain]) ?_ (.perform (by simp [Operation.Plain]) ?_ ?_)
  · simp [Operation.reads, Operand.reads, entered]
  · simp [Operation.reads, Operation.writes, Operand.reads, entered, Context.wrote]
  · refine hdisciplined.keeps ?_ ⟨rfl, rfl, fun _ => rfl⟩
    intro r hr
    have hmem := hdisciplined.asked r hr
    simp only [Linkage.asks, List.mem_cons, List.not_mem_nil, or_false] at hmem
    rcases hmem with rfl | rfl
    · rfl
    · rfl

end Expression
end SchemeMachine
