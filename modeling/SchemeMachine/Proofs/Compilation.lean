import SchemeMachine.Expression.Compile

/-!
# What a successful compilation has made

First the statements that make up the code of forks and of procedures.  Then one lemma for each form:
if compiling it succeeds, then compiling its parts has succeeded, and the code is put together from
theirs with labels numbered from the counter on.
-/

namespace SchemeMachine

open Sequence

namespace Compile

/-- The label with a stem and a number. -/
def numbered (stem : String) (n : Nat) : Label :=
  stem ++ Decimal.naturalText n

theorem bind_eq_ok {α β : Type} {x : Compile α} {f : α → Compile β} {n n' : Nat} {b : β}
    (h : (x >>= f) n = .ok b n') : ∃ a m, x n = .ok a m ∧ f a m = .ok b n' := by
  change EStateM.bind x f n = .ok b n' at h
  unfold EStateM.bind at h
  cases hx : x n with
  | error e m => simp [hx] at h
  | ok a m =>
      rw [hx] at h
      exact ⟨a, m, rfl, h⟩

/-- A fresh label takes one number. -/
theorem freshLabel_bind {α : Type} (stem : String) (f : Label → Compile α) (n : Nat) :
    (freshLabel stem >>= f) n = f (numbered stem n) (n + 1) :=
  rfl

theorem pure_eq_ok {α : Type} {a b : α} {n n' : Nat} (h : (pure a : Compile α) n = .ok b n') :
    b = a ∧ n' = n := by
  change EStateM.Result.ok a n = .ok b n' at h
  cases h
  exact ⟨rfl, rfl⟩

/-- What has been compiled, if that has succeeded. -/
def made? {ε α : Type} : EStateM.Result ε Nat α → Option α
  | .ok a _ => some a
  | .error _ _ => none

theorem eq_ok_of_made? {ε α : Type} {x : EStateM.Result ε Nat α} {a : α} (h : made? x = some a) :
    ∃ n, x = .ok a n := by
  cases x with
  | error e n => cases h
  | ok b n =>
      cases h
      exact ⟨n, rfl⟩

end Compile

theorem eq_ok_of_toOption {ε α : Type} {x : Except ε α} {a : α} (h : x.toOption = some a) :
    x = .ok a := by
  cases x with
  | error e => cases h
  | ok b =>
      cases h
      rfl

/-- The registers that values are asked for in. -/
def Register.IsTarget (r : Register) : Prop :=
  r = .val ∨ r = .proc

theorem Register.IsTarget.ne_kontinue {r : Register} (h : r.IsTarget) : r ≠ .kontinue := by
  rcases h with rfl | rfl <;> decide

/-- The label to return to, if control is to come back by a label. -/
def Linkage.returnTo? : Linkage → Option Label
  | .label name => some name
  | _ => none

namespace Expression

open Compile

/-- A test, then the first code if the test lowers the flag and the second if it raises it. -/
def fork (test : Operation Label) (reads : Register) (firstLabel secondLabel after : Label)
    (first second : Sequence) : Sequence :=
  appendAll
    [of [reads] [.flag] [.perform test, .perform (.branch secondLabel)],
      ((Sequence.label firstLabel).append first).parallel
        ((Sequence.label secondLabel).append second), .label after]

/-! ## The statements of code -/

theorem fork_statements_eq (test : Operation Label) (reads : Register)
    (firstLabel secondLabel after : Label) (first second : Sequence) :
    (fork test reads firstLabel secondLabel after first second).statements =
      .perform test :: .perform (.branch secondLabel) :: .label firstLabel ::
        (first.statements ++ .label secondLabel :: (second.statements ++ [.label after])) := by
  simp [fork, appendAll, append, parallel, Sequence.label, of, Sequence.empty]

theorem protectFor_assign {target : Register} (htarget : target.IsTarget) (source : Operand Label)
    (needs : List Register) (second : Sequence) :
    protectFor [.kontinue] (of needs [target] [.assign target source]) second =
      of needs [target] [.assign target source] := by
  rcases htarget with rfl | rfl <;> rfl

/-- An assignment before the code of a linkage stands as it is or, where it overwrites the register
that the linkage reads, between saving and restoring it. -/
theorem after_assign_statements (linkage : Linkage) (needs : List Register) (target : Register)
    (source : Operand Label) :
    ∃ first, (linkage.after (of needs [target] [.assign target source])).statements =
        first ++ linkage.code.statements ∧
      (first = [.assign target source] ∨
        first = [.perform (.save .kontinue), .assign target source,
          .perform (.restore .kontinue)]) := by
  refine ⟨_, rfl, ?_⟩
  rw [protectFor, List.foldl_cons, List.foldl_nil]
  split
  · exact Or.inr rfl
  · exact Or.inl rfl

theorem lambdaCode_statements_eq (entry afterLambda : Label) (formals : List String)
    (body : Sequence) {target : Register} (htarget : target.IsTarget) (linkage : Linkage) :
    (lambdaCode entry afterLambda formals body target linkage).statements =
      .assign target (.makeClosure entry) :: ((linkage.orLabel afterLambda).code.statements ++
        .label entry :: .assign .env .closureEnv :: .assign .env (.extendEnv formals) ::
          (body.statements ++ [.label afterLambda])) := by
  simp only [lambdaCode, Linkage.after, preserving, protectFor_assign htarget]
  simp [tackOn, append, Sequence.label, of]

/-! ## What was compiled -/

variable {target : Register} {linkage : Linkage} {n n' : Nat} {code : Sequence}

theorem compile_assignment {name : String} {value : Expression}
    (h : compile target linkage (.assignment name value) n = .ok code n') :
    ∃ valueCode, compile .val .next value n = .ok valueCode n' ∧
      code = storeCode (.set name) valueCode target linkage := by
  rw [compile] at h
  obtain ⟨valueCode, m, hvalue, h⟩ := bind_eq_ok h
  obtain ⟨rfl, rfl⟩ := pure_eq_ok h
  exact ⟨valueCode, hvalue, rfl⟩

theorem compile_definition {name : String} {value : Expression}
    (h : compile target linkage (.definition name value) n = .ok code n') :
    ∃ valueCode, compile .val .next value n = .ok valueCode n' ∧
      code = storeCode (.define name) valueCode target linkage := by
  rw [compile] at h
  obtain ⟨valueCode, m, hvalue, h⟩ := bind_eq_ok h
  obtain ⟨rfl, rfl⟩ := pure_eq_ok h
  exact ⟨valueCode, hvalue, rfl⟩

theorem compile_conditional {test consequent alternative : Expression}
    (h : compile target linkage (.conditional test consequent alternative) n = .ok code n') :
    ∃ testCode consequentCode alternativeCode m m',
      compile .val .next test (n + 3) = .ok testCode m ∧
      compile target (linkage.orLabel (numbered "afterIf" (n + 2))) consequent m =
        .ok consequentCode m' ∧
      compile target linkage alternative m' = .ok alternativeCode n' ∧
      code = conditionalCode (numbered "trueBranch" n) (numbered "falseBranch" (n + 1))
        (numbered "afterIf" (n + 2)) testCode consequentCode alternativeCode := by
  rw [compile, freshLabel_bind, freshLabel_bind, freshLabel_bind] at h
  obtain ⟨testCode, m, htest, h⟩ := bind_eq_ok h
  obtain ⟨consequentCode, m', hconsequent, h⟩ := bind_eq_ok h
  obtain ⟨alternativeCode, m'', halternative, h⟩ := bind_eq_ok h
  obtain ⟨rfl, rfl⟩ := pure_eq_ok h
  exact ⟨testCode, consequentCode, alternativeCode, m, m', htest, hconsequent, halternative, rfl⟩

theorem compile_lambda {formals : List String} {body : List Expression}
    (h : compile target linkage (.lambda formals body) n = .ok code n') :
    ∃ bodyCode, compileSequence .val .caller body (n + 2) = .ok bodyCode n' ∧
      code = lambdaCode (numbered "entry" n) (numbered "afterLambda" (n + 1)) formals bodyCode
        target linkage := by
  rw [compile, freshLabel_bind, freshLabel_bind] at h
  obtain ⟨bodyCode, m, hbody, h⟩ := bind_eq_ok h
  obtain ⟨rfl, rfl⟩ := pure_eq_ok h
  exact ⟨bodyCode, hbody, rfl⟩

theorem compile_application {operator : Expression} {operands : List Expression}
    (h : compile target linkage (.application operator operands) n = .ok code n') :
    ∃ operatorCode operandCodes call m m',
      compile .proc .next operator n = .ok operatorCode m ∧
      compileOperands operands m = .ok operandCodes m' ∧
      callCode target linkage m' = .ok call n' ∧
      code = applicationCode operatorCode operandCodes call := by
  rw [compile] at h
  obtain ⟨operatorCode, m, hoperator, h⟩ := bind_eq_ok h
  obtain ⟨operandCodes, m', hoperands, h⟩ := bind_eq_ok h
  obtain ⟨call, m'', hcall, h⟩ := bind_eq_ok h
  obtain ⟨rfl, rfl⟩ := pure_eq_ok h
  exact ⟨operatorCode, operandCodes, call, m, m', hoperator, hoperands, hcall, rfl⟩

theorem compileSequence_cons {first second : Expression} {rest : List Expression}
    (h : compileSequence target linkage (first :: second :: rest) n = .ok code n') :
    ∃ firstCode restCode m,
      compile .val .next first n = .ok firstCode m ∧
      compileSequence target linkage (second :: rest) m = .ok restCode n' ∧
      code = preserving [.env, .kontinue] firstCode restCode := by
  rw [compileSequence] at h
  · obtain ⟨firstCode, m, hfirst, h⟩ := bind_eq_ok h
    obtain ⟨restCode, m', hrest, h⟩ := bind_eq_ok h
    obtain ⟨rfl, rfl⟩ := pure_eq_ok h
    exact ⟨firstCode, restCode, m, hfirst, hrest, rfl⟩
  · exact List.cons_ne_nil _ _

theorem compileOperands_cons {operand : Expression} {rest : List Expression}
    {codes : List Sequence} (h : compileOperands (operand :: rest) n = .ok codes n') :
    ∃ operandCode restCodes m,
      compile .val .next operand n = .ok operandCode m ∧
      compileOperands rest m = .ok restCodes n' ∧ codes = operandCode :: restCodes := by
  rw [compileOperands] at h
  obtain ⟨operandCode, m, hoperand, h⟩ := bind_eq_ok h
  obtain ⟨restCodes, m', hrest, h⟩ := bind_eq_ok h
  obtain ⟨rfl, rfl⟩ := pure_eq_ok h
  exact ⟨operandCode, restCodes, m, hoperand, hrest, rfl⟩

/-- Code for a call chooses between entering a compiled procedure and applying a primitive. -/
theorem callCode_eq_ok (h : callCode target linkage n = .ok code n') :
    ∃ enter,
      enterCode target (linkage.orLabel (numbered "afterCall" (n + 2))).returnTo? (n + 3) =
        .ok enter n' ∧
      code = fork .testPrimitive .proc (numbered "compiledBranch" (n + 1))
        (numbered "primitiveBranch" n) (numbered "afterCall" (n + 2)) enter
        (linkage.after (of [.proc, .argl] [target] [.assign target .applyPrimitive])) := by
  rw [callCode, freshLabel_bind, freshLabel_bind, freshLabel_bind] at h
  obtain ⟨enter, m, henter, h⟩ := bind_eq_ok h
  obtain ⟨rfl, rfl⟩ := pure_eq_ok h
  refine ⟨enter, ?_, rfl⟩
  cases linkage <;> exact henter

end Expression
end SchemeMachine
