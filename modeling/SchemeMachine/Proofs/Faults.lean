import SchemeMachine.Proofs.Compilation

/-!
# The first fault of an expression

Compiling fails in two ways.  A part of the expression may be malformed, and then no target and no
linkage helps.  Or a call may be asked to return to the caller with its value in another register
than `val`, which calls cannot do.  This concerns calls in tail position alone, since parts
elsewhere are compiled to go on to the code that follows, and bodies of procedures for `val`.

`firstFault` goes through the parts in the order in which they are compiled.  It knows nothing of
labels, so how many of them have been made before has no say in what is reported.
-/

namespace SchemeMachine

namespace Compile

variable {α β : Type} {x : Compile α} {f : α → Compile β} {first second : Option CompileError}

/-- The error that a step of compilation has ended with. -/
def error? : EStateM.Result CompileError Nat α → Option CompileError
  | .ok _ _ => none
  | .error e _ => some e

theorem error?_eq_none_iff {r : EStateM.Result CompileError Nat α} :
    error? r = none ↔ ∃ a n, r = .ok a n := by
  cases r <;> simp [error?]

theorem error?_eq_some_iff {r : EStateM.Result CompileError Nat α} {e : CompileError} :
    error? r = some e ↔ ∃ n, r = .error e n := by
  cases r <;> simp [error?]

/-- Whatever the counter, a step of compilation fails with a fault, or succeeds if there is none. -/
def Reports (x : Compile α) (fault : Option CompileError) : Prop :=
  ∀ n, error? (x n) = fault

theorem reports_pure (a : α) : Reports (pure a) none :=
  fun _ => rfl

theorem reports_throw (e : CompileError) : Reports (throw e : Compile α) (some e) :=
  fun _ => rfl

/-- Of two steps the first that fails is the one that reports. -/
theorem Reports.bind (hx : Reports x first) (hf : ∀ a, Reports (f a) second) :
    Reports (x >>= f) (first.or second) := by
  intro n
  have hfirst := hx n
  change error? (EStateM.bind x f n) = _
  unfold EStateM.bind
  cases hstep : x n with
  | error e m =>
      rw [hstep] at hfirst
      rw [← hfirst]
      rfl
  | ok a m =>
      rw [hstep] at hfirst
      rw [← hfirst]
      exact hf a m

/-- A label is always to be had. -/
theorem Reports.label {f : Label → Compile β} {stem : String}
    (hf : ∀ name, Reports (f name) second) : Reports (freshLabel stem >>= f) second :=
  fun n => hf (numbered stem n) (n + 1)

/-- Putting results together reports nothing. -/
theorem Reports.thenPure {b : α → β} (hx : Reports x first) :
    Reports (x >>= fun a => pure (b a)) first := by
  have hboth := hx.bind fun a => reports_pure (b a)
  rwa [Option.or_none] at hboth

end Compile

/-- The register that a call with a target and a linkage cannot return its value in. -/
def Linkage.unreturnable? (target : Register) : Linkage → Option Register
  | .caller => if target = .val then none else some target
  | _ => none

theorem Linkage.unreturnable?_eq_some_iff {target r : Register} {linkage : Linkage} :
    linkage.unreturnable? target = some r ↔ linkage = .caller ∧ target ≠ .val ∧ target = r := by
  cases linkage <;> simp [unreturnable?]

theorem Linkage.unreturnable?_val (linkage : Linkage) : linkage.unreturnable? .val = none := by
  cases linkage <;> rfl

theorem Linkage.unreturnable?_orLabel (target : Register) (linkage : Linkage) (name : Label) :
    (linkage.orLabel name).unreturnable? target = linkage.unreturnable? target := by
  cases linkage <;> rfl

namespace Expression

open Compile

mutual

/-- The first fault that compiling comes upon, where calls in tail position cannot return their
value in the register `tail`, if there is one. -/
def firstFault (tail : Option Register) : Expression → Option CompileError
  | constant _ => none
  | reference _ => none
  | assignment _ value => firstFault none value
  | definition _ value => firstFault none value
  | conditional test consequent alternative =>
    (firstFault none test).or ((firstFault tail consequent).or (firstFault tail alternative))
  | lambda _ body => firstFaultInOrder none body
  | sequence body => firstFaultInOrder tail body
  | application operator operands =>
    (firstFault none operator).or
      ((firstFaultAmong operands).or (tail.map .unsatisfiableLinkage))
  | malformed why => some (.malformed why)

/-- The first fault of expressions one after the other, of which the last is in tail position. -/
def firstFaultInOrder (tail : Option Register) : List Expression → Option CompileError
  | [] => none
  | [last] => firstFault tail last
  | first :: rest => (firstFault none first).or (firstFaultInOrder tail rest)

/-- The first fault of operands. -/
def firstFaultAmong : List Expression → Option CompileError
  | [] => none
  | operand :: rest => (firstFault none operand).or (firstFaultAmong rest)

end

theorem firstFaultInOrder_cons (tail : Option Register) (first second : Expression)
    (rest : List Expression) :
    firstFaultInOrder tail (first :: second :: rest) =
      (firstFault none first).or (firstFaultInOrder tail (second :: rest)) := by
  rw [firstFaultInOrder]
  exact List.cons_ne_nil second rest

theorem firstFaultInOrder_concat (tail : Option Register) (before : List Expression)
    (last : Expression) :
    firstFaultInOrder tail (before ++ [last]) =
      (firstFaultAmong before).or (firstFault tail last) := by
  induction before with
  | nil =>
      rw [List.nil_append, firstFaultInOrder, firstFaultAmong]
      rfl
  | cons first before ih =>
      rw [firstFaultAmong, Option.or_assoc, ← ih]
      cases before with
      | nil => exact firstFaultInOrder_cons tail first last []
      | cons second before => exact firstFaultInOrder_cons tail first second (before ++ [last])

/-! ## What is reported -/

theorem enterCode_reports (target : Register) (returnTo : Option Label) :
    Reports (enterCode target returnTo)
      (if returnTo = none ∧ target ≠ .val then some (.unsatisfiableLinkage target) else none) := by
  unfold enterCode
  cases returnTo with
  | none =>
      by_cases htarget : target = .val
      · simp only [htarget, if_true, ne_eq, not_true, and_false, if_false]
        exact reports_pure _
      · simp only [htarget, if_false, ne_eq, not_false_iff, and_self, if_true]
        exact reports_throw _
  | some label =>
      simp only [reduceCtorEq, false_and, if_false]
      by_cases htarget : target = .val
      · simp only [htarget, if_true]
        exact reports_pure _
      · simp only [htarget, if_false]
        exact .label fun back => reports_pure _

/-- A call reports that it cannot return, and nothing else. -/
theorem callCode_reports (target : Register) (linkage : Linkage) :
    Reports (callCode target linkage)
      ((linkage.unreturnable? target).map .unsatisfiableLinkage) := by
  unfold callCode
  apply Reports.label
  intro primitiveBranch
  apply Reports.label
  intro compiledBranch
  apply Reports.label
  intro afterCall
  apply Reports.thenPure
  intro n
  rw [enterCode_reports target _ n]
  cases linkage with
  | caller => by_cases htarget : target = .val <;> simp [Linkage.unreturnable?, htarget]
  | next => simp [Linkage.unreturnable?]
  | label name => simp [Linkage.unreturnable?]

mutual

/-- Compiling an expression reports its first fault. -/
theorem compile_reports (target : Register) (linkage : Linkage) :
    ∀ e : Expression,
      Reports (compile target linkage e) (e.firstFault (linkage.unreturnable? target))
  | constant value => by
      rw [compile, firstFault]
      exact reports_pure _
  | reference name => by
      rw [compile, firstFault]
      exact reports_pure _
  | assignment name value => by
      rw [compile, firstFault]
      exact (compile_reports .val .next value).thenPure
  | definition name value => by
      rw [compile, firstFault]
      exact (compile_reports .val .next value).thenPure
  | conditional test consequent alternative => by
      rw [compile, firstFault]
      apply Reports.label
      intro trueBranch
      apply Reports.label
      intro falseBranch
      apply Reports.label
      intro afterIf
      apply (compile_reports .val .next test).bind
      intro testCode
      rw [← linkage.unreturnable?_orLabel target afterIf]
      apply (compile_reports target (linkage.orLabel afterIf) consequent).bind
      intro consequentCode
      rw [linkage.unreturnable?_orLabel target afterIf]
      exact (compile_reports target linkage alternative).thenPure
  | lambda formals body => by
      rw [compile, firstFault]
      apply Reports.label
      intro entry
      apply Reports.label
      intro afterLambda
      exact (compileSequence_reports .val .caller body).thenPure
  | sequence body => by
      rw [compile, firstFault]
      exact compileSequence_reports target linkage body
  | application operator operands => by
      rw [compile, firstFault]
      apply (compile_reports .proc .next operator).bind
      intro operatorCode
      apply (compileOperands_reports operands).bind
      intro operandCodes
      exact (callCode_reports target linkage).thenPure
  | malformed why => by
      rw [compile, firstFault]
      exact reports_throw _

theorem compileSequence_reports (target : Register) (linkage : Linkage) :
    ∀ es : List Expression, Reports (compileSequence target linkage es)
      (firstFaultInOrder (linkage.unreturnable? target) es)
  | [] => by
      rw [compileSequence, firstFaultInOrder]
      exact reports_pure _
  | [last] => by
      rw [compileSequence, firstFaultInOrder]
      exact compile_reports target linkage last
  | first :: second :: rest => by
      rw [compileSequence, firstFaultInOrder_cons]
      · apply (compile_reports .val .next first).bind
        intro firstCode
        exact (compileSequence_reports target linkage (second :: rest)).thenPure
      · exact List.cons_ne_nil second rest

theorem compileOperands_reports :
    ∀ es : List Expression, Reports (compileOperands es) (firstFaultAmong es)
  | [] => by
      rw [compileOperands, firstFaultAmong]
      exact reports_pure _
  | operand :: rest => by
      rw [compileOperands, firstFaultAmong]
      apply (compile_reports .val .next operand).bind
      intro operandCode
      exact (compileOperands_reports rest).thenPure

end

/-! ## Calls in tail position -/

mutual

/-- Whether a call stands in tail position: the expression itself, a branch of a conditional or the
last of a sequence, within each other to any depth. -/
def endsInCall : Expression → Bool
  | application _ _ => true
  | conditional _ consequent alternative => endsInCall consequent || endsInCall alternative
  | sequence body => lastEndsInCall body
  | _ => false

/-- Whether the last of a row of expressions ends in a call. -/
def lastEndsInCall : List Expression → Bool
  | [] => false
  | [last] => endsInCall last
  | _ :: rest => lastEndsInCall rest

end

theorem lastEndsInCall_cons (first second : Expression) (rest : List Expression) :
    lastEndsInCall (first :: second :: rest) = lastEndsInCall (second :: rest) := by
  rw [lastEndsInCall]
  exact List.cons_ne_nil second rest

theorem lastEndsInCall_concat (before : List Expression) (last : Expression) :
    lastEndsInCall (before ++ [last]) = last.endsInCall := by
  induction before with
  | nil => rw [List.nil_append, lastEndsInCall]
  | cons first before ih =>
      rw [← ih]
      cases before with
      | nil => exact lastEndsInCall_cons first last []
      | cons second before => exact lastEndsInCall_cons first second (before ++ [last])

/-- A call that cannot return is blamed for a fault, or the fault is there without it. -/
def Blames (r : Register) (call : Bool) (plain fault : Option CompileError) : Prop :=
  fault = plain ∨ call = true ∧ fault = some (.unsatisfiableLinkage r)

namespace Blames

variable {r : Register} {call call' : Bool} {plain plain' fault fault' : Option CompileError}

theorem behind (h : Blames r call plain fault) (before : Option CompileError) :
    Blames r call (before.or plain) (before.or fault) := by
  cases before with
  | none => exact h
  | some e => exact Or.inl rfl

theorem or (h : Blames r call plain fault) (h' : Blames r call' plain' fault') :
    Blames r (call || call') (plain.or plain') (fault.or fault') := by
  rcases h with rfl | ⟨rfl, rfl⟩
  · rcases h' with rfl | ⟨rfl, rfl⟩
    · exact Or.inl rfl
    · cases fault with
      | none => exact Or.inr ⟨Bool.or_true call, rfl⟩
      | some e => exact Or.inl rfl
  · exact Or.inr ⟨rfl, rfl⟩

end Blames

mutual

/-- Nothing but calls in tail position can be blamed for what is wrong with one target more. -/
theorem firstFault_blames (r : Register) :
    ∀ e : Expression, Blames r e.endsInCall (e.firstFault none) (e.firstFault (some r))
  | application operator operands => by
      rw [firstFault, firstFault, endsInCall]
      apply Blames.behind
      apply Blames.behind
      exact Or.inr ⟨rfl, rfl⟩
  | conditional test consequent alternative => by
      rw [firstFault, firstFault, endsInCall]
      exact ((firstFault_blames r consequent).or (firstFault_blames r alternative)).behind _
  | sequence body => by
      rw [firstFault, firstFault, endsInCall]
      exact firstFaultInOrder_blames r body
  | constant _ | reference _ | assignment _ _ | definition _ _ | lambda _ _ | malformed _ =>
      Or.inl (by rw [firstFault, firstFault])

theorem firstFaultInOrder_blames (r : Register) :
    ∀ es : List Expression,
      Blames r (lastEndsInCall es) (firstFaultInOrder none es) (firstFaultInOrder (some r) es)
  | [] => Or.inl (by rw [firstFaultInOrder, firstFaultInOrder])
  | [last] => by
      rw [firstFaultInOrder, firstFaultInOrder, lastEndsInCall]
      exact firstFault_blames r last
  | first :: second :: rest => by
      rw [firstFaultInOrder_cons, firstFaultInOrder_cons, lastEndsInCall_cons]
      exact (firstFaultInOrder_blames r (second :: rest)).behind _

end

mutual

/-- A call in tail position that cannot return does not go unnoticed. -/
theorem isSome_firstFault (r : Register) :
    ∀ e : Expression, e.endsInCall = true → (e.firstFault (some r)).isSome = true
  | application operator operands, _ => by
      rw [firstFault]
      simp
  | conditional test consequent alternative, h => by
      rw [endsInCall, Bool.or_eq_true] at h
      rw [firstFault, Option.isSome_or, Option.isSome_or]
      rcases h with h | h
      · simp [isSome_firstFault r consequent h]
      · simp [isSome_firstFault r alternative h]
  | sequence body, h => by
      rw [firstFault]
      rw [endsInCall] at h
      exact isSome_firstFaultInOrder r body h
  | constant _, h | reference _, h | assignment _ _, h | definition _ _, h | lambda _ _, h
  | malformed _, h => by simp [endsInCall] at h

theorem isSome_firstFaultInOrder (r : Register) :
    ∀ es : List Expression,
      lastEndsInCall es = true → (firstFaultInOrder (some r) es).isSome = true
  | [], h => by simp [lastEndsInCall] at h
  | [last], h => by
      rw [firstFaultInOrder]
      rw [lastEndsInCall] at h
      exact isSome_firstFault r last h
  | first :: second :: rest, h => by
      rw [lastEndsInCall_cons] at h
      rw [firstFaultInOrder_cons, Option.isSome_or, isSome_firstFaultInOrder r (second :: rest) h,
        Bool.or_true]

end

/-- If nothing else is wrong, a call in tail position that cannot return is the first fault. -/
theorem firstFault_eq_unsatisfiable {e : Expression} (r : Register)
    (hplain : e.firstFault none = none) (hcall : e.endsInCall = true) :
    e.firstFault (some r) = some (.unsatisfiableLinkage r) := by
  rcases firstFault_blames r e with hsame | ⟨-, hblamed⟩
  · have hsome := isSome_firstFault r e hcall
    rw [hsame, hplain] at hsome
    cases hsome
  · exact hblamed

/-- Nothing is wrong with calls that cannot return exactly when nothing is wrong anyway and no call
is in tail position. -/
theorem firstFault_eq_none_iff (r : Register) (e : Expression) :
    e.firstFault (some r) = none ↔ e.firstFault none = none ∧ ¬ e.endsInCall = true := by
  rcases firstFault_blames r e with hsame | ⟨hcall, hblamed⟩
  · rw [hsame]
    constructor
    · intro hplain
      refine ⟨hplain, fun hcall => ?_⟩
      rw [firstFault_eq_unsatisfiable r hplain hcall, hplain] at hsame
      cases hsame
    · exact And.left
  · simp [hblamed, hcall]

mutual

/-- Only calls in tail position are found unable to return, and only in the register given. -/
theorem tail_of_firstFault {r : Register} :
    ∀ {tail : Option Register} (e : Expression),
      e.firstFault tail = some (.unsatisfiableLinkage r) → tail = some r
  | tail, application operator operands, h => by
      rw [firstFault] at h
      rcases Option.or_eq_some_iff.mp h with hoperator | ⟨-, h⟩
      · cases tail_of_firstFault operator hoperator
      · rcases Option.or_eq_some_iff.mp h with hoperands | ⟨-, hcall⟩
        · exact absurd hoperands (firstFaultAmong_ne operands)
        · obtain ⟨q, hq, hsame⟩ := Option.map_eq_some_iff.mp hcall
          cases hsame
          exact hq
  | tail, conditional test consequent alternative, h => by
      rw [firstFault] at h
      rcases Option.or_eq_some_iff.mp h with htest | ⟨-, h⟩
      · cases tail_of_firstFault test htest
      · rcases Option.or_eq_some_iff.mp h with hconsequent | ⟨-, halternative⟩
        · exact tail_of_firstFault consequent hconsequent
        · exact tail_of_firstFault alternative halternative
  | tail, sequence body, h => by
      rw [firstFault] at h
      exact tail_of_firstFaultInOrder body h
  | tail, lambda _ body, h => by
      rw [firstFault] at h
      cases tail_of_firstFaultInOrder body h
  | tail, assignment _ value, h | tail, definition _ value, h => by
      rw [firstFault] at h
      cases tail_of_firstFault value h
  | tail, constant _, h | tail, reference _, h | tail, malformed _, h => by simp [firstFault] at h

theorem tail_of_firstFaultInOrder {r : Register} :
    ∀ {tail : Option Register} (es : List Expression),
      firstFaultInOrder tail es = some (.unsatisfiableLinkage r) → tail = some r
  | tail, [], h => by simp [firstFaultInOrder] at h
  | tail, [last], h => by
      rw [firstFaultInOrder] at h
      exact tail_of_firstFault last h
  | tail, first :: second :: rest, h => by
      rw [firstFaultInOrder_cons] at h
      rcases Option.or_eq_some_iff.mp h with hfirst | ⟨-, hrest⟩
      · cases tail_of_firstFault first hfirst
      · exact tail_of_firstFaultInOrder (second :: rest) hrest

theorem firstFaultAmong_ne {r : Register} :
    ∀ es : List Expression, firstFaultAmong es ≠ some (.unsatisfiableLinkage r)
  | [], h => by simp [firstFaultAmong] at h
  | operand :: rest, h => by
      rw [firstFaultAmong] at h
      rcases Option.or_eq_some_iff.mp h with hoperand | ⟨-, hrest⟩
      · cases tail_of_firstFault operand hoperand
      · exact firstFaultAmong_ne rest hrest

end

/-- Programs are compiled for `val` and go on to what follows, so no call in them has to return. -/
theorem compileProgram_ne_unsatisfiable (forms : List Datum) (r : Register) (n n' : Nat) :
    compileProgram forms n ≠ .error (.unsatisfiableLinkage r) n' := by
  intro h
  have herror : error? (compileProgram forms n) = some (.unsatisfiableLinkage r) :=
    error?_eq_some_iff.mpr ⟨n', h⟩
  have hreports := compileSequence_reports .val .next (forms.map ofDatum) n
  cases tail_of_firstFaultInOrder _ (hreports.symm.trans herror)

end Expression
end SchemeMachine
