import SchemeMachine.Code.Sequence
import SchemeMachine.Datum.Reader
import SchemeMachine.Expression.Analysis

/-!
# Compiling expressions

An expression is compiled for a target register, which is to hold its value, and a linkage, which
says where control goes then.  Labels are numbered by a counter that belongs to the session, and a
failed compilation does not give back the numbers it took.
-/

namespace SchemeMachine

/-- Where control goes once an expression has its value. -/
inductive Linkage where
  /-- On to the code that follows. -/
  | next
  /-- Back to the caller, where the register `kontinue` points. -/
  | caller
  /-- To a label. -/
  | label (name : Label)
  deriving Repr, DecidableEq

/-- The text of a linkage. -/
def Linkage.text : Linkage → String
  | next => "next"
  | .caller => "return"
  | label name => name

/-- The linkage itself, or a jump to a label in place of going on. -/
def Linkage.orLabel (linkage : Linkage) (name : Label) : Linkage :=
  match linkage with
  | .next => .label name
  | other => other

/-- Why a text cannot be compiled. -/
inductive CompileError where
  | unreadable (error : SyntaxError)
  | malformed (why : Malformed)
  /-- A call that returns to its caller's caller leaves its value in `val` and nowhere else. -/
  | unsatisfiableLinkage (target : Register)

/-- The wording of a compilation error. -/
def CompileError.message : CompileError → String
  | unreadable error => s!"syntax error: {error.message}"
  | malformed why => why.message
  | unsatisfiableLinkage target =>
    s!"a call with return linkage must target val, not {target.name}"

/-- A step of compilation; the state is the number of labels made so far. -/
abbrev Compile := EStateM CompileError Nat

namespace Compile

/-- A label that no other label of the session has the number of. -/
def freshLabel (stem : String) : Compile Label := do
  let n ← get
  set (n + 1)
  return stem ++ Decimal.naturalText n

end Compile

namespace Linkage

/-- The code that brings a linkage about. -/
def code : Linkage → Sequence
  | next => .empty
  | .caller => .of [.kontinue] [] [.jump (.indirect .kontinue)]
  | label name => .of [] [] [.jump (.direct name)]

/-- A sequence followed by the code of a linkage. -/
def after (linkage : Linkage) (s : Sequence) : Sequence :=
  .preserving [.kontinue] s linkage.code

end Linkage

namespace Expression

open Compile (freshLabel)

/-- Code for a constant. -/
def constantCode (value : Constant) (target : Register) (linkage : Linkage) : Sequence :=
  linkage.after (.of [] [target] [.assign target (.const value)])

/-- Code for a variable. -/
def variableCode (name : String) (target : Register) (linkage : Linkage) : Sequence :=
  linkage.after (.of [.env] [target] [.assign target (.lookup name)])

/-- Code that stores a value under a name; its own value is the symbol `ok`. -/
def storeCode (store : Operation Label) (value : Sequence) (target : Register)
    (linkage : Linkage) : Sequence :=
  linkage.after (.preserving [.env] value
    (.of [.env, .val] [target] [.perform store, .assign target (.const (.symbol "ok"))]))

/-- The part of the argument list before the argument that is already there, from the code of each
of its arguments, the last first.  Every argument is put in front of those after it. -/
def restArguments : List Sequence → Sequence
  | [] => .empty
  | [code] => consNext code
  | code :: more => .preserving [.env] (consNext code) (restArguments more)
where
  /-- One more argument put in front. -/
  consNext (code : Sequence) : Sequence :=
    .preserving [.argl] code (.of [.val, .argl] [.argl] [.assign .argl .consArg])

/-- Code that makes the argument list.  The last argument is evaluated first. -/
def argumentCode (operands : List Sequence) : Sequence :=
  match operands.reverse with
  | [] => .of [] [.argl] [.assign .argl (.const .empty)]
  | last :: before =>
    let single := last.append (.of [.val] [.argl] [.assign .argl .listArg])
    if before.isEmpty then single else .preserving [.env] single (restArguments before)

/-- Entering a compiled procedure.  Without a label to return to the call is a tail call, which
leaves `kontinue` as it is. -/
def enterCode (target : Register) (returnTo : Option Label) : Compile Sequence := do
  let enter : List Statement := [.assign .val .closureEntry, .jump (.indirect .val)]
  match returnTo with
  | some label =>
    if target = .val then
      return ⟨.ofList [.proc], .full, .assign .kontinue (.label label) :: enter⟩
    else
      let back ← freshLabel "procReturn"
      return ⟨.ofList [.proc], .full, .assign .kontinue (.label back) :: enter ++
        [.label back, .assign target (.register .val), .jump (.direct label)]⟩
  | none =>
    if target = .val then return ⟨.ofList [.proc, .kontinue], .full, enter⟩
    else throw (.unsatisfiableLinkage target)

/-- Applying the procedure in `proc` to the arguments in `argl`. -/
def callCode (target : Register) (linkage : Linkage) : Compile Sequence := do
  let primitiveBranch ← freshLabel "primitiveBranch"
  let compiledBranch ← freshLabel "compiledBranch"
  let afterCall ← freshLabel "afterCall"
  let returnTo := match linkage with
    | .next => some afterCall
    | .label name => some name
    | .caller => none
  let test := Sequence.of [.proc] [.flag]
    [.perform .testPrimitive, .perform (.branch primitiveBranch)]
  let enter ← enterCode target returnTo
  let compiled := (Sequence.label compiledBranch).append enter
  let primitive := (Sequence.label primitiveBranch).append
    (linkage.after (.of [.proc, .argl] [target] [.assign target .applyPrimitive]))
  return .appendAll [test, compiled.parallel primitive, .label afterCall]

/-- Code for an application from the code of its operator and operands. -/
def applicationCode (operator : Sequence) (operands : List Sequence) (call : Sequence) : Sequence :=
  .preserving [.env, .kontinue] operator
    (.preserving [.proc, .kontinue] (argumentCode operands) call)

/-- Code for a conditional from the code of its parts. -/
def conditionalCode (trueBranch falseBranch afterIf : Label)
    (test consequent alternative : Sequence) : Sequence :=
  let choose := Sequence.of [.val] [.flag] [.perform .testFalse, .perform (.branch falseBranch)]
  let branches := ((Sequence.label trueBranch).append consequent).parallel
    ((Sequence.label falseBranch).append alternative)
  .preserving [.env, .kontinue] test (.appendAll [choose, branches, .label afterIf])

/-- Code that makes a procedure, with the body of the procedure written after it. -/
def lambdaCode (entry afterLambda : Label) (formals : List String) (body : Sequence)
    (target : Register) (linkage : Linkage) : Sequence :=
  let closure := (linkage.orLabel afterLambda).after
    (.of [.env] [target] [.assign target (.makeClosure entry)])
  let prologue := Sequence.of [.proc, .argl] [.env]
    [.label entry, .assign .env .closureEnv, .assign .env (.extendEnv formals)]
  (closure.tackOn (prologue.append body)).append (.label afterLambda)

mutual

/-- Code for an expression that leaves its value in `target` and then goes on by `linkage`. -/
def compile (target : Register) (linkage : Linkage) : Expression → Compile Sequence
  | constant value => return constantCode value target linkage
  | reference name => return variableCode name target linkage
  | assignment name value => do
    let value ← compile .val .next value
    return storeCode (.set name) value target linkage
  | definition name value => do
    let value ← compile .val .next value
    return storeCode (.define name) value target linkage
  | conditional test consequent alternative => do
    let trueBranch ← freshLabel "trueBranch"
    let falseBranch ← freshLabel "falseBranch"
    let afterIf ← freshLabel "afterIf"
    let test ← compile .val .next test
    let consequent ← compile target (linkage.orLabel afterIf) consequent
    let alternative ← compile target linkage alternative
    return conditionalCode trueBranch falseBranch afterIf test consequent alternative
  | lambda formals body => do
    let entry ← freshLabel "entry"
    let afterLambda ← freshLabel "afterLambda"
    let body ← compileSequence .val .caller body
    return lambdaCode entry afterLambda formals body target linkage
  | sequence body => compileSequence target linkage body
  | application operator operands => do
    let operator ← compile .proc .next operator
    let operands ← compileOperands operands
    let call ← callCode target linkage
    return applicationCode operator operands call
  | malformed why => throw (.malformed why)

/-- Code for expressions one after the other; the value is that of the last. -/
def compileSequence (target : Register) (linkage : Linkage) : List Expression → Compile Sequence
  | [] => return .empty
  | [last] => compile target linkage last
  | first :: rest => do
    let first ← compile .val .next first
    let rest ← compileSequence target linkage rest
    return .preserving [.env, .kontinue] first rest

/-- Code for each operand, in the order in which they are written. -/
def compileOperands : List Expression → Compile (List Sequence)
  | [] => return []
  | operand :: rest => do
    let operand ← compile .val .next operand
    let rest ← compileOperands rest
    return operand :: rest

end

/-- Code for the data of a program, which leaves the value of the last in `val`. -/
def compileProgram (forms : List Datum) : Compile Sequence :=
  compileSequence .val .next (forms.map ofDatum)

/-- Code for a text, in a session of its own. -/
def compileText (source : String) : Except CompileError Sequence :=
  match Datum.parse source with
  | .error e => .error (.unreadable e)
  | .ok forms =>
    match compileProgram forms 0 with
    | .ok s _ => .ok s
    | .error e _ => .error e

end Expression
end SchemeMachine
