import SchemeMachine.Code.Register
import SchemeMachine.Datum.Printer

/-!
# Instructions

Code is a list of statements: labels, operations that fall through to the next statement, and
transfers that do not.  The places that name a jump target are left open as a parameter, so that
the same instructions serve symbolic code, whose targets are label names, and blocks, whose
targets are block numbers.

Every instruction tells which registers it reads and which it writes.
-/

namespace SchemeMachine

/-- The name of a place in symbolic code. -/
abbrev Label := String

/-- A constant operand. -/
inductive Constant where
  | empty
  | literal (value : Literal)
  | symbol (name : String)
  | datum (value : Datum)

/-- The text of a constant. -/
def Constant.text : Constant → String
  | empty => "()"
  | literal value => value.text
  | symbol name => name
  | datum value => value.text

/-- What an assignment puts into its register. -/
inductive Operand (L : Type) where
  | const (value : Constant)
  | register (r : Register)
  /-- A reference to code, kept as a place to return to. -/
  | label (target : L)
  | lookup (name : String)
  /-- The value put in front of the arguments. -/
  | consArg
  /-- A list of the value alone. -/
  | listArg
  /-- A procedure that enters at the target in the present environment. -/
  | makeClosure (entry : L)
  /-- The environment of the procedure. -/
  | closureEnv
  /-- The entry of the procedure. -/
  | closureEntry
  /-- The environment with a new frame that binds the formals to the arguments. -/
  | extendEnv (formals : List String)
  /-- The primitive procedure applied to the arguments. -/
  | applyPrimitive

/-- An instruction after which control goes on to the next one, a branch that is taken apart. -/
inductive Operation (L : Type) where
  | assign (target : Register) (source : Operand L)
  | save (r : Register)
  | restore (r : Register)
  /-- Binds a name to the value in the present frame. -/
  | define (name : String)
  /-- Overwrites the nearest binding of a name with the value. -/
  | set (name : String)
  /-- Raises the flag if the value is false. -/
  | testFalse
  /-- Raises the flag if the procedure is primitive. -/
  | testPrimitive
  /-- Goes to the target if the flag is raised. -/
  | branch (target : L)

/-- An instruction after which control never goes on to the next one. -/
inductive Transfer (L : Type) where
  | direct (target : L)
  /-- Goes where a register points. -/
  | indirect (r : Register)

/-- An entry of symbolic code. -/
inductive Statement where
  | label (name : Label)
  | perform (operation : Operation Label)
  | jump (transfer : Transfer Label)

namespace Operand

variable {L M : Type} {ε : Type}

/-- The registers whose contents an operand depends on. -/
def reads : Operand L → RegisterSet
  | const _ | label _ => .none
  | register r => .ofList [r]
  | lookup _ | makeClosure _ => .ofList [.env]
  | consArg => .ofList [.val, .argl]
  | listArg => .ofList [.val]
  | closureEnv | closureEntry => .ofList [.proc]
  | extendEnv _ => .ofList [.env, .argl]
  | applyPrimitive => .ofList [.proc, .argl]

/-- The text of an operand, given the names of its targets. -/
def text (name : L → String) : Operand L → String
  | const value => s!"(const {value.text})"
  | register r => s!"(reg {r.name})"
  | label target => s!"(label {name target})"
  | lookup x => s!"(lookup-variable-value {x})"
  | consArg => "(cons)"
  | listArg => "(list)"
  | makeClosure entry => s!"(make-compiled-procedure {name entry})"
  | closureEnv => "(compiled-procedure-env)"
  | closureEntry => "(compiled-procedure-entry)"
  | extendEnv formals => "(extend-environment (" ++ " ".intercalate formals ++ "))"
  | applyPrimitive => "(apply-primitive-procedure)"

/-- Replaces the targets, as far as all of them can be resolved. -/
def resolve (f : L → Except ε M) : Operand L → Except ε (Operand M)
  | const value => .ok (const value)
  | register r => .ok (register r)
  | label target => (f target).map label
  | lookup x => .ok (lookup x)
  | consArg => .ok consArg
  | listArg => .ok listArg
  | makeClosure entry => (f entry).map makeClosure
  | closureEnv => .ok closureEnv
  | closureEntry => .ok closureEntry
  | extendEnv formals => .ok (extendEnv formals)
  | applyPrimitive => .ok applyPrimitive

end Operand

namespace Operation

variable {L M : Type} {ε : Type}

/-- The registers whose contents an operation depends on. -/
def reads : Operation L → RegisterSet
  | assign _ source => source.reads
  | save r => .ofList [r]
  | restore _ => .none
  | define _ | set _ => .ofList [.env, .val]
  | testFalse => .ofList [.val]
  | testPrimitive => .ofList [.proc]
  | branch _ => .ofList [.flag]

/-- The registers whose contents an operation may change. -/
def writes : Operation L → RegisterSet
  | assign target _ | restore target => .ofList [target]
  | testFalse | testPrimitive => .ofList [.flag]
  | _ => .none

/-- The text of an operation, given the names of its targets. -/
def text (name : L → String) : Operation L → String
  | assign target source => s!"(assign {target.name} {source.text name})"
  | save r => s!"(save {r.name})"
  | restore r => s!"(restore {r.name})"
  | define x => s!"(define-variable! {x})"
  | set x => s!"(set-variable-value! {x})"
  | testFalse => "(test-false)"
  | testPrimitive => "(test-primitive-procedure)"
  | branch target => s!"(branch {name target})"

/-- Replaces the targets, as far as all of them can be resolved. -/
def resolve (f : L → Except ε M) : Operation L → Except ε (Operation M)
  | assign target source => (source.resolve f).map (assign target)
  | save r => .ok (save r)
  | restore r => .ok (restore r)
  | define x => .ok (define x)
  | set x => .ok (set x)
  | testFalse => .ok testFalse
  | testPrimitive => .ok testPrimitive
  | branch target => (f target).map branch

end Operation

namespace Transfer

variable {L M : Type} {ε : Type}

/-- The registers whose contents a transfer depends on. -/
def reads : Transfer L → RegisterSet
  | direct _ => .none
  | indirect r => .ofList [r]

/-- The text of a transfer, given the names of its targets. -/
def text (name : L → String) : Transfer L → String
  | direct target => s!"(goto-label {name target})"
  | indirect r => s!"(goto-reg {r.name})"

/-- Replaces the targets, as far as all of them can be resolved. -/
def resolve (f : L → Except ε M) : Transfer L → Except ε (Transfer M)
  | direct target => (f target).map direct
  | indirect r => .ok (indirect r)

end Transfer

namespace Statement

/-- The registers whose contents a statement depends on. -/
def reads : Statement → RegisterSet
  | label _ => .none
  | perform operation => operation.reads
  | jump transfer => transfer.reads

/-- The registers whose contents a statement may change. -/
def writes : Statement → RegisterSet
  | perform operation => operation.writes
  | _ => .none

/-- Whether a statement is an instruction, and not a mere label. -/
def isInstruction : Statement → Bool
  | label _ => false
  | _ => true

/-- Whether control never goes on to the statement after it. -/
def isTransfer : Statement → Bool
  | jump _ => true
  | _ => false

/-- The text of a statement. -/
def text : Statement → String
  | label name => name
  | perform operation => operation.text id
  | jump transfer => transfer.text id

/-- The statement as a line of a listing: instructions are indented, labels are not. -/
def line (s : Statement) : String :=
  if s.isInstruction then "  " ++ s.text else s.text

/-- The statement that assigns an operand to a register. -/
def assign (target : Register) (source : Operand Label) : Statement :=
  perform (.assign target source)

end Statement
end SchemeMachine
