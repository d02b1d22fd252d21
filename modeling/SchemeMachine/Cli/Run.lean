import SchemeMachine.Cli.Help
import SchemeMachine.Program.Json
import SchemeMachine.Repl.Loop
import SchemeMachine.Settings.Search

/-!
# Running command lines

A command line is run on a host and ends with an exit code: zero for success, one for a failure
of the task, two for a command line that makes no sense.
-/

namespace SchemeMachine
namespace Cli

/-- Why a task fails. -/
inductive TaskError where
  | settings (e : SettingsError)
  | unreadable (path : Path) (cause : FileError)
  | unwritable (path : Path) (cause : FileError)
  | compile (e : CompileError)
  | build (e : BuildError)
  | eval (e : EvalError)
  /-- The run takes more steps than it was given. -/
  | abandoned

/-- The wording of a task's failure. -/
def TaskError.message : TaskError → String
  | settings e => e.message
  | unreadable path cause => "cannot read '" ++ path ++ "': " ++ cause.message
  | unwritable path cause => "cannot write '" ++ path ++ "': " ++ cause.message
  | compile e => e.message
  | build e => e.message
  | eval e => e.message
  | abandoned => "the run was given up"

variable {m : Type → Type} [Monad m]

/-- The text of a source file. -/
def readSource (host : Host m) (file : Path) : ExceptT TaskError m String := do
  match ← host.readText file with
  | .ok text => return text
  | .error cause => throw (.unreadable file cause)

/-- The settings of an invocation. -/
def settingsOf (host : Host m) (i : Invocation) : ExceptT TaskError m Settings := do
  let settings ← match i.config with
    | none => liftM (Settings.nearest host)
    | some path =>
      match ← liftM (Settings.load host path) with
      | .ok settings => pure settings
      | .error e => throw (.settings e)
  return { settings with maxSteps := i.maxSteps.or settings.maxSteps }

/-- What a run shows: the value, unless it is not specified. -/
def runText (fuel : Nat) (settings : Settings) (source : String) : Except TaskError String :=
  match (Machine.new settings.maxSteps).eval fuel source with
  | none => .error .abandoned
  | some (.error e, _) => .error (.eval e)
  | some (.ok .unspecified, _) => .ok ""
  | some (.ok value, _) => .ok (value.text ++ "\n")

/-- The instruction sequence of a source text. -/
def compileText (source : String) : Except TaskError String :=
  match Expression.compileText source with
  | .ok code => .ok code.listing
  | .error e => .error (.compile e)

/-- The program of a source text. -/
def emitText (format : Format) (source : String) : Except TaskError String :=
  match Program.ofText source, format with
  | .ok p, .text => .ok p.listing
  | .ok p, .json => .ok (p.jsonText ++ "\n")
  | .error e, _ => .error (.build e)

/-- Shows a text on the output or writes it to a file. -/
def deliver (host : Host m) (text : String) : Option Path → ExceptT TaskError m Unit
  | none => host.print text
  | some path => do
    match ← host.writeText path text with
    | .ok _ => return ()
    | .error cause => throw (.unwritable path cause)

/-- Performs what an invocation asks for.  Settings are read first, whether they matter or not. -/
def perform (host : Host m) (fuel : Nat) (i : Invocation) : ExceptT TaskError m Unit := do
  let settings ← settingsOf host i
  match i.task with
  | .run file =>
    let source ← readSource host file
    host.print (← runText fuel settings source)
  | .compile file =>
    let source ← readSource host file
    host.print (← compileText source)
  | .emit file format output =>
    let source ← readSource host file
    deliver host (← emitText format source) output
  | .repl => liftM (Repl.run host fuel settings)

/-- Runs a command line and gives the exit code. -/
def run (host : Host m) (fuel : Nat) (arguments : List String) : m UInt32 := do
  match Request.ofArguments arguments with
  | .error e =>
    host.printError ("error: " ++ e.message ++ "\n\nFor more information, try '--help'.\n")
    return 2
  | .ok .version =>
    host.print "slippy 0.1.0\n"
    return 0
  | .ok (.help topic) =>
    host.print topic.text
    return 0
  | .ok (.perform i) =>
    match ← (perform host fuel i).run with
    | .ok _ => return 0
    | .error e =>
      host.printError (Text.red "Error:" ++ " " ++ e.message ++ "\n")
      return 1

end Cli
end SchemeMachine
