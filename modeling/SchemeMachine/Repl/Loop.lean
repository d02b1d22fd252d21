import SchemeMachine.Host.Basic
import SchemeMachine.Repl.History
import SchemeMachine.Repl.Session

/-!
# Sessions on a host

A session greets, takes the lines of the input one by one, and says goodbye.  The history file is
loaded before and its directory is made afterwards; if that fails, there is a warning and no more.
-/

namespace SchemeMachine
namespace Repl

variable {m : Type → Type} [Monad m]

/-- Warns of something that failed. -/
def warn (host : Host m) (text : String) : m Unit :=
  host.printError (Text.red "Warning:" ++ " " ++ text ++ "\n")

/-- What a session says first. -/
def greeting : String :=
  Text.bold (Text.cyan "Slippy REPL v0.1.0") ++ "\n" ++
    Text.gray "Type :help for commands, (exit) or :quit to leave" ++ "\n\n"

/-- What a session says last. -/
def farewell : String :=
  "\n" ++ Text.cyan "Goodbye!" ++ "\n"

/-- Shows a notice, where `time` words the time that the line took. -/
def showNotice (host : Host m) (time : String) : Notice → m Unit
  | .output text => host.print text
  | .error text => host.printError text
  | .time => host.print (Text.gray time ++ "\n")

/-- Takes a line.  A session ends if a line takes more than `fuel` steps. -/
def takeLine (host : Host m) (fuel : Nat) (s : Session) (line : String) : m (Session × Bool) := do
  let (turn, time) ← host.timed fun _ => s.take fuel line
  match turn with
  | none => return (s, false)
  | some turn =>
    turn.notices.forM (showNotice host time)
    return (turn.session, turn.continues)

/-- Loads the history if there is any. -/
def loadHistory (host : Host m) (path : Path) : m Unit := do
  if ← host.pathExists path then
    match ← host.readText path with
    | .ok _ => return ()
    | .error e => warn host ("failed to load history from " ++ path ++ ": " ++ e.message)

/-- Makes the directory of the history file. -/
def keepHistory (host : Host m) (path : Path) : m Unit := do
  match path.parent? with
  | none => return ()
  | some directory =>
    match ← host.makeDirectories directory with
    | .ok _ => return ()
    | .error e =>
      warn host ("failed to create history directory " ++ directory ++ ": " ++ e.message)

/-- Runs a session from the first line of the input to the last. -/
def run (host : Host m) (fuel : Nat) (settings : Settings) : m Unit := do
  host.print greeting
  let history := historyPath? (← host.homeDirectory)
    (← host.environmentVariable historyVariable) settings.historyPath
  history.forM (loadHistory host)
  let _ ← host.eachLine (takeLine host fuel) (Session.new settings)
  history.forM (keepHistory host)
  host.print farewell

end Repl
end SchemeMachine
