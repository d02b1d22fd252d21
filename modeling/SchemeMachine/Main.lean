import SchemeMachine.Cli.Run
import SchemeMachine.Text.Elapsed
import SchemeMachine.Text.Lines

/-!
# The program

The command line on the real system.
-/

open SchemeMachine

namespace SchemeMachine
namespace RealHost

/-- More steps than anyone waits for. -/
def lifetime : Nat := 1000000000000000000

/-- The file error behind an error of the system. -/
def fileError : IO.Error → FileError
  | .noFileOrDirectory .. | .noSuchThing .. => .notFound
  | .alreadyExists .. => .alreadyExists
  | .inappropriateType _ code _ => if code = 21 then .isADirectory else .notADirectory
  | e => .other (toString e)

/-- What an action gives, or why it fails. -/
def attempt {α : Type} (action : IO α) : IO (Except FileError α) := do
  match ← action.toBaseIO with
  | .ok a => return .ok a
  | .error e => return .error (fileError e)

/-- Whether a path leads to a directory. -/
def isDirectory (p : Path) : IO Bool := do
  ((← IO.currentDir) / p).isDir

/-- Makes a directory after the missing ones above it, of which the paths are given, nearest
first. -/
def makeAll : List Path → IO (Except FileError Unit)
  | [] => return .error .notFound
  | p :: above => do
    if p.isEmpty then return .ok ()
    match ← attempt (IO.FS.createDir p) with
    | .ok _ => return .ok ()
    | .error .notFound =>
      match ← makeAll above with
      | .error e => return .error e
      | .ok _ => orDirectory p (← attempt (IO.FS.createDir p))
    | .error e => orDirectory p (.error e)
where
  /-- A failure does not matter if the directory is there. -/
  orDirectory (p : Path) : Except FileError Unit → IO (Except FileError Unit)
    | .ok _ => return .ok ()
    | .error e => return if ← isDirectory p then .ok () else .error e

/-- Feeds the lines of the standard input to a step until it wants no more. -/
partial def feed {σ : Type} (input : IO.FS.Stream) (step : σ → String → IO (σ × Bool)) (s : σ) :
    IO σ := do
  match Text.lines (← input.getLine) with
  | line :: _ =>
    let (s, more) ← step s line
    if more then feed input step s else return s
  | [] => return s

/-- The real system. -/
def host : Host IO where
  readText p := do
    match ← attempt (IO.FS.readBinFile p) with
    | .error e => return .error e
    | .ok bytes =>
      match String.fromUTF8? bytes with
      | some text => return .ok text
      | none => return .error .invalidText
  writeText p text := attempt (IO.FS.writeBinFile p text.toUTF8)
  isFile p := do
    let path := (← IO.currentDir) / p
    if ← path.pathExists then return !(← path.isDir) else return false
  pathExists p := do ((← IO.currentDir) / p).pathExists
  makeDirectories p := makeAll p.ancestors
  workingDirectory := do return (← IO.currentDir).toString
  homeDirectory := IO.getEnv "HOME"
  environmentVariable name := IO.getEnv name
  print text := do
    let out ← IO.getStdout
    out.putStr text
    out.flush
  printError text := IO.eprint text
  eachLine step s := do feed (← IO.getStdin) step s
  timed compute := do
    let start ← IO.monoNanosNow
    let a ← IO.lazyPure compute
    return (a, Text.elapsed ((← IO.monoNanosNow) - start))

end RealHost
end SchemeMachine

/-- Runs the command line. -/
def main (arguments : List String) : IO UInt32 :=
  Cli.run RealHost.host RealHost.lifetime arguments
