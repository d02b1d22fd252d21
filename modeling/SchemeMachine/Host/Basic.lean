import SchemeMachine.Host.Path

/-!
# The host

What the command line asks of the system it runs on: files, directories, lines of input, output and
a clock.  The command line is written for any host, so that it runs on the real system and on one
that is kept in memory alike.
-/

namespace SchemeMachine

/-- Why a file or directory cannot be had. -/
inductive FileError where
  | notFound
  | alreadyExists
  | notADirectory
  | isADirectory
  /-- The file is no text. -/
  | invalidText
  /-- Something else, in the words of the system. -/
  | other (text : String)
  deriving Repr, DecidableEq

/-- The wording of a file error. -/
def FileError.message : FileError → String
  | notFound => "No such file or directory (os error 2)"
  | alreadyExists => "File exists (os error 17)"
  | notADirectory => "Not a directory (os error 20)"
  | isADirectory => "Is a directory (os error 21)"
  | invalidText => "stream did not contain valid UTF-8"
  | other text => text

/-- The system that a command runs on. -/
structure Host (m : Type → Type) where
  readText : Path → m (Except FileError String)
  writeText : Path → String → m (Except FileError Unit)
  isFile : Path → m Bool
  pathExists : Path → m Bool
  /-- Makes a directory and those above it that are missing. -/
  makeDirectories : Path → m (Except FileError Unit)
  workingDirectory : m Path
  homeDirectory : m (Option Path)
  environmentVariable : String → m (Option String)
  print : String → m Unit
  printError : String → m Unit
  /-- Feeds the lines of the input to a step, which says whether it wants more. -/
  eachLine : {σ : Type} → (σ → String → m (σ × Bool)) → σ → m σ
  /-- Computes a value and words the time that this took. -/
  timed : {α : Type} → (Unit → α) → m (α × String)

end SchemeMachine
