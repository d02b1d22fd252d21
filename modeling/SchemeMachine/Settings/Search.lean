import SchemeMachine.Host.Basic
import SchemeMachine.Settings

/-!
# Where settings come from

Settings are read from a file that is named, or else from the nearest settings file at or above the
working directory.  A named file must be usable; one that was only found is ignored if it is not.
-/

namespace SchemeMachine

/-- Why there are no settings. -/
inductive SettingsError where
  | unreadable (path : Path) (cause : FileError)
  | malformed (path : Path)
  deriving Repr, DecidableEq

/-- The wording of a settings error. -/
def SettingsError.message : SettingsError → String
  | unreadable path cause => "cannot read '" ++ path ++ "': " ++ cause.message
  | malformed path => "invalid toml in '" ++ path ++ "': not a settings file"

namespace Settings

/-- The name of settings files. -/
def fileName : String := "slippy.toml"

variable {m : Type → Type} [Monad m]

/-- The settings that a file makes. -/
def load (host : Host m) (path : Path) : m (Except SettingsError Settings) := do
  match ← host.readText path with
  | .error cause => return .error (.unreadable path cause)
  | .ok text =>
    match ofText? text with
    | some settings => return .ok settings
    | none => return .error (.malformed path)

/-- The first of some directories' settings files that is there. -/
def firstFile? (host : Host m) : List Path → m (Option Path)
  | [] => return none
  | directory :: rest => do
    let candidate := Path.join directory fileName
    if ← host.isFile candidate then return some candidate
    else firstFile? host rest

/-- The settings file that is nearest to a directory, looking upward. -/
def nearestFile? (host : Host m) (start : Path) : m (Option Path) :=
  firstFile? host start.ancestors

/-- The settings of the working directory. -/
def nearest (host : Host m) : m Settings := do
  match ← nearestFile? host (← host.workingDirectory) with
  | none => return {}
  | some path =>
    match ← load host path with
    | .ok settings => return settings
    | .error _ => return {}

end Settings
end SchemeMachine
