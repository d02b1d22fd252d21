import SchemeMachine.Host.Path
import SchemeMachine.Text.Blank

/-!
# Where history is kept

The path of the history file is chosen by the environment, else by the settings, else it is
fixed.  A tilde stands for the home directory, and relative paths are seen from there.
-/

namespace SchemeMachine
namespace Repl

/-- The environment variable that chooses the history file. -/
def historyVariable : String := "SLIPPY_REPL_HISTORY_PATH"

/-- A text without the blanks around it, if anything is left. -/
def meaningful (text : Option String) : Option String :=
  match text.map Text.trimBlank with
  | some text => if text.isEmpty then none else some text
  | none => none

/-- The path that a chosen text stands for. -/
def expandHome (home : Option Path) (chosen : String) : Option Path :=
  match chosen.toList with
  | ['~'] => home
  | '~' :: '/' :: rest => home.map (Path.join · (String.ofList rest))
  | _ => if Path.isAbsolute chosen then some chosen else home.map (Path.join · chosen)

/-- The path of the history file, if it can be told. -/
def historyPath? (home : Option Path) (override configured : Option String) : Option Path :=
  match (meaningful override).or (meaningful configured) with
  | some chosen => expandHome home chosen
  | none => home.map fun home => Path.join (Path.join home ".slippy") "repl_history"

end Repl
end SchemeMachine
