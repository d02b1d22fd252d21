import SchemeMachine.Toml.Parser

/-!
# Settings

Settings come from a TOML document.  The table `repl` says where the history of a session is kept
and whether evaluations are timed, the table `machine` how many steps a run may take.  What is
missing has a default, what has no meaning is ignored, and what has the wrong type makes the
document unusable.
-/

namespace SchemeMachine

/-- What can be configured. -/
structure Settings where
  /-- Where the history of a session is kept. -/
  historyPath : Option String := none
  /-- Whether the time of every evaluation is shown. -/
  showTiming : Bool := true
  /-- How many steps a run may take. -/
  maxSteps : Option Nat := none
  deriving Repr, DecidableEq

namespace Settings

/-- The entries of a table that may be missing. -/
def tableOf? (root : Toml.Entries) (name : String) : Option Toml.Entries :=
  match root.lookup name with
  | none => some []
  | some (.table _ entries) => some entries
  | some _ => none

/-- The settings that a document makes. -/
def ofEntries? (root : Toml.Entries) : Option Settings := do
  let repl ← tableOf? root "repl"
  let machine ← tableOf? root "machine"
  let historyPath ← match repl.lookup "history_path" with
    | none => some none
    | some (.string path) => some (some path)
    | some _ => none
  let showTiming ← match repl.lookup "show_timing" with
    | none => some true
    | some (.boolean b) => some b
    | some _ => none
  let maxSteps ← match machine.lookup "max_steps" with
    | none => some none
    | some (.integer n) => if 0 ≤ n then some (some n.toNat) else none
    | some _ => none
  return { historyPath, showTiming, maxSteps }

/-- The settings that a text makes. -/
def ofText? (source : String) : Option Settings :=
  (Toml.parse? source).bind ofEntries?

end Settings
end SchemeMachine
