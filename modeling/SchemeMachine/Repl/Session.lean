import SchemeMachine.Machine.Run
import SchemeMachine.Repl.Command
import SchemeMachine.Settings
import SchemeMachine.Text.Style

/-!
# Sessions

A session has one machine for all its lines, so what one line defines the next can use.  Lines are
collected until they make a complete input, which is then evaluated.  Commands are recognised only
at the beginning of an input.
-/

namespace SchemeMachine
namespace Repl

/-- What a session shows. -/
inductive Notice where
  | output (text : String)
  | error (text : String)
  /-- The time that the line took. -/
  | time
  deriving Repr, DecidableEq

/-- A line of output. -/
def sayLine (text : String) : Notice :=
  .output (text ++ "\n")

/-- An error and what it is about. -/
def complain (text : String) : Notice :=
  .error (Text.red "Error:" ++ " " ++ text ++ "\n")

/-- The state of a session. -/
structure Session where
  machine : Machine
  showTiming : Bool
  /-- The lines of the input that is not complete yet; an empty text if there are none. -/
  pending : String

/-- A session at its beginning. -/
def Session.new (settings : Settings) : Session :=
  ⟨.new settings.maxSteps, settings.showTiming, ""⟩

/-- What a line does to a session: what is shown, the session afterwards, and whether it goes on. -/
structure Turn where
  notices : List Notice
  session : Session
  continues : Bool

/-- What the command for help shows. -/
def helpText : List Notice :=
  let row (command remark : String) : Notice :=
    sayLine ("  " ++ Text.cyan command ++ "  " ++ Text.gray remark)
  [sayLine (Text.bold "Commands:"),
    row ":help, :h" "Show this help",
    row ":quit, :q, (exit)" "Exit the REPL",
    row ":reset, :r" "Start over with a fresh machine",
    row ":compile <expr>, :c <expr>" "Show the instruction sequence for an expression",
    row ":emit <expr>, :e <expr>" "Show the generated blocks for an expression",
    row ":stats" "Show counters for the last evaluation",
    sayLine "",
    sayLine (Text.gray "Input continues on the next line while parentheses are open."),
    sayLine (Text.gray "History file can be set with $SLIPPY_REPL_HISTORY_PATH.")]

/-- The counters of the last evaluation. -/
def statsText (stats : Stats) : List Notice :=
  let row (name : String) (count : Nat) : Notice :=
    sayLine (Text.yellow name ++ " " ++ Decimal.naturalText count)
  [row "steps:" stats.steps, row "bounces:" stats.bounces,
    row "max stack depth:" stats.maxStackDepth]

/-- The notice of an evaluation; a value that is not specified is not shown. -/
def resultText : Except EvalError Value → List Notice
  | .ok .unspecified => []
  | .ok value => [sayLine value.text]
  | .error e => [complain e.message]

namespace Session

/-- Carries out a command. -/
def obey (s : Session) : Command → Turn
  | .quit => ⟨[], s, false⟩
  | .help => ⟨helpText, s, true⟩
  | .reset =>
    ⟨[sayLine (Text.gray "Machine reset.")], { s with machine := s.machine.reset }, true⟩
  | .stats => ⟨statsText s.machine.stats, s, true⟩
  | .compile source =>
    match Expression.compileText source with
    | .ok code => ⟨[.output code.listing], s, true⟩
    | .error e => ⟨[complain e.message], s, true⟩
  | .emit source =>
    match Program.ofText source with
    | .ok p => ⟨[.output p.listing], s, true⟩
    | .error e => ⟨[complain e.message], s, true⟩

/-- Evaluates a complete input; nothing if that takes more than `fuel` steps. -/
def evaluate (fuel : Nat) (s : Session) (input : String) : Option Turn :=
  let ⟨machine, showTiming, _⟩ := s
  match machine.eval fuel input with
  | none => none
  | some (result, machine) =>
    let time := if showTiming then [Notice.time] else []
    some ⟨resultText result ++ time, ⟨machine, showTiming, ""⟩, true⟩

/-- Adds a line to the input, and evaluates the input if it is complete. -/
def extend (fuel : Nat) (s : Session) (line : String) : Option Turn :=
  let input := if s.pending.isEmpty then line else s.pending ++ "\n" ++ line
  if unfinished input then some ⟨[], { s with pending := input }, true⟩
  else if LineKind.ofLine input = .command .quit then
    some ⟨[], { s with pending := "" }, false⟩
  else s.evaluate fuel input

/-- Takes a line. -/
def take (fuel : Nat) (s : Session) (line : String) : Option Turn :=
  if s.pending.isEmpty then
    if Text.allBlank line then some ⟨[], s, true⟩
    else
      match LineKind.ofLine line with
      | .code => s.extend fuel line
      | .unknownCommand =>
        some ⟨[complain "unknown command. Type :help for usage."], s, true⟩
      | .misuse usage => some ⟨[complain usage], s, true⟩
      | .command c => some (s.obey c)
  else s.extend fuel line

end Session
end Repl
end SchemeMachine
