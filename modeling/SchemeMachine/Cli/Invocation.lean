import SchemeMachine.Decimal.Numeral
import SchemeMachine.Host.Path

/-!
# Command lines

A command line consists of options, the name of a command, and the arguments and options of that
command.  It is read from left to right, one argument at a time.  The options `--config` and
`--max-steps` may stand before the command and behind it, and what stands behind it counts.  The
argument `--` ends the options.

A value that is an argument of its own is checked when the next option on its side of the command or
the end of the command line comes.  So a command that asks for help is answered even if the value
right before the command is no good.
-/

namespace SchemeMachine
namespace Cli

/-- How a program is shown. -/
inductive Format where
  | text
  | json
  deriving Repr, DecidableEq

/-- The commands. -/
inductive Verb where
  | run
  | compile
  | emit
  | repl
  deriving Repr, DecidableEq

/-- What is to be done. -/
inductive Task where
  | run (file : Path)
  | compile (file : Path)
  /-- Shows a program, on the output or in a file. -/
  | emit (file : Path) (format : Format) (output : Option Path)
  | repl
  deriving Repr, DecidableEq

/-- What a command line asks for. -/
structure Invocation where
  config : Option Path
  maxSteps : Option Nat
  task : Task
  deriving Repr, DecidableEq

/-- What help is about. -/
inductive Topic where
  | everything
  | verb (v : Verb)
  | help
  deriving Repr, DecidableEq

/-- What a command line amounts to. -/
inductive Request where
  | perform (i : Invocation)
  | version
  | help (topic : Topic)
  deriving Repr, DecidableEq

/-- The options that take a value. -/
inductive Setting where
  | config
  | maxSteps
  | format
  | output
  deriving Repr, DecidableEq

/-- What is wrong with a command line. -/
inductive UsageError where
  | unexpectedArgument (text : String)
  | unknownCommand (text : String)
  | missingValue (option : Setting)
  | invalidValue (option : Setting) (text : String)
  | repeated (option : Setting)
  | emptyFile
  | missingFile
  deriving Repr, DecidableEq

namespace Verb

/-- The name of a command. -/
def name : Verb → String
  | run => "run"
  | compile => "compile"
  | emit => "emit"
  | repl => "repl"

/-- All commands. -/
def all : List Verb := [run, compile, emit, repl]

/-- The command of that name. -/
def ofName? (text : String) : Option Verb :=
  all.find? fun v => v.name == text

/-- Whether a command works on a file. -/
def takesFile : Verb → Bool
  | repl => false
  | _ => true

end Verb

namespace Setting

/-- An option as usage texts show it. -/
def usage : Setting → String
  | config => "--config <CONFIG>"
  | maxSteps => "--max-steps <MAX_STEPS>"
  | format => "--format <FORMAT>"
  | output => "--output <OUTPUT>"

/-- The option of that long name, where the command is `verb`. -/
def ofLong? (verb : Option Verb) (name : String) : Option Setting :=
  match name with
  | "config" => some config
  | "max-steps" => some maxSteps
  | "format" => if verb = some .emit then some format else none
  | "output" => if verb = some .emit then some output else none
  | _ => none

end Setting

/-- The wording of a usage error. -/
def UsageError.message : UsageError → String
  | unexpectedArgument text => "unexpected argument '" ++ text ++ "' found"
  | unknownCommand text => "unrecognized subcommand '" ++ text ++ "'"
  | missingValue option =>
    "a value is required for '" ++ option.usage ++ "' but none was supplied"
  | invalidValue option text => "invalid value '" ++ text ++ "' for '" ++ option.usage ++ "'"
  | repeated option => "the argument '" ++ option.usage ++ "' cannot be used multiple times"
  | emptyFile => "a value is required for '<FILE>' but none was supplied"
  | missingFile => "the following required arguments were not provided:\n  <FILE>"

/-- The values that have been given, before a command or behind it. -/
structure Given where
  config : Option Path := none
  maxSteps : Option Nat := none
  format : Option Format := none
  output : Option Path := none
  file : Option Path := none
  /-- The last value, if it is still to be checked, and its option. -/
  unchecked : Option (Setting × String) := none
  deriving Repr, DecidableEq

/-- The format of that name. -/
def Format.ofName? : String → Option Format
  | "text" => some .text
  | "json" => some .json
  | _ => none

/-- A number of steps: a decimal numeral below `2 ^ 64`, which may have a plus sign. -/
def stepCount? (text : String) : Option Nat :=
  let digits := match text.toList with
    | '+' :: rest => rest
    | digits => digits
  match Decimal.natural? digits with
  | some n => if n < 18446744073709551616 then some n else none
  | none => none

/-- Sets an option.  No option is set twice, and paths are not empty. -/
def Given.set (g : Given) (option : Setting) (text : String) : Except UsageError Given :=
  match option with
  | .config =>
    if text.isEmpty then .error (.missingValue option)
    else if g.config.isSome then .error (.repeated option)
    else .ok { g with config := some text }
  | .maxSteps =>
    match stepCount? text with
    | none => .error (.invalidValue option text)
    | some n =>
      if g.maxSteps.isSome then .error (.repeated option) else .ok { g with maxSteps := some n }
  | .format =>
    match Format.ofName? text with
    | none => .error (.invalidValue option text)
    | some f =>
      if g.format.isSome then .error (.repeated option) else .ok { g with format := some f }
  | .output =>
    if text.isEmpty then .error (.missingValue option)
    else if g.output.isSome then .error (.repeated option)
    else .ok { g with output := some text }

/-- Checks the value that is still to be checked, if there is one. -/
def Given.settle (g : Given) : Except UsageError Given :=
  match g.unchecked with
  | none => .ok g
  | some (option, text) => Given.set { g with unchecked := none } option text

/-- Why reading a command line ends early. -/
inductive Stop where
  | usage (e : UsageError)
  /-- The rest of the command line does not matter. -/
  | request (r : Request)
  deriving Repr, DecidableEq

/-- What has been read of a command line. -/
structure Scan where
  /-- The command, once it is known. -/
  verb : Option Verb := none
  /-- The values that were given before the command. -/
  outer : Given := {}
  /-- The values that have been given since. -/
  here : Given := {}
  /-- The option whose value comes next. -/
  pending : Option Setting := none
  /-- Whether the options have ended. -/
  ended : Bool := false
  /-- What help is about, once it is asked for by its command. -/
  helpOn : Option Topic := none
  deriving Repr, DecidableEq

/-- The kinds of arguments. -/
inductive Shape where
  /-- The end of the options. -/
  | divider
  | long (name : String) (value : Option String)
  /-- Letters behind one dash. -/
  | short (letters : List Char)
  | plain
  deriving Repr, DecidableEq

/-- What an argument looks like; a dash alone is plain. -/
def Shape.ofText (text : String) : Shape :=
  match text.toList with
  | ['-', '-'] => .divider
  | '-' :: '-' :: rest =>
    let name := String.ofList (rest.takeWhile (· != '='))
    match rest.dropWhile (· != '=') with
    | [] => .long name none
    | _ :: value => .long name (some (String.ofList value))
  | '-' :: c :: rest => .short (c :: rest)
  | _ => .plain

namespace Scan

/-- The topic of help at this point. -/
def topic (s : Scan) : Topic :=
  match s.verb with
  | some v => .verb v
  | none => .everything

/-- Goes on with other values, unless they are wrong. -/
def withValues (s : Scan) : Except UsageError Given → Except Stop Scan
  | .ok here => .ok { s with here }
  | .error e => .error (.usage e)

/-- Sets an option. -/
def give (s : Scan) (option : Setting) (text : String) : Except Stop Scan :=
  s.withValues (s.here.set option text)

/-- Checks the last value on this side of the command. -/
def settle (s : Scan) : Except Stop Scan :=
  s.withValues s.here.settle

/-- Takes the value of an option, which is still to be checked. -/
def takeValue (s : Scan) (option : Setting) (text : String) : Scan :=
  { s with pending := none, here := { s.here with unchecked := some (option, text) } }

/-- Takes a long option.  Only options that take a value may have one. -/
def takeLong (s : Scan) (text name : String) (value : Option String) : Except Stop Scan :=
  match Setting.ofLong? s.verb name, value with
  | some option, some value => s.give option value
  | some option, none => .ok { s with pending := some option }
  | none, some _ => .error (.usage (.unexpectedArgument text))
  | none, none =>
    if name == "help" then .error (.request (.help s.topic))
    else if name == "version" && s.verb.isNone then .error (.request .version)
    else .error (.usage (.unexpectedArgument text))

/-- Takes letters behind a dash.  The first of them decides: it ends the command line, or the others
are its value. -/
def takeShort (s : Scan) (text : String) : List Char → Except Stop Scan
  | 'h' :: _ => .error (.request (.help s.topic))
  | 'V' :: _ =>
    if s.verb.isNone then .error (.request .version)
    else .error (.usage (.unexpectedArgument text))
  | 'o' :: rest =>
    if s.verb = some .emit then
      match rest with
      | [] => .ok { s with pending := some .output }
      | '=' :: value => s.give .output (String.ofList value)
      | value => s.give .output (String.ofList value)
    else .error (.usage (.unexpectedArgument text))
  | _ => .error (.usage (.unexpectedArgument text))

/-- Takes a file. -/
def takeFile (s : Scan) (text : String) : Except Stop Scan :=
  match s.verb with
  | none => .error (.usage (.unexpectedArgument text))
  | some v =>
    if !v.takesFile || s.here.file.isSome then .error (.usage (.unexpectedArgument text))
    else if text.isEmpty then .error (.usage .emptyFile)
    else .ok { s with here := { s.here with file := some text } }

/-- Takes an argument that is no option: the name of a command if there is none yet, else a file. -/
def takePlain (s : Scan) (text : String) : Except Stop Scan :=
  match s.verb with
  | some _ => s.takeFile text
  | none =>
    match Verb.ofName? text with
    | some v => .ok { s with verb := some v, outer := s.here, here := {} }
    | none =>
      if text == "help" then .ok { s with helpOn := some .everything }
      else .error (.usage (.unknownCommand text))

/-- Narrows the topic of help; no topic has topics of its own but the program. -/
def takeTopic (s : Scan) (topic : Topic) (text : String) : Except Stop Scan :=
  match topic, Verb.ofName? text with
  | .everything, some v => .ok { s with helpOn := some (.verb v) }
  | .everything, none =>
    if text == "help" then .ok { s with helpOn := some .help }
    else .error (.usage (.unknownCommand text))
  | _, _ => .error (.usage (.unknownCommand text))

/-- Takes an argument.  The value of an option cannot look like an option. -/
def take (s : Scan) (text : String) : Except Stop Scan :=
  match s.helpOn with
  | some topic => s.takeTopic topic text
  | none =>
    if s.ended then s.takeFile text
    else
      match Shape.ofText text, s.pending with
      | .plain, some option => .ok (s.takeValue option text)
      | .plain, none => s.takePlain text
      | _, some option => .error (.usage (.missingValue option))
      | .divider, none => .ok { s with ended := true }
      | .long name value, none => s.settle >>= fun s => s.takeLong text name value
      | .short letters, none => s.settle >>= fun s => s.takeShort text letters

/-- What the values before the command and those behind it ask for. -/
def request (verb : Option Verb) (outer here : Given) : Except UsageError Request :=
  let perform (task : Task) : Request :=
    .perform ⟨here.config.or outer.config, here.maxSteps.or outer.maxSteps, task⟩
  match verb, here.file with
  | none, _ | some .repl, _ => .ok (perform .repl)
  | some _, none => .error .missingFile
  | some .run, some file => .ok (perform (.run file))
  | some .compile, some file => .ok (perform (.compile file))
  | some .emit, some file => .ok (perform (.emit file (here.format.getD .text) here.output))

/-- What has been asked for when the command line is at its end. -/
def finish (s : Scan) : Except UsageError Request :=
  match s.helpOn, s.pending with
  | some topic, _ => .ok (.help topic)
  | none, some option => .error (.missingValue option)
  | none, none => do request s.verb (← s.outer.settle) (← s.here.settle)

end Scan

/-- What a command line asks for. -/
def Request.ofArguments (arguments : List String) : Except UsageError Request :=
  match arguments.foldlM Scan.take {} with
  | .ok s => s.finish
  | .error (.request request) => .ok request
  | .error (.usage e) => .error e

end Cli
end SchemeMachine
