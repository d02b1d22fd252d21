import SchemeMachine.Cli.Invocation

/-!
# Help

The help of the program and of its commands.
-/

namespace SchemeMachine
namespace Cli

/-- Lines, each with its line feed. -/
def unlines (lines : List String) : String :=
  String.join (lines.map (· ++ "\n"))

/-- What a command does. -/
def Verb.about : Verb → String
  | run => "Compile and run a source file, printing the final value"
  | compile => "Print the instruction sequence for a source file"
  | emit => "Print the generated block program for a source file"
  | repl => "Start the interactive REPL (default)"

/-- What the command for help does. -/
def aboutHelp : String := "Print this message or the help of the given subcommand(s)"

/-- How a command is called. -/
def Verb.usage (v : Verb) : String :=
  "Usage: slippy " ++ v.name ++ " [OPTIONS]" ++ if v.takesFile then " <FILE>" else ""

/-- The row for the option `--config`. -/
def configRow : String :=
  "      --config <CONFIG>        Read configuration from this file instead of searching for " ++
    "slippy.toml"

/-- The row for the option `--max-steps`. -/
def maxStepsRow : String :=
  "      --max-steps <MAX_STEPS>  Abort execution after this many machine steps"

/-- The row for the option `--help`. -/
def helpRow : String :=
  "  -h, --help                   Print help"

/-- The rows for the options of a command. -/
def Verb.optionRows : Verb → List String
  | emit =>
    [configRow,
      "      --format <FORMAT>        [default: text] [possible values: text, json]",
      maxStepsRow,
      "  -o, --output <OUTPUT>        Write to this file instead of stdout",
      helpRow]
  | _ => [configRow, maxStepsRow, helpRow]

/-- The text of help. -/
def Topic.text : Topic → String
  | everything =>
    unlines
      ["Scheme compiler for a trampolined register machine", "",
        "Usage: slippy [OPTIONS] [COMMAND]", "",
        "Commands:",
        "  run      " ++ Verb.run.about,
        "  compile  " ++ Verb.compile.about,
        "  emit     " ++ Verb.emit.about,
        "  repl     " ++ Verb.repl.about,
        "  help     " ++ aboutHelp, "",
        "Options:", configRow, maxStepsRow, helpRow,
        "  -V, --version                Print version"]
  | verb v =>
    unlines
      ([v.about, "", v.usage, ""] ++
        (if v.takesFile then ["Arguments:", "  <FILE>  ", ""] else []) ++
        "Options:" :: v.optionRows)
  | help =>
    unlines
      [aboutHelp, "", "Usage: slippy help [COMMAND]...", "",
        "Arguments:", "  [COMMAND]...  Print help for the subcommand(s)"]

end Cli
end SchemeMachine
