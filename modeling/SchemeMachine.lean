import SchemeMachine.Cli.Help
import SchemeMachine.Cli.Invocation
import SchemeMachine.Cli.Run
import SchemeMachine.Code.Instruction
import SchemeMachine.Code.Register
import SchemeMachine.Code.Sequence
import SchemeMachine.Datum.Basic
import SchemeMachine.Datum.Printer
import SchemeMachine.Datum.Reader
import SchemeMachine.Decimal.Layout
import SchemeMachine.Decimal.Numeral
import SchemeMachine.Decimal.Real
import SchemeMachine.Decimal.Shortest
import SchemeMachine.Expression.Analysis
import SchemeMachine.Expression.Basic
import SchemeMachine.Expression.Compile
import SchemeMachine.Host.Basic
import SchemeMachine.Host.FileTree
import SchemeMachine.Host.Memory
import SchemeMachine.Host.Path
import SchemeMachine.Json.Basic
import SchemeMachine.Json.Parser
import SchemeMachine.Machine.Basic
import SchemeMachine.Machine.Run
import SchemeMachine.Main
import SchemeMachine.Number
import SchemeMachine.Program.Assembly
import SchemeMachine.Program.Basic
import SchemeMachine.Program.Json
import SchemeMachine.Repl.Command
import SchemeMachine.Repl.History
import SchemeMachine.Repl.Loop
import SchemeMachine.Repl.Session
import SchemeMachine.Settings
import SchemeMachine.Settings.Search
import SchemeMachine.Text.Blank
import SchemeMachine.Text.Elapsed
import SchemeMachine.Text.Hidden
import SchemeMachine.Text.Lines
import SchemeMachine.Text.Style
import SchemeMachine.Toml.Basic
import SchemeMachine.Toml.Parser
import SchemeMachine.Value.Basic
import SchemeMachine.Value.Inspect
import SchemeMachine.Value.Primitive
import SchemeMachine.Value.Store
import SchemeMachine.Proofs.Likeness.Store
import SchemeMachine.Proofs.Assembly
import SchemeMachine.Proofs.Likeness.Machine
import SchemeMachine.Proofs.FlatCode
import SchemeMachine.Proofs.Evaluator
import SchemeMachine.Proofs.Scene
import SchemeMachine.Proofs.Simulation.Representation
import SchemeMachine.Proofs.Simulation.Follows
import SchemeMachine.Proofs.Simulation.Sequencing
import SchemeMachine.Proofs.Simulation.Codes
import SchemeMachine.Proofs.Simulation.Calls
import SchemeMachine.Proofs.Simulation.Forms
import SchemeMachine.Proofs.Session
import SchemeMachine.Proofs.TailCalls
import SchemeMachine.Proofs.Labels
import SchemeMachine.Proofs.Correctness
import SchemeMachine.Proofs.Blocks
import SchemeMachine.Proofs.Reading.Layout
import SchemeMachine.Proofs.Reading.RoundTrip
import SchemeMachine.Proofs.Registers.Discipline
import SchemeMachine.Proofs.Registers.Forms
import SchemeMachine.Proofs.Registers.Operations
import SchemeMachine.Proofs.Registers.Positions
import SchemeMachine.Proofs.Registers.Tandem
import SchemeMachine.Proofs.Registers.Soundness
import SchemeMachine.Proofs.Leftovers
import SchemeMachine.Proofs.Frames
import SchemeMachine.Proofs.Budget
import SchemeMachine.Proofs.Internals
import SchemeMachine.Proofs.Reading.Yields
import SchemeMachine.Proofs.Reading.Joined
import SchemeMachine.Proofs.Wholeness
import SchemeMachine.Proofs.Marks
import SchemeMachine.Proofs.Rewording
import SchemeMachine.Proofs.JoinedTexts
import SchemeMachine.Proofs.Reading.Reprinted
import SchemeMachine.Proofs.Reading.Spans
import SchemeMachine.Proofs.Reading.Unfinished
import SchemeMachine.Proofs.Reading.Composed
import SchemeMachine.Proofs.Reading.Culprits
import SchemeMachine.Proofs.Json.Programs
import SchemeMachine.Proofs.Acceptance
import SchemeMachine.Proofs.FreshLabels
import SchemeMachine.Proofs.Faults
import SchemeMachine.Proofs.TailPositions
import SchemeMachine.Proofs.StraightLine
import SchemeMachine.Proofs.Preserving
import SchemeMachine.Proofs.ExactArithmetic
import SchemeMachine.Proofs.Denotation
import SchemeMachine.Proofs.DerivedForms
import SchemeMachine.Proofs.Renumbering
import SchemeMachine.Proofs.Reading.Levels
import SchemeMachine.Proofs.Reading.Numbering
import SchemeMachine.Proofs.Reading.Brackets
import SchemeMachine.Proofs.Reading.Calls
import SchemeMachine.Proofs.Registers.Effects
import SchemeMachine.Proofs.HistoryPaths
