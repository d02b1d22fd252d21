import SchemeMachine.Machine.Basic
import SchemeMachine.Program.Assembly

/-!
# Running programs

Control is what is left of the block that is being run.  One step performs one operation or leaves
by the exit, and counts; beyond the limit it is refused after it has been counted.  A run repeats
steps until the program halts or an error stops it.  Runs may go on forever, so the function that
runs a machine takes the number of steps it is allowed to look at and returns nothing if they do
not suffice.
-/

namespace SchemeMachine

/-- What is left of the block that is being run. -/
structure Control where
  code : Loaded
  operations : List (Operation BlockId)
  exit : Exit

/-- Where a machine stands after a step. -/
inductive Progress where
  | running (machine : Machine) (control : Control)
  | finished (machine : Machine) (outcome : Except RunError Value)

namespace Machine

/-- Begins a block. -/
def enter (code : Loaded) (block : BlockId) (m : Machine) : Progress :=
  match code.program.block? block with
  | some b => .running m ⟨code, b.operations, b.exit⟩
  | none => .finished m (.error (.missingBlock block))

/-- Begins the block that a reference points to, counting a bounce. -/
def bounce (target : CodeRef) (m : Machine) : Progress :=
  let ⟨maxSteps, registers, stack, store, stats⟩ := m
  enter ⟨target.load, target.program⟩ target.block
    ⟨maxSteps, registers, stack, store, { stats with bounces := stats.bounces + 1 }⟩

/-- Leaves a block. -/
def leave (code : Loaded) (exit : Exit) (m : Machine) : Progress :=
  match exit with
  | .halt => .finished m (.ok m.registers.val)
  | .jump (.direct target) => enter code target m
  | .jump (.indirect r) =>
    match m.registers.get r with
    | .label target => bounce target m
    | other => .finished m (.error (.notALabel other))

/-- Counts a step. -/
def tick {C : Type} (m : Machine C) : Machine C :=
  let ⟨maxSteps, registers, stack, store, stats⟩ := m
  ⟨maxSteps, registers, stack, store, { stats with steps := stats.steps + 1 }⟩

/-- The limit, if more steps than that have been counted. -/
def exceeded? {C : Type} (m : Machine C) : Option Nat :=
  match m.maxSteps with
  | some limit => if limit < m.stats.steps then some limit else none
  | none => none

/-- Performs the next operation or leaves the block. -/
def advance (c : Control) (m : Machine) : Progress :=
  match c.operations with
  | [] => leave c.code c.exit m
  | operation :: rest =>
    match perform c.code.ref operation m with
    | .error e m => .finished m (.error e)
    | .ok none m => .running m ⟨c.code, rest, c.exit⟩
    | .ok (some target) m => enter c.code target m

/-- One step, which counts before it is taken. -/
def step (c : Control) (m : Machine) : Progress :=
  let m := m.tick
  match m.exceeded? with
  | some limit => .finished m (.error (.stepLimitExceeded limit))
  | none => advance c m

/-- Takes steps until the run is finished; nothing if that takes more than `fuel` of them. -/
def runWithin : Nat → Progress → Option (Except RunError Value × Machine)
  | _, .finished m outcome => some (outcome, m)
  | 0, .running _ _ => none
  | fuel + 1, .running m c => runWithin fuel (step c m)

/-- Loads a program and stands at its entry, with fresh counters and the global environment. -/
def start (p : Program) (m : Machine) : Progress :=
  let ⟨maxSteps, registers, stack, store, _⟩ := m
  let load := store.nextTag
  bounce ⟨load, p, p.entry⟩
    ⟨maxSteps, registers.set .env (.environment global), stack,
      { store with nextTag := load + 1 }, {}⟩

/-- Forgets what is saved. -/
def clearStack (m : Machine) : Machine :=
  let ⟨maxSteps, registers, _, store, stats⟩ := m
  ⟨maxSteps, registers, #[], store, stats⟩

/-- Runs a program; its value is that of `val` in the end.  An error leaves what has been defined,
and clears the save stack. -/
def execute (fuel : Nat) (m : Machine) (p : Program) : Option (Except RunError Value × Machine) :=
  match runWithin fuel (m.start p) with
  | none => none
  | some (.ok value, m) => some (.ok value, m)
  | some (.error e, m) => some (.error e, m.clearStack)

end Machine

/-- What can go wrong between a text and its value. -/
inductive EvalError where
  | build (error : BuildError)
  | run (error : RunError)

/-- The wording of an evaluation error. -/
def EvalError.message : EvalError → String
  | build error => error.message
  | run error => s!"runtime error: {error.message}"

/-- Evaluates a text on a machine.  A text that makes no program leaves the machine as it was. -/
def Machine.eval (fuel : Nat) (m : Machine) (source : String) :
    Option (Except EvalError Value × Machine) :=
  match Program.ofText source with
  | .error e => some (.error (.build e), m)
  | .ok p =>
    match m.execute fuel p with
    | none => none
    | some (.ok value, m) => some (.ok value, m)
    | some (.error e, m) => some (.error (.run e), m)

end SchemeMachine
