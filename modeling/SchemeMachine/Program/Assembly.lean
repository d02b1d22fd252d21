import SchemeMachine.Expression.Compile
import SchemeMachine.Program.Basic

/-!
# Assembling statements into a program

Symbolic code is cut at its labels.  The statements before the first label form the block `main`,
and every label begins the block of its name; blocks are numbered in that order, and labels are
replaced by numbers.  A block that runs into a label jumps there, and the last block halts.

Labels must be distinct and different from `main`, the targets of jumps must exist, and nothing may
follow a transfer but a label.
-/

namespace SchemeMachine

/-- Why statements do not make a program. -/
inductive AssemblyError where
  | undefinedLabel (name : Label)
  | duplicateLabel (name : Label)
  | unreachable (block : String) (instruction : Statement)

/-- The wording of an assembly error. -/
def AssemblyError.message : AssemblyError → String
  | undefinedLabel name => s!"jump to undefined label {name}"
  | duplicateLabel name => s!"label {name} defined twice"
  | unreachable block instruction =>
    s!"unreachable instruction {instruction.text} after the exit of block {block}"

namespace Program

/-- The name of the block that comes before every label. -/
def entryName : Label := "main"

/-- The labels of statements, in order. -/
def labels : List Statement → List Label
  | [] => []
  | .label name :: rest => name :: labels rest
  | _ :: rest => labels rest

/-- The first label that has occurred before, given those already seen. -/
def firstDuplicate? (seen : List Label) : List Label → Option Label
  | [] => none
  | name :: rest =>
    if seen.contains name then some name else firstDuplicate? (name :: seen) rest

/-- The number of the block that a label begins, given the names of all blocks in order. -/
def resolve (names : List Label) (name : Label) : Except AssemblyError BlockId :=
  match names.idxOf? name with
  | some id => .ok id
  | none => .error (.undefinedLabel name)

/-- The blocks of statements.  The block now open has a name, the operations so far, latest first,
and its exit once a transfer has closed it. -/
def cut (names : List Label) (name : Label) (done : List (Operation BlockId))
    (exit : Option Exit) : List Statement → Except AssemblyError (List Block)
  | [] => .ok [⟨name, done.reverse, exit.getD .halt⟩]
  | .label next :: rest => do
    let id ← resolve names next
    let blocks ← cut names next [] none rest
    return ⟨name, done.reverse, exit.getD (.jump (.direct id))⟩ :: blocks
  | .perform operation :: rest =>
    if exit.isSome then .error (.unreachable name (.perform operation))
    else do
      let operation ← operation.resolve (resolve names)
      cut names name (operation :: done) none rest
  | .jump transfer :: rest =>
    if exit.isSome then .error (.unreachable name (.jump transfer))
    else do
      let transfer ← transfer.resolve (resolve names)
      cut names name done (some (.jump transfer)) rest

/-- The program that statements make. -/
def assemble (statements : List Statement) : Except AssemblyError Program :=
  let names := labels statements
  match firstDuplicate? [entryName] names with
  | some name => .error (.duplicateLabel name)
  | none => do
    let blocks ← cut (entryName :: names) entryName [] none statements
    return ⟨blocks.toArray, 0⟩

end Program

/-- Why a text does not make a program. -/
inductive BuildError where
  | compile (error : CompileError)
  | assembly (error : AssemblyError)

/-- The wording of a build error. -/
def BuildError.message : BuildError → String
  | compile error => error.message
  | assembly error => s!"codegen error: {error.message}"

/-- The program of a text. -/
def Program.ofText (source : String) : Except BuildError Program :=
  match Expression.compileText source with
  | .error e => .error (.compile e)
  | .ok s =>
    match Program.assemble s.statements with
    | .error e => .error (.assembly e)
    | .ok p => .ok p

end SchemeMachine
