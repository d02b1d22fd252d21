import SchemeMachine.Host.FileTree

/-!
# A host in memory

A host in memory has a file tree, a working directory, environment variables and the lines of its
input, and it collects what is printed.  Time is not measured here; a fixed word stands for it.
-/

namespace SchemeMachine

/-- A system that a command can run on, as a value. -/
structure MemoryHost where
  tree : FileTree
  workingDirectory : Place
  environment : List (String × String)
  input : List String
  output : String := ""
  errors : String := ""

namespace MemoryHost

/-- The path of a place. -/
def pathOf (place : Place) : Path :=
  "/" ++ "/".intercalate place

/-- The word that stands for a time. -/
def timeWord : String := "(TIME)"

/-- Changes the tree, or keeps it where that fails. -/
def changeTree (change : FileTree → Place → Except FileError FileTree) :
    StateM MemoryHost (Except FileError Unit) := do
  let h ← get
  match change h.tree h.workingDirectory with
  | .ok tree =>
    set { h with tree }
    return .ok ()
  | .error e => return .error e

/-- Feeds lines to a step until it wants no more; the lines that are left stay in the input. -/
def feed {σ : Type} (step : σ → String → StateM MemoryHost (σ × Bool)) :
    List String → σ → StateM MemoryHost σ
  | [], s => do
    modify fun h => { h with input := [] }
    return s
  | line :: rest, s => do
    let (s, more) ← step s line
    if more then feed step rest s
    else
      modify fun h => { h with input := rest }
      return s

/-- What the host in memory does when it is asked. -/
def host : Host (StateM MemoryHost) where
  readText p := do
    let h ← get
    return h.tree.readText h.workingDirectory p
  writeText p text := changeTree fun t base => t.writeText base p text
  isFile p := do
    let h ← get
    return h.tree.isFile h.workingDirectory p
  pathExists p := do
    let h ← get
    return (h.tree.find h.workingDirectory p).isOk
  makeDirectories p := changeTree fun t base => t.makeDirectories base p
  workingDirectory := do return pathOf (← get).workingDirectory
  homeDirectory := do return (← get).environment.lookup "HOME"
  environmentVariable name := do return (← get).environment.lookup name
  print text := modify fun h => { h with output := h.output ++ text }
  printError text := modify fun h => { h with errors := h.errors ++ text }
  eachLine step s := do feed step (← get).input s
  timed compute := return (compute (), timeWord)

end MemoryHost
end SchemeMachine
