import SchemeMachine.Code.Instruction

/-!
# Programs

A program is an array of blocks.  A block is straight-line code with a name and exactly one exit;
its jump targets are the numbers of blocks.  A number may lie outside the program: such a target
has the name `?` in listings, and going there is an error when it happens.
-/

namespace SchemeMachine

/-- The number of a block in its program. -/
abbrev BlockId := Nat

/-- How control leaves a block. -/
inductive Exit where
  | jump (transfer : Transfer BlockId)
  /-- The program is done. -/
  | halt

/-- Straight-line code with one exit. -/
structure Block where
  name : String
  operations : List (Operation BlockId)
  exit : Exit

/-- Blocks and the number of the one to begin with. -/
structure Program where
  blocks : Array Block
  entry : BlockId

namespace Program

/-- The block of that number. -/
def block? (p : Program) (id : BlockId) : Option Block :=
  p.blocks[id]?

/-- The number of the first block of that name. -/
def find? (p : Program) (name : String) : Option BlockId :=
  p.blocks.findIdx? (·.name == name)

/-- The name of a block in listings. -/
def nameOf (p : Program) (id : BlockId) : String :=
  match p.block? id with
  | some block => block.name
  | none => "?"

/-- The text of an exit. -/
def exitText (p : Program) : Exit → String
  | .jump transfer => transfer.text p.nameOf
  | .halt => "(halt)"

/-- The lines of a block: its name, then its operations and its exit, indented. -/
def blockLines (p : Program) (b : Block) : List String :=
  (b.name ++ ":") :: (b.operations.map (·.text p.nameOf) ++ [p.exitText b.exit]).map ("  " ++ ·)

/-- Every block with its lines, an empty line between blocks. -/
def listing (p : Program) : String :=
  "\n".intercalate
    (p.blocks.toList.map fun b => String.join ((p.blockLines b).map (· ++ "\n")))

end Program
end SchemeMachine
