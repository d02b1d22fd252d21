import SchemeMachine.Code.Instruction

/-!
# Sequences of statements with their register use

A sequence is a list of statements together with the registers that it needs to find set and the
registers that it may change.  Both sets may be larger than what the statements do, never smaller.
Sequences are combined so that this stays true; in particular `preserving` puts two of them one
after the other and saves a register around the first exactly where the first may change it and
the second needs it.
-/

namespace SchemeMachine

/-- Statements with their register use. -/
structure Sequence where
  needs : RegisterSet
  modifies : RegisterSet
  statements : List Statement

namespace Sequence

/-- No statements, no registers. -/
def empty : Sequence := ⟨.none, .none, []⟩

/-- A sequence from lists of registers. -/
def of (needs modifies : List Register) (statements : List Statement) : Sequence :=
  ⟨.ofList needs, .ofList modifies, statements⟩

/-- A label alone. -/
def label (name : Label) : Sequence := of [] [] [.label name]

/-- One sequence and then another.  What the second needs, the first may supply. -/
def append (first second : Sequence) : Sequence where
  needs := first.needs.union (second.needs.diff first.modifies)
  modifies := first.modifies.union second.modifies
  statements := first.statements ++ second.statements

/-- Two alternatives, one written after the other, of which only one runs. -/
def parallel (first second : Sequence) : Sequence where
  needs := first.needs.union second.needs
  modifies := first.modifies.union second.modifies
  statements := first.statements ++ second.statements

/-- A sequence with other code written after it, such as the body of a procedure, that is reached by
jumps alone and whose register use is no concern of the sequence. -/
def tackOn (main body : Sequence) : Sequence where
  needs := main.needs
  modifies := main.modifies
  statements := main.statements ++ body.statements

/-- A sequence between saving and restoring a register. -/
def protect (s : Sequence) (r : Register) : Sequence where
  needs := s.needs.insert r
  modifies := s.modifies.erase r
  statements := .perform (.save r) :: (s.statements ++ [.perform (.restore r)])

/-- The first sequence with those of the registers protected that it may change and the second
needs. -/
def protectFor (registers : List Register) (first second : Sequence) : Sequence :=
  registers.foldl
    (fun s r => if s.modifies.contains r && second.needs.contains r then s.protect r else s) first

/-- One sequence and then another, where the first leaves the registers in the list as it found
them as far as the second needs them. -/
def preserving (registers : List Register) (first second : Sequence) : Sequence :=
  (protectFor registers first second).append second

/-- Any number of sequences, one after the other. -/
def appendAll (sequences : List Sequence) : Sequence :=
  sequences.foldl append empty

/-- The number of instructions. -/
def instructionCount (s : Sequence) : Nat :=
  s.statements.countP Statement.isInstruction

/-- The registers needed, the registers changed, then a line for each statement. -/
def listing (s : Sequence) : String :=
  String.join ((s.needs.text :: s.modifies.text :: s.statements.map Statement.line).map (· ++ "\n"))

end Sequence
end SchemeMachine
