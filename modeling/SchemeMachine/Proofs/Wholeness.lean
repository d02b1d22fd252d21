import SchemeMachine.Proofs.Faults

/-!
# Which programs can be compiled

Forms make a program when no part of the expressions that they stand for is malformed.  How many
labels have been made before has no say in it.

Compiling reports the first fault of an expression, so it succeeds where there is none.  Where calls
can return, as they can in a program, the faults are the malformed parts.
-/

namespace SchemeMachine

namespace Compile

variable {α : Type} {x : Compile α} {p q : Prop}

/-- Whatever the counter, a step of compilation succeeds exactly when `p` holds. -/
def SucceedsIff (x : Compile α) (p : Prop) : Prop :=
  ∀ n, (∃ a n', x n = .ok a n') ↔ p

theorem SucceedsIff.congr (h : SucceedsIff x p) (hpq : p ↔ q) : SucceedsIff x q :=
  fun n => (h n).trans hpq

theorem Reports.succeedsIff {fault : Option CompileError} (h : Reports x fault) :
    SucceedsIff x (fault = none) := by
  intro n
  rw [← h n]
  exact error?_eq_none_iff.symm

end Compile

namespace Expression

open Compile

mutual

/-- Whether no part of an expression is malformed. -/
def isWhole : Expression → Bool
  | constant _ => true
  | reference _ => true
  | assignment _ value => isWhole value
  | definition _ value => isWhole value
  | conditional test consequent alternative =>
    isWhole test && isWhole consequent && isWhole alternative
  | lambda _ body => allWhole body
  | sequence body => allWhole body
  | application operator operands => isWhole operator && allWhole operands
  | malformed _ => false

/-- Whether all of a row of expressions are whole. -/
def allWhole : List Expression → Bool
  | [] => true
  | e :: es => isWhole e && allWhole es

end

theorem allWhole_eq_all (es : List Expression) : allWhole es = es.all isWhole := by
  induction es with
  | nil => rfl
  | cons e es ih => rw [allWhole, ih, List.all_cons]

/-- Where calls can return, the last of a sequence is checked as the others are. -/
theorem firstFaultInOrder_none (es : List Expression) :
    firstFaultInOrder none es = firstFaultAmong es := by
  induction es with
  | nil => rw [firstFaultInOrder, firstFaultAmong]
  | cons first rest ih =>
    cases rest with
    | nil => rw [firstFaultInOrder, firstFaultAmong, firstFaultAmong, Option.or_none]
    | cons second rest => rw [firstFaultInOrder_cons, ih, ← firstFaultAmong]

mutual

/-- An expression without a fault is whole. -/
theorem firstFault_none_eq_none_iff :
    ∀ e : Expression, e.firstFault none = none ↔ e.isWhole = true
  | constant _ | reference _ => by simp [firstFault, isWhole]
  | assignment _ value | definition _ value => by
      rw [firstFault, isWhole]
      exact firstFault_none_eq_none_iff value
  | conditional test consequent alternative => by
      rw [firstFault, isWhole, Option.or_eq_none_iff, Option.or_eq_none_iff, Bool.and_eq_true,
        Bool.and_eq_true, and_assoc, firstFault_none_eq_none_iff test,
        firstFault_none_eq_none_iff consequent, firstFault_none_eq_none_iff alternative]
  | lambda _ body | sequence body => by
      rw [firstFault, isWhole, firstFaultInOrder_none]
      exact firstFaultAmong_eq_none_iff body
  | application operator operands => by
      rw [firstFault, isWhole, Option.map_none, Option.or_none, Option.or_eq_none_iff,
        Bool.and_eq_true, firstFault_none_eq_none_iff operator,
        firstFaultAmong_eq_none_iff operands]
  | malformed why => by simp [firstFault, isWhole]

theorem firstFaultAmong_eq_none_iff :
    ∀ es : List Expression, firstFaultAmong es = none ↔ allWhole es = true
  | [] => by simp [firstFaultAmong, allWhole]
  | operand :: rest => by
      rw [firstFaultAmong, allWhole, Option.or_eq_none_iff, Bool.and_eq_true,
        firstFault_none_eq_none_iff operand, firstFaultAmong_eq_none_iff rest]

end

/-- Forms make a program exactly when all of them are whole. -/
theorem compileProgram_succeedsIff (forms : List Datum) :
    SucceedsIff (compileProgram forms) (∀ d ∈ forms, (ofDatum d).isWhole = true) := by
  apply (compileSequence_reports .val .next (forms.map ofDatum)).succeedsIff.congr
  rw [Linkage.unreturnable?_val, firstFaultInOrder_none, firstFaultAmong_eq_none_iff,
    allWhole_eq_all, List.all_map, List.all_eq_true]
  rfl

end Expression
end SchemeMachine
