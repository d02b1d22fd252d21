import SchemeMachine.Machine.Run

/-!
# Runs step by step

A run is told by where the machine stands after each number of steps.  A finished run stays as it is.
-/

namespace SchemeMachine
namespace Progress

/-- One step more, unless the run is finished. -/
def next : Progress → Progress
  | running m c => Machine.step c m
  | finished m outcome => finished m outcome

/-- Where a run stands `count` steps later. -/
def after : Nat → Progress → Progress
  | 0, p => p
  | count + 1, p => after count p.next

theorem after_finished (count : Nat) (m : Machine) (outcome : Except RunError Value) :
    after count (finished m outcome) = finished m outcome := by
  induction count with
  | zero => rfl
  | succ count ih => exact ih

/-- A run ends within a number of steps exactly when it is finished that many steps later. -/
theorem runWithin_eq_some_iff {count : Nat} {p : Progress} {m : Machine}
    {outcome : Except RunError Value} :
    Machine.runWithin count p = some (outcome, m) ↔ after count p = finished m outcome := by
  induction count generalizing p with
  | zero =>
      cases p with
      | running m' c => simp [Machine.runWithin, after]
      | finished m' o => simp [Machine.runWithin, after, and_comm]
  | succ count ih =>
      cases p with
      | running m' c =>
          simp only [Machine.runWithin, after, next]
          exact ih
      | finished m' o => simp [Machine.runWithin, after, next, after_finished, and_comm]

end Progress
end SchemeMachine
