import SchemeMachine.Proofs.Session

/-!
# Proper tail calls

A procedure that makes a tail call leaves the save stack and `kontinue` to the procedure it calls as
it found them itself.  So do all procedures that follow one another by tail calls: however long the
chain, each is entered with the save stack that the first was entered with.

The activations of a watched run are a stack of their own.  A step of sound code takes one off, puts
one on or leaves them all as they are, and a tail call is of the last kind.
-/

namespace SchemeMachine

namespace Watched

/-- The run is about to go where a register points. -/
def LeavesBy (x : Watched) (r : Register) : Prop :=
  ∃ m c, x.progress = .running m c ∧ c.LeavesBy r

instance (x : Watched) (r : Register) : Decidable (x.LeavesBy r) :=
  match x with
  | ⟨.running m c, _⟩ => decidable_of_iff (c.LeavesBy r) (by simp [LeavesBy])
  | ⟨.finished _ _, _⟩ => isFalse (by simp [LeavesBy])

/-- The procedure that was entered latest at step `i` makes a tail call at step `k`: until then it has
not been left, though it may have called others, and they have all returned. -/
structure TailCall (run : Nat → Watched) (i k : Nat) : Prop where
  later : i ≤ k
  underWay : ∀ l, i ≤ l → l ≤ k →
    (run i).calls.activations.length ≤ (run l).calls.activations.length
  latest : (run k).calls.activations.length = (run i).calls.activations.length
  leaves : (run k).LeavesBy .val
  unarmed : (run k).calls.armed = false

instance (run : Nat → Watched) (i k : Nat) : Decidable (TailCall run i k) :=
  decidable_of_iff
    (i ≤ k ∧ (∀ l < k + 1, i ≤ l →
        (run i).calls.activations.length ≤ (run l).calls.activations.length) ∧
      (run k).calls.activations.length = (run i).calls.activations.length ∧
      (run k).LeavesBy .val ∧ (run k).calls.armed = false)
    ⟨fun ⟨later, underWay, latest, leaves, unarmed⟩ =>
        ⟨later, fun l hi hk => underWay l (Nat.lt_succ_of_le hk) hi, latest, leaves, unarmed⟩,
      fun h => ⟨h.later, fun l hk hi => h.underWay l hi (Nat.le_of_lt_succ hk), h.latest, h.leaves,
        h.unarmed⟩⟩

/-- The procedure that was entered at step `i` and those entered by one tail call after another. -/
inductive TailChain (run : Nat → Watched) (i : Nat) : Nat → Prop
  | first : TailChain run i i
  | call {j k : Nat} (chain : TailChain run i j) (tailCall : TailCall run j k) :
      TailChain run i (k + 1)

variable {run : Nat → Watched}

/-- The last procedure of a chain has been entered, as the first has. -/
theorem TailChain.leaves {i j : Nat} (h : TailChain run (i + 1) j) (hi : (run i).LeavesBy .val) :
    ∃ k, j = k + 1 ∧ (run k).LeavesBy .val := by
  cases h with
  | first => exact ⟨i, rfl, hi⟩
  | call _ tailCall => exact ⟨_, rfl, tailCall.leaves⟩

end Watched

end SchemeMachine
