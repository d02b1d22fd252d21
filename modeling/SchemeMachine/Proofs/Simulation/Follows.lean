import SchemeMachine.Proofs.Scene
import SchemeMachine.Proofs.Simulation.Representation

/-!
# Runs that follow a computation

A run of the machine follows a computation of the evaluator when it gets to where the result is, or
fails as the computation fails, or, if the computation is given up, goes on for as many steps as
procedures may be entered within each other.

All scenes on the way are sound: the store stands for one of the evaluator, the stack that each
activation was entered with is still at the bottom of the save stack, what is entered is the
procedure in `proc`, and an activation that returns or hands over to another has its stack and its
`kontinue` as they were.
-/

namespace SchemeMachine

/-- What is true between any two steps of compiled code. -/
structure Scene.Steady (s : Scene) : Prop where
  represented : ∃ W w, Represents W w s.store
  bottom : ∀ a ∈ s.calls.activations, a.stack.toList <+: s.stack.toList

/-- Control is about to return through `kontinue` or to make a tail call. -/
def Scene.HandsOver (s : Scene) : Prop :=
  s.control.LeavesBy .kontinue ∨ s.control.LeavesBy .val ∧ s.calls.armed = false

/-- A steady scene in which control goes through `val` to the entry of the procedure in `proc` alone,
and nothing is handed over but by an activation that has cleaned up. -/
structure Scene.Sound (s : Scene) : Prop extends s.Steady where
  entering : s.control.LeavesBy .val → ∃ tag entry f,
    s.registers.proc = .closure tag entry f ∧ s.registers.val = .label entry
  clean : s.HandsOver → ∃ a others, s.calls.activations = a :: others ∧
    s.stack = a.stack ∧ s.registers.kontinue = a.kontinue

namespace Scene.Steady

variable {site : Site} {s : Scene} {rest : List Statement}

theorem later {s' : Scene} (h : s.Steady) (hstore : s'.store = s.store)
    (hstack : s'.stack = s.stack) (hactivations : s'.calls.activations = s.calls.activations) :
    s'.Steady := by
  refine ⟨?_, ?_⟩
  · rw [hstore]
    exact h.represented
  · rw [hstack, hactivations]
    exact h.bottom

theorem sound_staying (h : s.Steady) (hstays : ∀ r, ¬ s.control.LeavesBy r) : s.Sound := by
  refine ⟨h, fun hleaves => absurd hleaves (hstays .val), ?_⟩
  rintro (hleaves | ⟨hleaves, -⟩)
  · exact absurd hleaves (hstays .kontinue)
  · exact absurd hleaves (hstays .val)

theorem sound_perform {operation : Operation Label} (h : s.Steady)
    (hc : s.control = site.before (.perform operation :: rest)) : s.Sound := by
  refine h.sound_staying ?_
  rintro r ⟨hoperations, -⟩
  rw [hc, Site.before_perform] at hoperations
  cases hoperations

theorem sound_label {name : Label} (h : s.Steady)
    (hc : s.control = site.before (.label name :: rest)) : s.Sound := by
  refine h.sound_staying ?_
  rintro r ⟨-, hexit⟩
  rw [hc, Site.before_label] at hexit
  cases hexit

theorem sound_direct {name : Label} (h : s.Steady)
    (hc : s.control = site.before (.jump (.direct name) :: rest)) : s.Sound := by
  refine h.sound_staying ?_
  rintro r ⟨-, hexit⟩
  rw [hc, Site.before_jump] at hexit
  cases hexit

theorem sound_end (h : s.Steady) (hc : s.control = site.before []) : s.Sound := by
  refine h.sound_staying ?_
  rintro r ⟨-, hexit⟩
  rw [hc, Site.before_end] at hexit
  cases hexit

/-- An activation that has cleaned up may return. -/
theorem sound_return (h : s.Steady)
    (hc : s.control = site.before (.jump (.indirect .kontinue) :: rest)) {a : Activation}
    {others : List Activation} (hactivations : s.calls.activations = a :: others)
    (hstack : s.stack = a.stack) (hkontinue : s.registers.kontinue = a.kontinue) : s.Sound := by
  refine ⟨h, ?_, fun _ => ⟨a, others, hactivations, hstack, hkontinue⟩⟩
  rintro ⟨-, hexit⟩
  rw [hc, Site.before_jump] at hexit
  cases hexit

end Scene.Steady

/-- A call that returns hands nothing over. -/
theorem Scene.not_handsOver_of_armed {site : Site} {s : Scene} {rest : List Statement}
    (hc : s.control = site.before (.jump (.indirect .val) :: rest))
    (harmed : s.calls.armed = true) : ¬ s.HandsOver := by
  rintro (⟨-, hexit⟩ | ⟨-, hunarmed⟩)
  · rw [hc, Site.before_jump] at hexit
    cases hexit
  · rw [harmed] at hunarmed
    cases hunarmed

/-- One scene comes `count` steps after another, through sound scenes. -/
inductive Reaches : Nat → Scene → Scene → Prop
  | refl (s : Scene) : Reaches 0 s s
  | step {count : Nat} {s s' s'' : Scene} (sound : s.Sound) (next : s.next = .running s')
      (rest : Reaches count s' s'') : Reaches (count + 1) s s''

theorem Reaches.trans {m n : Nat} {s s' s'' : Scene} (h : Reaches m s s')
    (h' : Reaches n s' s'') : Reaches (m + n) s s'' := by
  induction h with
  | refl s => rwa [Nat.zero_add]
  | step sound next _ ih =>
      rw [Nat.succ_add]
      exact .step sound next (ih h')

/-- The scene is the last before a run fails with an error of the evaluator, which leaves a store
that stands for the evaluator's. -/
def Scene.FailsWith (s : Scene) (e : RunError Procedure) (w : Store Procedure) : Prop :=
  s.Sound ∧ ∃ store e' W, s.next = .finished s.stack store (.error e') ∧
    Represents W w store ∧ e.Like compiled W e' ∧ ¬ e'.Internal

variable {α β : Type}

/-- From a scene on, a run follows a computation, whose result has `post` where it is reached. -/
def Follows (depth : Nat) (s : Scene)
    (x : Option (Except (RunError Procedure) α × Store Procedure))
    (post : α → Store Procedure → Scene → Prop) : Prop :=
  match x with
  | some (.ok a, w) => ∃ count s', Reaches count s s' ∧ post a w s'
  | some (.error e, w) => ∃ count s', Reaches count s s' ∧ s'.FailsWith e w
  | none => ∃ count s', Reaches count s s' ∧ depth ≤ count

namespace Follows

variable {depth : Nat} {s s' : Scene}
  {x : Option (Except (RunError Procedure) α × Store Procedure)}
  {post : α → Store Procedure → Scene → Prop}

theorem done {a : α} {w : Store Procedure} (h : post a w s) :
    Follows depth s (some (.ok a, w)) post :=
  ⟨0, s, .refl s, h⟩

theorem fails {e : RunError Procedure} {w : Store Procedure} (h : s.FailsWith e w) :
    Follows depth s (some (.error e, w)) post :=
  ⟨0, s, .refl s, h⟩

/-- What follows from a scene follows from any that leads there. -/
theorem from_later {count : Nat} (h : Reaches count s s') (hx : Follows depth s' x post) :
    Follows depth s x post := by
  match x with
  | some (.ok a, w) =>
      obtain ⟨more, s'', hreach, hpost⟩ := hx
      exact ⟨count + more, s'', h.trans hreach, hpost⟩
  | some (.error e, w) =>
      obtain ⟨more, s'', hreach, hfails⟩ := hx
      exact ⟨count + more, s'', h.trans hreach, hfails⟩
  | none =>
      obtain ⟨more, s'', hreach, hle⟩ := hx
      exact ⟨count + more, s'', h.trans hreach, Nat.le_add_left_of_le hle⟩

/-- One step before a run that follows. -/
theorem step (hs : s.Sound) (hnext : s.next = .running s') (hx : Follows depth s' x post) :
    Follows depth s x post :=
  from_later (.step hs hnext (.refl s')) hx

/-- A step allows for one more procedure to be entered. -/
theorem deeper (hs : s.Sound) (hnext : s.next = .running s') (hx : Follows depth s' x post) :
    Follows (depth + 1) s x post := by
  match x with
  | some (.ok a, w) => exact step hs hnext hx
  | some (.error e, w) => exact step hs hnext hx
  | none =>
      obtain ⟨count, s'', hreach, hle⟩ := hx
      exact ⟨count + 1, s'', .step hs hnext hreach, Nat.succ_le_succ hle⟩

/-- Steps that change nothing about the result may come after it. -/
theorem andThen {post' : α → Store Procedure → Scene → Prop} (hx : Follows depth s x post)
    (h : ∀ a w s', post a w s' → Follows depth s' (some (.ok a, w)) post') :
    Follows depth s x post' := by
  match x with
  | some (.ok a, w) =>
      obtain ⟨count, s', hreach, hpost⟩ := hx
      exact from_later hreach (h a w s' hpost)
  | some (.error e, w) => exact hx
  | none => exact hx

/-- A run that follows one computation and then, from its result, another follows both. -/
theorem bind {c : Evaluator α} {k : α → Evaluator β} {w : Store Procedure}
    {post : α → Store Procedure → Scene → Prop} {post' : β → Store Procedure → Scene → Prop}
    (hx : Follows depth s (c w) post)
    (hk : ∀ a w' s', post a w' s' → Follows depth s' (k a w') post') :
    Follows depth s ((c >>= k) w) post' := by
  cases hc : c w with
  | none =>
      rw [hc] at hx
      rw [Evaluator.bind_of_none hc]
      exact hx
  | some result =>
      rw [hc] at hx
      obtain ⟨e | a, w'⟩ := result
      · rw [Evaluator.bind_of_error hc]
        exact hx
      · obtain ⟨count, s', hreach, hpost⟩ := hx
        rw [Evaluator.bind_of_ok hc]
        exact from_later hreach (hk a w' s' hpost)

end Follows
end SchemeMachine
