import SchemeMachine.Proofs.Evaluator
import SchemeMachine.Proofs.Likeness.Machine

/-!
# Stores of the evaluator and of the machine

The evaluator and the machine make the same frames with the same numbers.  A procedure of the
evaluator is a closure of the machine whose code was compiled from what is written.  The machine
makes more objects, such as lists of arguments, so tags are matched rather than equal, and the
matching grows as objects are made on both sides.

This module says when a store of the evaluator stands for one of the machine, and that what either
does to its store keeps it so.
-/

namespace SchemeMachine

/-- A reference to code that was compiled from a procedure: a label, the two instructions that open a
frame, and the body, which returns to the caller. -/
def Procedure.CompiledAt (procedure : Procedure) (ref : CodeRef) : Prop :=
  ∃ (site : Site) (entry : Label) (body : Sequence) (rest : List Statement) (n n' : Nat),
    ref = site.code.ref (site.number entry) ∧
    procedure.body ≠ [] ∧
    Expression.compileSequence .val .caller (procedure.body.map Expression.ofDatum) n =
      .ok body n' ∧
    site.Covers (.label entry :: .assign .env .closureEnv ::
      .assign .env (.extendEnv procedure.formals) :: (body.statements ++ rest))

/-- Procedures are matched with their code.  No value of the evaluator is a place in code or a
frame. -/
def compiled : Matching Procedure CodeRef :=
  ⟨Procedure.CompiledAt, fun _ _ => False, fun _ _ => False⟩

theorem compiled_faithful : compiled.Faithful :=
  ⟨fun h => h.elim, fun _ _ _ h => h.elim, fun _ _ _ h => h.elim⟩

/-- The store of the evaluator stands for the store of the machine. -/
structure Represents (W : TagMatch) (w : Store Procedure) (s : Store) : Prop where
  like : w.Like compiled W s
  unique : Relator.BiUnique W
  below : W.Below w.nextTag s.nextTag

namespace Represents

variable {W : TagMatch} {w : Store Procedure} {s : Store}

/-- Both sides make alike values when they build alike. -/
theorem make (h : Represents W w s) (build : Tag → Value Procedure × Tag)
    (build' : Tag → Value × Tag)
    (hbuild : Made compiled W w.nextTag s.nextTag (build w.nextTag) (build' s.nextTag)) :
    ∃ W', W ≤ W' ∧ Represents W' (w.make build).2 (s.make build').2 ∧
      (w.make build).1.Like compiled W' (s.make build').1 := by
  obtain ⟨count, hw, hs, hlike⟩ := hbuild
  refine ⟨W.grow w.nextTag s.nextTag count, W.le_grow _ _ _, ⟨?_, ?_, ?_⟩, hlike⟩
  · exact (h.like.mono (W.le_grow _ _ _)).withTags _ _
  · exact h.below.biUnique_grow h.unique count
  · simp only [Store.make, hw, hs]
    exact h.below.grow count

/-- The machine may make objects of its own. -/
theorem skip (h : Represents W w s) {tag : Tag} (htag : s.nextTag ≤ tag) :
    Represents W w { s with nextTag := tag } := by
  refine ⟨h.like, h.unique, ?_⟩
  intro x y hxy
  exact ⟨(h.below x y hxy).1, Nat.lt_of_lt_of_le (h.below x y hxy).2 htag⟩

theorem define (h : Represents W w s) (f : FrameId) (name : String) {v : Value Procedure}
    {v' : Value} (hv : v.Like compiled W v') :
    Represents W (w.define f name v) (s.define f name v') :=
  ⟨h.like.define f name hv, h.unique, h.below⟩

/-- A new frame gets the same number on both sides. -/
theorem push (h : Represents W w s) {f : Frame Procedure} {g : Frame}
    (hf : f.Like compiled W g) :
    (w.push f).1 = (s.push g).1 ∧ Represents W (w.push f).2 (s.push g).2 :=
  ⟨(h.like.push hf).1, (h.like.push hf).2, h.unique, h.below⟩

end Represents

/-- The machine and the evaluator begin with the same frame, which binds the primitives. -/
theorem represents_new (maxSteps : Option Nat) :
    Represents (fun _ _ => False) ((Store.empty.newRoot).2.install Machine.global)
      (Machine.new maxSteps).store := by
  have hempty : (Store.empty : Store Procedure).Like compiled (fun _ _ => False) Store.empty := by
    intro f
    exact .none
  have hroot : Frame.Like compiled (fun _ _ => False) (⟨[], none⟩ : Frame Procedure) ⟨[], none⟩ :=
    ⟨.nil, rfl⟩
  refine ⟨?_, ⟨fun _ _ _ h => h.elim, fun _ _ _ h => h.elim⟩, fun _ _ h => h.elim⟩
  exact (hempty.push hroot).2.install Machine.global

/-- Errors that code which was compiled never runs into: the save stack is too short, a jump leads
nowhere, the environment is no frame or the arguments are no list. -/
def RunError.Internal : RunError → Prop
  | stackUnderflow _ | notALabel _ | missingBlock _ => True
  | typeMismatch procedure expected _ =>
    procedure = "env register" ∨ procedure = "extend-environment" ∨ expected = "argument list"
  | _ => False

/-- Results that are no internal errors. -/
def Ordinary {α : Type} (x : Except RunError α) : Prop :=
  ∀ e, x = .error e → ¬ e.Internal

theorem Ordinary.ok {α : Type} (a : α) : Ordinary (.ok a : Except RunError α) :=
  nofun

theorem Ordinary.error {α : Type} {e : RunError} (h : ¬ e.Internal) :
    Ordinary (.error e : Except RunError α) := by
  rintro _ ⟨⟩
  exact h

theorem Ordinary.bind {α β : Type} {x : Except RunError α} {f : α → Except RunError β}
    (h : Ordinary x) (hf : ∀ a, Ordinary (f a)) : Ordinary (x >>= f) := by
  cases x with
  | error e => exact .error (h e rfl)
  | ok a => exact hf a

theorem Ordinary.map {α β : Type} {x : Except RunError α} (f : α → β) (h : Ordinary x) :
    Ordinary (x.map f) := by
  cases x with
  | error e => exact .error (h e rfl)
  | ok a => exact .ok (f a)

namespace Primitive

theorem numbers_ordinary (p : Primitive) (args : List Value) : Ordinary (p.numbers args) := by
  induction args with
  | nil => exact .ok []
  | cons v rest ih =>
      cases v with
      | number n => exact ih.map (n :: ·)
      | _ => exact .error (by cases p <;> simp [RunError.Internal, name])

theorem divide_ordinary (a b : Number) : Ordinary (a.divide b) := by
  unfold Number.divide
  split
  · exact .error id
  · split
    · exact .ok _
    · exact .ok _
  · exact .ok _

theorem quotient_ordinary (ns : List Number) (n : Number) :
    Ordinary (ns.foldlM Number.divide n) := by
  induction ns generalizing n with
  | nil => exact .ok n
  | cons m rest ih =>
      rw [List.foldlM_cons]
      exact (divide_ordinary n m).bind ih

theorem calculate_ordinary (p : Primitive) (ns : List Number) :
    Ordinary (p.calculate ns : Except RunError Value) := by
  cases p with
  | add | multiply | equal | less | greater | lessOrEqual | greaterOrEqual => exact .ok _
  | subtract =>
      match ns with
      | [] => exact .error id
      | [_] => exact .ok _
      | _ :: _ :: _ => exact .ok _
  | divide =>
      match ns with
      | [] => exact .error id
      | [n] => exact (divide_ordinary (.int 1) n).map _
      | m :: n :: rest => exact (quotient_ordinary (n :: rest) m).map _
  | _ => exact .error id

/-- What goes wrong in a primitive is never an internal error. -/
theorem apply_ordinary (p : Primitive) (args : List Value) (tag : Tag) :
    Ordinary (p.apply args tag) := by
  have hnumeric : Ordinary
      (do let result ← p.calculate (← p.numbers args); return (result, tag)) :=
    (numbers_ordinary p args).bind fun ns => (calculate_ordinary p ns).bind fun _ => .ok _
  unfold apply
  split
  · unfold run
    split
    all_goals first
      | exact hnumeric
      | exact .ok _
      | exact .error (by simp [RunError.Internal, name])
  · exact .error id

end Primitive
end SchemeMachine
