import SchemeMachine.Machine.Basic

/-!
# Evaluating forms directly

A recursive evaluator that gives forms their meaning without any code.  It goes by the shape of a
form, in a frame, and works on the same stores and values as the machine, except that values refer
to procedures by what is written: their formals and their body.

A form may run forever, so the evaluator gives up when procedures are entered deeper within each
other than a bound.  Forms that are no programs have no meaning here, and the evaluator gives up on
them too.
-/

namespace SchemeMachine

/-- A procedure as it is written. -/
structure Procedure where
  formals : List String
  body : List Datum

/-- Values hold procedures in closures alone, which are told apart by their tags, so procedures
themselves are never compared. -/
instance : BEq Procedure := ⟨fun _ _ => false⟩

/-- Computations that work on a store and may fail; one that is given up has no result. -/
def Evaluator (α : Type) : Type :=
  Store Procedure → Option (Except (RunError Procedure) α × Store Procedure)

namespace Evaluator

variable {α : Type}

instance : Monad Evaluator where
  pure a := fun w => some (.ok a, w)
  bind x f := fun w =>
    match x w with
    | none => none
    | some (.error e, w) => some (.error e, w)
    | some (.ok a, w) => f a w

instance : LawfulMonad Evaluator :=
  LawfulMonad.mk' Evaluator
    (by
      intro α x
      funext w
      change (match x w with
        | none => none
        | some (.error e, w) => some (.error e, w)
        | some (.ok a, w) => some (.ok a, w)) = x w
      cases x w with
      | none => rfl
      | some result => obtain ⟨e | a, w⟩ := result <;> rfl)
    (fun _ _ => rfl)
    (by
      intro α β γ x f g
      funext w
      simp only [bind]
      cases x w with
      | none => rfl
      | some result => obtain ⟨e | a, w⟩ := result <;> rfl)

section Bind

variable {β : Type} {x : Evaluator α} {f : α → Evaluator β} {w w' : Store Procedure}

theorem bind_of_none (h : x w = none) : (x >>= f) w = none := by
  simp only [bind, h]

theorem bind_of_error {e : RunError Procedure} (h : x w = some (.error e, w')) :
    (x >>= f) w = some (.error e, w') := by
  simp only [bind, h]

theorem bind_of_ok {a : α} (h : x w = some (.ok a, w')) : (x >>= f) w = f a w' := by
  simp only [bind, h]

end Bind

/-- No result. -/
def giveUp : Evaluator α :=
  fun _ => none

/-- An error. -/
def fail (e : RunError Procedure) : Evaluator α :=
  fun w => some (.error e, w)

/-- A new value. -/
def make (build : Tag → Value Procedure × Tag) : Evaluator (Value Procedure) :=
  fun w =>
    let (value, w) := w.make build
    some (.ok value, w)

/-- The nearest binding of a name. -/
def lookup (f : FrameId) (name : String) : Evaluator (Value Procedure) :=
  fun w => some (w.lookup f name, w)

/-- Binds a name in a frame. -/
def define (f : FrameId) (name : String) (value : Value Procedure) :
    Evaluator (Value Procedure) :=
  fun w => some (.ok (.symbol "ok"), w.define f name value)

/-- Overwrites the nearest binding of a name. -/
def assign (f : FrameId) (name : String) (value : Value Procedure) :
    Evaluator (Value Procedure) :=
  fun w =>
    match w.assign? f name value with
    | none => some (.error (.unboundVariable name), w)
    | some w => some (.ok (.symbol "ok"), w)

/-- A procedure that is made in a frame. -/
def closure (f : FrameId) (procedure : Procedure) : Evaluator (Value Procedure) :=
  make fun tag => (.closure tag procedure f, tag + 1)

/-- A new frame that binds names to values. -/
def newFrame (parent : FrameId) (names : List String) (values : List (Value Procedure)) :
    Evaluator FrameId :=
  fun w =>
    let (f, w) := w.push ⟨.ofPairs (names.zip values), some parent⟩
    some (.ok f, w)

/-- The result of a primitive. -/
def primitive (p : Primitive) (arguments : List (Value Procedure)) : Evaluator (Value Procedure) :=
  fun w =>
    match p.apply arguments w.nextTag with
    | .error e => some (.error e, w)
    | .ok (value, tag) => some (.ok value, { w with nextTag := tag })

/-- One computation after the other; the result is that of the last. -/
def inOrder : List (Evaluator α) → Evaluator α
  | [] => giveUp
  | [last] => last
  | first :: rest => do
    let _ ← first
    inOrder rest

/-- All results, where the last computation is done first. -/
def fromLast : List (Evaluator α) → Evaluator (List α)
  | [] => pure []
  | first :: rest => do
    let values ← fromLast rest
    let value ← first
    return value :: values

/-- Applies a procedure to arguments; `enter` runs the body of one that is written. -/
def apply (enter : Procedure → FrameId → List (Value Procedure) → Evaluator (Value Procedure)) :
    Value Procedure → List (Value Procedure) → Evaluator (Value Procedure)
  | .primitive p, arguments => primitive p arguments
  | .closure _ procedure f, arguments => enter procedure f arguments
  | other, _ => fail (.notAProcedure other)

end Evaluator

namespace Datum

open Evaluator

/-- The elements of a list. -/
def elements : Datum → List Datum
  | pair _ a d => a :: d.elements
  | _ => []

/-- The names in a list of symbols. -/
def names (d : Datum) : List String :=
  d.elements.filterMap symbolName?

/-- The first element of a list. -/
def first? : Datum → Option Datum
  | pair _ a _ => some a
  | _ => none

/-- The names that a list of bindings binds. -/
def boundNames (bindings : Datum) : List String :=
  bindings.elements.filterMap fun binding => binding.first?.bind symbolName?

/-- What follows `quote` is its own value. -/
def evaluateQuote : Datum → Evaluator (Value Procedure)
  | pair _ d _ => make fun tag => Value.ofDatum tag d
  | _ => giveUp

/-- What follows `lambda` is a list of formals and a body. -/
def evaluateLambda (f : FrameId) : Datum → Evaluator (Value Procedure)
  | pair _ formals body => closure f ⟨formals.names, body.elements⟩
  | _ => giveUp

variable (enter : Procedure → FrameId → List (Value Procedure) → Evaluator (Value Procedure))
  (f : FrameId)

mutual

/-- The value of a form in a frame. -/
def evaluate : Datum → Evaluator (Value Procedure)
  | literal _ l => make fun tag => Value.ofLiteral tag l
  | vector m items => make fun tag => Value.ofDatum tag (vector m items)
  | symbol _ name => lookup f name
  | empty _ => giveUp
  | pair _ head rest =>
    match head.symbolName? with
    | some "quote" => evaluateQuote rest
    | some "lambda" => evaluateLambda f rest
    | some "define" => evaluateDefine rest
    | some "set!" => evaluateSet rest
    | some "if" => evaluateIf rest
    | some "begin" => inOrder (evaluateEach rest)
    | some "let" => evaluateLet rest
    | _ => do
      let procedure ← evaluate head
      let arguments ← fromLast (evaluateEach rest)
      apply enter procedure arguments

/-- What follows `define` is a name and a value, or a name with formals and a body. -/
def evaluateDefine : Datum → Evaluator (Value Procedure)
  | pair _ (symbol _ name) (pair _ value _) => do
    let value ← evaluate value
    define f name value
  | pair _ (pair _ (symbol _ name) formals) body => do
    let value ← closure f ⟨formals.names, body.elements⟩
    define f name value
  | _ => giveUp

/-- What follows `set!` is a name and a value. -/
def evaluateSet : Datum → Evaluator (Value Procedure)
  | pair _ (symbol _ name) (pair _ value _) => do
    let value ← evaluate value
    assign f name value
  | _ => giveUp

/-- What follows `if` is a test and what to do when it holds and when it does not. -/
def evaluateIf : Datum → Evaluator (Value Procedure)
  | pair _ test (pair _ consequent (pair _ alternative _)) => do
    let value ← evaluate test
    if value.isTrue then evaluate consequent else evaluate alternative
  | _ => giveUp

/-- What follows `let` is a list of bindings and a body, which is run as that of a procedure. -/
def evaluateLet : Datum → Evaluator (Value Procedure)
  | pair _ bindings body => do
    let procedure ← closure f ⟨bindings.boundNames, body.elements⟩
    let arguments ← fromLast (evaluateBound bindings)
    apply enter procedure arguments
  | _ => giveUp

/-- The value of each element of a list. -/
def evaluateEach : Datum → List (Evaluator (Value Procedure))
  | pair _ a d => evaluate a :: evaluateEach d
  | _ => []

/-- The value in each of a list of bindings. -/
def evaluateBound : Datum → List (Evaluator (Value Procedure))
  | pair _ (pair _ _ (pair _ value _)) rest => evaluate value :: evaluateBound rest
  | _ => []

end

end Datum

/-- Runs the body of a procedure in a new frame, if there are as many arguments as formals. -/
def Procedure.enter : Nat → Procedure → FrameId → List (Value Procedure) →
    Evaluator (Value Procedure)
  | 0, _, _, _ => Evaluator.giveUp
  | depth + 1, procedure, parent, arguments =>
    if arguments.length = procedure.formals.length then do
      let f ← Evaluator.newFrame parent procedure.formals arguments
      Evaluator.inOrder (procedure.body.map (Datum.evaluate (enter depth) f))
    else
      Evaluator.fail (.arityMismatch (.exactly procedure.formals.length) arguments.length)

/-- Runs forms one after the other in the global frame, entering procedures up to `depth` deep. -/
def evaluateForms (depth : Nat) (forms : List Datum) : Evaluator (Value Procedure) :=
  Evaluator.inOrder (forms.map (Datum.evaluate (Procedure.enter depth) Machine.global))

end SchemeMachine
