import SchemeMachine.Value.Basic

/-!
# Frames and the store

Environments are chains of frames.  A frame binds names and may have a parent, in which names are
looked up that it does not bind itself.  Frames are shared by all procedures and activations that
refer to them, so they live in a store and are referred to by number; a parent always has a smaller
number than its children.  The store also hands out the tags of new objects.
-/

namespace SchemeMachine

/-- What can go wrong while a program runs. -/
inductive RunError (C : Type := CodeRef) where
  | unboundVariable (name : String)
  | arityMismatch (expected : Arity) (got : Nat)
  | typeMismatch (procedure : String) (expected : String) (got : Value C)
  | notAProcedure (value : Value C)
  | divisionByZero
  /-- A jump through a register that holds no place in code. -/
  | notALabel (value : Value C)
  /-- A jump to a block that the program does not have. -/
  | missingBlock (id : BlockId)
  | stackUnderflow (r : Register)
  | stepLimitExceeded (limit : Nat)

/-- The wording of a run-time error. -/
def RunError.message : RunError → String
  | unboundVariable name => s!"unbound variable: {name}"
  | arityMismatch expected got =>
    s!"arity mismatch: expected {expected.text} arguments, got {Decimal.naturalText got}"
  | typeMismatch procedure expected got =>
    s!"type error in {procedure}: expected {expected}, got {got.typeName}"
  | notAProcedure value => s!"not a procedure: {value.text}"
  | divisionByZero => "division by zero"
  | notALabel value => s!"invalid jump target: {value.text}"
  | missingBlock id => s!"invalid jump target: block {Decimal.naturalText id}"
  | stackUnderflow r => s!"stack underflow restoring {r.name}"
  | stepLimitExceeded limit => s!"step limit exceeded: {Decimal.naturalText limit}"

/-- The bindings of one frame; no name occurs twice. -/
abbrev Bindings (C : Type := CodeRef) := List (String × Value C)

namespace Bindings

variable {C : Type}

/-- Binds a name anew, or binds a new name. -/
def bind (name : String) (value : Value C) : Bindings C → Bindings C
  | [] => [(name, value)]
  | (other, old) :: rest =>
    if other == name then (name, value) :: rest else (other, old) :: bind name value rest

/-- Binds names to values in order, so that of two equal names the later counts. -/
def ofPairs (pairs : List (String × Value C)) : Bindings C :=
  pairs.foldl (fun bindings (name, value) => bindings.bind name value) []

end Bindings

/-- Bindings, and where names are looked up that have none. -/
structure Frame (C : Type := CodeRef) where
  bindings : Bindings C
  parent : Option FrameId

/-- The frames made so far, and the next tag for an object. -/
structure Store (C : Type := CodeRef) where
  frames : Array (Frame C)
  nextTag : Tag

namespace Store

variable {C : Type}

/-- No frames yet. -/
def empty : Store C := ⟨#[], 0⟩

/-- The bindings of a frame. -/
def bindingsOf (s : Store C) (f : FrameId) : Bindings C :=
  match s.frames[f]? with
  | some frame => frame.bindings
  | none => []

/-- The parent of a frame. -/
def parentOf (s : Store C) (f : FrameId) : Option FrameId :=
  s.frames[f]?.bind (·.parent)

/-- The frame, its parent, the parent of that and so on, at most `bound` of them. -/
def chainWithin (s : Store C) : Nat → FrameId → List FrameId
  | 0, _ => []
  | bound + 1, f =>
    match s.parentOf f with
    | none => [f]
    | some parent => f :: chainWithin s bound parent

/-- The frames in which a name is looked up, nearest first.  Parents have smaller numbers, so
there are no more of them than the number of the frame. -/
def chain (s : Store C) (f : FrameId) : List FrameId :=
  s.chainWithin (f + 1) f

/-- The number of frames up to the outermost. -/
def depth (s : Store C) (f : FrameId) : Nat :=
  (s.chain f).length

/-- The value of a name in the nearest frame that binds it. -/
def lookup? (s : Store C) (f : FrameId) (name : String) : Option (Value C) :=
  (s.chain f).findSome? fun g => (s.bindingsOf g).lookup name

/-- The nearest frame that binds a name. -/
def binder? (s : Store C) (f : FrameId) (name : String) : Option FrameId :=
  (s.chain f).find? fun g => ((s.bindingsOf g).lookup name).isSome

/-- Binds a name in a frame, whatever its parents bind. -/
def define (s : Store C) (f : FrameId) (name : String) (value : Value C) : Store C :=
  { s with frames := s.frames.modify f fun frame =>
      { frame with bindings := frame.bindings.bind name value } }

/-- Binds a name anew in the nearest frame that binds it, if there is one. -/
def assign? (s : Store C) (f : FrameId) (name : String) (value : Value C) : Option (Store C) :=
  match s.binder? f name with
  | some g => some (s.define g name value)
  | none => none

/-- A new frame; its number is returned too. -/
def push (s : Store C) (frame : Frame C) : FrameId × Store C :=
  (s.frames.size, { s with frames := s.frames.push frame })

/-- A new outermost frame without bindings. -/
def newRoot (s : Store C) : FrameId × Store C :=
  s.push ⟨[], none⟩

/-- A new frame under `parent` that binds the formals to the elements of a list. -/
def extend (s : Store C) (parent : FrameId) (formals : List String) (arguments : Value C) :
    EStateM.Result (RunError C) (Store C) FrameId :=
  match arguments.items? with
  | none => .error (.typeMismatch "extend-environment" "argument list" arguments) s
  | some values =>
    if values.length = formals.length then
      let (f, s) := s.push ⟨.ofPairs (formals.zip values), some parent⟩
      .ok f s
    else .error (.arityMismatch (.exactly formals.length) values.length) s

/-- Binds every primitive to its name. -/
def install (s : Store C) (f : FrameId) : Store C :=
  Primitive.all.foldl (fun s p => s.define f p.name (.primitive p)) s

/-- Puts a value that needs tags together from the tags of the store. -/
def make (s : Store C) (build : Tag → Value C × Tag) : Value C × Store C :=
  let (value, tag) := build s.nextTag
  (value, { s with nextTag := tag })

/-- The value of a name, or the error that it has none. -/
def lookup (s : Store C) (f : FrameId) (name : String) : Except (RunError C) (Value C) :=
  match s.lookup? f name with
  | some value => .ok value
  | none => .error (.unboundVariable name)

end Store
end SchemeMachine
