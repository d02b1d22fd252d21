import SchemeMachine.Value.Primitive

/-!
# The register machine

A machine has registers, a stack on which registers are saved, a store of frames and counters of
what the last run took.  An operation either changes the machine, possibly naming a target to go
to, or is refused; a refused operation changes nothing.  What the targets of operations are is left
open; `ref` makes a target into the reference to code that values hold.
-/

namespace SchemeMachine

/-- The contents of the registers. -/
structure Registers (C : Type := CodeRef) where
  env : Value C
  proc : Value C
  val : Value C
  argl : Value C
  kontinue : Value C
  flag : Value C

namespace Registers

variable {C : Type}

/-- Registers that nothing has been assigned to. -/
def blank : Registers C :=
  ⟨.unspecified, .unspecified, .unspecified, .unspecified, .unspecified, .unspecified⟩

/-- The contents of one register. -/
def get (rs : Registers C) : Register → Value C
  | .env => rs.env
  | .proc => rs.proc
  | .val => rs.val
  | .argl => rs.argl
  | .kontinue => rs.kontinue
  | .flag => rs.flag

/-- Replaces the contents of one register. -/
def set (rs : Registers C) (r : Register) (value : Value C) : Registers C :=
  match r with
  | .env => { rs with env := value }
  | .proc => { rs with proc := value }
  | .val => { rs with val := value }
  | .argl => { rs with argl := value }
  | .kontinue => { rs with kontinue := value }
  | .flag => { rs with flag := value }

@[simp] theorem get_set_self (rs : Registers C) (r : Register) (value : Value C) :
    (rs.set r value).get r = value := by
  cases r <;> rfl

@[simp] theorem get_set_of_ne (rs : Registers C) {q r : Register} (value : Value C) (h : r ≠ q) :
    (rs.set q value).get r = rs.get r := by
  cases q <;> cases r <;> simp_all [get, set]

/-- The frame in `env`. -/
def frame (rs : Registers C) : Except (RunError C) FrameId :=
  match rs.env with
  | .environment f => .ok f
  | other => .error (.typeMismatch "env register" "environment" other)

/-- The entry and the environment of the compiled procedure in `proc`. -/
def closure (rs : Registers C) : Except (RunError C) (C × FrameId) :=
  match rs.proc with
  | .closure _ entry env => .ok (entry, env)
  | other => .error (.notAProcedure other)

end Registers

/-- What the last run took. -/
structure Stats where
  /-- Operations and exits performed. -/
  steps : Nat := 0
  /-- Times that control went where a register pointed, the start included. -/
  bounces : Nat := 0
  /-- The greatest height of the save stack. -/
  maxStackDepth : Nat := 0
  deriving Repr, DecidableEq

/-- The register machine. -/
structure Machine (C : Type := CodeRef) where
  /-- How many steps a run may take. -/
  maxSteps : Option Nat
  registers : Registers C
  /-- Saved values, the latest at the end. -/
  stack : Array (Value C)
  store : Store C
  stats : Stats

/-- A program as it was loaded. -/
structure Loaded where
  load : Tag
  program : Program

/-- A reference to a block of a loaded program. -/
def Loaded.ref (code : Loaded) (block : BlockId) : CodeRef :=
  ⟨code.load, code.program, block⟩

namespace Machine

/-- The outermost frame, in which programs are run. -/
def global : FrameId := 0

/-- A machine that knows the primitives and nothing else. -/
def new (maxSteps : Option Nat) : Machine :=
  let (f, store) := Store.empty.newRoot
  { maxSteps
    registers := { Registers.blank with env := .environment global }
    stack := #[]
    store := store.install f
    stats := {} }

/-- A new machine with the same limit. -/
def reset (m : Machine) : Machine :=
  new m.maxSteps

/-- The value of a global variable. -/
def lookup (m : Machine) (name : String) : Except RunError Value :=
  m.store.lookup global name

/-- Binds a global variable to the value that a datum denotes. -/
def define (m : Machine) (name : String) (d : Datum) : Machine :=
  let ⟨maxSteps, registers, stack, store, stats⟩ := m
  let (value, store) := store.make fun tag => Value.ofDatum tag d
  ⟨maxSteps, registers, stack, store.define global name value, stats⟩

variable {C L : Type}

/-- The value of an operand, as the registers and the store have it. -/
def evaluate [BEq C] (ref : L → C) (rs : Registers C) (s : Store C) :
    Operand L → EStateM.Result (RunError C) (Store C) (Value C)
  | .const c =>
    let (value, s) := s.make fun tag => Value.ofConstant tag c
    .ok value s
  | .register r => .ok (rs.get r) s
  | .label target => .ok (.label (ref target)) s
  | .lookup name =>
    match rs.frame with
    | .error e => .error e s
    | .ok f =>
      match s.lookup f name with
      | .error e => .error e s
      | .ok value => .ok value s
  | .consArg =>
    let (value, s) := s.make fun tag => (.pair tag rs.val rs.argl, tag + 1)
    .ok value s
  | .listArg =>
    let (value, s) := s.make fun tag => (.pair tag rs.val .empty, tag + 1)
    .ok value s
  | .makeClosure entry =>
    match rs.frame with
    | .error e => .error e s
    | .ok f =>
      let (value, s) := s.make fun tag => (.closure tag (ref entry) f, tag + 1)
      .ok value s
  | .closureEnv =>
    match rs.closure with
    | .error e => .error e s
    | .ok (_, env) => .ok (.environment env) s
  | .closureEntry =>
    match rs.closure with
    | .error e => .error e s
    | .ok (entry, _) => .ok (.label entry) s
  | .extendEnv formals =>
    match rs.frame with
    | .error e => .error e s
    | .ok f =>
      match s.extend f formals rs.argl with
      | .error e s => .error e s
      | .ok f s => .ok (.environment f) s
  | .applyPrimitive =>
    match rs.proc with
    | .primitive p =>
      match rs.argl.items? with
      | none => .error (.typeMismatch p.name "argument list" rs.argl) s
      | some args =>
        match p.apply args s.nextTag with
        | .error e => .error e s
        | .ok (value, tag) => .ok value { s with nextTag := tag }
    | other => .error (.notAProcedure other) s

/-- Performs one operation.  A branch that is taken yields the target to go to. -/
def perform [BEq C] (ref : L → C) (operation : Operation L) (m : Machine C) :
    EStateM.Result (RunError C) (Machine C) (Option L) :=
  let ⟨maxSteps, rs, stack, store, stats⟩ := m
  match operation with
  | .assign target source =>
    match evaluate ref rs store source with
    | .error e store => .error e ⟨maxSteps, rs, stack, store, stats⟩
    | .ok value store => .ok none ⟨maxSteps, rs.set target value, stack, store, stats⟩
  | .save r =>
    let stack := stack.push (rs.get r)
    let stats := { stats with maxStackDepth := max stats.maxStackDepth stack.size }
    .ok none ⟨maxSteps, rs, stack, store, stats⟩
  | .restore r =>
    match stack.back? with
    | none => .error (.stackUnderflow r) ⟨maxSteps, rs, stack, store, stats⟩
    | some value => .ok none ⟨maxSteps, rs.set r value, stack.pop, store, stats⟩
  | .define name =>
    match rs.frame with
    | .error e => .error e ⟨maxSteps, rs, stack, store, stats⟩
    | .ok f => .ok none ⟨maxSteps, rs, stack, store.define f name rs.val, stats⟩
  | .set name =>
    match rs.frame with
    | .error e => .error e ⟨maxSteps, rs, stack, store, stats⟩
    | .ok f =>
      match store.binder? f name with
      | none => .error (.unboundVariable name) ⟨maxSteps, rs, stack, store, stats⟩
      | some g => .ok none ⟨maxSteps, rs, stack, store.define g name rs.val, stats⟩
  | .testFalse =>
    .ok none ⟨maxSteps, rs.set .flag (.boolean (!rs.val.isTrue)), stack, store, stats⟩
  | .testPrimitive =>
    let isPrimitive := match rs.proc with | .primitive _ => true | _ => false
    .ok none ⟨maxSteps, rs.set .flag (.boolean isPrimitive), stack, store, stats⟩
  | .branch target =>
    .ok (if rs.flag.isTrue then some target else none) ⟨maxSteps, rs, stack, store, stats⟩

end Machine
end SchemeMachine
