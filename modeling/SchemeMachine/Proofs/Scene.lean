import SchemeMachine.Proofs.Likeness.Machine
import SchemeMachine.Proofs.Progress

/-!
# Scenes of a run

A scene is what a machine shows between two steps, its counters and its limit left out: registers,
save stack, store and control.  A scene also tells which activations of compiled procedures are
under way, which no machine keeps but anyone who watches its steps can tell:

* leaving through `val` enters a procedure.  Code that wants control back has set `kontinue` just
  before, and a new activation comes on top of the others; otherwise the activation on top hands
  over to the new one;
* leaving through `kontinue` ends the activation on top.

The last part relates scenes to runs under a limit: such a run goes through the same scenes, until
it is stopped.
-/

namespace SchemeMachine

/-- A compiled procedure under way: what the save stack and `kontinue` were when it was entered. -/
structure Activation where
  stack : Array Value
  kontinue : Value

/-- The activations under way, the latest first, and whether `kontinue` has been set to a place in
code since control last went elsewhere. -/
structure Calls where
  armed : Bool
  activations : List Activation

/-- Control is about to go where a register points. -/
def Control.LeavesBy (c : Control) (r : Register) : Prop :=
  c.operations = [] ∧ c.exit = .jump (.indirect r)

instance (c : Control) (r : Register) : Decidable (c.LeavesBy r) :=
  match c with
  | ⟨_, [], .jump (.indirect q)⟩ =>
    decidable_of_iff (q = r) (by simp [Control.LeavesBy])
  | ⟨_, [], .jump (.direct _)⟩ => isFalse (by simp [Control.LeavesBy])
  | ⟨_, [], .halt⟩ => isFalse (by simp [Control.LeavesBy])
  | ⟨_, _ :: _, _⟩ => isFalse (by simp [Control.LeavesBy])

/-- What a step does to the calls under way; `rs` and `stack` are what the step finds. -/
def Calls.after (c : Control) (rs : Registers) (stack : Array Value) (calls : Calls) : Calls :=
  match c.operations with
  | .assign .kontinue (.label _) :: _ => { calls with armed := true }
  | .branch _ :: _ => { calls with armed := false }
  | _ :: _ => calls
  | [] =>
    match c.exit with
    | .jump (.indirect .kontinue) => ⟨false, calls.activations.tail⟩
    | .jump (.indirect .val) =>
      let others := if calls.armed then calls.activations else calls.activations.tail
      ⟨false, ⟨stack, rs.kontinue⟩ :: others⟩
    | _ => { calls with armed := false }

/-- What a machine shows between two steps. -/
structure Scene where
  registers : Registers
  stack : Array Value
  store : Store
  control : Control
  calls : Calls

/-- A scene, or the end of a run. -/
inductive Stage where
  | running (s : Scene)
  | finished (stack : Array Value) (store : Store) (outcome : Except RunError Value)

/-- What is to be seen where a machine stands. -/
def Progress.stage (calls : Calls) : Progress → Stage
  | running m c => .running ⟨m.registers, m.stack, m.store, c, calls⟩
  | finished m outcome => .finished m.stack m.store outcome

/-- The reference as a place to go on from. -/
def CodeRef.control? (ref : CodeRef) : Option Control :=
  (ref.program.block? ref.block).map fun b => ⟨⟨ref.load, ref.program⟩, b.operations, b.exit⟩

namespace Scene

/-- A machine that shows the scene and has no limit. -/
def machine (s : Scene) : Machine :=
  ⟨none, s.registers, s.stack, s.store, {}⟩

/-- What comes after a scene. -/
def next (s : Scene) : Stage :=
  (Machine.advance s.control s.machine).stage (s.calls.after s.control s.registers s.stack)

variable {site : Site} {s : Scene} {rest : List Statement}

theorem next_assign {target : Register} {source : Operand Label} {v : Value} {store : Store}
    (hc : s.control = site.before (.assign target source :: rest)) (htarget : target ≠ .kontinue)
    (hv : Machine.evaluate site.code.ref s.registers s.store (source.map site.number) =
      .ok v store) :
    s.next = .running { s with
      registers := s.registers.set target v, store := store, control := site.before rest } := by
  have hcalls : s.calls.after s.control s.registers s.stack = s.calls := by
    rw [hc]
    cases target <;> first | rfl | exact absurd rfl htarget
  unfold next
  rw [hcalls, hc]
  simp only [Statement.assign, Site.before_perform, Operation.map, Machine.advance,
    Machine.perform, machine, hv, Progress.stage]
  rfl

theorem next_assign_error {target : Register} {source : Operand Label} {e : RunError}
    {store : Store} (hc : s.control = site.before (.assign target source :: rest))
    (hv : Machine.evaluate site.code.ref s.registers s.store (source.map site.number) =
      .error e store) :
    s.next = .finished s.stack store (.error e) := by
  unfold next
  rw [hc]
  simp only [Statement.assign, Site.before_perform, Operation.map, Machine.advance,
    Machine.perform, machine, hv, Progress.stage]

/-- Setting `kontinue` to a place is what makes the call after it one that returns. -/
theorem next_assign_kontinue {name : Label}
    (hc : s.control = site.before (.assign .kontinue (.label name) :: rest)) :
    s.next = .running { s with
      registers := s.registers.set .kontinue (.label (site.code.ref (site.number name))),
      control := site.before rest, calls := { s.calls with armed := true } } := by
  unfold next
  rw [hc]
  rfl

theorem next_save {r : Register} (hc : s.control = site.before (.perform (.save r) :: rest)) :
    s.next = .running { s with
      stack := s.stack.push (s.registers.get r), control := site.before rest } := by
  unfold next
  rw [hc]
  rfl

theorem next_restore {r : Register} {stack : Array Value} {v : Value}
    (hc : s.control = site.before (.perform (.restore r) :: rest))
    (hstack : s.stack = stack.push v) :
    s.next = .running { s with
      registers := s.registers.set r v, stack := stack, control := site.before rest } := by
  unfold next
  rw [hc]
  simp only [Site.before_perform, Operation.map, Machine.advance, Machine.perform, machine, hstack,
    Array.back?_push, Array.pop_push, Progress.stage]
  rfl

theorem next_testFalse (hc : s.control = site.before (.perform .testFalse :: rest)) :
    s.next = .running { s with
      registers := s.registers.set .flag (.boolean (!s.registers.val.isTrue)),
      control := site.before rest } := by
  unfold next
  rw [hc]
  rfl

/-- Falling into a label. -/
theorem next_label {name : Label} (hc : s.control = site.before (.label name :: rest))
    (hcovers : site.Covers (.label name :: rest)) :
    s.next = .running { s with
      control := site.before rest, calls := { s.calls with armed := false } } := by
  unfold next
  rw [hc, Site.before_label]
  simp only [Machine.advance, Machine.leave, Site.enter_label hcovers]
  rfl

theorem next_direct {name : Label} {dest : List Statement}
    (hc : s.control = site.before (.jump (.direct name) :: rest))
    (hcovers : site.Covers (.label name :: dest)) :
    s.next = .running { s with
      control := site.before dest, calls := { s.calls with armed := false } } := by
  unfold next
  rw [hc, Site.before_jump]
  simp only [Transfer.map, Machine.advance, Machine.leave, Site.enter_label hcovers]
  rfl

theorem next_branch_taken {name : Label} {dest : List Statement}
    (hc : s.control = site.before (.perform (.branch name) :: rest))
    (hflag : s.registers.flag.isTrue = true) (hcovers : site.Covers (.label name :: dest)) :
    s.next = .running { s with
      control := site.before dest, calls := { s.calls with armed := false } } := by
  unfold next
  rw [hc]
  simp only [Site.before_perform, Operation.map, Machine.advance, Machine.perform, machine, hflag,
    if_true, Site.enter_label hcovers]
  rfl

theorem next_branch_passed {name : Label}
    (hc : s.control = site.before (.perform (.branch name) :: rest))
    (hflag : s.registers.flag.isTrue = false) :
    s.next = .running { s with
      control := site.before rest, calls := { s.calls with armed := false } } := by
  unfold next
  rw [hc]
  simp only [Site.before_perform, Operation.map, Machine.advance, Machine.perform, machine, hflag]
  rfl

theorem next_halt (hc : s.control = site.before []) :
    s.next = .finished s.stack s.store (.ok s.registers.val) := by
  unfold next
  rw [hc]
  rfl

theorem next_define {name : String} {f : FrameId}
    (hc : s.control = site.before (.perform (.define name) :: rest))
    (henv : s.registers.env = .environment f) :
    s.next = .running { s with
      store := s.store.define f name s.registers.val, control := site.before rest } := by
  have hframe : s.registers.frame = .ok f := by rw [Registers.frame, henv]
  unfold next
  rw [hc]
  simp only [Site.before_perform, Operation.map, Machine.advance, Machine.perform, machine, hframe]
  rfl

theorem next_set {name : String} {f g : FrameId}
    (hc : s.control = site.before (.perform (.set name) :: rest))
    (henv : s.registers.env = .environment f) (hbinder : s.store.binder? f name = some g) :
    s.next = .running { s with
      store := s.store.define g name s.registers.val, control := site.before rest } := by
  have hframe : s.registers.frame = .ok f := by rw [Registers.frame, henv]
  unfold next
  rw [hc]
  simp only [Site.before_perform, Operation.map, Machine.advance, Machine.perform, machine, hframe,
    hbinder]
  rfl

theorem next_set_error {name : String} {f : FrameId}
    (hc : s.control = site.before (.perform (.set name) :: rest))
    (henv : s.registers.env = .environment f) (hbinder : s.store.binder? f name = none) :
    s.next = .finished s.stack s.store (.error (.unboundVariable name)) := by
  have hframe : s.registers.frame = .ok f := by rw [Registers.frame, henv]
  unfold next
  rw [hc]
  simp only [Site.before_perform, Operation.map, Machine.advance, Machine.perform, machine, hframe,
    hbinder]
  rfl

theorem next_testPrimitive {p : Primitive}
    (hc : s.control = site.before (.perform .testPrimitive :: rest))
    (hproc : s.registers.proc = .primitive p) :
    s.next = .running { s with
      registers := s.registers.set .flag (.boolean true), control := site.before rest } := by
  unfold next
  rw [hc]
  simp only [Site.before_perform, Operation.map, Machine.advance, Machine.perform, machine, hproc]
  rfl

theorem next_testPrimitive_other
    (hc : s.control = site.before (.perform .testPrimitive :: rest))
    (hproc : ∀ p, s.registers.proc ≠ .primitive p) :
    s.next = .running { s with
      registers := s.registers.set .flag (.boolean false), control := site.before rest } := by
  unfold next
  rw [hc]
  simp only [Site.before_perform, Operation.map, Machine.advance, Machine.perform, machine]
  rfl

/-- Going where a register points. -/
theorem next_indirect {r : Register} {ref : CodeRef} {c : Control}
    (hc : s.control = site.before (.jump (.indirect r) :: rest))
    (hr : s.registers.get r = .label ref) (href : ref.control? = some c) :
    s.next = .running { s with
      control := c, calls := s.calls.after s.control s.registers s.stack } := by
  obtain ⟨b, hb, rfl⟩ := Option.map_eq_some_iff.mp href
  unfold next
  rw [hc]
  simp only [Site.before_jump, Transfer.map, Machine.advance, Machine.leave, machine, hr,
    Machine.bounce, Machine.enter, hb, Progress.stage]

/-- Returning ends the latest activation. -/
theorem next_return {ref : CodeRef} {c : Control} {b : Bool} {a : Activation}
    {others : List Activation} (hc : s.control = site.before (.jump (.indirect .kontinue) :: rest))
    (hcalls : s.calls = ⟨b, a :: others⟩) (hr : s.registers.kontinue = .label ref)
    (href : ref.control? = some c) :
    s.next = .running { s with control := c, calls := ⟨false, others⟩ } := by
  rw [next_indirect hc hr href, hc, hcalls]
  rfl

/-- A call that returns puts a new activation on the others. -/
theorem next_call {ref : CodeRef} {c : Control} {others : List Activation}
    (hc : s.control = site.before (.jump (.indirect .val) :: rest))
    (hcalls : s.calls = ⟨true, others⟩) (hr : s.registers.val = .label ref)
    (href : ref.control? = some c) :
    s.next = .running { s with
      control := c, calls := ⟨false, ⟨s.stack, s.registers.kontinue⟩ :: others⟩ } := by
  rw [next_indirect hc hr href, hc, hcalls]
  rfl

/-- A tail call puts a new activation in the place of the latest. -/
theorem next_tail_call {ref : CodeRef} {c : Control} {a : Activation} {others : List Activation}
    (hc : s.control = site.before (.jump (.indirect .val) :: rest))
    (hcalls : s.calls = ⟨false, a :: others⟩) (hr : s.registers.val = .label ref)
    (href : ref.control? = some c) :
    s.next = .running { s with
      control := c, calls := ⟨false, ⟨s.stack, s.registers.kontinue⟩ :: others⟩ } := by
  rw [next_indirect hc hr href, hc, hcalls]
  rfl

end Scene

/-- A reference to a label leads to what comes after the label. -/
theorem Site.control?_ref {site : Site} {name : Label} {rest : List Statement}
    (h : site.Covers (.label name :: rest)) :
    (site.code.ref (site.number name)).control? = some (site.before rest) := by
  obtain ⟨pre, hpre⟩ := h
  have hblock := Program.block?_label site.assembled hpre
  unfold CodeRef.control? Loaded.ref Site.number
  simp only
  rw [hblock]
  rfl

/-! ## Runs and their scenes -/

/-- Where a run stands `count` steps later, without a limit. -/
def Stage.after : Nat → Stage → Stage
  | 0, x => x
  | _ + 1, .finished stack store outcome => .finished stack store outcome
  | count + 1, .running s => after count s.next

theorem Stage.after_finished (count : Nat) (stack : Array Value) (store : Store)
    (outcome : Except RunError Value) :
    Stage.after count (.finished stack store outcome) = .finished stack store outcome := by
  cases count <;> rfl

/-- A run together with the calls under way. -/
structure Watched where
  progress : Progress
  calls : Calls

namespace Watched

/-- One step more, unless the run is finished. -/
def next (x : Watched) : Watched :=
  match x.progress with
  | .running m c => ⟨Machine.step c m, x.calls.after c m.registers m.stack⟩
  | .finished _ _ => x

/-- Where a watched run stands `count` steps later. -/
def after : Nat → Watched → Watched
  | 0, x => x
  | count + 1, x => after count x.next

/-- What is to be seen of a watched run. -/
def stage (x : Watched) : Stage :=
  x.progress.stage x.calls

/-- Watching changes nothing. -/
theorem progress_after (count : Nat) (x : Watched) :
    (after count x).progress = x.progress.after count := by
  induction count generalizing x with
  | zero => rfl
  | succ count ih =>
      have hnext : x.next.progress = x.progress.next := by
        unfold next
        cases hp : x.progress with
        | running m c => rfl
        | finished m outcome => simp [hp, Progress.next]
      rw [after, ih, hnext]
      rfl

theorem after_finished (count : Nat) {x : Watched} {m : Machine} {outcome : Except RunError Value}
    (h : x.progress = .finished m outcome) : after count x = x := by
  induction count with
  | zero => rfl
  | succ count ih =>
      have hnext : x.next = x := by simp only [next, h]
      rw [after, hnext, ih]

end Watched

/-- Machines that differ in counters and limits alone. -/
structure Machine.Shows (m m' : Machine) : Prop where
  registers : m.registers = m'.registers
  stack : m.stack = m'.stack
  store : m.store = m'.store

namespace Machine

variable {m m' : Machine}

theorem Shows.running (h : m.Shows m') (c : Control) (calls : Calls) :
    (Progress.running m c).stage calls = (Progress.running m' c).stage calls := by
  simp only [Progress.stage, h.registers, h.stack, h.store]

theorem Shows.finished (h : m.Shows m') (outcome : Except RunError Value) (calls : Calls) :
    (Progress.finished m outcome).stage calls = (Progress.finished m' outcome).stage calls := by
  simp only [Progress.stage, h.stack, h.store]

/-- What an operation does depends on neither counters nor limits. -/
theorem Shows.perform (h : m.Shows m') (ref : BlockId → CodeRef) (operation : Operation BlockId) :
    Performed Eq Shows Eq (Machine.perform ref operation m) (Machine.perform ref operation m') := by
  obtain ⟨maxSteps, rs, stack, store, stats⟩ := m
  obtain ⟨maxSteps', rs', stack', store', stats'⟩ := m'
  obtain ⟨hrs, hstack, hstore⟩ := h
  simp only at hrs hstack hstore
  subst hrs hstack hstore
  cases operation with
  | assign target source =>
      simp only [Machine.perform]
      cases evaluate ref rs store source with
      | error e store => exact .error rfl ⟨rfl, rfl, rfl⟩
      | ok value store => exact .ok rfl ⟨rfl, rfl, rfl⟩
  | restore r =>
      simp only [Machine.perform]
      cases stack.back? with
      | none => exact .error rfl ⟨rfl, rfl, rfl⟩
      | some value => exact .ok rfl ⟨rfl, rfl, rfl⟩
  | define name =>
      simp only [Machine.perform]
      cases rs.frame with
      | error e => exact .error rfl ⟨rfl, rfl, rfl⟩
      | ok f => exact .ok rfl ⟨rfl, rfl, rfl⟩
  | set name =>
      simp only [Machine.perform]
      cases rs.frame with
      | error e => exact .error rfl ⟨rfl, rfl, rfl⟩
      | ok f =>
          simp only
          cases store.binder? f name with
          | none => exact .error rfl ⟨rfl, rfl, rfl⟩
          | some g => exact .ok rfl ⟨rfl, rfl, rfl⟩
  | _ => exact .ok rfl ⟨rfl, rfl, rfl⟩

theorem Shows.enter (h : m.Shows m') (code : Loaded) (id : BlockId) (calls : Calls) :
    (Machine.enter code id m).stage calls = (Machine.enter code id m').stage calls := by
  unfold Machine.enter
  cases code.program.block? id with
  | none => exact h.finished _ calls
  | some b => exact h.running _ calls

theorem Shows.bounce (h : m.Shows m') (target : CodeRef) (calls : Calls) :
    (Machine.bounce target m).stage calls = (Machine.bounce target m').stage calls := by
  have hcounted : Shows ⟨m.maxSteps, m.registers, m.stack, m.store,
      { m.stats with bounces := m.stats.bounces + 1 }⟩ ⟨m'.maxSteps, m'.registers, m'.stack,
      m'.store, { m'.stats with bounces := m'.stats.bounces + 1 }⟩ :=
    ⟨h.registers, h.stack, h.store⟩
  exact hcounted.enter ⟨target.load, target.program⟩ target.block calls

theorem Shows.leave (h : m.Shows m') (code : Loaded) (exit : Exit) (calls : Calls) :
    (Machine.leave code exit m).stage calls = (Machine.leave code exit m').stage calls := by
  unfold Machine.leave
  simp only [h.registers]
  cases exit with
  | halt => exact h.finished _ calls
  | jump transfer =>
      cases transfer with
      | direct target => exact h.enter code target calls
      | indirect r =>
          simp only
          cases m'.registers.get r with
          | label ref => exact h.bounce ref calls
          | _ => exact h.finished _ calls

/-- What a step shows depends on neither counters nor limits. -/
theorem Shows.advance (h : m.Shows m') (c : Control) (calls : Calls) :
    (Machine.advance c m).stage calls = (Machine.advance c m').stage calls := by
  unfold Machine.advance
  cases c.operations with
  | nil => exact h.leave c.code c.exit calls
  | cons operation rest =>
      have hperform := h.perform c.code.ref operation
      simp only
      generalize Machine.perform c.code.ref operation m = x at hperform ⊢
      generalize Machine.perform c.code.ref operation m' = y at hperform ⊢
      cases hperform with
      | error he hm =>
          subst he
          exact hm.finished _ calls
      | @ok target _ _ _ htarget hm =>
          subst htarget
          cases target with
          | none => exact hm.running _ calls
          | some target => exact hm.enter _ _ calls

end Machine

/-- The limit that a run is under. -/
def Progress.maxSteps : Progress → Option Nat
  | running m _ => m.maxSteps
  | finished m _ => m.maxSteps

/-- The limit that a run is under, and the steps that it has counted. -/
def Progress.quota : Progress → Option Nat × Nat
  | running m _ => (m.maxSteps, m.stats.steps)
  | finished m _ => (m.maxSteps, m.stats.steps)

theorem Progress.quota_fst (p : Progress) : p.quota.1 = p.maxSteps := by
  cases p <;> rfl

namespace Machine

theorem enter_quota (code : Loaded) (id : BlockId) (m : Machine) :
    (enter code id m).quota = (m.maxSteps, m.stats.steps) := by
  unfold enter
  cases code.program.block? id <;> rfl

/-- What a step does changes neither the limit nor the count. -/
theorem advance_quota (c : Control) (m : Machine) :
    (advance c m).quota = (m.maxSteps, m.stats.steps) := by
  unfold advance
  cases c.operations with
  | nil =>
      unfold leave
      cases c.exit with
      | halt => rfl
      | jump transfer =>
          cases transfer with
          | direct target => exact enter_quota _ _ m
          | indirect r =>
              simp only
              cases m.registers.get r with
              | label ref => exact enter_quota _ _ _
              | _ => rfl
  | cons operation rest =>
      obtain ⟨maxSteps, rs, stack, store, stats⟩ := m
      cases operation with
      | assign target source =>
          simp only [perform]
          cases evaluate c.code.ref rs store source <;> rfl
      | restore r =>
          simp only [perform]
          cases stack.back? <;> rfl
      | define name =>
          simp only [perform]
          cases rs.frame <;> rfl
      | set name =>
          simp only [perform]
          cases rs.frame with
          | error e => rfl
          | ok f =>
              simp only
              cases store.binder? f name <;> rfl
      | branch target =>
          simp only [perform]
          cases rs.flag.isTrue with
          | false => rfl
          | true => exact enter_quota _ _ _
      | _ => rfl

theorem advance_maxSteps (c : Control) (m : Machine) : (advance c m).maxSteps = m.maxSteps := by
  rw [← Progress.quota_fst, advance_quota]

theorem exceeded?_eq_some {m : Machine} {limit : Nat} (h : m.exceeded? = some limit) :
    m.maxSteps = some limit := by
  unfold exceeded? at h
  cases hmax : m.maxSteps with
  | none => simp [hmax] at h
  | some bound =>
      simp only [hmax] at h
      split at h
      · exact h
      · cases h

end Machine

/-- What a machine shows where it stands. -/
def Machine.scene (m : Machine) (c : Control) (calls : Calls) : Scene :=
  ⟨m.registers, m.stack, m.store, c, calls⟩

/-- A step under no limit, or within it, shows what comes after the scene. -/
theorem Watched.next_stage {m : Machine} (h : m.tick.exceeded? = none) (c : Control)
    (calls : Calls) : (Watched.next ⟨.running m c, calls⟩).stage = (m.scene c calls).next := by
  have hstep : Machine.step c m = Machine.advance c m.tick := by simp only [Machine.step, h]
  have hshows : m.tick.Shows (m.scene c calls).machine := ⟨rfl, rfl, rfl⟩
  simp only [Watched.next, Watched.stage, hstep]
  exact hshows.advance c _

/-- A watched run goes through the scenes of the run without a limit, unless the limit has stopped it
in one of them. -/
theorem Watched.after_stage (count : Nat) (m : Machine) (c : Control) (calls : Calls) :
    (Watched.after count ⟨.running m c, calls⟩).stage =
        Stage.after count (.running (m.scene c calls)) ∨
    ∃ earlier < count, ∃ s m' limit,
      Stage.after earlier (.running (m.scene c calls)) = .running s ∧
      (Watched.after count ⟨.running m c, calls⟩).progress =
        .finished m' (.error (.stepLimitExceeded limit)) ∧
      m.maxSteps = some limit ∧ m'.store = s.store := by
  induction count generalizing m c calls with
  | zero => exact Or.inl rfl
  | succ count ih =>
      cases hexceeded : m.tick.exceeded? with
      | some limit =>
          -- The limit stops the run in the first of these scenes.
          have hstep : Machine.step c m = .finished m.tick (.error (.stepLimitExceeded limit)) := by
            simp only [Machine.step, hexceeded]
          refine Or.inr ⟨0, Nat.succ_pos count, m.scene c calls, m.tick, limit, rfl, ?_,
            (Machine.exceeded?_eq_some hexceeded : m.tick.maxSteps = some limit), rfl⟩
          rw [progress_after]
          simp only [Progress.after, Progress.next, hstep, Progress.after_finished]
      | none =>
          have hstage := Watched.next_stage hexceeded c calls
          have hmax : (Machine.step c m).maxSteps = m.maxSteps := by
            simp only [Machine.step, hexceeded]
            exact Machine.advance_maxSteps c m.tick
          rw [Watched.after]
          simp only [Stage.after, ← hstage]
          generalize hnext : Watched.next ⟨.running m c, calls⟩ = x
          obtain ⟨progress, calls'⟩ := x
          have hprogress : Machine.step c m = progress := congrArg Watched.progress hnext
          cases progress with
          | finished m' outcome =>
              refine Or.inl ?_
              rw [after_finished count rfl, stage, Progress.stage, Stage.after_finished]
          | running m' c' =>
              rw [hprogress] at hmax
              rcases ih m' c' calls' with h | ⟨earlier, hlt, s, m'', limit, hs, hstop, hlimit, hst⟩
              · exact Or.inl h
              · refine Or.inr ⟨earlier + 1, Nat.succ_lt_succ hlt, s, m'', limit, ?_, hstop,
                  hmax.symm.trans hlimit, hst⟩
                rw [Stage.after, ← hstage, hnext]
                exact hs

end SchemeMachine
