import SchemeMachine.Proofs.Simulation.Codes

/-!
# What code for calls does

Code for a call evaluates the operator and the operands, then tells primitives from compiled
procedures.  A compiled procedure is entered by a jump; unless the call is a tail call, `kontinue`
points to a place after the call by then.

That entering a procedure runs its body is assumed here, as `Enters`, for procedures entered up to
some depth within each other.
-/

namespace SchemeMachine

namespace Expression

open Sequence

variable {depth : Nat} {target : Register}

/-- What runs the body of a procedure of the evaluator. -/
abbrev Enter := Procedure → FrameId → List (Value Procedure) → Evaluator (Value Procedure)

/-- A procedure and its arguments are in `proc` and `argl`. -/
structure HoldsCall (p : Value Procedure) (args : List (Value Procedure)) (W : TagMatch)
    (rs : Registers) : Prop where
  procedure : Holds .proc p W rs
  arguments : HoldsList args W rs

/-- Entering the code of a procedure, with the procedure in `proc` and its arguments in `argl`, runs
the procedure and returns to where `kontinue` points. -/
def Enters (depth : Nat) (enter : Enter) : Prop :=
  ∀ ⦃procedure : Procedure⦄ ⦃tag : Tag⦄ ⦃ref back : CodeRef⦄ ⦃f : FrameId⦄
      ⦃args : List (Value Procedure)⦄ ⦃W : TagMatch⦄ ⦃w : Store Procedure⦄ ⦃s : Scene⦄
      ⦃d : Destination⦄,
    procedure.CompiledAt ref → ref.control? = some s.control →
    s.registers.proc = .closure tag ref f → HoldsList args W s.registers →
    Represents W w s.store → s.registers.kontinue = .label back →
    back.control? = some d.control →
    s.calls = ⟨false, ⟨s.stack, s.registers.kontinue⟩ :: d.activations⟩ →
    (∀ a ∈ d.activations, a.stack.toList <+: s.stack.toList) →
    Follows depth s (enter procedure f args w) fun v => Arrives s .full d W (Holds .val v)

variable {enter : Enter}

/-- The latest activation may be left by a call: the call returns to it, or it has cleaned up and
hands over. -/
def MayCall (s : Scene) (d : Destination) : Prop :=
  s.calls = ⟨true, d.activations⟩ ∨
    ∃ a, s.calls = ⟨false, a :: d.activations⟩ ∧ s.stack = a.stack ∧
      s.registers.kontinue = a.kontinue

theorem CompiledAt.control? {procedure : Procedure} {ref : CodeRef}
    (h : procedure.CompiledAt ref) : ∃ c, ref.control? = some c := by
  obtain ⟨site, entry, body, rest, n, n', rfl, -, -, hcovers⟩ := h
  exact ⟨_, Site.control?_ref hcovers⟩

/-- Going where `val` points once it is the entry of the procedure in `proc`. -/
theorem jump_follows (henters : Enters depth enter) {procedure : Procedure} {tag : Tag}
    {ref back : CodeRef} {f : FrameId} {args : List (Value Procedure)} {W : TagMatch}
    {w : Store Procedure} {site : Site} {rest : List Statement} {s : Scene} {d : Destination}
    (hc : s.control = site.before (.jump (.indirect .val) :: rest)) (hsteady : s.Steady)
    (hcode : procedure.CompiledAt ref) (hval : s.registers.val = .label ref)
    (hproc : s.registers.proc = .closure tag ref f) (hargs : HoldsList args W s.registers)
    (hrep : Represents W w s.store) (hk : s.registers.kontinue = .label back)
    (hback : back.control? = some d.control) (hcalls : MayCall s d) :
    Follows depth s (enter procedure f args w) fun v => Arrives s .full d W (Holds .val v) := by
  obtain ⟨c, href⟩ := CompiledAt.control? hcode
  have hbottom : ∀ a ∈ d.activations, a.stack.toList <+: s.stack.toList := by
    intro a ha
    refine hsteady.bottom a ?_
    rcases hcalls with hcalls | ⟨b, hcalls, -⟩
    · rw [hcalls]
      exact ha
    · rw [hcalls]
      exact List.mem_cons_of_mem b ha
  have hentry : s.control.LeavesBy .val → ∃ tag entry f,
      s.registers.proc = .closure tag entry f ∧ s.registers.val = .label entry :=
    fun _ => ⟨tag, ref, f, hproc, hval⟩
  have hentered : s.Sound ∧ s.next = .running { s with
      control := c, calls := ⟨false, ⟨s.stack, s.registers.kontinue⟩ :: d.activations⟩ } := by
    rcases hcalls with hcalls | ⟨a, hcalls, hstack, hkontinue⟩
    · have harmed := Scene.not_handsOver_of_armed hc (by rw [hcalls])
      exact ⟨⟨hsteady, hentry, fun h => absurd h harmed⟩, Scene.next_call hc hcalls hval href⟩
    · refine ⟨⟨hsteady, hentry, fun _ => ⟨a, d.activations, by rw [hcalls], hstack, hkontinue⟩⟩, ?_⟩
      exact Scene.next_tail_call hc hcalls hval href
  refine Follows.step hentered.1 hentered.2 ?_
  refine (henters (s := { s with
    control := c, calls := ⟨false, ⟨s.stack, s.registers.kontinue⟩ :: d.activations⟩ })
    hcode href hproc hargs hrep hk hback rfl hbottom).andThen ?_
  intro v w' s' harrived
  refine Follows.done (harrived.from_earlier le_rfl rfl fun r hr => ?_)
  simp at hr

/-- Entering whatever is in `proc`, if it is no primitive. -/
theorem transfer_follows (henters : Enters depth enter) {p : Value Procedure}
    (hprimitive : ∀ q, p ≠ .primitive q) {args : List (Value Procedure)} {back : CodeRef}
    {W : TagMatch} {w : Store Procedure} {site : Site} {rest : List Statement} {s : Scene}
    {d : Destination}
    (hc : s.control = site.before (.assign .val .closureEntry :: .jump (.indirect .val) :: rest))
    (hsteady : s.Steady) (hrep : Represents W w s.store) (hproc : Holds .proc p W s.registers)
    (hargs : HoldsList args W s.registers) (hk : s.registers.kontinue = .label back)
    (hback : back.control? = some d.control) (hcalls : MayCall s d) :
    Follows depth s (Evaluator.apply enter p args w) fun v =>
      Arrives s .full d W (Holds .val v) := by
  have hproc : p.Like compiled W s.registers.proc := hproc
  generalize hv : s.registers.proc = v at hproc
  -- Anything but a closure is refused.
  have hrefused : s.registers.closure = .error (.notAProcedure v) →
      Follows depth s (some (.error (.notAProcedure p), w)) fun v =>
        Arrives s .full d W (Holds .val v) := by
    intro hclosure
    refine Follows.fails ⟨hsteady.sound_perform hc, s.store, .notAProcedure v, W, ?_, hrep,
      .notAProcedure hproc, id⟩
    refine Scene.next_assign_error hc ?_
    simp only [Operand.map, Machine.evaluate, hclosure]
  cases hproc with
  | primitive q => exact absurd rfl (hprimitive q)
  | @closure t t' procedure ref f htag hcode =>
      have hclosure : s.registers.closure = .ok (ref, f) := by rw [Registers.closure, hv]
      have hval : Machine.evaluate site.code.ref s.registers s.store
          (Operand.closureEntry.map site.number) = .ok (.label ref) s.store := by
        simp only [Operand.map, Machine.evaluate, hclosure]
      refine Follows.step (hsteady.sound_perform hc) (Scene.next_assign hc (by decide) hval) ?_
      refine (jump_follows (s := { s with
        registers := s.registers.set .val (.label ref)
        control := site.before (.jump (.indirect .val) :: rest) })
        henters rfl (hsteady.later rfl rfl rfl) hcode rfl hv (hargs.of_argl_eq rfl) hrep hk hback
        hcalls).andThen ?_
      intro v w' s' harrived
      refine Follows.done (harrived.from_earlier le_rfl rfl fun r hr => ?_)
      simp at hr
  | _ => exact hrefused (by rw [Registers.closure, hv])

/-! ## Code that enters -/

/-- Entering what is in `proc` after `kontinue` has been set to a label. -/
theorem returning_follows (henters : Enters depth enter) {p : Value Procedure}
    (hprimitive : ∀ q, p ≠ .primitive q) {args : List (Value Procedure)} {W : TagMatch}
    {w : Store Procedure} {site : Site} {rest dest : List Statement} {name : Label} {s : Scene}
    {f : FrameId} {needs : RegisterSet}
    (hc : s.control = site.before (.assign .kontinue (.label name) ::
      .assign .val .closureEntry :: .jump (.indirect .val) :: rest))
    (hready : Ready f W w needs s) (hproc : Holds .proc p W s.registers)
    (hargs : HoldsList args W s.registers) (hdest : site.Covers (.label name :: dest)) :
    Follows depth s (Evaluator.apply enter p args w) fun v =>
      Arrives s .full ⟨site.before dest, s.calls.activations⟩ W (Holds .val v) := by
  refine Follows.step (hready.steady.sound_perform hc) (Scene.next_assign_kontinue hc) ?_
  refine (transfer_follows (s := { s with
      registers := s.registers.set .kontinue (.label (site.code.ref (site.number name)))
      control := site.before (.assign .val .closureEntry :: .jump (.indirect .val) :: rest)
      calls := { s.calls with armed := true } })
    (d := ⟨site.before dest, s.calls.activations⟩) henters hprimitive rfl
    (hready.steady.later rfl rfl rfl) hready.represented (hproc.set (by decide) _)
    (hargs.of_argl_eq rfl) rfl (Site.control?_ref hdest) (Or.inl rfl)).andThen ?_
  intro v w' s' harrived
  refine Follows.done (harrived.from_earlier le_rfl rfl fun r hr => ?_)
  simp at hr

/-- Code that enters what is in `proc` comes back where the linkage leads. -/
theorem enterCode_runs (henters : Enters depth enter) {p : Value Procedure}
    (hprimitive : ∀ q, p ≠ .primitive q) (args : List (Value Procedure))
    (htarget : target.IsTarget) {linkage : Linkage} (hlinkage : linkage ≠ .next) {n n' : Nat}
    {code : Sequence} (hcode : enterCode target linkage.returnTo? n = .ok code n') :
    code.Runs depth linkage (HoldsCall p args)
      (fun _ => Evaluator.apply enter p args) (Holds target) := by
  cases linkage with
  | next => exact absurd rfl hlinkage
  | caller =>
      rcases htarget with rfl | rfl
      · -- A tail call: the activation has cleaned up and hands over.
        cases hcode
        intro site rest s f W w d hcovers hc hready hpre hd
        obtain ⟨a, ref, hactivations, hstack, hkontinue, href, hneeded⟩ := hd
        have hk : s.registers.kontinue = a.kontinue := hneeded rfl
        have hcalls : s.calls = ⟨false, a :: d.activations⟩ := by
          rw [← hactivations, ← hready.unarmed]
        exact transfer_follows henters hprimitive hc hready.steady hready.represented
          hpre.procedure hpre.arguments (hk.trans hkontinue) href
          (Or.inr ⟨a, hcalls, hstack, hk⟩)
      · cases hcode
  | label name =>
      rcases htarget with rfl | rfl
      · -- The procedure returns to the label itself.
        cases hcode
        intro site rest s f W w d hcovers hc hready hpre hd
        obtain ⟨dest, hdest, rfl⟩ := hd
        exact returning_follows henters hprimitive hc hready hpre.procedure hpre.arguments hdest
      · -- The procedure returns to a label of the call, where its value is moved to the target.
        cases hcode
        intro site rest s f W w d hcovers hc hready hpre hd
        obtain ⟨dest, hdest, rfl⟩ := hd
        have hback := hcovers.tail.tail.tail
        refine (returning_follows henters hprimitive hc hready hpre.procedure hpre.arguments
          hback).andThen ?_
        intro v w' s' harrived
        have hsteady := harrived.steady hready.bottom
        obtain ⟨W', hW, hrep, hres⟩ := harrived.represented
        refine Follows.step (hsteady.sound_perform harrived.control)
          (Scene.next_assign harrived.control (by decide) rfl) ?_
        refine Follows.step (Scene.Steady.sound_direct (hsteady.later rfl rfl rfl) rfl)
          (Scene.next_direct rfl hdest) (Follows.done ?_)
        refine ⟨rfl, ?_, harrived.stack, fun r hr => ?_, W', hW, hrep, holds_set_self hres _⟩
        · simp only [harrived.calls]
        · simp at hr

/-! ## Code for calls -/

/-- Code that applies the primitive in `proc`. -/
theorem primitive_runs (p : Primitive) (args : List (Value Procedure)) (htarget : target.IsTarget)
    (linkage : Linkage) :
    (linkage.after (of [.proc, .argl] [target] [.assign target .applyPrimitive])).Runs depth linkage
      (HoldsCall (.primitive p) args)
      (fun _ => Evaluator.apply enter (.primitive p) args) (Holds target) := by
  refine Runs.after linkage (assign_runs htarget.ne_kontinue ?_)
    fun v W rs x h => h.set htarget.ne_kontinue x
  rintro site s f W w hready ⟨hproc, items, hitems, hlike⟩
  have hproc : s.registers.proc = .primitive p := by
    have hproc : (Value.primitive p).Like compiled W s.registers.proc := hproc
    generalize s.registers.proc = v at hproc
    cases hproc
    rfl
  have happly := p.apply_like compiled_faithful hready.represented.unique hlike w.nextTag
    s.store.nextTag
  have hordinary := p.apply_ordinary items s.store.nextTag
  simp only [Evaluator.apply, Evaluator.primitive, Operand.map, Machine.evaluate, hproc, hitems]
  generalize p.apply args w.nextTag = x at happly ⊢
  generalize p.apply items s.store.nextTag = y at happly hordinary ⊢
  cases happly with
  | error he => exact .error hready.represented he (hordinary _ rfl)
  | @ok made made' hmade =>
      obtain ⟨W', hW, hrep, hv⟩ :=
        hready.represented.make (fun _ => made) (fun _ => made') hmade
      exact .ok hW hrep (holds_set_self hv _)

theorem testPrimitive_tests (p : Value Procedure) (args : List (Value Procedure)) :
    Tests .testPrimitive (HoldsCall p args)
      (match p with | .primitive _ => true | _ => false) := by
  rintro site rest s W hc ⟨hproc, -⟩
  have hproc : p.Like compiled W s.registers.proc := hproc
  generalize hv : s.registers.proc = v at hproc
  cases hproc with
  | primitive q => exact Scene.next_testPrimitive hc hv
  | _ =>
      refine Scene.next_testPrimitive_other hc fun q hq => ?_
      rw [hv] at hq
      cases hq

/-- Code for a call applies what is in `proc` to the arguments in `argl`. -/
theorem callCode_runs (henters : Enters depth enter) (p : Value Procedure)
    (args : List (Value Procedure)) (htarget : target.IsTarget) {linkage : Linkage} {n n' : Nat}
    {code : Sequence} (hcode : callCode target linkage n = .ok code n') :
    code.Runs depth linkage (HoldsCall p args)
      (fun _ => Evaluator.apply enter p args) (Holds target) := by
  obtain ⟨enterSeq, henter, rfl⟩ := callCode_eq_ok hcode
  have hpre : ∀ W rs v, HoldsCall p args W rs → HoldsCall p args W (rs.set .flag v) :=
    fun W rs v h => ⟨h.procedure.set (by decide) v, h.arguments.of_argl_eq rfl⟩
  refine fork_runs (testPrimitive_tests p args) hpre _ _ _ _ ?_ ?_
  · intro h
    refine enterCode_runs henters ?_ args htarget ?_ henter
    · rintro q rfl
      cases h
    · cases linkage <;> exact nofun
  · intro h
    cases p with
    | primitive q => exact primitive_runs q args htarget linkage
    | _ => cases h

theorem contains_needs_enterCode_env {returnTo : Option Label} {n n' : Nat} {code : Sequence}
    (h : enterCode target returnTo n = .ok code n') : code.needs.contains .env = false := by
  unfold enterCode at h
  cases returnTo with
  | none =>
      simp only at h
      split at h
      · cases h
        rfl
      · cases h
  | some label =>
      simp only at h
      split at h
      · cases h
        rfl
      · cases h
        rfl

/-- A call needs the procedure but no environment. -/
theorem contains_needs_callCode (htarget : target.IsTarget) {linkage : Linkage} {n n' : Nat}
    {code : Sequence} (h : callCode target linkage n = .ok code n') :
    code.needs.contains .proc = true ∧ code.needs.contains .env = false := by
  obtain ⟨enterSeq, henter, rfl⟩ := callCode_eq_ok h
  refine ⟨by simp [contains_needs_fork], ?_⟩
  simp only [contains_needs_fork, contains_needs_enterCode_env henter, Linkage.after, preserving,
    protectFor_assign htarget, contains_needs_append, contains_needs_linkage_env]
  rfl

/-- Code for an application. -/
theorem applicationCode_runs (henters : Enters depth enter) {operator : Sequence}
    {x : FrameId → Evaluator (Value Procedure)}
    (hoperator : operator.Runs depth .next anything x (Holds .proc)) {operands : List Sequence}
    {ys : List (FrameId → Evaluator (Value Procedure))} (hoperands : RunAll depth operands ys)
    (htarget : target.IsTarget) {linkage : Linkage} {n n' : Nat} {call : Sequence}
    (hcall : callCode target linkage n = .ok call n') :
    (applicationCode operator operands call).Runs depth linkage anything
      (fun f => x f >>= fun p => Evaluator.fromLast (ys.map (· f)) >>= Evaluator.apply enter p)
      (Holds target) := by
  obtain ⟨hneedsProc, hneedsEnv⟩ := contains_needs_callCode htarget hcall
  -- The procedure stays in `proc` while the operands are evaluated, since the call needs it.
  have hrest : ∀ p, (preserving [.proc, .kontinue] (argumentCode operands) call).Runs depth linkage
      (Holds .proc p)
      (fun f => Evaluator.fromLast (ys.map (· f)) >>= Evaluator.apply enter p) (Holds target) := by
    intro p
    refine ((argumentCode_runs hoperands).weaken fun _ _ _ => trivial).preserving [.proc, .kontinue]
      (fun args => callCode_runs henters p args htarget hcall) ?_ ?_ ?_ ?_
    · intro args W rs r v hr h
      refine h.of_argl_eq (Registers.get_set_of_ne _ _ ?_)
      rintro rfl
      simp at hr
    · intro args W W' rs rs' hp hW hargs hkept
      refine ⟨?_, hargs⟩
      have hproc := hkept .proc (Or.inr ⟨by simp, hneedsProc⟩)
      rw [Holds, hproc]
      exact hp.mono hW
    · intro henv
      rw [hneedsEnv] at henv
      cases henv
    · simp
  refine hoperator.preserving [.env, .kontinue] hrest ?_ ?_ ?_ ?_
  · intro p W rs r v hr h
    refine h.set ?_ v
    rintro rfl
    simp at hr
  · exact fun _ _ _ _ _ _ _ h _ => h
  · simp
  · simp

end Expression
end SchemeMachine
