import SchemeMachine.Proofs.Registers.Forms
import SchemeMachine.Proofs.Registers.Operations
import SchemeMachine.Proofs.Registers.Positions

/-!
# Two runs in tandem

Two runs of the same code that begin with the same store, and with the same contents of the
registers that the code needs, go on in step.  The registers that are known hold the same in both
runs; the others hold what they held in the beginning.  Both runs have saved the same values since.

The invariant `Tandem` follows the activation under way by the context of its code, and knows of
each activation below where it goes on and that its code keeps to its register use from there.  One
step of both runs keeps the invariant, fails in both alike, or was not to be taken, because the code
that was begun with has come to its end.
-/

namespace SchemeMachine

/-- An activation as two runs of its code have entered it, with the registers and the save stacks of
either run then. -/
structure Visit where
  site : Site
  ending : Ending
  registers : Registers
  registers' : Registers
  base : Array Value
  base' : Array Value

theorem Scene.Agree.mono {known known' : RegisterSet} {s s' : Scene} (h : s.Agree known s')
    (hknown : ∀ r, known'.contains r = true → known.contains r = true) : s.Agree known' s' :=
  ⟨h.control, h.store, h.compiledStore, fun r hr => h.equal r (hknown r hr),
    fun r hr => h.compiled r (hknown r hr)⟩

namespace Visit

/-- Both save stacks are what they were, with the same values of the saved registers on top. -/
inductive Saved (v : Visit) : List (Register × Bool) → Array Value → Array Value → Prop
  | nil : v.Saved [] v.base v.base'
  | cons {r : Register} {intact : Bool} {saved : List (Register × Bool)}
      {stack stack' : Array Value} {value : Value} (below : v.Saved saved stack stack')
      (same : intact = true → value = v.registers.get r ∧ value = v.registers'.get r)
      (compiled : r ≠ .env → value.Compiled) :
      v.Saved ((r, intact) :: saved) (stack.push value) (stack'.push value)

/-- An activation goes on in a context, with save stacks as the context has them. -/
structure Stands (v : Visit) (known : RegisterSet) (c : Context) (ahead : List Statement)
    (stack stack' : Array Value) : Prop where
  covers : v.site.Covers ahead
  keeps : Keeps v.ending c ahead
  known : ∀ r, c.known.contains r = true → known.contains r = true
  saved : v.Saved c.saved stack stack'

theorem Stands.mono {v : Visit} {known known' : RegisterSet} {c : Context}
    {ahead : List Statement} {stack stack' : Array Value} (h : v.Stands known c ahead stack stack')
    (hknown : ∀ r, known.contains r = true → known'.contains r = true) :
    v.Stands known' c ahead stack stack' :=
  ⟨h.covers, h.keeps, fun r hr => hknown r (h.known r hr), h.saved⟩

/-- With nothing saved, the save stacks are what they were. -/
theorem Stands.base {v : Visit} {known : RegisterSet} {c : Context} {ahead : List Statement}
    {stack stack' : Array Value} (h : v.Stands known c ahead stack stack') (hsaved : c.saved = []) :
    stack = v.base ∧ stack' = v.base' := by
  have hstacks := h.saved
  rw [hsaved] at hstacks
  cases hstacks
  exact ⟨rfl, rfl⟩

/-- An activation that is about to be left for a procedure.  The procedure returns to it, at a label
in the statements `rest` after the jump, or it has cleaned up and hands over. -/
inductive Leaves (v : Visit) (known : RegisterSet) (s s' : Scene) (rest : List Statement) : Prop
  | call {c : Context} {name : Label} {dest : List Statement}
      (stands : v.Stands (known.insert .val) c dest s.stack s'.stack) (changed : c.intact = .none)
      (forward : (.label name :: dest) <:+ rest)
      (kontinue : s.registers.kontinue = .label (v.site.code.ref (v.site.number name)))
      (armed : s.calls.armed = true) (armed' : s'.calls.armed = true)
  | handOver (returns : v.ending = .returns) (stack : s.stack = v.base)
      (stack' : s'.stack = v.base') (kontinue : s.registers.kontinue = v.registers.kontinue)
      (kontinue' : s'.registers.kontinue = v.registers'.kontinue)
      (unarmed : s.calls.armed = false) (unarmed' : s'.calls.armed = false)

/-- The activation under way is in a context, and no call is being made. -/
structure Settled (v : Visit) (known : RegisterSet) (c : Context) (s s' : Scene)
    (here : List Statement) : Prop where
  stands : v.Stands known c here s.stack s'.stack
  intact : ∀ r, c.intact.contains r = true →
    s.registers.get r = v.registers.get r ∧ s'.registers.get r = v.registers'.get r
  unarmed : s.calls.armed = false
  unarmed' : s'.calls.armed = false

/-- What is known of the activation under way. -/
inductive Phase (v : Visit) (known : RegisterSet) (s s' : Scene) : List Statement → Prop
  | settled {c : Context} {here : List Statement} (settled : v.Settled known c s s' here) :
      Phase v known s s' here
  | leaving {rest : List Statement} (leaves : v.Leaves known s s' rest)
      (covers : v.site.Covers (.assign .val .closureEntry :: .jump (.indirect .val) :: rest))
      (needed : ∀ r ∈ [Register.proc, .argl, .kontinue], known.contains r = true) :
      Phase v known s s' (.assign .val .closureEntry :: .jump (.indirect .val) :: rest)
  | entering {rest : List Statement} {tag : Tag} {ref : CodeRef} {f : FrameId}
      (leaves : v.Leaves known s s' rest) (covers : v.site.Covers (.jump (.indirect .val) :: rest))
      (needed : ∀ r ∈ [Register.proc, .argl, .kontinue, .val], known.contains r = true)
      (proc : s.registers.proc = .closure tag ref f) (val : s.registers.val = .label ref) :
      Phase v known s s' (.jump (.indirect .val) :: rest)

/-- An activation waits for another, `w`, that it has called and that returns to the statements
`dest`. -/
structure Awaits (v w : Visit) (known : RegisterSet) (dest : List Statement) (a a' : Activation) :
    Prop where
  stands : ∃ c, c.intact = .none ∧ v.Stands known c dest a.stack a'.stack
  back : ∃ ref, a.kontinue = .label ref ∧ a'.kontinue = .label ref ∧
    ref.control? = some (v.site.before dest)
  returns : w.ending = .returns
  base : w.base = a.stack ∧ w.base' = a'.stack
  kontinue : w.registers.kontinue = a.kontinue ∧ w.registers'.kontinue = a'.kontinue

theorem Awaits.mono {v w : Visit} {known known' : RegisterSet} {dest : List Statement}
    {a a' : Activation} (h : v.Awaits w known dest a a')
    (hknown : ∀ r, known.contains r = true → known'.contains r = true) :
    v.Awaits w known' dest a a' := by
  obtain ⟨c, hchanged, hstands⟩ := h.stands
  exact ⟨⟨c, hchanged, hstands.mono hknown⟩, h.back, h.returns, h.base, h.kontinue⟩

end Visit

/-- The activations that wait for the one under way, which has the statements `here` ahead of it.
The outermost is at a position or comes back to it. -/
inductive Callers (home : Visit) (known : RegisterSet) (position : Nat) :
    Visit → List Statement → List Activation → List Activation → Prop
  | outermost {here : List Statement} (standing : home.site.At position here) :
      Callers home known position home here [] []
  | called {v w : Visit} {dest : List Statement} {a a' : Activation}
      {others others' : List Activation} (here : List Statement)
      (below : Callers home known position v dest others others')
      (awaits : v.Awaits w known dest a a') :
      Callers home known position w here (a :: others) (a' :: others')

namespace Callers

variable {home v : Visit} {known known' : RegisterSet} {position : Nat} {here : List Statement}
  {activations activations' : List Activation}

theorem mono (h : Callers home known position v here activations activations')
    (hknown : ∀ r, known.contains r = true → known'.contains r = true) :
    Callers home known' position v here activations activations' := by
  induction h with
  | outermost standing => exact .outermost standing
  | called here _ awaits ih => exact .called here ih (awaits.mono hknown)

/-- The activation under way takes a step; the others wait where they were. -/
theorem follow {s s' : Scene} {here' : List Statement}
    (h : Callers home known position v here s.calls.activations s'.calls.activations)
    (hhome : v = home → home.site.At position here → ∀ t ∈ [s, s'],
      home.site.At (home.site.onward t.registers position) here') :
    home.site.follow s' position = home.site.follow s position ∧
      Callers home known (home.site.follow s position) v here' s.calls.activations
        s'.calls.activations := by
  unfold Site.follow
  generalize s.calls.activations = activations at h ⊢
  generalize s'.calls.activations = activations' at h ⊢
  cases h with
  | outermost standing =>
      have hs := hhome rfl standing s (by simp)
      have hs' := hhome rfl standing s' (by simp)
      exact ⟨hs'.unique hs, .outermost hs⟩
  | called here below awaits => exact ⟨rfl, .called here' below awaits⟩

/-- An activation that is to return has been called. -/
theorem of_returns (h : Callers home known position v here activations activations')
    (hhome : home.ending ≠ .returns) (hreturns : v.ending = .returns) :
    ∃ u dest a a' others others', activations = a :: others ∧ activations' = a' :: others' ∧
      Callers home known position u dest others others' ∧ u.Awaits v known dest a a' := by
  cases h with
  | outermost => exact absurd hreturns hhome
  | called here below awaits => exact ⟨_, _, _, _, _, _, rfl, rfl, below, awaits⟩

theorem isEmpty_eq (h : Callers home known position v here activations activations') :
    activations'.isEmpty = activations.isEmpty := by
  cases h with
  | outermost => rfl
  | called here below awaits => rfl

theorem home_of_nil (h : Callers home known position v here activations activations')
    (hempty : activations = []) : v = home ∧ activations' = [] ∧ home.site.At position here := by
  subst hempty
  cases h with
  | outermost standing => exact ⟨rfl, rfl, standing⟩

/-- An activation that does not return is the outermost. -/
theorem of_falls (h : Callers home known position v here activations activations')
    (hfalls : v.ending ≠ .returns) :
    v = home ∧ activations = [] ∧ activations' = [] := by
  cases h with
  | outermost => exact ⟨rfl, rfl, rfl⟩
  | called here below awaits => exact absurd awaits.returns hfalls

end Callers

/-- Two scenes in which runs of the same code stand that began together. -/
structure Tandem (home : Visit) (known : RegisterSet) (v : Visit) (here : List Statement)
    (position : Nat) (s s' : Scene) : Prop where
  agree : s.Agree known s'
  forgotten : ∀ r, known.contains r = false →
    s.registers.get r = home.registers.get r ∧ s'.registers.get r = home.registers'.get r
  control : s.control = v.site.before here
  phase : v.Phase known s s' here
  callers : Callers home known position v here s.calls.activations s'.calls.activations

/-- Both runs take a step to the same position and stand in tandem again. -/
def StepTogether (home : Visit) (position : Nat) (s s' : Scene) : Prop :=
  ∃ t t' known v here, s.next = .running t ∧ s'.next = .running t' ∧
    home.site.follow s' position = home.site.follow s position ∧
    Tandem home known v here (home.site.follow s position) t t'

namespace Tandem

variable {home v : Visit} {known : RegisterSet} {here : List Statement} {position : Nat}
  {s s' : Scene}

/-- A step that goes on in the same activation and writes the same in both runs. -/
theorem stepTogether (h : Tandem home known v here position s s') {t t' : Scene}
    {writes : RegisterSet} {here' : List Statement} (hnext : s.next = .running t)
    (hnext' : s'.next = .running t')
    (hwritten : Registers.WrittenAlike writes s.registers s'.registers t.registers t'.registers)
    (hstore : t'.store = t.store) (hcompiled : t.store.Compiled)
    (hcontrol : t.control = v.site.before here') (hcontrol' : t'.control = v.site.before here')
    (hactivations : t.calls.activations = s.calls.activations)
    (hactivations' : t'.calls.activations = s'.calls.activations)
    (hphase : v.Phase (known.union writes) t t' here')
    (hposition : v = home → home.site.At position here → ∀ q ∈ [s, s'],
      home.site.At (home.site.onward q.registers position) here') :
    StepTogether home position s s' := by
  have hfollow := h.callers.follow hposition
  refine ⟨t, t', known.union writes, v, here', hnext, hnext', hfollow.1, ?_, ?_, hcontrol, hphase,
    ?_⟩
  · refine ⟨hcontrol'.trans hcontrol.symm, hstore, hcompiled, ?_, ?_⟩
    · intro r hr
      cases hw : writes.contains r with
      | true => exact (hwritten.written r hw).1
      | false =>
          have hknown : known.contains r = true := by simpa [hw] using hr
          rw [(hwritten.kept r hw).1, (hwritten.kept r hw).2]
          exact h.agree.equal r hknown
    · intro r hr henv
      cases hw : writes.contains r with
      | true => exact (hwritten.written r hw).2 henv
      | false =>
          have hknown : known.contains r = true := by simpa [hw] using hr
          rw [(hwritten.kept r hw).1]
          exact h.agree.compiled r hknown henv
  · intro r hr
    simp only [RegisterSet.contains_union, Bool.or_eq_false_iff] at hr
    rw [(hwritten.kept r hr.2).1, (hwritten.kept r hr.2).2]
    exact h.forgotten r hr.1
  · rw [hactivations, hactivations']
    exact hfollow.2.mono fun r hr => by simp [hr]

section Settled

variable {c : Context} {rest : List Statement}

theorem runsOn_of_plain {operation : Operation Label} (h : operation.Plain rest) :
    (Statement.perform operation).runsOn = true := by
  cases operation with
  | branch name => exact absurd h id
  | _ => rfl

/-- An operation that changes registers and store alone. -/
theorem perform_step {operation : Operation Label}
    (h : Tandem home known v (.perform operation :: rest) position s s')
    (hv : v.Settled known c s s' (.perform operation :: rest)) (hplain : operation.Plain rest)
    (hreads : ∀ r, operation.reads.contains r = true → c.known.contains r = true)
    (honward : Keeps v.ending (c.wrote operation.writes) rest) :
    Scene.FailAlike s s' ∨ StepTogether home position s s' := by
  have hagree : s.Agree operation.reads s' :=
    h.agree.mono fun r hr => hv.stands.known r (hreads r hr)
  rcases Scene.plain_alike hplain hagree h.control hv.stands.covers with hfail | hwrite
  · exact Or.inl hfail
  · obtain ⟨rs, rs', store, hwrite⟩ := hwrite
    refine Or.inr (h.stepTogether hwrite.next hwrite.next' hwrite.written rfl hwrite.compiledStore
      rfl rfl rfl rfl (.settled ⟨⟨hv.stands.covers.tail, honward, ?_, hv.stands.saved⟩, ?_,
        hv.unarmed, hv.unarmed'⟩) ?_)
    · intro r hr
      simp only [Context.wrote, RegisterSet.contains_union, Bool.or_eq_true] at hr
      rcases hr with hr | hr
      · simp [hv.stands.known r hr]
      · simp [hr]
    · intro r hr
      simp only [Context.wrote, RegisterSet.contains_diff, Bool.and_eq_true,
        Bool.not_eq_true'] at hr
      rw [(hwrite.written.kept r hr.2).1, (hwrite.written.kept r hr.2).2]
      exact hv.intact r hr.1
    · intro _ hhere _ _
      exact hhere.onward (runsOn_of_plain hplain)

/-- Saving a register pushes the same value in both runs. -/
theorem save_step {r : Register}
    (h : Tandem home known v (.perform (.save r) :: rest) position s s')
    (hv : v.Settled known c s s' (.perform (.save r) :: rest))
    (hknown : c.known.contains r = true) (honward : Keeps v.ending (c.pushed r) rest) :
    StepTogether home position s s' := by
  have hr := hv.stands.known r hknown
  have hequal := h.agree.equal r hr
  have hnext' := Scene.next_save (h.agree.control.trans h.control)
  rw [hequal] at hnext'
  refine h.stepTogether (Scene.next_save h.control) hnext' (Registers.writtenAlike_none _ _)
    h.agree.store h.agree.compiledStore rfl rfl rfl rfl ?_ fun _ hhere _ _ =>
      hhere.onward rfl
  refine .settled ⟨⟨hv.stands.covers.tail, honward, ?_, .cons hv.stands.saved ?_ ?_⟩, hv.intact,
    hv.unarmed, hv.unarmed'⟩
  · intro q hq
    simp [hv.stands.known q hq]
  · intro hintact
    exact ⟨(hv.intact r hintact).1, hequal.symm.trans (hv.intact r hintact).2⟩
  · exact h.agree.compiled r hr

/-- Restoring a register pops the same value in both runs. -/
theorem restore_step {r : Register} {intact : Bool} {saved : List (Register × Bool)}
    (h : Tandem home known v (.perform (.restore r) :: rest) position s s')
    (hv : v.Settled known c s s' (.perform (.restore r) :: rest))
    (htop : c.saved = (r, intact) :: saved)
    (honward : Keeps v.ending (c.popped r intact saved) rest) :
    StepTogether home position s s' := by
  have hsaved := hv.stands.saved
  rw [htop] at hsaved
  generalize hstack : s.stack = stack at hsaved
  generalize hstack' : s'.stack = stack' at hsaved
  cases hsaved with
  | @cons _ _ _ stack stack' value below same compiled =>
      have hwritten : Registers.WrittenAlike (.ofList [r]) s.registers s'.registers
          (s.registers.set r value) (s'.registers.set r value) :=
        Registers.writtenAlike_set _ _ compiled
      refine h.stepTogether (Scene.next_restore h.control hstack)
        (Scene.next_restore (h.agree.control.trans h.control) hstack') hwritten h.agree.store
        h.agree.compiledStore rfl rfl rfl rfl ?_ fun _ hhere _ _ => hhere.onward rfl
      refine .settled ⟨⟨hv.stands.covers.tail, honward, ?_, below⟩, ?_, hv.unarmed, hv.unarmed'⟩
      · intro q hq
        simp only [Context.popped, RegisterSet.contains_insert, Bool.or_eq_true, beq_iff_eq] at hq
        rcases hq with hq | rfl
        · simp [hv.stands.known q hq]
        · simp
      · intro q hq
        by_cases hqr : q = r
        · subst hqr
          have hintact : intact = true := by
            cases intact with
            | true => rfl
            | false => simp [Context.popped] at hq
          simp only [Registers.get_set_self]
          exact same hintact
        · have hold : c.intact.contains q = true := by
            cases intact <;> simpa [Context.popped, hqr] using hq
          simp only [Registers.get_set_of_ne _ _ hqr]
          exact hv.intact q hold

/-- A step that changes nothing but where control is. -/
theorem quiet_step {here' : List Statement}
    (h : Tandem home known v here position s s') (hv : v.Settled known c s s' here)
    (hnext : s.next = .running { s with
      control := v.site.before here', calls := { s.calls with armed := false } })
    (hnext' : s'.next = .running { s' with
      control := v.site.before here', calls := { s'.calls with armed := false } })
    (hcovers : v.site.Covers here') (honward : Keeps v.ending c here')
    (hposition : v = home → home.site.At position here → ∀ q ∈ [s, s'],
      home.site.At (home.site.onward q.registers position) here') :
    StepTogether home position s s' := by
  refine h.stepTogether hnext hnext' (Registers.writtenAlike_none _ _) h.agree.store
    h.agree.compiledStore rfl rfl rfl rfl ?_ hposition
  refine .settled ⟨⟨hcovers, honward, ?_, hv.stands.saved⟩, hv.intact, rfl, rfl⟩
  intro r hr
  simp [hv.stands.known r hr]

theorem label_step {name : Label} (h : Tandem home known v (.label name :: rest) position s s')
    (hv : v.Settled known c s s' (.label name :: rest)) (honward : Keeps v.ending c rest) :
    StepTogether home position s s' :=
  h.quiet_step hv (Scene.next_label h.control hv.stands.covers)
    (Scene.next_label (h.agree.control.trans h.control) hv.stands.covers) hv.stands.covers.tail
    honward fun _ hhere _ _ => hhere.onward rfl

theorem direct_step {name : Label} {dest : List Statement}
    (h : Tandem home known v (.jump (.direct name) :: rest) position s s')
    (hv : v.Settled known c s s' (.jump (.direct name) :: rest))
    (hforward : (.label name :: dest) <:+ rest) (honward : Keeps v.ending c dest) :
    StepTogether home position s s' := by
  have hcovers : v.site.Covers (.label name :: dest) := hforward.trans hv.stands.covers.tail
  refine h.quiet_step hv (Scene.next_direct h.control hcovers)
    (Scene.next_direct (h.agree.control.trans h.control) hcovers) hcovers.tail honward ?_
  rintro rfl hhere _ -
  exact hhere.onward_direct hcovers

/-- Both runs branch the same way, since the flag is known. -/
theorem branch_step {name : Label} {dest : List Statement}
    (h : Tandem home known v (.perform (.branch name) :: rest) position s s')
    (hv : v.Settled known c s s' (.perform (.branch name) :: rest))
    (hknown : c.known.contains .flag = true) (hforward : (.label name :: dest) <:+ rest)
    (htaken : Keeps v.ending c dest) (hpassed : Keeps v.ending c rest) :
    StepTogether home position s s' := by
  have hcovers : v.site.Covers (.label name :: dest) := hforward.trans hv.stands.covers.tail
  have hflag' : s'.registers.flag = s.registers.flag :=
    h.agree.equal .flag (hv.stands.known .flag hknown)
  have hc' := h.agree.control.trans h.control
  have hbranch : v = home → home.site.At position (.perform (.branch name) :: rest) → ∀ q ∈ [s, s'],
      home.site.At (home.site.onward q.registers position)
        (if s.registers.flag.isTrue then dest else rest) := by
    rintro rfl hhere q hq
    have hq : q.registers.flag = s.registers.flag := by
      simp only [List.mem_cons, List.not_mem_nil, or_false] at hq
      rcases hq with rfl | rfl
      · rfl
      · exact hflag'
    rw [← hq]
    exact hhere.onward_branch hcovers
  cases hflag : s.registers.flag.isTrue with
  | true =>
      rw [hflag, if_pos rfl] at hbranch
      exact h.quiet_step hv (Scene.next_branch_taken h.control hflag hcovers)
        (Scene.next_branch_taken hc' (by rw [hflag']; exact hflag) hcovers) hcovers.tail htaken
        hbranch
  | false =>
      rw [hflag, if_neg Bool.false_ne_true] at hbranch
      exact h.quiet_step hv (Scene.next_branch_passed h.control hflag)
        (Scene.next_branch_passed hc' (by rw [hflag']; exact hflag)) hv.stands.covers.tail hpassed
        hbranch

/-- A call that is to return sets `kontinue` to the same place in both runs. -/
theorem call_step {name : Label} {dest : List Statement}
    (h : Tandem home known v (.assign .kontinue (.label name) :: .assign .val .closureEntry ::
      .jump (.indirect .val) :: rest) position s s')
    (hv : v.Settled known c s s' (.assign .kontinue (.label name) :: .assign .val .closureEntry ::
      .jump (.indirect .val) :: rest))
    (hproc : c.known.contains .proc = true) (hargl : c.known.contains .argl = true)
    (hforward : (.label name :: dest) <:+ rest) (honward : Keeps v.ending c.returned dest) :
    StepTogether home position s s' := by
  have hcovers := hv.stands.covers
  have hwritten : Registers.WrittenAlike (.ofList [.kontinue]) s.registers s'.registers
      (s.registers.set .kontinue (.label (v.site.code.ref (v.site.number name))))
      (s'.registers.set .kontinue (.label (v.site.code.ref (v.site.number name)))) :=
    Registers.writtenAlike_set _ _ fun _ => Value.compiled_label _
  refine h.stepTogether (Scene.next_assign_kontinue h.control)
    (Scene.next_assign_kontinue (h.agree.control.trans h.control)) hwritten h.agree.store
    h.agree.compiledStore rfl rfl rfl rfl ?_ fun _ hhere _ _ => hhere.onward rfl
  refine .leaving (.call ⟨?_, honward, ?_, hv.stands.saved⟩ rfl hforward rfl rfl rfl)
    hcovers.tail ?_
  · exact (List.suffix_cons _ dest).trans (hforward.trans hcovers.tail.tail.tail)
  · intro r hr
    simp only [Context.returned, RegisterSet.contains_union, RegisterSet.contains_ofList,
      Bool.or_eq_true, List.contains_iff_mem, List.mem_cons, List.not_mem_nil, or_false] at hr
    rcases hr with hr | rfl | rfl
    · simp [hv.stands.known r hr]
    · simp
    · simp
  · simp [hv.stands.known _ hproc, hv.stands.known _ hargl]

end Settled

/-! ## Entering and leaving procedures -/

section Leaving

variable {rest : List Statement}

theorem leaves_mono {known' : RegisterSet} {t t' : Scene} (h : v.Leaves known s s' rest)
    (hknown : ∀ r, known.contains r = true → known'.contains r = true)
    (hstack : t.stack = s.stack) (hstack' : t'.stack = s'.stack)
    (hkontinue : t.registers.kontinue = s.registers.kontinue)
    (hkontinue' : t'.registers.kontinue = s'.registers.kontinue)
    (hcalls : t.calls = s.calls) (hcalls' : t'.calls = s'.calls) : v.Leaves known' t t' rest := by
  cases h with
  | call stands changed forward kontinue armed armed' =>
      refine .call ?_ changed forward (hkontinue.trans kontinue) (by rw [hcalls]; exact armed)
        (by rw [hcalls']; exact armed')
      rw [hstack, hstack']
      refine stands.mono fun r hr => ?_
      simp only [RegisterSet.contains_insert, Bool.or_eq_true] at hr ⊢
      exact hr.imp_left (hknown r)
  | handOver returns stack stack' kontinue kontinue' unarmed unarmed' =>
      exact .handOver returns (hstack.trans stack) (hstack'.trans stack')
        (hkontinue.trans kontinue) (hkontinue'.trans kontinue') (by rw [hcalls]; exact unarmed)
        (by rw [hcalls']; exact unarmed')

/-- The entry of the procedure in `proc` goes to `val`, unless what is in `proc` is no procedure. -/
theorem leaving_step
    (h : Tandem home known v (.assign .val .closureEntry :: .jump (.indirect .val) :: rest) position
      s s')
    (hleaves : v.Leaves known s s' rest)
    (hcovers : v.site.Covers (.assign .val .closureEntry :: .jump (.indirect .val) :: rest))
    (hneeded : ∀ r ∈ [Register.proc, .argl, .kontinue], known.contains r = true) :
    Scene.FailAlike s s' ∨ StepTogether home position s s' := by
  have hproc' : s'.registers.proc = s.registers.proc :=
    h.agree.equal .proc (hneeded .proc (by simp))
  have hc' := h.agree.control.trans h.control
  have hrefused : ∀ e, s.registers.closure = .error e → Scene.FailAlike s s' := by
    intro e he
    have he' : s'.registers.closure = .error e := by
      rw [Registers.closure, hproc']
      exact he
    refine ⟨e, s.store, Scene.next_assign_error h.control ?_, Scene.next_assign_error hc' ?_⟩
    · simp only [Operand.map, Machine.evaluate, he]
    · simp only [Operand.map, Machine.evaluate, he', h.agree.store]
  cases hproc : s.registers.proc with
  | closure tag ref f =>
      have hval : Machine.evaluate v.site.code.ref s.registers s.store
          (Operand.closureEntry.map v.site.number) = .ok (.label ref) s.store := by
        simp only [Operand.map, Machine.evaluate, Registers.closure, hproc]
      have hval' : Machine.evaluate v.site.code.ref s'.registers s'.store
          (Operand.closureEntry.map v.site.number) = .ok (.label ref) s'.store := by
        simp only [Operand.map, Machine.evaluate, Registers.closure, hproc', hproc]
      have hwritten : Registers.WrittenAlike (.ofList [.val]) s.registers s'.registers
          (s.registers.set .val (.label ref)) (s'.registers.set .val (.label ref)) :=
        Registers.writtenAlike_set _ _ fun _ => Value.compiled_label ref
      refine Or.inr (h.stepTogether (Scene.next_assign h.control (by decide) hval)
        (Scene.next_assign hc' (by decide) hval') hwritten h.agree.store h.agree.compiledStore
        rfl rfl rfl rfl ?_ fun _ hhere _ _ => hhere.onward rfl)
      refine .entering (leaves_mono hleaves (fun r hr => by simp [hr]) rfl rfl rfl rfl rfl rfl)
        hcovers.tail ?_ hproc rfl
      intro r hr
      by_cases hrval : r = .val
      · simp [hrval]
      · have hmem : r ∈ [Register.proc, .argl, .kontinue] := by
          simpa [hrval] using hr
        simp [hneeded r hmem]
  | _ => exact Or.inl (hrefused _ (by rw [Registers.closure, hproc]))

/-- Control goes to the code of the procedure in `proc`, and a new activation begins there. -/
theorem entering_step {tag : Tag} {ref : CodeRef} {f : FrameId} (hhome : home.ending ≠ .returns)
    (h : Tandem home known v (.jump (.indirect .val) :: rest) position s s')
    (hleaves : v.Leaves known s s' rest)
    (hahead : v.site.Covers (.jump (.indirect .val) :: rest))
    (hneeded : ∀ r ∈ [Register.proc, .argl, .kontinue, .val], known.contains r = true)
    (hproc : s.registers.proc = .closure tag ref f) (hval : s.registers.val = .label ref) :
    StepTogether home position s s' := by
  have hcompiled : ref.IsCompiled := by
    refine h.agree.compiled .proc (hneeded .proc (by simp)) (by decide) ref ?_
    simp only [Registers.get, hproc, Value.closures, List.mem_singleton]
  obtain ⟨procedure, site, entry, body, rest', n, n', rfl, hne, hbody, hcovers⟩ := hcompiled
  have hc' := h.agree.control.trans h.control
  have hentry := Site.control?_ref hcovers
  have hval' : s'.registers.val = .label (site.code.ref (site.number entry)) :=
    (h.agree.equal .val (hneeded .val (by simp))).trans hval
  have hkontinue' : s'.registers.kontinue = s.registers.kontinue :=
    h.agree.equal .kontinue (hneeded .kontinue (by simp))
  -- The new activation, as both runs enter it.
  let w : Visit := ⟨site, .returns, s.registers, s'.registers, s.stack, s'.stack⟩
  have hstands : w.Stands known Expression.entered
      (.assign .env .closureEnv :: .assign .env (.extendEnv procedure.formals) ::
        (body.statements ++ rest')) s.stack s'.stack := by
    refine ⟨hcovers.tail, Expression.procedure_keeps hne hbody rest', ?_, .nil⟩
    intro r hr
    exact hneeded r (by simpa [Expression.entered] using hr)
  have hintact : ∀ r, Expression.entered.intact.contains r = true →
      s.registers.get r = w.registers.get r ∧ s'.registers.get r = w.registers'.get r :=
    fun _ _ => ⟨rfl, rfl⟩
  cases hleaves with
  | @call c name dest stands changed forward kontinue armed armed' =>
      have hcalls : s.calls = ⟨true, s.calls.activations⟩ := by rw [← armed]
      have hcalls' : s'.calls = ⟨true, s'.calls.activations⟩ := by rw [← armed']
      have hdest : v.site.Covers (.label name :: dest) := forward.trans hahead.tail
      have hback : v = home → home.site.At position (.jump (.indirect .val) :: rest) →
          ∀ q ∈ [s, s'], home.site.At (home.site.onward q.registers position) dest := by
        rintro rfl hhere q hq
        refine hhere.onward_indirect ?_ hdest
        simp only [List.mem_cons, List.not_mem_nil, or_false] at hq
        rcases hq with rfl | rfl
        · exact kontinue
        · exact hkontinue'.trans kontinue
      have hfollow := h.callers.follow hback
      refine ⟨_, _, known, w, _, Scene.next_call h.control hcalls hval hentry,
        Scene.next_call hc' hcalls' hval' hentry, hfollow.1, ⟨rfl, h.agree.store,
          h.agree.compiledStore, h.agree.equal, h.agree.compiled⟩, h.forgotten, rfl,
        .settled ⟨hstands, hintact, rfl, rfl⟩, ?_⟩
      refine .called _ hfollow.2 ⟨⟨_, changed, stands.mono ?_⟩,
        ⟨_, kontinue, hkontinue'.trans kontinue, Site.control?_ref hdest⟩, rfl, ⟨rfl, rfl⟩,
        ⟨rfl, rfl⟩⟩
      intro r hr
      simp only [RegisterSet.contains_insert, Bool.or_eq_true, beq_iff_eq] at hr
      rcases hr with hr | rfl
      · exact hr
      · exact hneeded .val (by simp)
  | handOver returns stack stack' kontinue kontinue' unarmed unarmed' =>
      obtain ⟨u, dest, a, a', others, others', hacts, hacts', hbelow, hawaits⟩ :=
        h.callers.of_returns hhome returns
      -- The new activation takes the place of the one that called it, so it is entered alike.
      obtain rfl : a = ⟨s.stack, s.registers.kontinue⟩ := by
        rw [stack, kontinue, hawaits.base.1, hawaits.kontinue.1]
      obtain rfl : a' = ⟨s'.stack, s'.registers.kontinue⟩ := by
        rw [stack', kontinue', hawaits.base.2, hawaits.kontinue.2]
      have hcalls : s.calls = ⟨false, ⟨s.stack, s.registers.kontinue⟩ :: others⟩ := by
        rw [← unarmed, ← hacts]
      have hcalls' : s'.calls = ⟨false, ⟨s'.stack, s'.registers.kontinue⟩ :: others'⟩ := by
        rw [← unarmed', ← hacts']
      rw [StepTogether, Site.follow_of_cons hacts, Site.follow_of_cons hacts']
      refine ⟨_, _, known, w, _, Scene.next_tail_call h.control hcalls hval hentry,
        Scene.next_tail_call hc' hcalls' hval' hentry, rfl, ⟨rfl, h.agree.store,
          h.agree.compiledStore, h.agree.equal, h.agree.compiled⟩, h.forgotten, rfl,
        .settled ⟨hstands, hintact, rfl, rfl⟩, ?_⟩
      exact .called _ hbelow ⟨hawaits.stands, hawaits.back, rfl, ⟨rfl, rfl⟩, ⟨rfl, rfl⟩⟩

/-- A procedure returns to the activation that waits for it. -/
theorem leave_step {c : Context} (hhome : home.ending ≠ .returns)
    (h : Tandem home known v (.jump (.indirect .kontinue) :: rest) position s s')
    (hv : v.Settled known c s s' (.jump (.indirect .kontinue) :: rest))
    (hreturns : v.ending = .returns) (hsaved : c.saved = [])
    (hintact : c.intact.contains .kontinue = true) : StepTogether home position s s' := by
  obtain ⟨u, dest, a, a', others, others', hacts, hacts', hbelow, hawaits⟩ :=
    h.callers.of_returns hhome hreturns
  obtain ⟨c', hchanged, hstands⟩ := hawaits.stands
  obtain ⟨ref, hback, hback', hleads⟩ := hawaits.back
  obtain ⟨hkontinue, hkontinue'⟩ := hv.intact .kontinue hintact
  obtain ⟨hstack, hstack'⟩ := hv.stands.base hsaved
  have hcalls : s.calls = ⟨s.calls.armed, a :: others⟩ := by rw [← hacts]
  have hcalls' : s'.calls = ⟨s'.calls.armed, a' :: others'⟩ := by rw [← hacts']
  have hnext := Scene.next_return h.control hcalls
    (hkontinue.trans (hawaits.kontinue.1.trans hback)) hleads
  have hnext' := Scene.next_return (h.agree.control.trans h.control) hcalls'
    (hkontinue'.trans (hawaits.kontinue.2.trans hback')) hleads
  rw [← hawaits.base.1, ← hawaits.base.2, ← hstack, ← hstack'] at hstands
  rw [StepTogether, Site.follow_of_cons hacts, Site.follow_of_cons hacts']
  refine ⟨_, _, known, u, dest, hnext, hnext', rfl, ⟨rfl, h.agree.store, h.agree.compiledStore,
    h.agree.equal, h.agree.compiled⟩, h.forgotten, rfl, .settled ⟨hstands, ?_, rfl, rfl⟩, hbelow⟩
  intro r hr
  rw [hchanged] at hr
  simp at hr

end Leaving

/-- One step of both runs, unless the code that they began with has come to its end. -/
theorem step {goal : List Statement} {modifies : RegisterSet} {gives : List Register}
    (hhome : home.ending = .falls goal modifies gives)
    (h : Tandem home known v here position s s') :
    (here = goal ∧ s.calls.activations = [] ∧ s'.calls.activations = []) ∨ Scene.FailAlike s s' ∨
      StepTogether home position s s' := by
  have hreturns : home.ending ≠ .returns := by
    rw [hhome]
    exact Ending.noConfusion
  have hphase := h.phase
  cases hphase with
  | leaving leaves covers needed => exact Or.inr (h.leaving_step leaves covers needed)
  | entering leaves covers needed proc val =>
      exact Or.inr (Or.inr (h.entering_step hreturns leaves covers needed proc val))
  | @settled c _ hv =>
      have hkeeps := hv.stands.keeps
      cases hkeeps with
      | stop falls saved intact known =>
          have hfalls : v.ending ≠ .returns := by
            rw [falls]
            exact Ending.noConfusion
          obtain ⟨rfl, hempty, hempty'⟩ := h.callers.of_falls hfalls
          rw [hhome] at falls
          cases falls
          exact Or.inl ⟨rfl, hempty, hempty'⟩
      | perform plain reads onward => exact Or.inr (h.perform_step hv plain reads onward)
      | save reads onward => exact Or.inr (Or.inr (h.save_step hv reads onward))
      | restore top onward => exact Or.inr (Or.inr (h.restore_step hv top onward))
      | branch reads forward taken passed =>
          exact Or.inr (Or.inr (h.branch_step hv reads forward taken passed))
      | label onward => exact Or.inr (Or.inr (h.label_step hv onward))
      | direct forward onward => exact Or.inr (Or.inr (h.direct_step hv forward onward))
      | call proc argl forward onward =>
          exact Or.inr (Or.inr (h.call_step hv proc argl forward onward))
      | tailCall returns saved proc argl kontinue intact =>
          obtain ⟨hstack, hstack'⟩ := hv.stands.base saved
          obtain ⟨hkontinue, hkontinue'⟩ := hv.intact .kontinue intact
          refine Or.inr (h.leaving_step (.handOver returns hstack hstack' hkontinue hkontinue'
            hv.unarmed hv.unarmed') hv.stands.covers ?_)
          simp [hv.stands.known _ proc, hv.stands.known _ argl, hv.stands.known _ kontinue]
      | leave returns saved _ intact =>
          exact Or.inr (Or.inr (h.leave_step hreturns hv returns saved intact))

/-- What holds once the outermost activation has come to the end of its code. -/
structure Arrived (home : Visit) (modifies : RegisterSet) (gives : List Register) (s s' : Scene) :
    Prop where
  stack : s.stack = home.base ∧ s'.stack = home.base'
  kept : ∀ r, modifies.contains r = false →
    s.registers.get r = home.registers.get r ∧ s'.registers.get r = home.registers'.get r
  given : ∀ r ∈ gives, s'.registers.get r = s.registers.get r
  store : s'.store = s.store
  same : ∀ r, s'.registers.get r = s.registers.get r ∨
    s.registers.get r = home.registers.get r ∧ s'.registers.get r = home.registers'.get r

/-- An activation at its end is in a context that says so: a call would come back before it. -/
theorem settled_of_goal {goal : List Statement} {modifies : RegisterSet} {gives : List Register}
    (hfalls : v.ending = .falls goal modifies gives) (h : v.Phase known s s' goal) :
    ∃ c, v.Settled known c s s' goal ∧ c.saved = [] ∧
      (∀ r, modifies.contains r = false → c.intact.contains r = true) ∧
      ∀ r ∈ gives, c.known.contains r = true := by
  have hbefore : ∀ rest, v.Leaves known s s' rest → goal.length ≤ rest.length := by
    intro rest hleaves
    cases hleaves with
    | @call c name dest stands changed forward kontinue armed armed' =>
        have hkeeps := stands.keeps
        rw [hfalls] at hkeeps
        have hforward := forward.length_le
        rw [List.length_cons] at hforward
        exact Nat.le_of_succ_le (Nat.le_trans (Nat.succ_le_succ hkeeps.before_goal.1) hforward)
    | handOver returns =>
        rw [hfalls] at returns
        cases returns
  cases h with
  | @settled c _ hv =>
      have hkeeps := hv.stands.keeps
      rw [hfalls] at hkeeps
      exact ⟨c, hv, hkeeps.before_goal.2 rfl⟩
  | leaving leaves covers needed =>
      have := hbefore _ leaves
      simp only [List.length_cons] at this
      omega
  | entering leaves covers needed proc val =>
      have := hbefore _ leaves
      simp only [List.length_cons] at this
      omega

theorem arrived {goal : List Statement} {modifies : RegisterSet} {gives : List Register}
    (hhome : home.ending = .falls goal modifies gives)
    (h : Tandem home known v goal position s s') (hempty : s.calls.activations = []) :
    Arrived home modifies gives s s' := by
  obtain ⟨rfl, -, -⟩ := h.callers.home_of_nil hempty
  obtain ⟨c, hv, hsaved, hintact, hgiven⟩ := settled_of_goal hhome h.phase
  refine ⟨hv.stands.base hsaved, fun r hr => hv.intact r (hintact r hr), ?_, h.agree.store, ?_⟩
  · intro r hr
    exact h.agree.equal r (hv.stands.known r (hgiven r hr))
  · intro r
    cases hr : known.contains r with
    | true => exact Or.inl (h.agree.equal r hr)
    | false => exact Or.inr (h.forgotten r hr)

/-- Two runs begin in tandem if they agree on the store and on the registers that are known. -/
theorem begun {site : Site} {goal : List Statement} {modifies : RegisterSet} {gives : List Register}
    (hat : site.At position here)
    (hkeeps : Keeps (.falls goal modifies gives) ⟨known, .full, []⟩ here)
    (hcontrol : s.control = site.before here) (hcalls : s.calls = ⟨false, []⟩)
    (hcalls' : s'.calls = ⟨false, []⟩) (hagree : s.Agree known s') :
    Tandem ⟨site, .falls goal modifies gives, s.registers, s'.registers, s.stack, s'.stack⟩ known
      ⟨site, .falls goal modifies gives, s.registers, s'.registers, s.stack, s'.stack⟩ here position
      s s' := by
  have hcovers : site.Covers here := by
    rw [← hat.drop]
    exact List.drop_suffix position site.statements
  refine ⟨hagree, fun _ _ => ⟨rfl, rfl⟩, hcontrol, .settled ⟨⟨hcovers, hkeeps, fun _ h => h, .nil⟩,
    fun _ _ => ⟨rfl, rfl⟩, ?_, ?_⟩, ?_⟩
  · rw [hcalls]
  · rw [hcalls']
  · rw [hcalls, hcalls']
    exact .outermost hat

end Tandem
end SchemeMachine
