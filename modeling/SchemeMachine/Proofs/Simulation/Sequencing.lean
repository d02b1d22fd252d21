import SchemeMachine.Proofs.Compilation
import SchemeMachine.Proofs.Simulation.Follows

/-!
# Sequences that do what a computation does

A sequence of statements does what a computation does when, from every scene that it can be started
in, the run follows the computation and arrives where the linkage leads, with the same save stack
and with every register unchanged that the sequence does not modify.

What a scene must hold to begin with goes by the registers that the sequence needs.  The rules here
put sequences together as the compiler does, with registers saved where the first sequence may change
what the second needs.
-/

namespace SchemeMachine

/-- Where control is to go on, and the activations that are under way then. -/
structure Destination where
  control : Control
  activations : List Activation

/-- A linkage leads from a scene to a destination.  Returning takes an activation that has cleaned up;
`kontinue` must be as it was if it is needed. -/
def Linkage.Leads (site : Site) (rest : List Statement) (needs : RegisterSet) (s : Scene)
    (d : Destination) : Linkage → Prop
  | next => d = ⟨site.before rest, s.calls.activations⟩
  | label name =>
    ∃ dest, site.Covers (.label name :: dest) ∧ d = ⟨site.before dest, s.calls.activations⟩
  | .caller =>
    ∃ a ref, s.calls.activations = a :: d.activations ∧ s.stack = a.stack ∧
      a.kontinue = .label ref ∧ ref.control? = some d.control ∧
      (needs.contains .kontinue = true → s.registers.kontinue = a.kontinue)

/-- A scene in which code that needs some registers may be started in a frame. -/
structure Ready (f : FrameId) (W : TagMatch) (w : Store Procedure) (needs : RegisterSet)
    (s : Scene) : Prop where
  represented : Represents W w s.store
  bottom : ∀ a ∈ s.calls.activations, a.stack.toList <+: s.stack.toList
  unarmed : s.calls.armed = false
  env : needs.contains .env = true → s.registers.env = .environment f

theorem Ready.steady {f : FrameId} {W : TagMatch} {w : Store Procedure} {needs : RegisterSet}
    {s : Scene} (h : Ready f W w needs s) : s.Steady :=
  ⟨⟨W, w, h.represented⟩, h.bottom⟩

/-- From the first scene on, a run has come to its destination in the second. -/
structure Arrives (s : Scene) (modifies : RegisterSet) (d : Destination) (W : TagMatch)
    (result : TagMatch → Registers → Prop) (w : Store Procedure) (s' : Scene) : Prop where
  control : s'.control = d.control
  calls : s'.calls = ⟨false, d.activations⟩
  stack : s'.stack = s.stack
  kept : ∀ r, modifies.contains r = false → s'.registers.get r = s.registers.get r
  represented : ∃ W', W ≤ W' ∧ Represents W' w s'.store ∧ result W' s'.registers

/-- An arrival counts from an earlier scene too, if nothing has changed since but what is modified. -/
theorem Arrives.from_earlier {s s' s'' : Scene} {modifies modifies' : RegisterSet}
    {d : Destination} {W W' : TagMatch} {result : TagMatch → Registers → Prop}
    {w : Store Procedure} (h : Arrives s' modifies' d W' result w s'') (hW : W ≤ W')
    (hstack : s'.stack = s.stack)
    (hkept : ∀ r, modifies.contains r = false →
      modifies'.contains r = false ∧ s'.registers.get r = s.registers.get r) :
    Arrives s modifies d W result w s'' := by
  obtain ⟨W'', hW', hrep, hres⟩ := h.represented
  refine ⟨h.control, h.calls, h.stack.trans hstack, ?_, W'', hW.trans hW', hrep, hres⟩
  intro r hr
  exact (h.kept r (hkept r hr).1).trans (hkept r hr).2

theorem Arrives.steady {s s' : Scene} {modifies : RegisterSet} {d : Destination} {W : TagMatch}
    {result : TagMatch → Registers → Prop} {w : Store Procedure}
    (h : Arrives s modifies d W result w s')
    (hbottom : ∀ a ∈ d.activations, a.stack.toList <+: s.stack.toList) : s'.Steady := by
  obtain ⟨W', -, hrep, -⟩ := h.represented
  refine ⟨⟨W', w, hrep⟩, ?_⟩
  rw [h.calls, h.stack]
  exact hbottom

/-- A linkage leads to the same destination from a later scene with the same activations and stack. -/
theorem Linkage.Leads.later {linkage : Linkage} {site : Site} {rest : List Statement}
    {needs needs' : RegisterSet} {s s' : Scene} {d : Destination}
    (h : linkage.Leads site rest needs s d)
    (hactivations : s'.calls.activations = s.calls.activations) (hstack : s'.stack = s.stack)
    (hkontinue : linkage = .caller → needs'.contains .kontinue = true →
      needs.contains .kontinue = true ∧ s'.registers.get .kontinue = s.registers.get .kontinue) :
    linkage.Leads site rest needs' s' d := by
  cases linkage with
  | next =>
      rw [Linkage.Leads, hactivations]
      exact h
  | label name =>
      obtain ⟨dest, hdest, hd⟩ := h
      rw [Linkage.Leads, hactivations]
      exact ⟨dest, hdest, hd⟩
  | caller =>
      obtain ⟨a, ref, ha, hstack', hk, href, hneeded⟩ := h
      refine ⟨a, ref, hactivations.trans ha, hstack.trans hstack', hk, href, ?_⟩
      intro hneeds
      obtain ⟨hneeds', hkept⟩ := hkontinue rfl hneeds
      exact hkept.trans (hneeded hneeds')

/-- In place of going on, one may jump to a label there. -/
theorem Linkage.Leads.orLabel {linkage : Linkage} {site : Site} {rest : List Statement}
    {needs : RegisterSet} {s : Scene} {d : Destination} (h : linkage.Leads site rest needs s d)
    {name : Label} (hcovers : site.Covers (.label name :: rest)) (rest' : List Statement) :
    (linkage.orLabel name).Leads site rest' needs s d := by
  cases linkage with
  | next => exact ⟨rest, hcovers, h⟩
  | label name => exact h
  | caller => exact h

variable {α β : Type}

/-- The sequence does what the computation does, from registers with `pre` to registers that hold the
result as `result` says. -/
def Sequence.Runs (code : Sequence) (depth : Nat) (linkage : Linkage)
    (pre : TagMatch → Registers → Prop) (x : FrameId → Evaluator α)
    (result : α → TagMatch → Registers → Prop) : Prop :=
  ∀ ⦃site rest s f W w d⦄, site.Covers (code.statements ++ rest) →
    s.control = site.before (code.statements ++ rest) → Ready f W w code.needs s →
    pre W s.registers → linkage.Leads site rest code.needs s d →
    Follows depth s (x f w) fun a => Arrives s code.modifies d W (result a)

namespace Sequence

/-! ## Register sets -/

@[simp] theorem contains_none (r : Register) : RegisterSet.none.contains r = false := by
  cases r <;> rfl

@[simp] theorem contains_full (r : Register) : RegisterSet.full.contains r = true := by
  cases r <;> rfl

theorem contains_modifies_protectFor (registers : List Register) (first second : Sequence)
    (r : Register) :
    (protectFor registers first second).modifies.contains r =
      (first.modifies.contains r && !(registers.contains r && second.needs.contains r)) := by
  induction registers generalizing first with
  | nil => simp [protectFor]
  | cons q rest ih =>
      have hfold : protectFor (q :: rest) first second = protectFor rest
          (if first.modifies.contains q && second.needs.contains q then first.protect q
            else first) second := rfl
      rw [hfold, ih]
      by_cases hprotect : (first.modifies.contains q && second.needs.contains q) = true
      · rw [if_pos hprotect]
        simp only [protect, RegisterSet.contains_erase, List.contains_cons]
        by_cases hrq : r = q
        · subst hrq
          simp [(Bool.and_eq_true_iff.mp hprotect).2]
        · simp [beq_false_of_ne hrq, bne]
      · rw [if_neg hprotect]
        simp only [List.contains_cons]
        by_cases hrq : r = q
        · subst hrq
          revert hprotect
          cases first.modifies.contains r <;> cases second.needs.contains r <;> simp
        · simp [beq_false_of_ne hrq]

theorem contains_needs_append {first second : Sequence} {r : Register} :
    (first.append second).needs.contains r =
      (first.needs.contains r || second.needs.contains r && !first.modifies.contains r) := by
  simp [append]

/-! ## Putting sequences together -/

namespace Runs

variable {depth : Nat} {linkage : Linkage} {pre : TagMatch → Registers → Prop}
  {x : FrameId → Evaluator α} {result : α → TagMatch → Registers → Prop}

theorem weaken {code : Sequence} {pre' : TagMatch → Registers → Prop}
    (h : code.Runs depth linkage pre x result) (hpre : ∀ W rs, pre' W rs → pre W rs) :
    code.Runs depth linkage pre' x result :=
  fun _ _ _ _ _ _ _ hcovers hc hready hpre' hd => h hcovers hc hready (hpre _ _ hpre') hd

/-- A sequence that is begun in a later scene of a larger one does what is left of it. -/
theorem resume {code : Sequence} {needs modifies : RegisterSet} {site : Site}
    {rest : List Statement} {s s' : Scene} {f : FrameId} {W W' : TagMatch} {w : Store Procedure}
    {d : Destination} (h : code.Runs depth linkage pre x result)
    (hcovers : site.Covers (code.statements ++ rest))
    (hc : s'.control = site.before (code.statements ++ rest))
    (hready : Ready f W' w code.needs s') (hpre : pre W' s'.registers)
    (hd : linkage.Leads site rest needs s d) (hW : W ≤ W')
    (hactivations : s'.calls.activations = s.calls.activations) (hstack : s'.stack = s.stack)
    (hkontinue : linkage = .caller → code.needs.contains .kontinue = true →
      needs.contains .kontinue = true ∧ s'.registers.get .kontinue = s.registers.get .kontinue)
    (hkept : ∀ r, modifies.contains r = false →
      code.modifies.contains r = false ∧ s'.registers.get r = s.registers.get r) :
    Follows depth s' (x f w) fun a => Arrives s modifies d W (result a) := by
  refine (h hcovers hc hready hpre (hd.later hactivations hstack hkontinue)).andThen ?_
  intro a w' s'' harrived
  exact Follows.done (harrived.from_earlier hW hstack hkept)

/-- Saving a register before a sequence and restoring it afterwards keeps the register. -/
theorem protect {code : Sequence} (h : code.Runs depth .next pre x result) (r : Register)
    (hresult : ∀ a W rs v, result a W rs → result a W (rs.set r v)) :
    (code.protect r).Runs depth .next pre x result := by
  intro site rest s f W w d hcovers hc hready hpre hd
  have hstatements : (code.protect r).statements ++ rest =
      .perform (.save r) :: (code.statements ++ .perform (.restore r) :: rest) := by
    simp [Sequence.protect]
  rw [hstatements] at hcovers hc
  refine Follows.step (hready.steady.sound_perform hc) (Scene.next_save hc) ?_
  have hready' : Ready f W w code.needs { s with
      stack := s.stack.push (s.registers.get r)
      control := site.before (code.statements ++ .perform (.restore r) :: rest) } := by
    refine ⟨hready.represented, ?_, hready.unarmed, ?_⟩
    · intro a ha
      simp only [Array.toList_push]
      exact (hready.bottom a ha).trans (List.prefix_append _ _)
    · intro henv
      exact hready.env (by simp [Sequence.protect, henv])
  refine (h hcovers.tail rfl hready' hpre rfl).andThen ?_
  intro a w' s' harrived
  -- The sequence has left the stack as it found it, so what was saved is on top.
  have hstack : s'.stack = s.stack.push (s.registers.get r) := harrived.stack
  have hsteady := harrived.steady hready'.bottom
  obtain ⟨W', hW, hrep, hres⟩ := harrived.represented
  refine Follows.step (hsteady.sound_perform harrived.control)
    (Scene.next_restore harrived.control hstack) (Follows.done ?_)
  subst hd
  refine ⟨rfl, harrived.calls, rfl, ?_, W', hW, hrep, hresult a W' _ _ hres⟩
  intro q hq
  by_cases hqr : q = r
  · subst hqr
    simp
  · simp only [Sequence.protect, RegisterSet.contains_erase, Bool.and_eq_false_iff] at hq
    rw [Registers.get_set_of_ne _ _ hqr]
    refine harrived.kept q (hq.resolve_right ?_)
    simp [hqr]

/-- The same for all registers that the second sequence needs kept. -/
theorem protectFor {registers : List Register} {first : Sequence} (second : Sequence)
    (h : first.Runs depth .next pre x result)
    (hresult : ∀ a W rs r v, r ∈ registers → result a W rs → result a W (rs.set r v)) :
    (protectFor registers first second).Runs depth .next pre x result := by
  induction registers generalizing first with
  | nil => exact h
  | cons r rest ih =>
      have hrest := fun a W rs q v hq => hresult a W rs q v (List.mem_cons_of_mem r hq)
      refine ih ?_ hrest
      simp only
      split
      · exact h.protect r fun a W rs v => hresult a W rs r v List.mem_cons_self
      · exact h

/-- One sequence and then another, where registers are saved around the first as far as the second
needs them. -/
theorem preserving (registers : List Register) {first second : Sequence}
    {mid : α → TagMatch → Registers → Prop} {y : α → FrameId → Evaluator β}
    {result' : β → TagMatch → Registers → Prop}
    (hfirst : first.Runs depth .next pre x result)
    (hsecond : ∀ a, second.Runs depth linkage (mid a) (y a) result')
    (hresult : ∀ a W rs r v, r ∈ registers → result a W rs → result a W (rs.set r v))
    (hmid : ∀ a W W' rs rs', pre W rs → W ≤ W' → result a W' rs' →
      (∀ r, first.modifies.contains r = false ∨ r ∈ registers ∧ second.needs.contains r = true →
        rs'.get r = rs.get r) → mid a W' rs')
    (henv : second.needs.contains .env = true → .env ∈ registers)
    (hkontinue : linkage = .caller → .kontinue ∈ registers) :
    (preserving registers first second).Runs depth linkage pre (fun f => x f >>= fun a => y a f)
      result' := by
  intro site rest s f W w d hcovers hc hready hpre hd
  have hstatements : (Sequence.preserving registers first second).statements ++ rest =
      (Sequence.protectFor registers first second).statements ++ (second.statements ++ rest) := by
    simp [Sequence.preserving, append]
  rw [hstatements] at hcovers hc
  -- A register that is saved for the second sequence is needed before the first.
  have hkeeps : ∀ r, r ∈ registers → second.needs.contains r = true →
      (Sequence.protectFor registers first second).modifies.contains r = false ∧
        (Sequence.preserving registers first second).needs.contains r = true := by
    intro r hr hneeded
    have hmodifies : (Sequence.protectFor registers first second).modifies.contains r = false := by
      rw [contains_modifies_protectFor]
      simp [hr, hneeded]
    exact ⟨hmodifies, by simp [Sequence.preserving, contains_needs_append, hmodifies, hneeded]⟩
  have hready' : Ready f W w (Sequence.protectFor registers first second).needs s := by
    refine ⟨hready.represented, hready.bottom, hready.unarmed, fun h => hready.env ?_⟩
    simp [Sequence.preserving, contains_needs_append, h]
  refine (hfirst.protectFor second hresult hcovers hc hready' hpre rfl).bind ?_
  intro a w' s' harrived
  obtain ⟨W', hW, hrep, hres⟩ := harrived.represented
  -- The second sequence finds `env` as the first did, since it needs it kept.
  have hready'' : Ready f W' w' second.needs s' := by
    refine ⟨hrep, ?_, by rw [harrived.calls], ?_⟩
    · rw [harrived.calls, harrived.stack]
      exact hready.bottom
    · intro h
      obtain ⟨hkept, hneeds⟩ := hkeeps .env (henv h) h
      exact (harrived.kept .env hkept).trans (hready.env hneeds)
  have hmid' : mid a W' s'.registers := by
    refine hmid a W W' s.registers s'.registers hpre hW hres ?_
    intro r hr
    refine harrived.kept r ?_
    rw [contains_modifies_protectFor]
    rcases hr with hr | ⟨hr, hneeded⟩
    · simp [hr]
    · simp [hr, hneeded]
  refine (hsecond a).resume hcovers.append_right harrived.control hready'' hmid' hd hW
    (by rw [harrived.calls]) harrived.stack ?_ ?_
  · intro hcaller hneeded
    obtain ⟨hkept, hneeds⟩ := hkeeps .kontinue (hkontinue hcaller) hneeded
    exact ⟨hneeds, harrived.kept .kontinue hkept⟩
  · intro r hr
    simp only [Sequence.preserving, append, RegisterSet.contains_union, Bool.or_eq_false_iff] at hr
    exact ⟨hr.2, harrived.kept r hr.1⟩

/-- A sequence that is begun once a test has set the flag. -/
theorem afterTest {code : Sequence} {needs modifies : RegisterSet} {site : Site}
    {rest : List Statement} {s : Scene} {f : FrameId} {W : TagMatch} {w : Store Procedure}
    {d : Destination} (h : code.Runs depth linkage pre x result) (flag : Value)
    (hneeds : ∀ r, r ≠ .flag → code.needs.contains r = true → needs.contains r = true)
    (hmodifies : ∀ r, modifies.contains r = false → code.modifies.contains r = false ∧ r ≠ .flag)
    (hcovers : site.Covers (code.statements ++ rest)) (hready : Ready f W w needs s)
    (hpre : pre W (s.registers.set .flag flag)) (hd : linkage.Leads site rest needs s d) :
    Follows depth { s with
        registers := s.registers.set .flag flag
        control := site.before (code.statements ++ rest)
        calls := { s.calls with armed := false } }
      (x f w) fun a => Arrives s modifies d W (result a) := by
  refine h.resume hcovers rfl ⟨hready.represented, hready.bottom, rfl, ?_⟩ hpre hd le_rfl rfl rfl
    ?_ ?_
  · exact fun henv => hready.env (hneeds .env (by decide) henv)
  · exact fun _ hk => ⟨hneeds .kontinue (by decide) hk, rfl⟩
  · exact fun r hr => ⟨(hmodifies r hr).1, Registers.get_set_of_ne _ _ (hmodifies r hr).2⟩

/-- A sequence that is followed by a label falls into it, if its linkage does not lead elsewhere. -/
theorem thenLabel {code : Sequence} (h : code.Runs depth linkage pre x result) (name : Label) :
    (code.append (.label name)).Runs depth linkage pre x result := by
  intro site rest s f W w d hcovers hc hready hpre hd
  have hstatements : (code.append (.label name)).statements ++ rest =
      code.statements ++ .label name :: rest := by
    simp [append, Sequence.label, of]
  have hneeds : ∀ r, code.needs.contains r = true →
      (code.append (.label name)).needs.contains r = true := by
    intro r hr
    simp [contains_needs_append, hr]
  have hmodifies : ∀ r, (code.append (.label name)).modifies.contains r = false →
      code.modifies.contains r = false := by
    intro r hr
    simp only [append, RegisterSet.contains_union, Bool.or_eq_false_iff] at hr
    exact hr.1
  rw [hstatements] at hcovers hc
  have hready' : Ready f W w code.needs s :=
    ⟨hready.represented, hready.bottom, hready.unarmed, fun h => hready.env (hneeds _ h)⟩
  have hlater : linkage.Leads site rest code.needs s d :=
    hd.later rfl rfl fun _ hk => ⟨hneeds _ hk, rfl⟩
  cases linkage with
  | next =>
      refine (h hcovers hc hready' hpre rfl).andThen ?_
      intro a w' s' harrived
      have hsteady := harrived.steady hready.bottom
      obtain ⟨W', hW, hrep, hres⟩ := harrived.represented
      rw [Linkage.Leads] at hlater
      subst hlater
      refine Follows.step (hsteady.sound_label harrived.control)
        (Scene.next_label harrived.control hcovers.append_right) (Follows.done ?_)
      refine ⟨rfl, ?_, harrived.stack, fun r hr => harrived.kept r (hmodifies r hr), W', hW, hrep,
        hres⟩
      simp only [harrived.calls]
  | _ =>
      -- The sequence itself goes where the linkage leads, and never comes to the label.
      refine (h hcovers hc hready' hpre hlater).andThen fun a w' s' harrived => ?_
      exact Follows.done (harrived.from_earlier le_rfl rfl fun r hr => ⟨hmodifies r hr, rfl⟩)

end Runs

/-! ## Assignments -/

/-- An operand has the result of a computation, or fails as the computation does. -/
inductive Yields (W : TagMatch) (result : α → TagMatch → Value → Prop) :
    Option (Except (RunError Procedure) α × Store Procedure) →
      EStateM.Result RunError Store Value → Prop
  | ok {W' : TagMatch} {a : α} {w : Store Procedure} {v : Value} {store : Store} (le : W ≤ W')
      (represented : Represents W' w store) (holds : result a W' v) :
      Yields W result (some (.ok a, w)) (.ok v store)
  | error {W' : TagMatch} {e : RunError Procedure} {w : Store Procedure} {e' : RunError}
      {store : Store} (represented : Represents W' w store) (like : e.Like compiled W' e')
      (ordinary : ¬ e'.Internal) : Yields W result (some (.error e, w)) (.error e' store)

theorem Yields.imp {W : TagMatch} {result result' : α → TagMatch → Value → Prop}
    {x : Option (Except (RunError Procedure) α × Store Procedure)}
    {y : EStateM.Result RunError Store Value} (h : Yields W result x y)
    (himp : ∀ a W' v, W ≤ W' → result a W' v → result' a W' v) : Yields W result' x y := by
  cases h with
  | ok le represented holds => exact .ok le represented (himp _ _ _ le holds)
  | error represented like ordinary => exact .error represented like ordinary

/-- An assignment follows a computation whose result its operand has. -/
theorem Yields.follows {W : TagMatch} {result : α → TagMatch → Value → Prop} {depth : Nat}
    {x : Option (Except (RunError Procedure) α × Store Procedure)} {site : Site} {s : Scene}
    {target : Register} {source : Operand Label} {rest : List Statement}
    {post : α → Store Procedure → Scene → Prop}
    (h : Yields W result x
      (Machine.evaluate site.code.ref s.registers s.store (source.map site.number)))
    (hsteady : s.Steady) (hc : s.control = site.before (.assign target source :: rest))
    (htarget : target ≠ .kontinue)
    (hpost : ∀ a w v store W', W ≤ W' → Represents W' w store → result a W' v →
      Follows depth { s with
        registers := s.registers.set target v, store := store, control := site.before rest }
        (some (.ok a, w)) post) :
    Follows depth s x post := by
  generalize hy : Machine.evaluate site.code.ref s.registers s.store (source.map site.number) = y
    at h
  cases h with
  | ok le represented holds =>
      exact Follows.step (hsteady.sound_perform hc) (Scene.next_assign hc htarget hy)
        (hpost _ _ _ _ _ le represented holds)
  | error represented like ordinary =>
      exact Follows.fails ⟨hsteady.sound_perform hc, _, _, _, Scene.next_assign_error hc hy,
        represented, like, ordinary⟩

/-- A single assignment. -/
theorem assign_runs {needs : List Register} {target : Register} {source : Operand Label}
    {depth : Nat} {pre : TagMatch → Registers → Prop} {x : FrameId → Evaluator α}
    {result : α → TagMatch → Registers → Prop} (htarget : target ≠ .kontinue)
    (h : ∀ (site : Site) (s : Scene) (f : FrameId) (W : TagMatch) (w : Store Procedure),
      Ready f W w (.ofList needs) s → pre W s.registers →
        Yields W (fun a W' v => result a W' (s.registers.set target v)) (x f w)
          (Machine.evaluate site.code.ref s.registers s.store (source.map site.number))) :
    (of needs [target] [.assign target source]).Runs depth .next pre x result := by
  intro site rest s f W w d hcovers hc hready hpre hd
  refine (h site s f W w hready hpre).follows hready.steady hc htarget ?_
  intro a w' v store W' hW hrep hres
  rw [Linkage.Leads] at hd
  subst hd
  refine Follows.done ⟨rfl, ?_, rfl, ?_, W', hW, hrep, hres⟩
  · simp only [← hready.unarmed]
  · intro r hr
    refine Registers.get_set_of_ne _ _ ?_
    rintro rfl
    simp [of] at hr

/-! ## Linkages -/

/-- The code of a linkage goes where the linkage leads. -/
theorem linkage_runs (depth : Nat) (linkage : Linkage) (a : α)
    (result : α → TagMatch → Registers → Prop) :
    linkage.code.Runs depth linkage (result a) (fun _ => pure a) result := by
  intro site rest s f W w d hcovers hc hready hpre hd
  have hcalls : ∀ activations, s.calls.activations = activations →
      s.calls = ⟨false, activations⟩ := by
    rintro _ rfl
    rw [← hready.unarmed]
  cases linkage with
  | next =>
      rw [Linkage.Leads] at hd
      subst hd
      exact Follows.done ⟨hc, hcalls _ rfl, rfl, fun _ _ => rfl, W, le_rfl, hready.represented, hpre⟩
  | label name =>
      obtain ⟨dest, hdest, rfl⟩ := hd
      refine Follows.step (hready.steady.sound_direct hc) (Scene.next_direct hc hdest)
        (Follows.done ?_)
      exact ⟨rfl, rfl, rfl, fun _ _ => rfl, W, le_rfl, hready.represented, hpre⟩
  | caller =>
      obtain ⟨a', ref, hactivations, hstack, hkontinue, href, hneeded⟩ := hd
      -- The jump needs `kontinue`, which is therefore what the procedure was entered with.
      have hk : s.registers.kontinue = a'.kontinue := hneeded rfl
      refine Follows.step (hready.steady.sound_return hc hactivations hstack hk)
        (Scene.next_return hc (hcalls _ hactivations) (hk.trans hkontinue) href)
        (Follows.done ?_)
      exact ⟨rfl, rfl, rfl, fun _ _ => rfl, W, le_rfl, hready.represented, hpre⟩

theorem contains_needs_linkage_env (linkage : Linkage) :
    linkage.code.needs.contains .env = false := by
  cases linkage <;> rfl

/-- A sequence followed by the code of a linkage. -/
theorem Runs.after {depth : Nat} {pre : TagMatch → Registers → Prop} {x : FrameId → Evaluator α}
    {result : α → TagMatch → Registers → Prop} {code : Sequence} (linkage : Linkage)
    (h : code.Runs depth .next pre x result)
    (hresult : ∀ a W rs v, result a W rs → result a W (rs.set .kontinue v)) :
    (linkage.after code).Runs depth linkage pre x result := by
  have hruns := h.preserving [.kontinue] (fun a => linkage_runs depth linkage a result)
    (by
      intro a W rs r v hr
      rw [List.mem_singleton.mp hr]
      exact hresult a W rs v)
    (fun _ _ _ _ _ _ _ hres _ => hres)
    (by
      intro henv
      rw [contains_needs_linkage_env] at henv
      cases henv)
    (fun _ => List.mem_singleton_self _)
  simp only [bind_pure] at hruns
  exact hruns

end Sequence
end SchemeMachine
