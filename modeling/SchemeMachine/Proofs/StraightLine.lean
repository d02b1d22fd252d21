import SchemeMachine.Code.Sequence
import SchemeMachine.Proofs.Scene

/-!
# Straight-line code and its register use

Code without labels, branches and jumps is run statement by statement, so what it depends on and
what it changes can be told from runs alone, without a program around it.  The sets that a sequence
comes with approximate these from above when

* a run that comes to its end has changed no register outside `modifies`, and
* two runs from machines that agree on `needs`, on the save stack and on the store end in the same
  way, with each register holding the same in both, or in both what it held when they began.

Putting one sequence after another keeps the first property.  The second it keeps only where the
first sequence settles what it is said to modify: a register that it modifies and the second needs
is no longer needed by both together, although modifying it was never promised.
-/

namespace SchemeMachine

/-- Whether a statement is an operation after which control goes on to the next statement. -/
def Statement.isStraight : Statement → Bool
  | .perform (.branch _) => false
  | .perform _ => true
  | .label _ => false
  | .jump _ => false

namespace Machine

variable {C : Type} [BEq C] (ref : Label → C)

/-- Runs straight-line statements one after the other.  Labels and jumps, of which there are none in
such code, are passed over. -/
def runStraight : List Statement → Machine C → EStateM.Result (RunError C) (Machine C) Unit
  | [], m => .ok () m
  | .perform operation :: rest, m =>
    match perform ref operation m with
    | .error e m => .error e m
    | .ok _ m => runStraight rest m
  | _ :: rest, m => runStraight rest m

variable {ref} {first second : List Statement} {m m' mid mid' out out' : Machine C}
  {e : RunError C}

theorem runStraight_append_of_ok (h : runStraight ref first m = .ok () mid) :
    runStraight ref (first ++ second) m = runStraight ref second mid := by
  induction first generalizing m with
  | nil =>
      cases h
      rfl
  | cons statement rest ih =>
      cases statement with
      | perform operation =>
          rw [List.cons_append, runStraight]
          rw [runStraight] at h
          cases hperform : perform ref operation m with
          | error e m' => simp [hperform] at h
          | ok target m' =>
              rw [hperform] at h
              exact ih h
      | label name => exact ih h
      | jump transfer => exact ih h

theorem runStraight_append_of_error (h : runStraight ref first m = .error e mid) :
    runStraight ref (first ++ second) m = .error e mid := by
  induction first generalizing m with
  | nil => cases h
  | cons statement rest ih =>
      cases statement with
      | perform operation =>
          rw [List.cons_append, runStraight]
          rw [runStraight] at h
          cases hperform : perform ref operation m with
          | error e m' =>
              rw [hperform] at h
              exact h
          | ok target m' =>
              rw [hperform] at h
              exact ih h
      | label name => exact ih h
      | jump transfer => exact ih h

/-- A run that has come to its end has come to the end of its first part. -/
theorem runStraight_append_eq_ok (h : runStraight ref (first ++ second) m = .ok () out) :
    ∃ mid, runStraight ref first m = .ok () mid ∧ runStraight ref second mid = .ok () out := by
  cases hfirst : runStraight ref first m with
  | error e mid =>
      rw [runStraight_append_of_error hfirst] at h
      cases h
  | ok _ mid =>
      rw [runStraight_append_of_ok hfirst] at h
      exact ⟨mid, rfl, h⟩

/-! ## Two runs -/

/-- Machines that agree on some registers, on the save stack and on the store. -/
structure AgreeOn (registers : RegisterSet) (m m' : Machine C) : Prop where
  equal : ∀ r, registers.contains r = true → m'.registers.get r = m.registers.get r
  stack : m'.stack = m.stack
  store : m'.store = m.store

/-- Two runs, from `m` to `out` and from `m'` to `out'`, have left every register with the same in
both, or both have left it as it was. -/
def LeftAlike (m m' out out' : Machine C) : Prop :=
  ∀ r, out'.registers.get r = out.registers.get r ∨
    out.registers.get r = m.registers.get r ∧ out'.registers.get r = m'.registers.get r

/-- Two runs that have begun in `m` and `m'` end in the same way.  A run that fails loses what it
has saved, so save stacks are compared at the end alone. -/
inductive FinishAlike (m m' : Machine C) : EStateM.Result (RunError C) (Machine C) Unit →
    EStateM.Result (RunError C) (Machine C) Unit → Prop
  | done {out out' : Machine C} (stack : out'.stack = out.stack) (store : out'.store = out.store)
      (registers : LeftAlike m m' out out') : FinishAlike m m' (.ok () out) (.ok () out')
  | failed {e : RunError C} {out out' : Machine C} (store : out'.store = out.store)
      (registers : LeftAlike m m' out out') : FinishAlike m m' (.error e out) (.error e out')

omit [BEq C] in
theorem LeftAlike.trans (h : LeftAlike m m' mid mid') (h' : LeftAlike mid mid' out out') :
    LeftAlike m m' out out' := by
  intro r
  rcases h' r with hsame | ⟨hkept, hkept'⟩
  · exact Or.inl hsame
  · rw [hkept, hkept']
    exact h r

omit [BEq C] in
/-- What has happened before two runs that end alike does not keep them from doing so. -/
theorem FinishAlike.after {x y : EStateM.Result (RunError C) (Machine C) Unit}
    (h : FinishAlike mid mid' x y) (hbefore : LeftAlike m m' mid mid') : FinishAlike m m' x y := by
  cases h with
  | done stack store registers => exact .done stack store (hbefore.trans registers)
  | failed store registers => exact .failed store (hbefore.trans registers)

/-! ## On the machine -/

theorem evaluate_map {L M : Type} (ref : M → C) (g : L → M) (rs : Registers C) (s : Store C)
    (source : Operand L) :
    evaluate ref rs s (source.map g) = evaluate (fun name => ref (g name)) rs s source := by
  cases source <;> rfl

/-- An operation that is no branch does the same whether its targets are named or numbered. -/
theorem perform_map {M : Type} (ref : M → C) (g : Label → M) {operation : Operation Label}
    (h : (Statement.perform operation).isStraight = true) (m : Machine C) :
    Performed Eq Eq (fun target target' => target = none ∧ target' = none)
      (perform ref (operation.map g) m) (perform (fun name => ref (g name)) operation m) := by
  obtain ⟨maxSteps, rs, stack, store, stats⟩ := m
  cases operation with
  | assign target source =>
      simp only [perform, Operation.map, evaluate_map]
      cases evaluate (fun name => ref (g name)) rs store source with
      | error e store => exact .error rfl rfl
      | ok value store => exact .ok ⟨rfl, rfl⟩ rfl
  | restore r =>
      simp only [perform, Operation.map]
      cases stack.back? with
      | none => exact .error rfl rfl
      | some value => exact .ok ⟨rfl, rfl⟩ rfl
  | define name =>
      simp only [perform, Operation.map]
      cases rs.frame with
      | error e => exact .error rfl rfl
      | ok f => exact .ok ⟨rfl, rfl⟩ rfl
  | set name =>
      simp only [perform, Operation.map]
      cases rs.frame with
      | error e => exact .error rfl rfl
      | ok f =>
          simp only
          cases store.binder? f name with
          | none => exact .error rfl rfl
          | some frame => exact .ok ⟨rfl, rfl⟩ rfl
  | branch name => cases h
  | _ => exact .ok ⟨rfl, rfl⟩ rfl

end Machine

/-- Where a machine stands that has run straight-line code up to `beyond`, or failed in it. -/
inductive Progress.StandsAfter (beyond : Control) :
    Progress → EStateM.Result RunError Machine Unit → Prop
  | done {m out : Machine} (shows : m.Shows out) :
      StandsAfter beyond (.running m beyond) (.ok () out)
  | failed {m out : Machine} {e : RunError} (shows : m.Shows out) :
      StandsAfter beyond (.finished m (.error e)) (.error e out)

open Machine

namespace Site

variable {site : Site} {m m' : Machine}

/-- A step of the machine performs one operation of straight-line code. -/
theorem advance_straight {operation : Operation Label} (rest : List Statement)
    (h : (Statement.perform operation).isStraight = true) (hshows : m.Shows m') :
    (∃ e out out', advance (site.before (.perform operation :: rest)) m = .finished out (.error e) ∧
      perform (fun name => site.code.ref (site.number name)) operation m' = .error e out' ∧
      out.Shows out') ∨
    ∃ out out', advance (site.before (.perform operation :: rest)) m =
        .running out (site.before rest) ∧
      perform (fun name => site.code.ref (site.number name)) operation m' = .ok none out' ∧
      out.Shows out' := by
  have hperform := hshows.perform site.code.ref (operation.map site.number)
  have hmap := perform_map site.code.ref site.number h m'
  generalize perform site.code.ref (operation.map site.number) m' = y at hperform hmap
  generalize perform (fun name => site.code.ref (site.number name)) operation m' = z at hmap ⊢
  generalize hx : perform site.code.ref (operation.map site.number) m = x at hperform
  cases hperform with
  | error he hm =>
      cases hmap with
      | error he' hm' =>
          subst he he' hm'
          refine Or.inl ⟨_, _, _, ?_, rfl, hm⟩
          simp only [advance, before_perform, hx]
  | ok hsame hm =>
      cases hmap with
      | ok hnone hm' =>
          obtain ⟨rfl, rfl⟩ := hnone
          subst hsame hm'
          refine Or.inr ⟨_, _, ?_, rfl, hm⟩
          simp only [advance, before_perform, hx]
          rfl

/-- Where straight-line code stands in a program, the machine runs it one statement a step. -/
theorem standsAfter_straight (rest : List Statement) {line : List Statement}
    (hstraight : ∀ statement ∈ line, statement.isStraight = true) (hlimit : m.maxSteps = none)
    (hshows : m.Shows m') :
    Progress.StandsAfter (site.before rest)
      (Progress.after line.length (.running m (site.before (line ++ rest))))
      (runStraight (fun name => site.code.ref (site.number name)) line m') := by
  induction line generalizing m m' with
  | nil => exact .done hshows
  | cons statement line ih =>
      have hhead := hstraight statement List.mem_cons_self
      cases statement with
      | label name => cases hhead
      | jump transfer => cases hhead
      | perform operation =>
          have htick : m.tick.maxSteps = none := hlimit
          have hcounted : m.tick.Shows m' := ⟨hshows.registers, hshows.stack, hshows.store⟩
          have hstep : step (site.before (.perform operation :: (line ++ rest))) m =
              advance (site.before (.perform operation :: (line ++ rest))) m.tick := by
            simp only [step, exceeded?, htick]
          have hkept := advance_maxSteps (site.before (.perform operation :: (line ++ rest))) m.tick
          rw [List.length_cons, Progress.after, List.cons_append, Progress.next, hstep, runStraight]
          rcases advance_straight (line ++ rest) hhead hcounted with
            ⟨e, out, out', hadvance, hout, hm⟩ | ⟨out, out', hadvance, hout, hm⟩
          · rw [hadvance, hout, Progress.after_finished]
            exact .failed hm
          · rw [hadvance] at hkept ⊢
            rw [hout]
            exact ih (fun statement hmem => hstraight statement (List.mem_cons_of_mem _ hmem))
              (hkept.trans htick) hm

end Site

/-! ## Sequences -/

namespace Sequence

variable {C : Type} [BEq C] (ref : Label → C)

/-- A straight-line sequence whose sets approximate its register use from above. -/
structure Approximates (s : Sequence) : Prop where
  straight : ∀ statement ∈ s.statements, statement.isStraight = true
  /-- Registers outside `needs` have no influence. -/
  needs : ∀ m m', AgreeOn s.needs m m' →
    FinishAlike m m' (runStraight ref s.statements m) (runStraight ref s.statements m')
  /-- Registers outside `modifies` are not changed. -/
  modifies : ∀ m out, runStraight ref s.statements m = .ok () out →
    ∀ r, s.modifies.contains r = false → out.registers.get r = m.registers.get r

/-- What a register holds at the end of a run is settled by what the sequence needs. -/
def Settles (s : Sequence) (r : Register) : Prop :=
  ∀ m m' out out', AgreeOn s.needs m m' → runStraight ref s.statements m = .ok () out →
    runStraight ref s.statements m' = .ok () out' → out'.registers.get r = out.registers.get r

/-- Runs that fail do not change registers outside `modifies` either. -/
def KeptOnFailure (s : Sequence) : Prop :=
  ∀ m e out, runStraight ref s.statements m = .error e out →
    ∀ r, s.modifies.contains r = false → out.registers.get r = m.registers.get r

variable {ref} {first second : Sequence}

theorem straight_append (hfirst : ∀ statement ∈ first.statements, statement.isStraight = true)
    (hsecond : ∀ statement ∈ second.statements, statement.isStraight = true) :
    ∀ statement ∈ (first.append second).statements, statement.isStraight = true := by
  intro statement hmem
  rcases List.mem_append.mp hmem with hmem | hmem
  · exact hfirst statement hmem
  · exact hsecond statement hmem

/-- One sequence after another changes what either of them modifies. -/
theorem modifies_append (hfirst : first.Approximates ref) (hsecond : second.Approximates ref)
    {m out : Machine C} (h : runStraight ref (first.append second).statements m = .ok () out)
    (r : Register) (hr : (first.append second).modifies.contains r = false) :
    out.registers.get r = m.registers.get r := by
  obtain ⟨mid, hmid, hout⟩ := runStraight_append_eq_ok h
  rw [append, RegisterSet.contains_union, Bool.or_eq_false_iff] at hr
  rw [hsecond.modifies mid out hout r hr.2, hfirst.modifies m mid hmid r hr.1]

/-- Where the second of two sequences fails, the first has come to its end. -/
theorem keptOnFailure_append (hfirst : first.Approximates ref)
    (hfirstKept : first.KeptOnFailure ref) (hsecondKept : second.KeptOnFailure ref) :
    (first.append second).KeptOnFailure ref := by
  intro m e out h r hr
  rw [append] at h
  rw [append, RegisterSet.contains_union, Bool.or_eq_false_iff] at hr
  cases hmid : runStraight ref first.statements m with
  | error e' mid =>
      rw [runStraight_append_of_error hmid] at h
      cases h
      exact hfirstKept m e out hmid r hr.1
  | ok u mid =>
      rw [runStraight_append_of_ok hmid] at h
      rw [hsecondKept mid e out h r hr.2, hfirst.modifies m mid hmid r hr.1]

/-- Where the first sequence settles what it modifies and the second needs, the two together need no
more than they say. -/
theorem needs_append (hfirst : first.Approximates ref) (hsecond : second.Approximates ref)
    (hsettles : ∀ r, first.modifies.contains r = true → second.needs.contains r = true →
      first.Settles ref r) {m m' : Machine C} (h : AgreeOn (first.append second).needs m m') :
    FinishAlike m m' (runStraight ref (first.append second).statements m)
      (runStraight ref (first.append second).statements m') := by
  have hneeds : AgreeOn first.needs m m' :=
    ⟨fun r hr => h.equal r (by simp [append, hr]), h.stack, h.store⟩
  have halike := hfirst.needs m m' hneeds
  rw [append]
  generalize hx : runStraight ref first.statements m = x at halike
  generalize hy : runStraight ref first.statements m' = y at halike
  cases halike with
  | failed store registers =>
      rw [runStraight_append_of_error hx, runStraight_append_of_error hy]
      exact .failed store registers
  | @done mid mid' stack store registers =>
      rw [runStraight_append_of_ok hx, runStraight_append_of_ok hy]
      refine (hsecond.needs mid mid' ⟨?_, stack, store⟩).after registers
      intro r hr
      by_cases hmodifies : first.modifies.contains r = true
      · exact hsettles r hmodifies hr m m' mid mid' hneeds hx hy
      · -- What the first leaves alone is still needed by both together.
        have hmodifies := eq_false_of_ne_true hmodifies
        rw [hfirst.modifies m mid hx r hmodifies, hfirst.modifies m' mid' hy r hmodifies]
        exact h.equal r (by simp [append, hr, hmodifies])

theorem Approximates.append (hfirst : first.Approximates ref) (hsecond : second.Approximates ref)
    (hsettles : ∀ r, first.modifies.contains r = true → second.needs.contains r = true →
      first.Settles ref r) : (first.append second).Approximates ref where
  straight := straight_append hfirst.straight hsecond.straight
  needs _ _ h := needs_append hfirst hsecond hsettles h
  modifies _ _ h := modifies_append hfirst hsecond h

/-! ## Copying registers -/

/-- A sequence that copies one register to another, with the sets it is said to come with. -/
def copy (needs modifies : RegisterSet) (source target : Register) : Sequence :=
  ⟨needs, modifies, [.assign target (.register source)]⟩

variable {needs modifies : RegisterSet} {source target : Register}

theorem runStraight_copy (m : Machine C) :
    runStraight ref (copy needs modifies source target).statements m =
      .ok () { m with registers := m.registers.set target (m.registers.get source) } := by
  cases m
  rfl

theorem copy_approximates (hneeds : needs.contains source = true)
    (hmodifies : modifies.contains target = true) :
    (copy needs modifies source target).Approximates ref := by
  refine ⟨?_, ?_, ?_⟩
  · intro statement hmem
    obtain rfl : statement = .assign target (.register source) := List.mem_singleton.mp hmem
    rfl
  · intro m m' h
    rw [runStraight_copy, runStraight_copy]
    refine .done h.stack h.store fun r => ?_
    by_cases hr : r = target
    · subst hr
      left
      rw [Registers.get_set_self, Registers.get_set_self]
      exact h.equal source hneeds
    · right
      exact ⟨Registers.get_set_of_ne _ _ hr, Registers.get_set_of_ne _ _ hr⟩
  · intro m out h r hr
    rw [runStraight_copy] at h
    cases h
    have hne : r ≠ target := by
      rintro rfl
      cases hmodifies.symm.trans hr
    exact Registers.get_set_of_ne _ _ hne

/-- The target of a copy is settled by its source. -/
theorem copy_settles (hneeds : needs.contains source = true) :
    (copy needs modifies source target).Settles ref target := by
  intro m m' out out' h hout hout'
  rw [runStraight_copy] at hout hout'
  cases hout
  cases hout'
  rw [Registers.get_set_self, Registers.get_set_self]
  exact h.equal source hneeds

/-! ## What putting sequences together asks for -/

omit [BEq C] in
theorem exists_ne_value (v : Value C) : ∃ w : Value C, w ≠ v := by
  by_cases h : v = .empty
  · exact ⟨.unspecified, by simp [h]⟩
  · exact ⟨.empty, Ne.symm h⟩

/-- A run does not depend on a register that the sequence does not need; what is in the others after
it does not either. -/
theorem Approximates.run_with {s : Sequence} (h : s.Approximates ref) {m out : Machine C}
    (hout : runStraight ref s.statements m = .ok () out) {q r : Register}
    (hq : s.needs.contains q = false) (hqr : r ≠ q) (w : Value C) :
    ∃ out', runStraight ref s.statements { m with registers := m.registers.set q w } = .ok () out' ∧
      out'.registers.get r = out.registers.get r := by
  have hagree : AgreeOn s.needs m { m with registers := m.registers.set q w } := by
    refine ⟨fun p hp => ?_, rfl, rfl⟩
    apply Registers.get_set_of_ne
    rintro rfl
    rw [hq] at hp
    cases hp
  have halike := h.needs _ _ hagree
  rw [hout] at halike
  generalize hrun : runStraight ref s.statements _ = x at halike
  cases halike with
  | @done _ out' _ _ registers =>
      refine ⟨out', rfl, ?_⟩
      rcases registers r with hsame | ⟨hkept, hkept'⟩
      · exact hsame
      · rw [hkept, hkept']
        exact Registers.get_set_of_ne _ _ hqr

/-- If what comes after a sequence copies a register that it modifies and does not settle, then the
two together need no register to be copied, so the copy must have been there already. -/
theorem kept_of_append_copy {s : Sequence} {q r : Register}
    (happend : (s.append (copy (.ofList [r]) (.ofList [q]) r q)).Approximates ref)
    (hmodifies : s.modifies.contains r = true) {m m' out out' : Machine C}
    (hagree : AgreeOn s.needs m m') (hout : runStraight ref s.statements m = .ok () out)
    (hout' : runStraight ref s.statements m' = .ok () out')
    (hne : out'.registers.get r ≠ out.registers.get r) :
    out.registers.get r = m.registers.get q ∧ out'.registers.get r = m'.registers.get q := by
  have hneeds : AgreeOn (s.append (copy (.ofList [r]) (.ofList [q]) r q)).needs m m' := by
    refine ⟨fun p hp => ?_, hagree.stack, hagree.store⟩
    apply hagree.equal
    simp only [append, copy, RegisterSet.contains_union, RegisterSet.contains_diff,
      RegisterSet.contains_ofList, Bool.or_eq_true, Bool.and_eq_true] at hp
    rcases hp with hp | ⟨hp, hkept⟩
    · exact hp
    · obtain rfl : p = r := by simpa using hp
      simp [hmodifies] at hkept
  have halike := happend.needs m m' hneeds
  rw [append, runStraight_append_of_ok hout, runStraight_append_of_ok hout', runStraight_copy,
    runStraight_copy] at halike
  generalize hx : EStateM.Result.ok () _ = x at halike
  generalize hy : EStateM.Result.ok () _ = y at halike
  cases halike with
  | failed => cases hx
  | done _ _ registers =>
      cases hx
      cases hy
      have hq := registers q
      rw [Registers.get_set_self, Registers.get_set_self] at hq
      exact hq.resolve_left hne

/-- Only a sequence that settles what it modifies can be put before every other. -/
theorem settles_of_append_approximates {s : Sequence} (h : s.Approximates ref)
    (happend : ∀ next : Sequence, next.Approximates ref → (s.append next).Approximates ref)
    {r : Register} (hmodifies : s.modifies.contains r = true) : s.Settles ref r := by
  obtain ⟨q, hqr⟩ : ∃ q : Register, q ≠ r := by
    by_cases hr : r = .env
    · exact ⟨.val, by simp [hr]⟩
    · exact ⟨.env, Ne.symm hr⟩
  have hcopied := happend (copy (.ofList [r]) (.ofList [q]) r q)
    (copy_approximates (by simp) (by simp))
  intro m m' out out' hagree hout hout'
  by_contra hne
  obtain ⟨hq, hq'⟩ := kept_of_append_copy hcopied hmodifies hagree hout hout' hne
  by_cases hneeded : s.needs.contains q = true
  · rw [hq, hq'] at hne
    exact hne (hagree.equal q hneeded)
  · -- The copy may have been there by chance, so the run is repeated with another in its place.
    have hfree := eq_false_of_ne_true hneeded
    obtain ⟨w, hw⟩ := exists_ne_value (out.registers.get r)
    obtain ⟨other, hother, hsame⟩ := h.run_with hout hfree hqr.symm w
    have hagree' : AgreeOn s.needs { m with registers := m.registers.set q w } m' := by
      refine ⟨fun p hp => ?_, hagree.stack, hagree.store⟩
      have hpq : p ≠ q := by
        rintro rfl
        exact hneeded hp
      rw [Registers.get_set_of_ne _ _ hpq]
      exact hagree.equal p hp
    obtain ⟨hcopy, -⟩ := kept_of_append_copy hcopied hmodifies hagree' hother hout'
      (by rw [hsame]; exact hne)
    rw [hsame, Registers.get_set_self] at hcopy
    exact hw hcopy.symm

theorem nothing_approximates (needs modifies : RegisterSet) :
    (⟨needs, modifies, []⟩ : Sequence).Approximates ref := by
  refine ⟨by simp, ?_, ?_⟩
  · intro m m' h
    exact .done h.stack h.store fun r => Or.inr ⟨rfl, rfl⟩
  · intro m out h r hr
    cases h
    rfl

/-- One sequence after another changes what they modify and nothing else, and so it is with runs
that fail if it is so with each of the two.  What they are said to need suffices if the first
settles the registers that it modifies and the second needs, and it suffices with every second
sequence only if the first settles all that it modifies. -/
theorem append_approximates_where_settled {first : Sequence} (hfirst : first.Approximates ref) :
    (∀ second : Sequence, second.Approximates ref → ∀ m out,
      runStraight ref (first.append second).statements m = .ok () out →
      ∀ r, (first.append second).modifies.contains r = false →
        out.registers.get r = m.registers.get r) ∧
    (first.KeptOnFailure ref → ∀ second : Sequence, second.KeptOnFailure ref →
      (first.append second).KeptOnFailure ref) ∧
    (∀ second : Sequence, second.Approximates ref →
      (∀ r, first.modifies.contains r = true → second.needs.contains r = true →
        first.Settles ref r) → (first.append second).Approximates ref) ∧
    ((∀ second : Sequence, second.Approximates ref → (first.append second).Approximates ref) ↔
      ∀ r, first.modifies.contains r = true → first.Settles ref r) := by
  refine ⟨?_, ?_, ?_, ?_, ?_⟩
  · intro second hsecond m out h
    exact modifies_append hfirst hsecond h
  · intro hfirstKept second hsecondKept
    exact keptOnFailure_append hfirst hfirstKept hsecondKept
  · intro second hsecond hsettles
    exact hfirst.append hsecond hsettles
  · intro happend r hr
    exact settles_of_append_approximates hfirst happend hr
  · intro hsettles second hsecond
    exact hfirst.append hsecond fun r hr _ => hsettles r hr

/-- What labels refer to in code that has none. -/
def nowhere : Label → CodeRef :=
  fun _ => ⟨0, ⟨#[], 0⟩, 0⟩

/-- The first sequence supplies what the second needs. -/
theorem supplied_copy_settled :
    (copy (.ofList [.env]) (.ofList [.val]) .env .val).Approximates nowhere ∧
    (copy (.ofList [.val, .argl]) (.ofList [.proc]) .val .proc).Approximates nowhere ∧
    ((copy (.ofList [.env]) (.ofList [.val]) .env .val).append
      (copy (.ofList [.val, .argl]) (.ofList [.proc]) .val .proc)).needs = .ofList [.env, .argl] ∧
    ((copy (.ofList [.env]) (.ofList [.val]) .env .val).append
      (copy (.ofList [.val, .argl]) (.ofList [.proc]) .val .proc)).Approximates nowhere := by
  have hfirst : (copy (.ofList [.env]) (.ofList [.val]) .env .val).Approximates nowhere :=
    copy_approximates (by simp) (by simp)
  have hsecond : (copy (.ofList [.val, .argl]) (.ofList [.proc]) .val .proc).Approximates
      nowhere :=
    copy_approximates (by simp) (by simp)
  refine ⟨hfirst, hsecond, rfl, ?_⟩
  apply (append_approximates_where_settled hfirst).2.2.1 _ hsecond
  intro r hr _
  obtain rfl : r = .val := by simpa [copy] using hr
  exact copy_settles (by simp)

/-- A sequence that is said to modify `val`, and does not, hides that what comes after it needs
`val`. -/
theorem unsettled_need_lost :
    (of [] [.val] []).Approximates nowhere ∧
    (of [.val] [.proc] [.assign .proc (.register .val)]).Approximates nowhere ∧
    ¬ ((of [] [.val] []).append
      (of [.val] [.proc] [.assign .proc (.register .val)])).Approximates nowhere := by
  refine ⟨nothing_approximates _ _, copy_approximates (by simp) (by simp), ?_⟩
  intro h
  let other : Machine :=
    { Machine.new none with registers := (Machine.new none).registers.set .val .empty }
  have hagree : AgreeOn (of [] [.val] []).needs (Machine.new none) other :=
    ⟨fun r hr => by simp [of] at hr, rfl, rfl⟩
  -- The copy would have to be in `proc` before it is made.
  have hkept := kept_of_append_copy h rfl hagree rfl rfl (by intro hsame; cases hsame)
  cases hkept.2

end Sequence
end SchemeMachine
