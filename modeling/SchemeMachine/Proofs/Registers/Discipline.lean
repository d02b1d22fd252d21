import SchemeMachine.Proofs.Simulation.Calls

/-!
# Code that keeps to its register use

Whatever code does within one activation can be followed statement by statement without running it.
A context says what is known on the way: which registers hold something that the code was given or
has made itself, which still hold what they held in the beginning, and what is saved.

`Keeps` says that code can be followed so on all its ways: it reads no register but those that are
known, it restores registers in the order in which it saved them, all its jumps go forward, and it
ends as it should.  A procedure ends by returning, or by handing over in a tail call, with nothing
saved and `kontinue` as it found it.  Other code ends by coming to given statements.

The rules of this module say that sequences keep to their register use when they are put together as
the compiler does.
-/

namespace SchemeMachine

/-- What is known about an activation between two statements. -/
structure Context where
  /-- Registers that hold what the code was given or has made. -/
  known : RegisterSet
  /-- Registers that hold what they held in the beginning. -/
  intact : RegisterSet
  /-- The registers that are saved, the latest first, and whether each was intact then. -/
  saved : List (Register × Bool)

namespace Context

/-- The context once some registers have been written. -/
def wrote (c : Context) (registers : RegisterSet) : Context :=
  ⟨c.known.union registers, c.intact.diff registers, c.saved⟩

/-- The context once a register has been saved. -/
def pushed (c : Context) (r : Register) : Context :=
  { c with saved := (r, c.intact.contains r) :: c.saved }

/-- The context once a register has been restored, after which `saved` is left. -/
def popped (c : Context) (r : Register) (intact : Bool) (saved : List (Register × Bool)) :
    Context :=
  ⟨c.known.insert r, if intact then c.intact.insert r else c.intact.erase r, saved⟩

/-- The context once a call has returned.  A procedure may have written any register. -/
def returned (c : Context) : Context :=
  ⟨c.known.union (.ofList [.kontinue, .val]), .none, c.saved⟩

end Context

/-- How an activation is to end. -/
inductive Ending where
  /-- By returning to its caller, or by a tail call in its place. -/
  | returns
  /-- By coming to the statements `goal`, with the registers in `gives` known and with all registers
  intact that are not in `modifies`. -/
  | falls (goal : List Statement) (modifies : RegisterSet) (gives : List Register)

/-- Among the statements is the code of a procedure, which is entered at a label. -/
def Label.Enters (entry : Label) (statements : List Statement) : Prop :=
  ∃ (procedure : Procedure) (body : Sequence) (rest : List Statement) (n n' : Nat),
    procedure.body ≠ [] ∧
    Expression.compileSequence .val .caller (procedure.body.map Expression.ofDatum) n =
      .ok body n' ∧
    (.label entry :: .assign .env .closureEnv :: .assign .env (.extendEnv procedure.formals) ::
      (body.statements ++ rest)) <:+ statements

/-- An operation that changes registers and store alone, leaves `kontinue` to others and copies no
environment.  The code of a procedure that it makes comes later in the statements. -/
def Operation.Plain (rest : List Statement) : Operation Label → Prop
  | assign target (.makeClosure entry) => target ≠ .kontinue ∧ entry.Enters rest
  | assign target (.register r) => target ≠ .kontinue ∧ r ≠ .env
  | assign target _ => target ≠ .kontinue
  | define _ | set _ | testFalse | testPrimitive => True
  | save _ | restore _ | branch _ => False

/-- From a context on, the statements keep to what is known and end as they should. -/
inductive Keeps (ending : Ending) : Context → List Statement → Prop
  | stop {c : Context} {goal : List Statement} {modifies : RegisterSet} {gives : List Register}
      (falls : ending = .falls goal modifies gives) (saved : c.saved = [])
      (intact : ∀ r, modifies.contains r = false → c.intact.contains r = true)
      (known : ∀ r ∈ gives, c.known.contains r = true) : Keeps ending c goal
  | perform {c : Context} {operation : Operation Label} {rest : List Statement}
      (plain : operation.Plain rest)
      (known : ∀ r, operation.reads.contains r = true → c.known.contains r = true)
      (onward : Keeps ending (c.wrote operation.writes) rest) :
      Keeps ending c (.perform operation :: rest)
  | save {c : Context} {r : Register} {rest : List Statement}
      (known : c.known.contains r = true) (onward : Keeps ending (c.pushed r) rest) :
      Keeps ending c (.perform (.save r) :: rest)
  | restore {c : Context} {r : Register} {intact : Bool} {saved : List (Register × Bool)}
      {rest : List Statement} (top : c.saved = (r, intact) :: saved)
      (onward : Keeps ending (c.popped r intact saved) rest) :
      Keeps ending c (.perform (.restore r) :: rest)
  | branch {c : Context} {name : Label} {dest rest : List Statement}
      (known : c.known.contains .flag = true) (forward : (.label name :: dest) <:+ rest)
      (taken : Keeps ending c dest) (passed : Keeps ending c rest) :
      Keeps ending c (.perform (.branch name) :: rest)
  | label {c : Context} {name : Label} {rest : List Statement} (onward : Keeps ending c rest) :
      Keeps ending c (.label name :: rest)
  | direct {c : Context} {name : Label} {dest rest : List Statement}
      (forward : (.label name :: dest) <:+ rest) (onward : Keeps ending c dest) :
      Keeps ending c (.jump (.direct name) :: rest)
  | call {c : Context} {name : Label} {dest rest : List Statement}
      (proc : c.known.contains .proc = true) (argl : c.known.contains .argl = true)
      (forward : (.label name :: dest) <:+ rest) (onward : Keeps ending c.returned dest) :
      Keeps ending c (.assign .kontinue (.label name) :: .assign .val .closureEntry ::
        .jump (.indirect .val) :: rest)
  | tailCall {c : Context} {rest : List Statement} (returns : ending = .returns)
      (saved : c.saved = []) (proc : c.known.contains .proc = true)
      (argl : c.known.contains .argl = true) (kontinue : c.known.contains .kontinue = true)
      (intact : c.intact.contains .kontinue = true) :
      Keeps ending c (.assign .val .closureEntry :: .jump (.indirect .val) :: rest)
  | leave {c : Context} {rest : List Statement} (returns : ending = .returns)
      (saved : c.saved = []) (kontinue : c.known.contains .kontinue = true)
      (intact : c.intact.contains .kontinue = true) :
      Keeps ending c (.jump (.indirect .kontinue) :: rest)

/-- Code whose jumps all go forward comes to its goal from before it and ends as it should there. -/
theorem Keeps.before_goal {goal : List Statement} {modifies : RegisterSet} {gives : List Register}
    {c : Context} {statements : List Statement}
    (h : Keeps (.falls goal modifies gives) c statements) :
    goal.length ≤ statements.length ∧
      (goal.length = statements.length → c.saved = [] ∧
        (∀ r, modifies.contains r = false → c.intact.contains r = true) ∧
          ∀ r ∈ gives, c.known.contains r = true) := by
  induction h with
  | stop falls saved intact known =>
      cases falls
      exact ⟨Nat.le_refl _, fun _ => ⟨saved, intact, known⟩⟩
  | perform _ _ _ ih | save _ _ ih | restore _ _ ih | label _ ih | branch _ _ _ _ _ ih =>
      have := ih.1
      simp only [List.length_cons]
      exact ⟨by omega, by omega⟩
  | direct forward _ ih | call _ _ forward _ ih =>
      have := ih.1
      have := forward.length_le
      simp only [List.length_cons] at this ⊢
      exact ⟨by omega, by omega⟩
  | tailCall returns | leave returns => cases returns

/-- A context as code may leave it that modifies some registers and makes others known. -/
structure Context.Becomes (c : Context) (modifies : RegisterSet) (gives : List Register)
    (c' : Context) : Prop where
  known : ∀ r, c.known.contains r = true ∨ r ∈ gives → c'.known.contains r = true
  intact : ∀ r, modifies.contains r = false → c.intact.contains r = true →
    c'.intact.contains r = true
  saved : c'.saved = c.saved

namespace Context

theorem Becomes.trans {c c' c'' : Context} {modifies modifies' modifies'' : RegisterSet}
    {gives gives' gives'' : List Register} (h : c.Becomes modifies gives c')
    (h' : c'.Becomes modifies' gives' c'')
    (hmodifies : ∀ r, modifies''.contains r = false →
      modifies.contains r = false ∧ modifies'.contains r = false)
    (hgives : ∀ r ∈ gives'', r ∈ gives ∨ r ∈ gives') : c.Becomes modifies'' gives'' c'' := by
  refine ⟨?_, ?_, h'.saved.trans h.saved⟩
  · rintro r (hr | hr)
    · exact h'.known r (Or.inl (h.known r (Or.inl hr)))
    · rcases hgives r hr with hr | hr
      · exact h'.known r (Or.inl (h.known r (Or.inr hr)))
      · exact h'.known r (Or.inr hr)
  · intro r hr hintact
    exact h'.intact r (hmodifies r hr).2 (h.intact r (hmodifies r hr).1 hintact)

theorem becomes_wrote (c : Context) (registers : List Register) :
    c.Becomes (.ofList registers) registers (c.wrote (.ofList registers)) := by
  refine ⟨?_, ?_, rfl⟩
  · rintro r (hr | hr)
    · simp [wrote, hr]
    · simp [wrote, hr]
  · intro r hr hintact
    simp [wrote, hr, hintact]

theorem becomes_self (c : Context) (modifies : RegisterSet) : c.Becomes modifies [] c :=
  ⟨fun _ h => h.resolve_right List.not_mem_nil, fun _ _ h => h, rfl⟩

end Context

/-- A linkage leads on from code that has been followed to its end.  Returning takes an activation
that has cleaned up, and `kontinue` as it was if the code needs it. -/
def Linkage.Proceeds (ending : Ending) (needs modifies : RegisterSet) (gives : List Register)
    (c : Context) (rest : List Statement) : Linkage → Prop
  | next => ∀ c', c.Becomes modifies gives c' → Keeps ending c' rest
  | label name =>
    ∃ dest, (.label name :: dest) <:+ rest ∧
      ∀ c', c.Becomes modifies gives c' → Keeps ending c' dest
  | .caller =>
    ending = .returns ∧ c.saved = [] ∧
      (needs.contains .kontinue = true → c.intact.contains .kontinue = true)

namespace Linkage.Proceeds

variable {linkage : Linkage} {ending : Ending} {needs modifies : RegisterSet}
  {gives : List Register} {c : Context} {rest : List Statement}

/-- A linkage still leads on when part of the code has been followed. -/
theorem resume (h : linkage.Proceeds ending needs modifies gives c rest) {c' : Context}
    {modifies₁ modifies₂ needs₂ : RegisterSet} {gives₁ gives₂ : List Register}
    (hbecomes : c.Becomes modifies₁ gives₁ c')
    (hmodifies : ∀ r, modifies.contains r = false →
      modifies₁.contains r = false ∧ modifies₂.contains r = false)
    (hgives : ∀ r ∈ gives, r ∈ gives₁ ∨ r ∈ gives₂)
    (hkontinue : linkage = .caller → needs₂.contains .kontinue = true →
      needs.contains .kontinue = true ∧ modifies₁.contains .kontinue = false) :
    linkage.Proceeds ending needs₂ modifies₂ gives₂ c' rest := by
  cases linkage with
  | next => exact fun c'' h'' => h c'' (hbecomes.trans h'' hmodifies hgives)
  | label name =>
      obtain ⟨dest, hdest, honward⟩ := h
      exact ⟨dest, hdest, fun c'' h'' => honward c'' (hbecomes.trans h'' hmodifies hgives)⟩
  | caller =>
      obtain ⟨hending, hsaved, hintact⟩ := h
      refine ⟨hending, hbecomes.saved.trans hsaved, fun hneeds => ?_⟩
      obtain ⟨hneeds', hkept⟩ := hkontinue rfl hneeds
      exact hbecomes.intact .kontinue hkept (hintact hneeds')

/-- In place of going on, one may jump forward to a label there. -/
theorem orLabel (h : linkage.Proceeds ending needs modifies gives c rest) {name : Label}
    {rest' : List Statement} (hrest : (.label name :: rest) <:+ rest') :
    (linkage.orLabel name).Proceeds ending needs modifies gives c rest' := by
  cases linkage with
  | next => exact ⟨rest, hrest, h⟩
  | label other =>
      obtain ⟨dest, hdest, honward⟩ := h
      exact ⟨dest, hdest.trans ((List.suffix_cons _ rest).trans hrest), honward⟩
  | caller => exact h

/-- Code that goes on falls into a label. -/
theorem pastLabel (h : linkage.Proceeds ending needs modifies gives c rest) (name : Label) :
    linkage.Proceeds ending needs modifies gives c (.label name :: rest) := by
  cases linkage with
  | next => exact fun c' h' => .label (h c' h')
  | label other =>
      obtain ⟨dest, hdest, honward⟩ := h
      exact ⟨dest, hdest.trans (List.suffix_cons _ rest), honward⟩
  | caller => exact h

end Linkage.Proceeds

/-- The registers that the code of a linkage asks for. -/
def Linkage.asks : Linkage → List Register
  | .caller => [.kontinue]
  | _ => []

/-- A sequence that keeps to its register use, asks for no registers but some and makes others
known. -/
structure Sequence.Disciplined (asks gives : List Register) (linkage : Linkage)
    (code : Sequence) : Prop where
  asked : ∀ r, code.needs.contains r = true → r ∈ asks
  given : ∀ r ∈ gives, code.modifies.contains r = true
  keeps : ∀ ⦃ending : Ending⦄ ⦃c : Context⦄ ⦃rest : List Statement⦄,
    (∀ r, code.needs.contains r = true → c.known.contains r = true) →
    linkage.Proceeds ending code.needs code.modifies gives c rest →
    Keeps ending c (code.statements ++ rest)

namespace Sequence

/-- A single assignment. -/
theorem assign_disciplined {needs : List Register} {target : Register} {source : Operand Label}
    (hreads : ∀ r, source.reads.contains r = true → r ∈ needs)
    (hplain : ∀ rest, (Operation.assign target source).Plain rest) :
    (of needs [target] [.assign target source]).Disciplined needs [target] .next := by
  refine ⟨by simp [of], by simp [of], ?_⟩
  intro ending c rest hknown honward
  refine .perform (hplain rest) ?_ (honward _ (c.becomes_wrote [target]))
  intro r hr
  exact hknown r (by simpa [of] using hreads r hr)

/-- The code of a linkage goes where the linkage leads. -/
theorem linkage_disciplined (linkage : Linkage) :
    linkage.code.Disciplined linkage.asks [] linkage := by
  cases linkage with
  | next =>
      refine ⟨by simp [Linkage.code, Sequence.empty], by simp, ?_⟩
      intro ending c rest _ honward
      exact honward c (c.becomes_self _)
  | label name =>
      refine ⟨by simp [Linkage.code, of], by simp, ?_⟩
      rintro ending c rest - ⟨dest, hdest, honward⟩
      exact .direct hdest (honward c (c.becomes_self _))
  | caller =>
      refine ⟨by simp [Linkage.code, Linkage.asks, of], by simp, ?_⟩
      rintro ending c rest hknown ⟨hending, hsaved, hintact⟩
      exact .leave hending hsaved (hknown .kontinue rfl) (hintact rfl)

namespace Disciplined

variable {asks gives : List Register} {linkage : Linkage} {code : Sequence}

theorem weaken (h : code.Disciplined asks gives linkage) {asks' : List Register}
    (hasks : ∀ r ∈ asks, r ∈ asks') : code.Disciplined asks' gives linkage :=
  ⟨fun r hr => hasks r (h.asked r hr), h.given, h.keeps⟩

/-- A sequence that is followed from its first statement, with what it needs, comes to what is after
it. -/
theorem keeps_through (h : code.Disciplined asks gives .next) (rest : List Statement) :
    Keeps (.falls rest code.modifies gives) ⟨code.needs, .full, []⟩ (code.statements ++ rest) := by
  refine h.keeps (fun _ hr => hr) ?_
  intro c hbecomes
  refine .stop rfl hbecomes.saved ?_ fun r hr => hbecomes.known r (Or.inr hr)
  intro r hr
  exact hbecomes.intact r hr (contains_full r)

/-- Saving a register before a sequence and restoring it afterwards keeps the register. -/
theorem protect (h : code.Disciplined asks gives .next) {r : Register} (hasks : r ∈ asks)
    (hgives : r ∉ gives) : (code.protect r).Disciplined asks gives .next := by
  refine ⟨?_, ?_, ?_⟩
  · intro q hq
    simp only [Sequence.protect, RegisterSet.contains_insert, Bool.or_eq_true, beq_iff_eq] at hq
    rcases hq with hq | rfl
    · exact h.asked q hq
    · exact hasks
  · intro q hq
    have hne : q ≠ r := fun heq => hgives (heq ▸ hq)
    simp [Sequence.protect, h.given q hq, hne]
  · intro ending c rest hknown honward
    have hstatements : (code.protect r).statements ++ rest =
        .perform (.save r) :: (code.statements ++ .perform (.restore r) :: rest) := by
      simp [Sequence.protect]
    rw [hstatements]
    refine .save (hknown r (by simp [Sequence.protect])) (h.keeps ?_ ?_)
    · intro q hq
      exact hknown q (by simp [Sequence.protect, hq])
    · intro c' hbecomes
      refine .restore hbecomes.saved (honward _ ⟨?_, ?_, rfl⟩)
      · intro q hq
        simp [Context.popped, hbecomes.known q hq]
      · -- The register is intact again if it was so before.
        intro q hq hintact
        by_cases hqr : q = r
        · subst hqr
          simp [Context.popped, hintact]
        · have hkept : code.modifies.contains q = false := by
            simpa [Sequence.protect, hqr] using hq
          have hstill := hbecomes.intact q hkept hintact
          cases hb : c.intact.contains r <;> simp [Context.popped, hstill, hqr]

/-- The same for all registers that the second sequence needs kept. -/
theorem protectFor {registers : List Register} {first : Sequence} (second : Sequence)
    (h : first.Disciplined asks gives .next)
    (hasks : ∀ r ∈ registers, second.needs.contains r = true → r ∈ asks)
    (hgives : ∀ r ∈ registers, r ∉ gives) :
    (protectFor registers first second).Disciplined asks gives .next := by
  induction registers generalizing first with
  | nil => exact h
  | cons r rest ih =>
      have hrest := fun q hq => hasks q (List.mem_cons_of_mem r hq)
      refine ih ?_ hrest fun q hq => hgives q (List.mem_cons_of_mem r hq)
      simp only
      split
      · next hprotect =>
        exact h.protect (hasks r List.mem_cons_self (Bool.and_eq_true_iff.mp hprotect).2)
          (hgives r List.mem_cons_self)
      · exact h

/-- One sequence and then another, where registers are saved around the first as far as the second
needs them.  Whatever the second may ask for is given by the first or saved. -/
theorem preserving {registers asks₁ asks₂ gives₁ gives₂ : List Register} {first second : Sequence}
    (hfirst : first.Disciplined asks₁ gives₁ .next)
    (hsecond : second.Disciplined asks₂ gives₂ linkage)
    (hasks₁ : ∀ r ∈ asks₁, r ∈ asks)
    (hasks₂ : ∀ r ∈ asks₂, r ∈ gives₁ ∨ r ∈ registers ∧ r ∈ asks)
    (hgives₁ : ∀ r ∈ .kontinue :: registers, r ∉ gives₁)
    (hgives : ∀ r ∈ gives, r ∈ gives₁ ∨ r ∈ gives₂) :
    (preserving registers first second).Disciplined asks gives linkage := by
  have hapart := fun r hr => hgives₁ r (List.mem_cons_of_mem _ hr)
  have hprotected : (Sequence.protectFor registers first second).Disciplined asks gives₁ .next := by
    refine (hfirst.weaken hasks₁).protectFor second ?_ hapart
    intro r hr hneeds
    rcases hasks₂ r (hsecond.asked r hneeds) with h | h
    · exact absurd h (hapart r hr)
    · exact h.2
  -- A register that is saved for the second sequence is needed before the first.
  have hsaved : ∀ r ∈ registers, second.needs.contains r = true →
      (Sequence.preserving registers first second).needs.contains r = true ∧
        (Sequence.protectFor registers first second).modifies.contains r = false := by
    intro r hr hneeds
    have hmodifies : (Sequence.protectFor registers first second).modifies.contains r = false := by
      simp [contains_modifies_protectFor, hr, hneeds]
    exact ⟨by simp [Sequence.preserving, contains_needs_append, hmodifies, hneeds], hmodifies⟩
  refine ⟨?_, ?_, ?_⟩
  · intro r hr
    simp only [Sequence.preserving, contains_needs_append, Bool.or_eq_true, Bool.and_eq_true,
      Bool.not_eq_true'] at hr
    rcases hr with hr | ⟨hneeds, hmodifies⟩
    · exact hprotected.asked r hr
    · rcases hasks₂ r (hsecond.asked r hneeds) with h | h
      · rw [hprotected.given r h] at hmodifies
        cases hmodifies
      · exact h.2
  · intro r hr
    rcases hgives r hr with h | h
    · simp [Sequence.preserving, append, hprotected.given r h]
    · simp [Sequence.preserving, append, hsecond.given r h]
  · intro ending c rest hknown hproceeds
    have hstatements : (Sequence.preserving registers first second).statements ++ rest =
        (Sequence.protectFor registers first second).statements ++ (second.statements ++ rest) := by
      simp [Sequence.preserving, append]
    rw [hstatements]
    refine hprotected.keeps (fun r hr => hknown r ?_) ?_
    · simp [Sequence.preserving, contains_needs_append, hr]
    · intro c' hbecomes
      refine hsecond.keeps ?_ (hproceeds.resume hbecomes ?_ hgives ?_)
      · intro r hr
        rcases hasks₂ r (hsecond.asked r hr) with h | h
        · exact hbecomes.known r (Or.inr h)
        · exact hbecomes.known r (Or.inl (hknown r (hsaved r h.1 hr).1))
      · intro r hr
        simpa [Sequence.preserving, append] using hr
      · intro _ hneeds
        have hkept := (hasks₂ .kontinue (hsecond.asked .kontinue hneeds)).resolve_left
          (hgives₁ .kontinue List.mem_cons_self)
        exact hsaved .kontinue hkept.1 hneeds

/-- A sequence followed by the code of a linkage. -/
theorem after {target : Register} (h : code.Disciplined asks [target] .next)
    (htarget : target.IsTarget) (linkage : Linkage) :
    (linkage.after code).Disciplined (asks ++ linkage.asks) [target] linkage := by
  have hkontinue : ∀ r ∈ linkage.asks, r = .kontinue := by
    cases linkage <;> simp [Linkage.asks]
  refine h.preserving (linkage_disciplined linkage) (fun r hr => List.mem_append_left _ hr) ?_ ?_
    fun r hr => Or.inl hr
  · intro r hr
    exact Or.inr ⟨by simp [hkontinue r hr], List.mem_append_right _ hr⟩
  · simpa using htarget.ne_kontinue.symm

end Disciplined
end Sequence
end SchemeMachine
