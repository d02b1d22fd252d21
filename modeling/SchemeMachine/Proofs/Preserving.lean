import SchemeMachine.Proofs.StraightLine

/-!
# Saving registers around straight-line code

A straight-line sequence is sound when its sets approximate its register use from above and the save
stack is to it a stack of its own: it takes back only what it has put there itself, and all of it.

Saving a register around a sound sequence makes a sound sequence that does not modify the register.
`preserving` does so for one register after the other, each time with the sets that the registers
before have left.  A register is therefore saved once at most, however often it is listed, and the
registers that the second sequence needs and the first does not leave alone come back in the end.
-/

namespace SchemeMachine

open Machine

namespace Machine

variable {C : Type}

/-- The machine with a register saved. -/
def save (r : Register) (m : Machine C) : Machine C :=
  ⟨m.maxSteps, m.registers, m.stack.push (m.registers.get r), m.store,
    { m.stats with
      maxStackDepth := max m.stats.maxStackDepth (m.stack.push (m.registers.get r)).size }⟩

variable [BEq C] {ref : Label → C}

theorem runStraight_save (r : Register) (rest : List Statement) (m : Machine C) :
    runStraight ref (.perform (.save r) :: rest) m = runStraight ref rest (m.save r) := by
  cases m
  rfl

/-- Restoring a register takes back the value that was saved last. -/
theorem runStraight_restore (r : Register) {m : Machine C} {stack : Array (Value C)} {v : Value C}
    (h : m.stack = stack.push v) :
    runStraight ref [.perform (.restore r)] m =
      .ok () ⟨m.maxSteps, m.registers.set r v, stack, m.store, m.stats⟩ := by
  obtain ⟨maxSteps, rs, saved, store, stats⟩ := m
  obtain rfl : saved = stack.push v := h
  simp [runStraight, perform]

end Machine

namespace Sequence

variable {C : Type} [BEq C] (ref : Label → C)

/-- A sequence that never takes back more than it has saved, and in the end all of it. -/
structure Balanced (s : Sequence) : Prop where
  /-- What is restored has been saved since the sequence began. -/
  above : ∀ before r after, s.statements = before ++ .perform (.restore r) :: after →
    ∀ m mid, runStraight ref before m = .ok () mid → m.stack.size < mid.stack.size
  level : ∀ m out, runStraight ref s.statements m = .ok () out → out.stack = m.stack

/-- A straight-line sequence that does what its sets say and keeps to its own part of the stack. -/
structure Sound (s : Sequence) : Prop extends s.Approximates ref, s.Balanced ref

variable {ref} {s first second : Sequence}

/-! ## One after another -/

theorem Balanced.append (hfirst : first.Balanced ref) (hsecond : second.Balanced ref) :
    (first.append second).Balanced ref := by
  refine ⟨?_, ?_⟩
  · intro before r after hsplit m mid hmid
    rw [Sequence.append] at hsplit
    rcases List.append_eq_append_iff.mp hsplit with ⟨more, rfl, hmore⟩ | ⟨more, hbefore, hmore⟩
    · -- The register is restored by the second sequence.
      obtain ⟨between, hbetween, hrest⟩ := runStraight_append_eq_ok hmid
      have habove := hsecond.above more r after hmore between mid hrest
      rwa [hfirst.level m between hbetween] at habove
    · cases more with
      | nil =>
          have habove := hsecond.above [] r after hmore.symm m m rfl
          exact absurd habove (Nat.lt_irrefl _)
      | cons statement more =>
          obtain ⟨rfl, -⟩ := List.cons.inj hmore
          exact hfirst.above before r more hbefore m mid hmid
  · intro m out hout
    obtain ⟨mid, hmid, hrest⟩ := runStraight_append_eq_ok hout
    rw [hsecond.level mid out hrest, hfirst.level m mid hmid]

theorem Sound.append (hfirst : first.Sound ref) (hsecond : second.Sound ref)
    (hdisjoint : ∀ r, first.modifies.contains r = true → second.needs.contains r = false) :
    (first.append second).Sound ref := by
  refine ⟨hfirst.toApproximates.append hsecond.toApproximates ?_,
    hfirst.toBalanced.append hsecond.toBalanced⟩
  intro r hmodifies hneeds
  cases (hdisjoint r hmodifies).symm.trans hneeds

/-! ## One register saved -/

theorem runStraight_protect_of_error (r : Register) {m mid : Machine C} {e : RunError C}
    (h : runStraight ref s.statements (m.save r) = .error e mid) :
    runStraight ref (s.protect r).statements m = .error e mid := by
  rw [protect, runStraight_save]
  exact runStraight_append_of_error h

/-- The machine that a sequence has left, with a register and the stack as they were before. -/
def restored (r : Register) (m mid : Machine C) : Machine C :=
  ⟨mid.maxSteps, mid.registers.set r (m.registers.get r), m.stack, mid.store, mid.stats⟩

theorem runStraight_protect_of_ok (hs : s.Balanced ref) (r : Register) {m mid : Machine C}
    (h : runStraight ref s.statements (m.save r) = .ok () mid) :
    runStraight ref (s.protect r).statements m = .ok () (restored r m mid) := by
  rw [protect, runStraight_save, runStraight_append_of_ok h]
  exact runStraight_restore r (hs.level _ _ h)

/-- A run of a protected sequence that has come to its end is one of the sequence in between. -/
theorem runStraight_protect_eq_ok (hs : s.Balanced ref) {r : Register} {m out : Machine C}
    (h : runStraight ref (s.protect r).statements m = .ok () out) :
    ∃ mid, runStraight ref s.statements (m.save r) = .ok () mid ∧ out = restored r m mid := by
  cases hmid : runStraight ref s.statements (m.save r) with
  | error e mid =>
      rw [runStraight_protect_of_error r hmid] at h
      cases h
  | ok _ mid =>
      rw [runStraight_protect_of_ok hs r hmid] at h
      cases h
      exact ⟨mid, rfl, rfl⟩

theorem Balanced.protect (hs : s.Balanced ref) (r : Register) : (s.protect r).Balanced ref := by
  refine ⟨?_, ?_⟩
  · intro before q after hsplit m mid hmid
    rw [Sequence.protect] at hsplit
    cases before with
    | nil => cases hsplit
    | cons statement before =>
        obtain ⟨hsave, hinner⟩ := List.cons.inj hsplit
        rw [← hsave, runStraight_save] at hmid
        have hsaved : m.stack.size < (m.save r).stack.size := by simp [save]
        rcases List.append_eq_append_iff.mp hinner with ⟨more, rfl, hmore⟩ | ⟨more, hbefore, hmore⟩
        · -- Only the restoring at the end comes after the sequence itself.
          have hnil : more = [] := by
            cases more with
            | nil => rfl
            | cons statement more => simp at hmore
          rw [hnil, List.append_nil] at hmid
          rwa [hs.level _ _ hmid]
        · cases more with
          | nil =>
              rw [List.append_nil] at hbefore
              rw [← hbefore] at hmid
              rwa [hs.level _ _ hmid]
          | cons statement more =>
              obtain ⟨rfl, -⟩ := List.cons.inj hmore
              exact Nat.lt_trans hsaved (hs.above before q more hbefore _ mid hmid)
  · intro m out hout
    obtain ⟨mid, -, rfl⟩ := runStraight_protect_eq_ok hs hout
    rfl

theorem straight_protect (hs : ∀ statement ∈ s.statements, statement.isStraight = true)
    (r : Register) : ∀ statement ∈ (s.protect r).statements, statement.isStraight = true := by
  intro statement hmem
  rw [protect, List.mem_cons, List.mem_append, List.mem_singleton] at hmem
  rcases hmem with rfl | hmem | rfl
  · rfl
  · exact hs statement hmem
  · rfl

/-- Two runs of a protected sequence end alike if they agree on the register saved as well. -/
theorem Sound.needs_protect (hs : s.Sound ref) {r : Register} {m m' : Machine C}
    (h : AgreeOn (s.protect r).needs m m') :
    FinishAlike m m' (runStraight ref (s.protect r).statements m)
      (runStraight ref (s.protect r).statements m') := by
  have hr : m'.registers.get r = m.registers.get r := h.equal r (by simp [protect])
  have hsaved : AgreeOn s.needs (m.save r) (m'.save r) := by
    refine ⟨fun q hq => h.equal q (by simp [protect, hq]), ?_, h.store⟩
    simp only [save, h.stack, hr]
  have halike := hs.needs _ _ hsaved
  generalize hx : runStraight ref s.statements (m.save r) = x at halike
  generalize hy : runStraight ref s.statements (m'.save r) = y at halike
  cases halike with
  | failed store registers =>
      rw [runStraight_protect_of_error r hx, runStraight_protect_of_error r hy]
      exact .failed store registers
  | @done mid mid' stack store registers =>
      rw [runStraight_protect_of_ok hs.toBalanced r hx,
        runStraight_protect_of_ok hs.toBalanced r hy]
      refine .done h.stack store fun q => ?_
      by_cases hq : q = r
      · subst hq
        left
        rw [restored, restored, Registers.get_set_self, Registers.get_set_self]
        exact hr
      · rw [restored, restored, Registers.get_set_of_ne _ _ hq, Registers.get_set_of_ne _ _ hq]
        exact registers q

theorem Sound.modifies_protect (hs : s.Sound ref) {r : Register} {m out : Machine C}
    (h : runStraight ref (s.protect r).statements m = .ok () out) (q : Register)
    (hq : (s.protect r).modifies.contains q = false) : out.registers.get q = m.registers.get q := by
  obtain ⟨mid, hmid, rfl⟩ := runStraight_protect_eq_ok hs.toBalanced h
  by_cases hqr : q = r
  · subst hqr
    rw [restored, Registers.get_set_self]
  · rw [restored, Registers.get_set_of_ne _ _ hqr]
    have hkept : s.modifies.contains q = false := by simpa [protect, hqr] using hq
    exact hs.modifies _ mid hmid q hkept

/-- Saving any register around a sound sequence leaves it sound. -/
theorem Sound.protect (hs : s.Sound ref) (r : Register) : (s.protect r).Sound ref where
  straight := straight_protect hs.straight r
  needs _ _ h := hs.needs_protect h
  modifies _ _ h := hs.modifies_protect h
  toBalanced := hs.toBalanced.protect r

/-! ## All registers -/

theorem protectFor_of_pos {r : Register} (registers : List Register)
    (h : first.modifies.contains r = true ∧ second.needs.contains r = true) :
    protectFor (r :: registers) first second =
      protectFor registers (first.protect r) second := by
  rw [protectFor, List.foldl_cons, if_pos ((Bool.and_eq_true _ _).mpr h), protectFor]

theorem protectFor_of_neg {r : Register} (registers : List Register)
    (h : ¬ (first.modifies.contains r = true ∧ second.needs.contains r = true)) :
    protectFor (r :: registers) first second = protectFor registers first second := by
  rw [protectFor, List.foldl_cons, if_neg (fun hboth => h ((Bool.and_eq_true _ _).mp hboth)),
    protectFor]

theorem Sound.protectFor (hs : first.Sound ref) (registers : List Register) (second : Sequence) :
    (Sequence.protectFor registers first second).Sound ref := by
  induction registers generalizing first with
  | nil => exact hs
  | cons r registers ih =>
      by_cases h : first.modifies.contains r = true ∧ second.needs.contains r = true
      · rw [protectFor_of_pos registers h]
        exact ih (hs.protect r)
      · rw [protectFor_of_neg registers h]
        exact ih hs

/-- Statements that save registers, the last of them first. -/
def saves (kept : List Register) : List Statement :=
  kept.reverse.map fun r => .perform (.save r)

/-- Statements that restore registers in order. -/
def restores (kept : List Register) : List Statement :=
  kept.map fun r => .perform (.restore r)

/-- The registers in a list that one sequence modifies and another needs, each of them once. -/
structure KeptFor (registers : List Register) (first second : Sequence) (kept : List Register) :
    Prop where
  once : kept.Nodup
  mem_iff : ∀ r, r ∈ kept ↔
    r ∈ registers ∧ first.modifies.contains r = true ∧ second.needs.contains r = true

theorem KeptFor.cons_of_pos {r : Register} {registers kept : List Register}
    (hkept : KeptFor registers (first.protect r) second kept)
    (h : first.modifies.contains r = true ∧ second.needs.contains r = true) :
    KeptFor (r :: registers) first second (r :: kept) := by
  have hmem : ∀ q, q ∈ kept ↔ q ∈ registers ∧
      (first.modifies.contains q = true ∧ q ≠ r) ∧ second.needs.contains q = true := by
    intro q
    rw [hkept.mem_iff]
    simp [protect]
  refine ⟨List.nodup_cons.mpr ⟨fun hr => ((hmem r).mp hr).2.1.2 rfl, hkept.once⟩, fun q => ?_⟩
  by_cases hq : q = r
  · subst hq
    simp [h.1, h.2]
  · simp [hmem, hq]

theorem KeptFor.cons_of_neg {r : Register} {registers kept : List Register}
    (hkept : KeptFor registers first second kept)
    (h : ¬ (first.modifies.contains r = true ∧ second.needs.contains r = true)) :
    KeptFor (r :: registers) first second kept := by
  refine ⟨hkept.once, fun q => ?_⟩
  rw [hkept.mem_iff, List.mem_cons]
  constructor
  · rintro ⟨hq, hboth⟩
    exact ⟨Or.inr hq, hboth⟩
  · rintro ⟨rfl | hq, hboth⟩
    · exact absurd hboth h
    · exact ⟨hq, hboth⟩

/-- Around a sequence each register is saved once that it modifies and the second needs, and these
registers are no longer modified. -/
theorem exists_keptFor (registers : List Register) (first second : Sequence) :
    ∃ kept, KeptFor registers first second kept ∧
      (protectFor registers first second).statements =
        saves kept ++ first.statements ++ restores kept ∧
      ∀ r, (protectFor registers first second).modifies.contains r = true ↔
        first.modifies.contains r = true ∧ r ∉ kept := by
  induction registers generalizing first with
  | nil =>
      refine ⟨[], ⟨List.nodup_nil, by simp⟩, ?_, ?_⟩
      · simp [protectFor, saves, restores]
      · simp [protectFor]
  | cons r registers ih =>
      by_cases h : first.modifies.contains r = true ∧ second.needs.contains r = true
      · rw [protectFor_of_pos registers h]
        obtain ⟨kept, hkept, hstatements, hmodifies⟩ := ih (first.protect r)
        refine ⟨r :: kept, hkept.cons_of_pos h, ?_, fun q => ?_⟩
        · rw [hstatements]
          simp [saves, restores, protect]
        · rw [hmodifies]
          simp [protect, and_assoc]
      · rw [protectFor_of_neg registers h]
        obtain ⟨kept, hkept, hstatements, hmodifies⟩ := ih first
        exact ⟨kept, hkept.cons_of_neg h, hstatements, hmodifies⟩

/-- A register in the list that the second sequence needs is not modified before it. -/
theorem protectFor_not_modifies {r : Register} {registers : List Register} (hr : r ∈ registers)
    (hneeds : second.needs.contains r = true) :
    (protectFor registers first second).modifies.contains r = false := by
  obtain ⟨kept, hkept, -, hmodifies⟩ := exists_keptFor registers first second
  apply eq_false_of_ne_true
  rw [hmodifies]
  rintro ⟨hfirst, hnot⟩
  exact hnot ((hkept.mem_iff r).mpr ⟨hr, hfirst, hneeds⟩)

/-! ## Preserving -/

/-- In one sequence and then another, with registers preserved, each listed register that the first
modifies and the second needs is saved once, and no other.  Listed registers that the second needs
hold what they held in the beginning when it starts.  The whole is balanced and changes what it
modifies alone; and if no register is left out of the list, it is sound. -/
theorem preserving_preserves {first second : Sequence} (hfirst : first.Sound ref)
    (hsecond : second.Sound ref) (registers : List Register) :
    (∃ kept, KeptFor registers first second kept ∧
      (preserving registers first second).statements =
        saves kept ++ first.statements ++ restores kept ++ second.statements) ∧
    (∀ before, (preserving registers first second).statements = before ++ second.statements →
      ∀ m mid, runStraight ref before m = .ok () mid →
        ∀ r ∈ registers, second.needs.contains r = true →
          mid.registers.get r = m.registers.get r) ∧
    (preserving registers first second).Balanced ref ∧
    (∀ m out, runStraight ref (preserving registers first second).statements m = .ok () out →
      ∀ r, (preserving registers first second).modifies.contains r = false →
        out.registers.get r = m.registers.get r) ∧
    ((∀ r, first.modifies.contains r = true → second.needs.contains r = true → r ∈ registers) →
      (preserving registers first second).Sound ref) := by
  have hprotected := hfirst.protectFor registers second
  obtain ⟨kept, hkept, hstatements, hmodifies⟩ := exists_keptFor registers first second
  refine ⟨⟨kept, hkept, ?_⟩, ?_, ?_, ?_, ?_⟩
  · rw [preserving, append, hstatements]
  · intro before hsplit m mid hmid r hr hneeds
    rw [preserving, append, List.append_cancel_right_eq] at hsplit
    rw [← hsplit] at hmid
    exact hprotected.modifies m mid hmid r (protectFor_not_modifies hr hneeds)
  · exact hprotected.toBalanced.append hsecond.toBalanced
  · intro m out h
    exact modifies_append hprotected.toApproximates hsecond.toApproximates h
  · intro hlisted
    refine hprotected.append hsecond fun r hr => ?_
    -- What is still modified is not in need of being kept.
    obtain ⟨hfirst, hnot⟩ := (hmodifies r).mp hr
    apply eq_false_of_ne_true
    intro hneeds
    exact hnot ((hkept.mem_iff r).mpr ⟨hlisted r hfirst hneeds, hfirst, hneeds⟩)

theorem copy_sound {needs modifies : RegisterSet} {source target : Register}
    (hneeds : needs.contains source = true) (hmodifies : modifies.contains target = true) :
    (copy needs modifies source target).Sound ref := by
  refine ⟨copy_approximates hneeds hmodifies, ?_, ?_⟩
  · intro before r after hsplit
    -- A copy is a single statement, and restores nothing.
    have hmem :
        Statement.perform (.restore r) ∈ (copy needs modifies source target).statements := by
      rw [hsplit]
      simp
    simp [copy, Statement.assign] at hmem
  · intro m out h
    rw [runStraight_copy] at h
    cases h
    rfl

/-- Two registers that are overwritten and needed afterwards, one of them listed twice. -/
theorem overwritten_copies_preserved :
    ∃ first second : Sequence,
      first = (copy (.ofList [.val]) (.ofList [.env]) .val .env).append
        (copy (.ofList [.val]) (.ofList [.argl]) .val .argl) ∧
      second = copy (.ofList [.env, .argl]) (.ofList [.val]) .env .val ∧
      (preserving [.env, .argl, .env] first second).statements =
        [.perform (.save .argl), .perform (.save .env), .assign .env (.register .val),
          .assign .argl (.register .val), .perform (.restore .env), .perform (.restore .argl),
          .assign .val (.register .env)] ∧
      first.Sound nowhere ∧ second.Sound nowhere ∧
      (preserving [.env, .argl, .env] first second).Sound nowhere := by
  have hfirst : ((copy (.ofList [.val]) (.ofList [.env]) .val .env).append
      (copy (.ofList [.val]) (.ofList [.argl]) .val .argl)).Sound nowhere := by
    refine (copy_sound (by simp) (by simp)).append (copy_sound (by simp) (by simp)) fun r hr => ?_
    obtain rfl : r = .env := by simpa [copy] using hr
    rfl
  have hsecond : (copy (.ofList [.env, .argl]) (.ofList [.val]) .env .val).Sound nowhere :=
    copy_sound (by simp) (by simp)
  refine ⟨_, _, rfl, rfl, rfl, hfirst, hsecond, ?_⟩
  apply (preserving_preserves hfirst hsecond [.env, .argl, .env]).2.2.2.2
  intro r hr _
  have hoverwritten : r = .env ∨ r = .argl := by simpa [append, copy] using hr
  rcases hoverwritten with rfl | rfl <;> simp

end Sequence
end SchemeMachine
