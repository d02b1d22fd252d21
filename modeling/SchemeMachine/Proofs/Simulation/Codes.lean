import SchemeMachine.Proofs.Simulation.Sequencing

/-!
# What each form of code does

One rule for each way in which the compiler puts code together.  Where a form has parts, the rule
takes what the code of its parts does and says what the whole does; nothing is assumed about how the
parts were compiled.  Calls have a module of their own.
-/

namespace SchemeMachine

/-- A register holds a value of the evaluator. -/
def Holds (r : Register) (v : Value Procedure) (W : TagMatch) (rs : Registers) : Prop :=
  v.Like compiled W (rs.get r)

theorem Holds.mono {r : Register} {v : Value Procedure} {W W' : TagMatch} {rs : Registers}
    (h : Holds r v W rs) (hW : W ≤ W') : Holds r v W' rs :=
  Value.Like.mono hW h

theorem Holds.set {r q : Register} {v : Value Procedure} {W : TagMatch} {rs : Registers}
    (h : Holds r v W rs) (hq : r ≠ q) (x : Value) : Holds r v W (rs.set q x) := by
  rw [Holds, Registers.get_set_of_ne _ _ hq]
  exact h

theorem holds_set_self {r : Register} {v : Value Procedure} {v' : Value} {W : TagMatch}
    (h : v.Like compiled W v') (rs : Registers) : Holds r v W (rs.set r v') := by
  rw [Holds, Registers.get_set_self]
  exact h

open Sequence

/-- No condition on registers. -/
abbrev anything (_ : TagMatch) (_ : Registers) : Prop :=
  True

namespace Expression

variable {depth : Nat} {target : Register}

/-- Where the evaluator makes a value, the machine makes an alike one. -/
theorem make_yields {W : TagMatch} {w : Store Procedure} {s : Store} (h : Represents W w s)
    (build : Tag → Value Procedure × Tag) (build' : Tag → Value × Tag)
    (hbuild : Made compiled W w.nextTag s.nextTag (build w.nextTag) (build' s.nextTag)) :
    Yields W (fun v W' v' => v.Like compiled W' v') (Evaluator.make build w)
      (.ok (s.make build').1 (s.make build').2) := by
  obtain ⟨W', hW, hrep, hlike⟩ := h.make build build' hbuild
  exact .ok hW hrep hlike

/-- Code for a constant makes it. -/
theorem constantCode_runs (c : Constant) (htarget : target.IsTarget) (linkage : Linkage) :
    (constantCode c target linkage).Runs depth linkage anything
      (fun _ => Evaluator.make fun tag => Value.ofConstant tag c) (Holds target) := by
  refine Runs.after linkage (assign_runs htarget.ne_kontinue ?_)
    fun v W rs x h => h.set htarget.ne_kontinue x
  intro site s f W w hready _
  have hmade := make_yields hready.represented (fun tag => Value.ofConstant tag c)
    (fun tag => Value.ofConstant tag c) (Made.ofConstant compiled W _ _ c)
  exact hmade.imp fun _ _ _ _ h => holds_set_self h _

/-- Code for a variable looks it up. -/
theorem variableCode_runs (name : String) (htarget : target.IsTarget) (linkage : Linkage) :
    (variableCode name target linkage).Runs depth linkage anything
      (fun f => Evaluator.lookup f name) (Holds target) := by
  refine Runs.after linkage (assign_runs htarget.ne_kontinue ?_)
    fun v W rs x h => h.set htarget.ne_kontinue x
  intro site s f W w hready _
  have hframe : s.registers.frame = .ok f := by
    rw [Registers.frame, hready.env rfl]
  have hlookup := hready.represented.like.lookup f name
  simp only [Evaluator.lookup, Operand.map, Machine.evaluate, hframe]
  generalize w.lookup f name = x at hlookup ⊢
  generalize hy : s.store.lookup f name = y at hlookup ⊢
  cases hlookup with
  | error he =>
      refine .error hready.represented he ?_
      unfold Store.lookup at hy
      split at hy <;> cases hy
      exact id
  | ok hv => exact .ok le_rfl hready.represented (holds_set_self hv _)

/-- An operation that stores `val` in the frame in `env`, as a computation does with a value. -/
def Stores (depth : Nat) (store : Operation Label)
    (c : FrameId → Value Procedure → Evaluator (Value Procedure)) : Prop :=
  ∀ ⦃site : Site⦄ ⦃rest : List Statement⦄ ⦃s : Scene⦄ ⦃f : FrameId⦄ ⦃W : TagMatch⦄
      ⦃w : Store Procedure⦄ ⦃v : Value Procedure⦄,
    s.control = site.before (.perform store :: rest) → s.Steady → Represents W w s.store →
    s.registers.env = .environment f → Holds .val v W s.registers →
    Follows depth s (c f v w) fun a w' s' => a = .symbol "ok" ∧
      ∃ store', Represents W w' store' ∧
        s' = { s with store := store', control := site.before rest }

theorem define_stores (name : String) :
    Stores depth (.define name) fun f => Evaluator.define f name := by
  intro site rest s f W w v hc hsteady hrep henv hv
  refine Follows.step (hsteady.sound_perform hc) (Scene.next_define hc henv) (Follows.done ?_)
  exact ⟨rfl, _, hrep.define f name hv, rfl⟩

theorem set_stores (name : String) :
    Stores depth (.set name) fun f => Evaluator.assign f name := by
  intro site rest s f W w v hc hsteady hrep henv hv
  have hbinder := hrep.like.binder?_eq f name
  simp only [Evaluator.assign, Store.assign?, hbinder]
  cases hg : s.store.binder? f name with
  | none =>
      exact Follows.fails ⟨hsteady.sound_perform hc, _, _, W,
        Scene.next_set_error hc henv hg, hrep, .unboundVariable name, id⟩
  | some g =>
      refine Follows.step (hsteady.sound_perform hc) (Scene.next_set hc henv hg) (Follows.done ?_)
      exact ⟨rfl, _, hrep.define g name hv, rfl⟩

/-- Storing leaves the symbol `ok` in the target. -/
theorem stores_runs {store : Operation Label}
    {c : FrameId → Value Procedure → Evaluator (Value Procedure)} (hstore : Stores depth store c)
    (htarget : target.IsTarget) (v : Value Procedure) :
    (of [.env, .val] [target]
      [.perform store, .assign target (.const (.symbol "ok"))]).Runs depth .next (Holds .val v)
      (fun f => c f v) (Holds target) := by
  intro site rest s f W w d hcovers hc hready hv hd
  rw [Linkage.Leads] at hd
  subst hd
  refine (hstore hc hready.steady hready.represented (hready.env rfl) hv).andThen ?_
  rintro _ w' _ ⟨rfl, store', hrep, rfl⟩
  have hsteady : Scene.Steady { s with
      store := store'
      control := site.before (.assign target (.const (.symbol "ok")) :: rest) } :=
    ⟨⟨W, w', hrep⟩, hready.bottom⟩
  refine Follows.step (hsteady.sound_perform rfl) (Scene.next_assign rfl htarget.ne_kontinue rfl)
    (Follows.done ⟨rfl, ?_, rfl, ?_, W, le_rfl, hrep, holds_set_self (.symbol "ok") _⟩)
  · simp only [← hready.unarmed]
  · intro r hr
    refine Registers.get_set_of_ne _ _ ?_
    rintro rfl
    simp [of] at hr

/-- Code that stores a value under a name. -/
theorem storeCode_runs {store : Operation Label}
    {c : FrameId → Value Procedure → Evaluator (Value Procedure)} (hstore : Stores depth store c)
    {value : Sequence} {x : FrameId → Evaluator (Value Procedure)}
    (hvalue : value.Runs depth .next anything x (Holds .val)) (htarget : target.IsTarget)
    (linkage : Linkage) :
    (storeCode store value target linkage).Runs depth linkage anything
      (fun f => x f >>= c f) (Holds target) := by
  refine Runs.after linkage ?_ fun v W rs x h => h.set htarget.ne_kontinue x
  refine hvalue.preserving [.env] (fun v => stores_runs hstore htarget v) ?_ ?_ ?_ ?_
  · intro v W rs r x hr h
    rw [List.mem_singleton.mp hr]
    exact h.set (by decide) x
  · intro v W W' rs rs' _ _ h _
    exact h
  · intro _
    exact List.mem_singleton_self _
  · intro h
    cases h

/-- Code for one expression and then others. -/
theorem sequence_runs {linkage : Linkage} {first rest : Sequence}
    {x y : FrameId → Evaluator (Value Procedure)}
    (hfirst : first.Runs depth .next anything x (Holds .val))
    (hrest : rest.Runs depth linkage anything y (Holds target)) :
    (preserving [.env, .kontinue] first rest).Runs depth linkage anything
      (fun f => x f >>= fun _ => y f) (Holds target) := by
  refine hfirst.preserving [.env, .kontinue] (fun _ => hrest) ?_ ?_ ?_ ?_
  · intro v W rs r x hr h
    refine h.set ?_ x
    rintro rfl
    simp at hr
  · intros
    trivial
  · simp
  · simp

/-! ## Arguments -/

/-- The argument list holds values of the evaluator. -/
def HoldsList (vs : List (Value Procedure)) (W : TagMatch) (rs : Registers) : Prop :=
  ∃ items, rs.argl.items? = some items ∧ List.Forall₂ (Value.Like compiled W) vs items

theorem HoldsList.mono {vs : List (Value Procedure)} {W W' : TagMatch} {rs : Registers}
    (h : HoldsList vs W rs) (hW : W ≤ W') : HoldsList vs W' rs := by
  obtain ⟨items, hitems, hlike⟩ := h
  exact ⟨items, hitems, Value.Like.mono_all hW hlike⟩

theorem HoldsList.of_argl_eq {vs : List (Value Procedure)} {W : TagMatch} {rs rs' : Registers}
    (h : HoldsList vs W rs) (hargl : rs'.get .argl = rs.get .argl) : HoldsList vs W rs' := by
  obtain ⟨items, hitems, hlike⟩ := h
  exact ⟨items, (congrArg Value.items? hargl).trans hitems, hlike⟩

/-- One more argument in front of those already there. -/
theorem consNext_runs {code : Sequence} {x : FrameId → Evaluator (Value Procedure)}
    (h : code.Runs depth .next anything x (Holds .val)) (vs : List (Value Procedure)) :
    (restArguments.consNext code).Runs depth .next (HoldsList vs)
      (fun f => x f >>= fun v => pure (v :: vs)) HoldsList := by
  have hcons : ∀ v, (of [.val, .argl] [.argl] [.assign .argl .consArg]).Runs depth .next
      (fun W rs => Holds .val v W rs ∧ HoldsList vs W rs) (fun _ => pure (v :: vs)) HoldsList := by
    intro v
    refine assign_runs (by decide) ?_
    rintro site s f W w hready ⟨hv, items, hitems, hlike⟩
    refine .ok le_rfl (hready.represented.skip (Nat.le_succ _)) ⟨_ :: items, ?_, .cons hv hlike⟩
    simp only [Registers.set, Value.items?, hitems, Option.map_some]
    rfl
  refine (h.weaken fun _ _ _ => trivial).preserving [.argl] hcons ?_ ?_ ?_ ?_
  · intro v W rs r x hr h
    rw [List.mem_singleton.mp hr]
    exact h.set (by decide) x
  · intro v W W' rs rs' hvs hW hv hkept
    exact ⟨hv, (hvs.mono hW).of_argl_eq (hkept .argl (Or.inr ⟨List.mem_singleton_self _, rfl⟩))⟩
  · intro h
    cases h
  · intro h
    cases h

/-- Results one after the other, each put in front of those before it. -/
def collect {α : Type} : List (Evaluator α) → List α → Evaluator (List α)
  | [], values => pure values
  | first :: rest, values => do
    let value ← first
    collect rest (value :: values)

theorem collect_append {α : Type} (xs ys : List (Evaluator α)) (values : List α) :
    collect (xs ++ ys) values = collect xs values >>= collect ys := by
  induction xs generalizing values with
  | nil => simp [collect]
  | cons x xs ih => simp [collect, ih]

/-- Doing the last computation first is collecting from the other end. -/
theorem collect_reverse {α : Type} (xs : List (Evaluator α)) :
    collect xs.reverse [] = Evaluator.fromLast xs := by
  induction xs with
  | nil => rfl
  | cons x xs ih =>
      rw [List.reverse_cons, collect_append, ih]
      rfl

/-- Codes that leave in `val` what computations give. -/
abbrev RunAll (depth : Nat) : List Sequence → List (FrameId → Evaluator (Value Procedure)) → Prop :=
  List.Forall₂ fun code x => code.Runs depth .next anything x (Holds .val)

/-- Some arguments and then those before them, which are found in the same frame. -/
theorem moreArguments_runs {first rest : Sequence} {pre : TagMatch → Registers → Prop}
    {x : FrameId → Evaluator (List (Value Procedure))}
    {y : List (Value Procedure) → FrameId → Evaluator (List (Value Procedure))}
    (hfirst : first.Runs depth .next pre x HoldsList)
    (hrest : ∀ vs, rest.Runs depth .next (HoldsList vs) (y vs) HoldsList) :
    (preserving [.env] first rest).Runs depth .next pre (fun f => x f >>= fun vs => y vs f)
      HoldsList := by
  refine hfirst.preserving [.env] hrest ?_ ?_ (fun _ => List.mem_singleton_self _) nofun
  · intro vs W rs r v hr h
    rw [List.mem_singleton.mp hr]
    exact h.of_argl_eq (Registers.get_set_of_ne _ _ (by decide))
  · intro vs W W' rs rs' _ _ h _
    exact h

/-- The arguments before those already there. -/
theorem restArguments_runs {codes : List Sequence}
    {xs : List (FrameId → Evaluator (Value Procedure))} (h : RunAll depth codes xs)
    (hne : codes ≠ []) (vs : List (Value Procedure)) :
    (restArguments codes).Runs depth .next (HoldsList vs)
      (fun f => collect (xs.map (· f)) vs) HoldsList := by
  induction h generalizing vs with
  | nil => exact absurd rfl hne
  | @cons code x codes xs head tail ih =>
      cases tail with
      | nil => exact consNext_runs head vs
      | @cons code' x' codes xs head' tail' =>
          have hruns := moreArguments_runs (consNext_runs head vs) (ih (List.cons_ne_nil _ _))
          simp only [bind_assoc, pure_bind] at hruns
          exact hruns

/-- Code that makes the argument list. -/
theorem argumentCode_runs {codes : List Sequence}
    {xs : List (FrameId → Evaluator (Value Procedure))} (h : RunAll depth codes xs) :
    (argumentCode codes).Runs depth .next anything
      (fun f => Evaluator.fromLast (xs.map (· f))) HoldsList := by
  have hreverse : RunAll depth codes.reverse xs.reverse := List.forall₂_reverse_iff.mpr h
  simp only [← collect_reverse, ← List.map_reverse]
  unfold argumentCode
  generalize codes.reverse = codes at hreverse ⊢
  generalize xs.reverse = xs at hreverse ⊢
  cases hreverse with
  | nil =>
      refine assign_runs (by decide) ?_
      intro site s f W w hready _
      exact .ok le_rfl hready.represented ⟨[], rfl, .nil⟩
  | @cons last x before xs hlast hbefore =>
      -- Without other arguments nothing has to be kept, which is preserving no registers.
      have hlist : ∀ v, (of [.val] [.argl] [.assign .argl .listArg]).Runs depth .next
          (Holds .val v) (fun _ => pure [v]) HoldsList := by
        intro v
        refine assign_runs (by decide) ?_
        intro site s f W w hready hv
        exact .ok le_rfl (hready.represented.skip (Nat.le_succ _)) ⟨[_], rfl, .cons hv .nil⟩
      have hsingle : (last.append (of [.val] [.argl] [.assign .argl .listArg])).Runs depth .next
          anything (fun f => x f >>= fun v => pure [v]) HoldsList :=
        hlast.preserving [] hlist nofun (fun _ _ _ _ _ _ _ h _ => h) nofun nofun
      simp only
      cases hbefore with
      | nil => exact hsingle
      | @cons code x' codes xs' head tail =>
          have hruns := moreArguments_runs hsingle
            fun vs => restArguments_runs (.cons head tail) (List.cons_ne_nil _ _) vs
          simp only [bind_assoc, pure_bind] at hruns
          exact hruns

/-! ## Choosing between two codes -/

section Fork

variable (test : Operation Label) (reads : Register) (firstLabel secondLabel after : Label)
  (first second : Sequence)

theorem contains_needs_fork (r : Register) :
    (fork test reads firstLabel secondLabel after first second).needs.contains r =
      (decide (r = reads) ||
        (first.needs.contains r || second.needs.contains r) && !decide (r = .flag)) := by
  simp only [fork, appendAll, append, parallel, Sequence.label, of, Sequence.empty,
    List.foldl_cons, List.foldl_nil]
  simp

theorem contains_modifies_fork (r : Register) :
    (fork test reads firstLabel secondLabel after first second).modifies.contains r =
      (decide (r = .flag) || (first.modifies.contains r || second.modifies.contains r)) := by
  simp only [fork, appendAll, append, parallel, Sequence.label, of, Sequence.empty,
    List.foldl_cons, List.foldl_nil]
  simp

end Fork

/-- A test sets the flag to a truth value and changes nothing else. -/
def Tests (test : Operation Label) (pre : TagMatch → Registers → Prop) (b : Bool) : Prop :=
  ∀ ⦃site : Site⦄ ⦃rest : List Statement⦄ ⦃s : Scene⦄ ⦃W : TagMatch⦄,
    s.control = site.before (.perform test :: rest) → pre W s.registers →
    s.next = .running { s with
      registers := s.registers.set .flag (.boolean b), control := site.before rest }

/-- The code that a test chooses is run.  The first code jumps over the second. -/
theorem fork_runs {α : Type} {linkage : Linkage} {test : Operation Label} {b : Bool}
    {pre pre' : TagMatch → Registers → Prop} (htest : Tests test pre b)
    (hpre : ∀ W rs v, pre W rs → pre' W (rs.set .flag v)) (reads : Register)
    (firstLabel secondLabel after : Label) {first second : Sequence} {x : FrameId → Evaluator α}
    {result : α → TagMatch → Registers → Prop}
    (hfirst : b = false → first.Runs depth (linkage.orLabel after) pre' x result)
    (hsecond : b = true → second.Runs depth linkage pre' x result) :
    (fork test reads firstLabel secondLabel after first second).Runs depth linkage pre x result := by
  intro site rest s f W w d hcovers hc hready hs hd
  have hstatements : (fork test reads firstLabel secondLabel after first second).statements ++ rest =
      .perform test :: .perform (.branch secondLabel) :: .label firstLabel :: (first.statements ++
        .label secondLabel :: ((second.append (.label after)).statements ++ rest)) := by
    simp [fork_statements_eq, append, Sequence.label, of]
  rw [hstatements] at hcovers hc
  refine Follows.step (hready.steady.sound_perform hc) (htest hc hs) ?_
  cases b with
  | false =>
      -- The branch is passed, and the first code ends by jumping over the second.
      refine Follows.step (Scene.Steady.sound_perform (hready.steady.later rfl rfl rfl) rfl)
        (Scene.next_branch_passed rfl rfl) ?_
      refine Follows.step (Scene.Steady.sound_label (hready.steady.later rfl rfl rfl) rfl)
        (Scene.next_label rfl hcovers.tail.tail) ?_
      have hlast := hcovers.tail.tail.tail.append_right.tail
      simp only [append, Sequence.label, of, List.append_assoc] at hlast
      refine (hfirst rfl).afterTest _ ?_ ?_ hcovers.tail.tail.tail hready (hpre W _ _ hs)
        (hd.orLabel hlast.append_right _)
      · intro r hr h
        simp [contains_needs_fork, h, hr]
      · intro r hr
        simp only [contains_modifies_fork, Bool.or_eq_false_iff, decide_eq_false_iff_not] at hr
        exact ⟨hr.2.1, hr.1⟩
  | true =>
      -- The branch is taken, and the second code may run into the label after it.
      refine Follows.step (Scene.Steady.sound_perform (hready.steady.later rfl rfl rfl) rfl)
        (Scene.next_branch_taken rfl rfl hcovers.tail.tail.tail.append_right) ?_
      refine ((hsecond rfl).thenLabel after).afterTest _ ?_ ?_
        hcovers.tail.tail.tail.append_right.tail hready (hpre W _ _ hs) hd
      · intro r hr h
        have hneeds : second.needs.contains r = true := by
          simpa [contains_needs_append, Sequence.label, of] using h
        simp [contains_needs_fork, hneeds, hr]
      · intro r hr
        simp only [contains_modifies_fork, Bool.or_eq_false_iff, decide_eq_false_iff_not] at hr
        exact ⟨by simp [append, Sequence.label, of, hr.2.2], hr.1⟩

theorem testFalse_tests (v : Value Procedure) : Tests .testFalse (Holds .val v) (!v.isTrue) := by
  intro site rest s W hc hv
  have htrue : v.isTrue = s.registers.val.isTrue := Value.Like.isTrue_eq hv
  rw [htrue]
  exact Scene.next_testFalse hc

/-- Code for a conditional. -/
theorem conditionalCode_runs {linkage : Linkage} (trueBranch falseBranch afterIf : Label)
    {test consequent alternative : Sequence} {x y z : FrameId → Evaluator (Value Procedure)}
    (htest : test.Runs depth .next anything x (Holds .val))
    (hconsequent : consequent.Runs depth (linkage.orLabel afterIf) anything y (Holds target))
    (halternative : alternative.Runs depth linkage anything z (Holds target)) :
    (conditionalCode trueBranch falseBranch afterIf test consequent alternative).Runs depth linkage
      anything (fun f => x f >>= fun v => if v.isTrue then y f else z f) (Holds target) := by
  have hfork : ∀ v, (fork .testFalse .val trueBranch falseBranch afterIf consequent
      alternative).Runs depth linkage (Holds .val v) (fun f => if v.isTrue then y f else z f)
        (Holds target) := by
    intro v
    have hpre : ∀ W rs x, Holds .val v W rs → anything W (rs.set .flag x) :=
      fun _ _ _ _ => trivial
    refine fork_runs (testFalse_tests v) hpre _ _ _ _ ?_ ?_
    · intro h
      have htrue : v.isTrue = true := by simpa using h
      simpa [htrue] using hconsequent
    · intro h
      have hfalse : v.isTrue = false := by simpa using h
      simpa [hfalse] using halternative
  refine htest.preserving [.env, .kontinue] hfork ?_ ?_ ?_ ?_
  · intro v W rs r x hr h
    refine h.set ?_ x
    rintro rfl
    simp at hr
  · exact fun _ _ _ _ _ _ _ h _ => h
  · simp
  · simp

/-! ## Procedures -/

section Lambda

variable (entry afterLambda : Label) (formals : List String) (body : Sequence)

theorem contains_needs_lambdaCode (htarget : target.IsTarget) (linkage : Linkage) {r : Register}
    (h : r = .env ∨ r ≠ target ∧ (linkage.orLabel afterLambda).code.needs.contains r = true) :
    (lambdaCode entry afterLambda formals body target linkage).needs.contains r = true := by
  simp only [lambdaCode, Linkage.after, preserving, protectFor_assign htarget, tackOn,
    contains_needs_append]
  rcases h with rfl | ⟨hr, h⟩
  · simp [of]
  · simp [of, hr, h]

theorem contains_modifies_lambdaCode (htarget : target.IsTarget) (linkage : Linkage) {r : Register}
    (h : (lambdaCode entry afterLambda formals body target linkage).modifies.contains r = false) :
    r ≠ target ∧ (linkage.orLabel afterLambda).code.modifies.contains r = false := by
  simp only [lambdaCode, Linkage.after, preserving, protectFor_assign htarget, tackOn] at h
  simp only [append, of, RegisterSet.contains_union, RegisterSet.contains_ofList,
    Bool.or_eq_false_iff] at h
  refine ⟨?_, h.1.2⟩
  rintro rfl
  simp at h

end Lambda

/-- Code that makes a procedure; the code of the procedure itself stands after it. -/
theorem lambdaCode_runs {procedure : Procedure} {body : Sequence} {n n' : Nat}
    (hbody : compileSequence .val .caller (procedure.body.map ofDatum) n = .ok body n')
    (hne : procedure.body ≠ []) (entry afterLambda : Label) (htarget : target.IsTarget)
    (linkage : Linkage) :
    (lambdaCode entry afterLambda procedure.formals body target linkage).Runs depth linkage anything
      (fun f => Evaluator.closure f procedure) (Holds target) := by
  intro site rest s f W w d hcovers hc hready _ hd
  have henv : s.registers.env = .environment f :=
    hready.env (contains_needs_lambdaCode entry afterLambda _ body htarget linkage (Or.inl rfl))
  simp only [lambdaCode_statements_eq _ _ _ _ htarget, List.cons_append, List.append_assoc,
    List.nil_append] at hcovers hc
  -- The code of the procedure is part of the statements at hand, and stays where it is.
  have hcode : compiled.code procedure (site.code.ref (site.number entry)) :=
    ⟨site, entry, body, _, n, n', rfl, hne, hbody, hcovers.tail.append_right⟩
  have hlabel : site.Covers (.label afterLambda :: rest) :=
    hcovers.tail.append_right.tail.tail.tail.append_right
  have hmade := make_yields hready.represented (fun tag => (.closure tag procedure f, tag + 1))
    (fun tag => (.closure tag (site.code.ref (site.number entry)) f, tag + 1))
    ⟨1, rfl, rfl, .closure f (W.grow_last _ _ 0) hcode⟩
  have hyields : Yields W (fun v W' v' => v.Like compiled W' v') (Evaluator.closure f procedure w)
      (Machine.evaluate site.code.ref s.registers s.store
        ((Operand.makeClosure entry).map site.number)) := by
    simp only [Operand.map, Machine.evaluate, Registers.frame, henv]
    exact hmade
  refine hyields.follows hready.steady hc htarget.ne_kontinue ?_
  intro v w' v' store W' hW hrep hv
  refine (linkage_runs depth (linkage.orLabel afterLambda) v (Holds target)).resume (f := f)
    hcovers.tail rfl ⟨hrep, hready.bottom, hready.unarmed, ?_⟩ (holds_set_self hv _)
    (hd.orLabel hlabel _) hW rfl rfl ?_ ?_
  · intro h
    rw [contains_needs_linkage_env] at h
    cases h
  · intro _ hk
    exact ⟨contains_needs_lambdaCode _ _ _ _ htarget linkage
      (Or.inr ⟨htarget.ne_kontinue.symm, hk⟩),
      Registers.get_set_of_ne _ _ htarget.ne_kontinue.symm⟩
  · intro r hr
    obtain ⟨hne, hmodifies⟩ := contains_modifies_lambdaCode _ _ _ _ htarget linkage hr
    exact ⟨hmodifies, Registers.get_set_of_ne _ _ hne⟩

end Expression
end SchemeMachine
