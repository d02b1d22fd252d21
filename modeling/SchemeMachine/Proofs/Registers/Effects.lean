import SchemeMachine.Machine.Run
import SchemeMachine.Proofs.Registers.Operations

/-!
# What instructions say of their registers is true

Every instruction tells which registers it reads and which it writes.  The machine performs not the
instruction itself but the operation that comes of it when its labels have been replaced by the
numbers of blocks.  In two machines with the same save stack and the same frames, which agree on the
registers that the instruction reads, that operation does the same.  Either it is refused with the
same error and changes nothing, or it goes to the same place and leaves the same stack, the same
frames and the same in the registers that it writes.  All other registers it leaves alone.

The two machines may differ in the tags that they give to new objects.  Then the objects that the
operation has made differ in their tags, and in nothing else.
-/

namespace SchemeMachine

variable {C L : Type}

/-! ## Equal values as alike values -/

/-- Code, places and frames match if they are equal. -/
def Matching.same : Matching C C :=
  ⟨Eq, Eq, Eq⟩

theorem biUnique_eq {α : Type} : Relator.BiUnique (Eq : α → α → Prop) :=
  ⟨fun _ _ _ h h' => h.trans h'.symm, fun _ _ _ h h' => h.symm.trans h'⟩

theorem Matching.same_faithful [BEq C] : (Matching.same : Matching C C).Faithful := by
  refine ⟨?_, biUnique_eq⟩
  rintro c c' _ _ rfl rfl
  rfl

mutual

theorem Value.like_self : ∀ v : Value C, v.Like .same Eq v
  | .environment _ => .environment rfl
  | .label _ => .label rfl
  | .closure _ _ f => .closure f rfl rfl
  | .primitive p => .primitive p
  | .vector _ items => .vector rfl (Value.likeAll_self items)
  | .pair _ a d => .pair rfl (Value.like_self a) (Value.like_self d)
  | .symbol name => .symbol name
  | .string _ text => .string text rfl
  | .number n => .number n
  | .boolean b => .boolean b
  | .empty => .empty
  | .unspecified => .unspecified

theorem Value.likeAll_self : ∀ vs : List (Value C), List.Forall₂ (Value.Like .same Eq) vs vs
  | [] => .nil
  | v :: vs => .cons (Value.like_self v) (Value.likeAll_self vs)

end

theorem Value.Like.eq {v w : Value C} (h : v.Like .same Eq w) : v = w := by
  induction h using elementwise with
  | string s t text tag => rw [tag]
  | pair s t a d a' d' tag _ _ car cdr => rw [tag, car, cdr]
  | vector s t xs ys tag _ items =>
      have hitems : List.Forall₂ Eq xs ys := by
        refine items.imp ?_
        rintro x y ⟨-, h⟩
        exact h
      rw [List.forall₂_eq_eq_eq] at hitems
      rw [tag, hitems]
  | closure s t c d f tag code => rw [tag, show c = d from code]
  | label c d place => rw [show c = d from place]
  | environment f g frame => rw [show f = g from frame]
  | _ => rfl

theorem RunError.Like.eq {e e' : RunError C} (h : e.Like .same Eq e') : e = e' := by
  cases h with
  | typeMismatch procedure expected got => rw [got.eq]
  | notAProcedure value => rw [value.eq]
  | notALabel value => rw [value.eq]
  | _ => rfl

theorem Store.like_of_frames {s s' : Store C} (h : s'.frames = s.frames) : s.Like .same Eq s' := by
  intro f
  rw [h]
  cases s.frames[f]? with
  | none => exact .none
  | some frame =>
      refine .some ⟨List.forall₂_same.mpr ?_, rfl⟩
      intro binding _
      exact ⟨rfl, binding.2.like_self⟩

/-- Names are looked up in the frames, whatever tags are still to be given. -/
theorem Store.lookup_of_frames {s s' : Store C} (h : s'.frames = s.frames) (f : FrameId)
    (name : String) : s'.lookup f name = s.lookup f name := by
  have hlookup := (Store.like_of_frames h).lookup f name
  generalize s.lookup f name = x at hlookup ⊢
  generalize s'.lookup f name = y at hlookup ⊢
  cases hlookup with
  | error he => rw [he.eq]
  | ok hv => rw [hv.eq]

theorem Registers.frame_congr {rs rs' : Registers C} (h : rs'.env = rs.env) :
    rs'.frame = rs.frame := by
  rw [Registers.frame, Registers.frame, h]

/-- A new pair of old values. -/
theorem Made.pair {K : Matching C C} {W : TagMatch} (s t : Tag) {a d a' d' : Value C}
    (ha : a.Like K W a') (hd : d.Like K W d') :
    Made K W s t (.pair s a d, s + 1) (.pair t a' d', t + 1) :=
  ⟨1, rfl, rfl, .pair (W.grow_last s t 0) (ha.mono (W.le_grow s t 1)) (hd.mono (W.le_grow s t 1))⟩

/-! ## Operands -/

namespace Machine

/-- What an operand comes to in stores with the same frames. -/
inductive ValuedAlike (s s' : Store C) : EStateM.Result (RunError C) (Store C) (Value C) →
    EStateM.Result (RunError C) (Store C) (Value C) → Prop
  | value {v v' : Value C} {t t' : Store C} (frames : t'.frames = t.frames)
      (made : Made .same Eq s.nextTag s'.nextTag (v, t.nextTag) (v', t'.nextTag)) :
      ValuedAlike s s' (.ok v t) (.ok v' t')
  | refused (e : RunError C) : ValuedAlike s s' (.error e s) (.error e s')

theorem ValuedAlike.old {s s' : Store C} (h : s'.frames = s.frames) (v : Value C) :
    ValuedAlike s s' (.ok v s) (.ok v s') :=
  .value h (.old v.like_self)

theorem ValuedAlike.new {s s' : Store C} (h : s'.frames = s.frames) {x x' : Value C × Tag}
    (hmade : Made .same Eq s.nextTag s'.nextTag x x') :
    ValuedAlike s s' (.ok x.1 { s with nextTag := x.2 }) (.ok x'.1 { s' with nextTag := x'.2 }) :=
  .value h hmade

/-- An operand that finds the same in the registers comes to the same in stores with the same
frames, up to the tags of what it makes. -/
theorem evaluate_alike [BEq C] (ref : L → C) (rs : Registers C) {s s' : Store C}
    (h : s'.frames = s.frames) (source : Operand L) :
    ValuedAlike s s' (evaluate ref rs s source) (evaluate ref rs s' source) := by
  cases source with
  | const c => exact .new h (.ofConstant .same Eq s.nextTag s'.nextTag c)
  | register r => exact .old h (rs.get r)
  | label target => exact .old h (.label (ref target))
  | lookup name =>
      simp only [evaluate]
      cases rs.frame with
      | error e => exact .refused e
      | ok f =>
          simp only [Store.lookup_of_frames h]
          cases s.lookup f name with
          | error e => exact .refused e
          | ok v => exact .old h v
  | consArg =>
      exact .new h (.pair s.nextTag s'.nextTag rs.val.like_self rs.argl.like_self)
  | listArg =>
      exact .new h (.pair s.nextTag s'.nextTag rs.val.like_self .empty)
  | makeClosure entry =>
      simp only [evaluate]
      cases rs.frame with
      | error e => exact .refused e
      | ok f =>
          have hclosure : Made .same Eq s.nextTag s'.nextTag
              (.closure s.nextTag (ref entry) f, s.nextTag + 1)
              (.closure s'.nextTag (ref entry) f, s'.nextTag + 1) :=
            ⟨1, rfl, rfl, .closure f (TagMatch.grow_last Eq s.nextTag s'.nextTag 0) rfl⟩
          exact .new h hclosure
  | closureEnv | closureEntry =>
      simp only [evaluate]
      cases rs.closure with
      | error e => exact .refused e
      | ok closure => exact .old h _
  | extendEnv formals =>
      simp only [evaluate]
      cases rs.frame with
      | error e => exact .refused e
      | ok f =>
          simp only [Store.extend]
          cases rs.argl.items? with
          | none => exact .refused _
          | some values =>
              by_cases hlength : values.length = formals.length
              · simp only [hlength, if_true, Store.push, h]
                exact .value rfl (.old (.environment rfl))
              · simp only [hlength, if_false]
                exact .refused _
  | applyPrimitive =>
      simp only [evaluate]
      cases rs.proc with
      | primitive p =>
          simp only
          cases rs.argl.items? with
          | none => exact .refused _
          | some args =>
              -- Primitives compare the tags of their arguments, which are the same on both sides.
              have happly := p.apply_like Matching.same_faithful biUnique_eq
                (Value.likeAll_self args) s.nextTag s'.nextTag
              simp only
              generalize p.apply args s.nextTag = x at happly ⊢
              generalize p.apply args s'.nextTag = y at happly ⊢
              cases happly with
              | error he =>
                  rw [he.eq]
                  exact .refused _
              | ok hmade => exact .value h hmade
      | _ => exact .refused _

/-! ## Operations -/

/-- An operation has changed no registers but some, or was refused and has changed nothing. -/
inductive ChangesOnly (writes : RegisterSet) (m : Machine C) :
    EStateM.Result (RunError C) (Machine C) (Option L) → Prop
  | done (target : Option L) {out : Machine C}
      (kept : ∀ r, writes.contains r = false → out.registers.get r = m.registers.get r) :
      ChangesOnly writes m (.ok target out)
  | refused (e : RunError C) : ChangesOnly writes m (.error e m)

/-- Machines with the same save stack and frames, which agree on some registers. -/
structure AgreeFor (registers : RegisterSet) (m m' : Machine C) : Prop where
  stack : m'.stack = m.stack
  frames : m'.store.frames = m.store.frames
  equal : ∀ r, registers.contains r = true → m'.registers.get r = m.registers.get r

/-- What an operation has made of two machines.  It has left them with the same save stack, the same
frames and the same in the registers that it writes, up to the tags of new objects. -/
structure ChangedAlike (writes : RegisterSet) (m m' out out' : Machine C) : Prop where
  stack : out'.stack = out.stack
  frames : out'.store.frames = out.store.frames
  written : ∀ r, writes.contains r = true → Made .same Eq m.store.nextTag m'.store.nextTag
    (out.registers.get r, out.store.nextTag) (out'.registers.get r, out'.store.nextTag)
  /-- Machines that give the same tags are left with equal values. -/
  equal : m'.store.nextTag = m.store.nextTag → ∀ r, writes.contains r = true →
    out'.registers.get r = out.registers.get r

/-- An operation has done the same in two machines and goes to the same place, or was refused in
both with the same error. -/
inductive ActAlike (writes : RegisterSet) (m m' : Machine C) :
    EStateM.Result (RunError C) (Machine C) (Option L) →
    EStateM.Result (RunError C) (Machine C) (Option L) → Prop
  | done (target : Option L) {out out' : Machine C} (changed : ChangedAlike writes m m' out out') :
      ActAlike writes m m' (.ok target out) (.ok target out')
  | refused (e : RunError C) : ActAlike writes m m' (.error e m) (.error e m')

theorem get_set_unwritten (rs : Registers C) (target : Register) (v : Value C) (r : Register)
    (hr : (RegisterSet.ofList [target]).contains r = false) :
    (rs.set target v).get r = rs.get r := by
  refine Registers.get_set_of_ne rs v ?_
  rintro rfl
  simp at hr

/-- Every register that an operation does not write keeps its value. -/
theorem perform_changesOnly [BEq C] (ref : L → C) (operation : Operation L) (m : Machine C) :
    ChangesOnly operation.writes m (perform ref operation m) := by
  obtain ⟨maxSteps, rs, stack, store, stats⟩ := m
  cases operation with
  | assign target source =>
      -- Next to itself a store shows that an operand without a value leaves it as it is.
      have hvalue := evaluate_alike ref rs (rfl : store.frames = store.frames) source
      simp only [perform]
      generalize evaluate ref rs store source = x at hvalue ⊢
      cases hvalue with
      | value frames made => exact .done none (get_set_unwritten rs target _)
      | refused e => exact .refused e
  | save r => exact .done none fun _ _ => rfl
  | restore r =>
      simp only [perform]
      cases stack.back? with
      | none => exact .refused _
      | some value => exact .done none (get_set_unwritten rs r value)
  | define name =>
      simp only [perform]
      cases rs.frame with
      | error e => exact .refused e
      | ok f => exact .done none fun _ _ => rfl
  | set name =>
      simp only [perform]
      cases rs.frame with
      | error e => exact .refused e
      | ok f =>
          simp only
          cases store.binder? f name with
          | none => exact .refused _
          | some g => exact .done none fun _ _ => rfl
  | testFalse => exact .done none (get_set_unwritten rs .flag _)
  | testPrimitive => exact .done none (get_set_unwritten rs .flag _)
  | branch target => exact .done _ fun _ _ => rfl

namespace ChangedAlike

variable {maxSteps maxSteps' : Option Nat} {rs rs' : Registers C} {stack stack' : Array (Value C)}
  {store store' : Store C} {stats stats' : Stats} {m m' : Machine C}

/-- No register has been written. -/
theorem unwritten (hstack : stack' = stack) (hframes : store'.frames = store.frames) :
    ChangedAlike .none m m' ⟨maxSteps, rs, stack, store, stats⟩
      ⟨maxSteps', rs', stack', store', stats'⟩ := by
  refine ⟨hstack, hframes, fun r hr => ?_, fun _ r hr => ?_⟩
  · simp at hr
  · simp at hr

/-- One register has been written. -/
theorem set (hstack : stack' = stack) (hframes : store'.frames = store.frames) (target : Register)
    {v v' : Value C} (hmade : Made .same Eq m.store.nextTag m'.store.nextTag
      (v, store.nextTag) (v', store'.nextTag)) :
    ChangedAlike (.ofList [target]) m m' ⟨maxSteps, rs.set target v, stack, store, stats⟩
      ⟨maxSteps', rs'.set target v', stack', store', stats'⟩ := by
  refine ⟨hstack, hframes, fun r hr => ?_, fun htag r hr => ?_⟩
  · obtain rfl : r = target := by simpa using hr
    rw [Registers.get_set_self, Registers.get_set_self]
    exact hmade
  · obtain rfl : r = target := by simpa using hr
    rw [Registers.get_set_self, Registers.get_set_self]
    rw [htag] at hmade
    exact (Made.of_eq hmade).1.eq.symm

end ChangedAlike

/-- An operation depends on no registers but those that it reads. -/
theorem perform_alike [BEq C] (ref : L → C) {operation : Operation L} {m m' : Machine C}
    (h : AgreeFor operation.reads m m') :
    ActAlike operation.writes m m' (perform ref operation m) (perform ref operation m') := by
  obtain ⟨maxSteps, rs, stack, store, stats⟩ := m
  obtain ⟨maxSteps', rs', stack', store', stats'⟩ := m'
  obtain ⟨hstack, hframes, hequal⟩ := h
  simp only at hstack hframes hequal
  subst hstack
  cases operation with
  | assign target source =>
      -- With the registers of the first machine in the second too, only the stores differ.
      have hvalue := evaluate_alike ref rs hframes source
      rw [← evaluate_congr ref store' hequal] at hvalue
      simp only [perform]
      generalize evaluate ref rs store source = x at hvalue ⊢
      generalize evaluate ref rs' store' source = y at hvalue ⊢
      cases hvalue with
      | value frames made => exact .done none (.set rfl frames target made)
      | refused e => exact .refused e
  | save r =>
      have hr : rs'.get r = rs.get r := hequal r (by simp [Operation.reads])
      exact .done none (.unwritten (by rw [hr]) hframes)
  | restore r =>
      simp only [perform]
      cases stack'.back? with
      | none => exact .refused _
      | some value => exact .done none (.set rfl hframes r (.old value.like_self))
  | define name =>
      have henv : rs'.frame = rs.frame := Registers.frame_congr (hequal .env rfl)
      have hval : rs'.val = rs.val := hequal .val rfl
      simp only [perform, henv, hval]
      cases rs.frame with
      | error e => exact .refused e
      | ok f => exact .done none (.unwritten rfl (by simp only [Store.define, hframes]))
  | set name =>
      have henv : rs'.frame = rs.frame := Registers.frame_congr (hequal .env rfl)
      have hval : rs'.val = rs.val := hequal .val rfl
      simp only [perform, henv, hval]
      cases rs.frame with
      | error e => exact .refused e
      | ok f =>
          simp only [(Store.like_of_frames hframes).binder?_eq f name]
          cases store'.binder? f name with
          | none => exact .refused _
          | some g => exact .done none (.unwritten rfl (by simp only [Store.define, hframes]))
  | testFalse =>
      have hval : rs'.val = rs.val := hequal .val rfl
      simp only [perform, hval]
      exact .done none (.set rfl hframes .flag (.old (.boolean _)))
  | testPrimitive =>
      have hproc : rs'.proc = rs.proc := hequal .proc rfl
      simp only [perform, hproc]
      exact .done none (.set rfl hframes .flag (.old (.boolean _)))
  | branch target =>
      have hflag : rs'.flag = rs.flag := hequal .flag rfl
      simp only [perform, hflag]
      exact .done _ (.unwritten rfl hframes)

/-! ## Jumps -/

/-- A jump goes to the same place from two machines, or is refused in both with the same error. -/
inductive JumpAlike (m m' : Machine) : Progress → Progress → Prop
  | there (target : CodeRef) : JumpAlike m m' (bounce target m) (bounce target m')
  | refused (e : RunError) : JumpAlike m m' (.finished m (.error e)) (.finished m' (.error e))

theorem leave_indirect_alike (code : Loaded) {r : Register} {m m' : Machine}
    (h : m'.registers.get r = m.registers.get r) :
    JumpAlike m m' (leave code (.jump (.indirect r)) m) (leave code (.jump (.indirect r)) m') := by
  simp only [leave, h]
  cases m.registers.get r with
  | label target => exact .there target
  | _ => exact .refused _

/-! ## Instructions -/

end Machine

theorem Operation.reads_map {M : Type} (f : L → M) (operation : Operation L) :
    (operation.map f).reads = operation.reads := by
  cases operation with
  | assign target source => cases source <;> rfl
  | _ => rfl

theorem Operation.writes_map {M : Type} (f : L → M) (operation : Operation L) :
    (operation.map f).writes = operation.writes := by
  cases operation <;> rfl

namespace Machine

/-- The sets of registers that instructions come with are right.  The operation that is generated
from an instruction changes no registers but those that it writes, and depends on no registers but
those that it reads; if both machines give the same tags, it writes equal values.  Where an indirect
jump goes depends on the register that it reads. -/
theorem declared_effects_hold (code : Loaded) (names : List Label) :
    (∀ (operation : Operation Label) (generated : Operation BlockId),
      operation.resolve (Program.resolve names) = .ok generated →
      (∀ m, ChangesOnly operation.writes m (perform code.ref generated m)) ∧
      ∀ m m', AgreeFor operation.reads m m' →
        ActAlike operation.writes m m' (perform code.ref generated m)
          (perform code.ref generated m')) ∧
    ∀ (r : Register) (generated : Transfer BlockId),
      (Transfer.indirect r).resolve (Program.resolve names) = .ok generated →
      ∀ m m' : Machine, (∀ q, (Transfer.indirect r : Transfer Label).reads.contains q = true →
          m'.registers.get q = m.registers.get q) →
        JumpAlike m m' (leave code (.jump generated) m) (leave code (.jump generated) m') := by
  refine ⟨fun operation generated hgenerated => ?_, fun r generated hgenerated m m' hequal => ?_⟩
  · obtain ⟨-, rfl⟩ := Program.operation_resolve_eq_ok_iff.mp hgenerated
    rw [← operation.writes_map names.idxOf, ← operation.reads_map names.idxOf]
    exact ⟨perform_changesOnly code.ref _, fun m m' h => perform_alike code.ref h⟩
  · cases hgenerated
    exact leave_indirect_alike code (hequal r (by simp [Transfer.reads]))

/-- A procedure is made, and a jump tried, in a new machine and in one that has made seven objects
already. -/
theorem procedure_made_as_declared :
    ∃ m m' : Machine, (m.registers.val = .unspecified ∧ m'.registers.val = .empty) ∧
      (m.store.nextTag = 0 ∧ m'.store.nextTag = 7) ∧
      (∃ out out',
        perform (Loaded.ref ⟨0, ⟨#[], 0⟩⟩) (.assign .val (.makeClosure 1)) m = .ok none out ∧
        perform (Loaded.ref ⟨0, ⟨#[], 0⟩⟩) (.assign .val (.makeClosure 1)) m' = .ok none out' ∧
        ChangedAlike (.ofList [.val]) m m' out out') ∧
      JumpAlike m m' (leave ⟨0, ⟨#[], 0⟩⟩ (.jump (.indirect .kontinue)) m)
        (leave ⟨0, ⟨#[], 0⟩⟩ (.jump (.indirect .kontinue)) m') := by
  have heffects := declared_effects_hold ⟨0, ⟨#[], 0⟩⟩ ["main", "entry"]
  refine ⟨new none,
    ⟨some 3, (new none).registers.set .val .empty, #[], ⟨(new none).store.frames, 7⟩, {}⟩,
    ⟨rfl, rfl⟩, ⟨rfl, rfl⟩, ?_, ?_⟩
  · have halike := (heffects.1 (.assign .val (.makeClosure "entry")) _ rfl).2 (new none)
      ⟨some 3, (new none).registers.set .val .empty, #[], ⟨(new none).store.frames, 7⟩, {}⟩
      ⟨rfl, rfl, by
        intro r hr
        obtain rfl : r = .env := by simpa [Operation.reads, Operand.reads] using hr
        rfl⟩
    cases halike with
    | done target changed => exact ⟨_, _, rfl, rfl, changed⟩
  · refine heffects.2 .kontinue _ rfl _ _ ?_
    intro r hr
    obtain rfl : r = .kontinue := by simpa [Transfer.reads] using hr
    rfl

end Machine
end SchemeMachine
