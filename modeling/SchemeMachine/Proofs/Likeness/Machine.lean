import SchemeMachine.Proofs.Assembly
import SchemeMachine.Proofs.Likeness.Store

/-!
# Alike machines

Two machines that refer to code in different ways are alike when their registers, save stacks and
frames hold alike values and everything else about them is the same, up to the count of bounces.
Here tags are the same on both sides.  An operation, with its targets replaced by matching ones, takes
alike machines to alike machines.
-/

namespace SchemeMachine

variable {C D : Type} {K : Matching C D}

theorem TagMatch.grow_eq_le (s count : Nat) : TagMatch.grow Eq s s count ≤ Eq := by
  rintro x y (h | ⟨i, -, hx, hy⟩)
  · exact h
  · exact hx.trans hy.symm

/-- Values made from the same tag on are alike under the same tags. -/
theorem Made.of_eq {s : Nat} {x : Value C × Tag} {y : Value D × Tag} (h : Made K Eq s s x y) :
    x.1.Like K Eq y.1 ∧ x.2 = y.2 := by
  obtain ⟨count, hx, hy, hlike⟩ := h
  exact ⟨hlike.mono (TagMatch.grow_eq_le s count), hx.trans hy.symm⟩

/-- Alike frames and the same tags still to be given. -/
structure Store.Match (K : Matching C D) (s : Store C) (t : Store D) : Prop where
  like : s.Like K Eq t
  nextTag : s.nextTag = t.nextTag

/-- Both stores make alike values when they build alike. -/
theorem Store.Match.make {s : Store C} {t : Store D} (h : s.Match K t)
    {build : Tag → Value C × Tag} {build' : Tag → Value D × Tag}
    (hbuild : ∀ tag, Made K Eq tag tag (build tag) (build' tag)) :
    (s.make build).1.Like K Eq (t.make build').1 ∧ (s.make build).2.Match K (t.make build').2 := by
  obtain ⟨hlike, htag⟩ := Made.of_eq (hbuild s.nextTag)
  simp only [Store.make, ← h.nextTag]
  exact ⟨hlike, h.like.withTags _ _, htag⟩

/-- Results of operations on both sides: errors, machines and answers are alike. -/
inductive Performed {S T α β : Type} (E : RunError C → RunError D → Prop) (M : S → T → Prop)
    (R : α → β → Prop) :
    EStateM.Result (RunError C) S α → EStateM.Result (RunError D) T β → Prop
  | error {e : RunError C} {e' : RunError D} {m : S} {m' : T} (he : E e e') (hm : M m m') :
      Performed E M R (.error e m) (.error e' m')
  | ok {a : α} {b : β} {m : S} {m' : T} (ha : R a b) (hm : M m m') :
      Performed E M R (.ok a m) (.ok b m')

/-- A new frame for alike arguments is alike and has the same number. -/
theorem Store.Match.extend {s : Store C} {t : Store D} (h : s.Match K t) (parent : FrameId)
    (formals : List String) {v : Value C} {w : Value D} (hv : v.Like K Eq w) :
    Performed (RunError.Like K Eq) (Store.Match K) Eq
      (s.extend parent formals v) (t.extend parent formals w) := by
  have hitems := hv.items?
  unfold Store.extend
  generalize v.items? = x at hitems ⊢
  generalize w.items? = y at hitems ⊢
  cases hitems with
  | none => exact .error (.typeMismatch _ _ hv) h
  | @some values values' hvalues =>
      simp only [← hvalues.length_eq]
      by_cases hlength : values.length = formals.length
      · simp only [hlength, if_true]
        obtain ⟨hnumber, hlike⟩ :=
          h.like.push (⟨.ofPairs formals hvalues, rfl⟩ : Frame.Like K Eq
            ⟨.ofPairs (formals.zip values), some parent⟩
            ⟨.ofPairs (formals.zip values'), some parent⟩)
        exact .ok hnumber ⟨hlike, h.nextTag⟩
      · simp only [hlength, if_false]
        exact .error (.arityMismatch _ _) h

/-- Alike contents of every register. -/
def Registers.Like (K : Matching C D) (rs : Registers C) (rs' : Registers D) : Prop :=
  ∀ r, (rs.get r).Like K Eq (rs'.get r)

theorem Registers.Like.set {rs : Registers C} {rs' : Registers D} (h : rs.Like K rs')
    (r : Register) {v : Value C} {w : Value D} (hv : v.Like K Eq w) :
    (rs.set r v).Like K (rs'.set r w) := by
  intro q
  by_cases hq : q = r
  · subst hq
    simpa using hv
  · simpa [hq] using h q

/-- The frame in `env` is the same on both sides, or the same thing is wrong with it. -/
theorem Registers.Like.frame (hK : K.frame = Eq) {rs : Registers C} {rs' : Registers D}
    (h : rs.Like K rs') : ResultLike (RunError.Like K Eq) Eq rs.frame rs'.frame := by
  have henv : rs.env.Like K Eq rs'.env := h .env
  unfold Registers.frame
  generalize rs.env = v at henv ⊢
  generalize rs'.env = w at henv ⊢
  cases henv with
  | environment hframe =>
      rw [hK] at hframe
      exact .ok hframe
  | _ => exact .error (.typeMismatch _ _ (by constructor <;> assumption))

theorem Registers.Like.closure {rs : Registers C} {rs' : Registers D} (h : rs.Like K rs') :
    ResultLike (RunError.Like K Eq) (fun x y => K.code x.1 y.1 ∧ x.2 = y.2)
      rs.closure rs'.closure := by
  have hproc : rs.proc.Like K Eq rs'.proc := h .proc
  unfold Registers.closure
  generalize rs.proc = v at hproc ⊢
  generalize rs'.proc = w at hproc ⊢
  cases hproc with
  | closure f _ hcode => exact .ok ⟨hcode, rfl⟩
  | _ => exact .error (.notAProcedure (by constructor <;> assumption))

/-- Rows of alike elements end alike. -/
theorem forall₂_last {α β : Type} {R : α → β → Prop} {xs : List α} {ys : List β}
    (h : List.Forall₂ R xs ys) :
    Option.Rel R xs.getLast? ys.getLast? ∧ List.Forall₂ R xs.dropLast ys.dropLast := by
  induction h with
  | nil => exact ⟨.none, .nil⟩
  | cons head tail ih =>
      cases tail with
      | nil => exact ⟨.some head, .nil⟩
      | cons _ _ =>
          simp only [List.getLast?_cons_cons, List.dropLast_cons_cons]
          exact ⟨ih.1, .cons head ih.2⟩

/-- Machines that hold alike values and have counted the same steps. -/
structure Machine.Like (K : Matching C D) (m : Machine C) (m' : Machine D) : Prop where
  maxSteps : m.maxSteps = m'.maxSteps
  registers : m.registers.Like K m'.registers
  stack : List.Forall₂ (Value.Like K Eq) m.stack.toList m'.stack.toList
  store : m.store.Match K m'.store
  steps : m.stats.steps = m'.stats.steps
  maxStackDepth : m.stats.maxStackDepth = m'.stats.maxStackDepth

/-- What a matching must be for machines to run alike under it. -/
structure Matching.Exact [BEq C] [BEq D] (K : Matching C D) : Prop where
  faithful : K.Faithful
  frame_eq : K.frame = Eq
  place_of_code : ∀ {c : C} {d : D}, K.code c d → K.place c d

/-- References made from matching targets match. -/
structure Matching.Links {L M : Type} (K : Matching C D) (ref : L → C) (ref' : M → D) (g : L → M)
    (targets : List L) : Prop where
  code : ∀ l ∈ targets, K.code (ref l) (ref' (g l))
  place : ∀ l ∈ targets, K.place (ref l) (ref' (g l))

namespace Machine

variable {L M : Type} {ref : L → C} {ref' : M → D} {g : L → M} [BEq C] [BEq D]

/-- Arguments bind formals alike in a new frame. -/
theorem extendEnv_like (hK : K.Exact) (formals : List String) {rs : Registers C}
    {rs' : Registers D} (hrs : rs.Like K rs') {s : Store C} {t : Store D} (hs : s.Match K t) :
    Performed (RunError.Like K Eq) (Store.Match K) (Value.Like K Eq)
      (evaluate ref rs s (.extendEnv formals)) (evaluate ref' rs' t (.extendEnv formals)) := by
  have hf := hrs.frame hK.frame_eq
  simp only [evaluate]
  generalize rs.frame = x at hf ⊢
  generalize rs'.frame = y at hf ⊢
  cases hf with
  | error he => exact .error he hs
  | @ok f _ hf =>
      subst hf
      have hextend := hs.extend f formals (hrs .argl)
      change Performed _ _ _ (s.extend f formals rs.argl) (t.extend f formals rs'.argl) at hextend
      simp only
      generalize s.extend f formals rs.argl = x at hextend ⊢
      generalize t.extend f formals rs'.argl = y at hextend ⊢
      cases hextend with
      | error he hst => exact .error he hst
      | ok hnumber hst =>
          refine .ok (.environment ?_) hst
          rw [hK.frame_eq]
          exact hnumber

/-- Primitives give alike results on alike argument lists. -/
theorem applyPrimitive_like (hK : K.Exact) {rs : Registers C} {rs' : Registers D}
    (hrs : rs.Like K rs') {s : Store C} {t : Store D} (hs : s.Match K t) :
    Performed (RunError.Like K Eq) (Store.Match K) (Value.Like K Eq)
      (evaluate ref rs s .applyPrimitive) (evaluate ref' rs' t .applyPrimitive) := by
  have hproc : rs.proc.Like K Eq rs'.proc := hrs .proc
  have hargl : rs.argl.Like K Eq rs'.argl := hrs .argl
  have hitems := hargl.items?
  simp only [evaluate]
  generalize rs.proc = v at hproc ⊢
  generalize rs'.proc = w at hproc ⊢
  cases hproc with
  | primitive p =>
      simp only
      generalize rs.argl.items? = x at hitems ⊢
      generalize rs'.argl.items? = y at hitems ⊢
      cases hitems with
      | none => exact .error (.typeMismatch _ _ hargl) hs
      | @some args args' hargs =>
          have happly := p.apply_like hK.faithful ⟨fun _ _ _ h h' => h.trans h'.symm,
            fun _ _ _ h h' => h.symm.trans h'⟩ hargs s.nextTag s.nextTag
          simp only [← hs.nextTag]
          generalize p.apply args s.nextTag = x at happly ⊢
          generalize p.apply args' s.nextTag = y at happly ⊢
          cases happly with
          | error he => exact .error he hs
          | ok hmade =>
              obtain ⟨hv, htag⟩ := hmade.of_eq
              exact .ok hv ⟨hs.like.withTags _ _, htag⟩
  | _ => exact .error (.notAProcedure (by constructor <;> assumption)) hs

/-- An operand has alike values on alike registers and stores. -/
theorem evaluate_like (hK : K.Exact) {source : Operand L}
    (hlink : K.Links ref ref' g source.targets) {rs : Registers C} {rs' : Registers D}
    (hrs : rs.Like K rs') {s : Store C} {t : Store D} (hs : s.Match K t) :
    Performed (RunError.Like K Eq) (Store.Match K) (Value.Like K Eq)
      (evaluate ref rs s source) (evaluate ref' rs' t (source.map g)) := by
  cases source with
  | const c =>
      obtain ⟨hv, hst⟩ := hs.make fun tag => Made.ofConstant K Eq tag tag c
      exact .ok hv hst
  | register r => exact .ok (hrs r) hs
  | label target => exact .ok (.label (hlink.place target (by simp [Operand.targets]))) hs
  | lookup name =>
      have hf := hrs.frame hK.frame_eq
      simp only [evaluate, Operand.map]
      generalize rs.frame = x at hf ⊢
      generalize rs'.frame = y at hf ⊢
      cases hf with
      | error he => exact .error he hs
      | @ok f _ hf =>
          subst hf
          have hv := hs.like.lookup f name
          simp only
          generalize s.lookup f name = x at hv ⊢
          generalize t.lookup f name = y at hv ⊢
          cases hv with
          | error he => exact .error he hs
          | ok hv => exact .ok hv hs
  | consArg =>
      obtain ⟨hv, hst⟩ := hs.make fun tag => (⟨1, rfl, rfl, .pair (TagMatch.grow_last Eq tag tag 0)
        ((hrs .val).mono (TagMatch.le_grow Eq tag tag 1))
        ((hrs .argl).mono (TagMatch.le_grow Eq tag tag 1))⟩ :
          Made K Eq tag tag (.pair tag rs.val rs.argl, tag + 1) (.pair tag rs'.val rs'.argl, tag + 1))
      exact .ok hv hst
  | listArg =>
      obtain ⟨hv, hst⟩ := hs.make fun tag => (⟨1, rfl, rfl, .pair (TagMatch.grow_last Eq tag tag 0)
        ((hrs .val).mono (TagMatch.le_grow Eq tag tag 1)) .empty⟩ :
          Made K Eq tag tag (.pair tag rs.val .empty, tag + 1) (.pair tag rs'.val .empty, tag + 1))
      exact .ok hv hst
  | makeClosure entry =>
      have hf := hrs.frame hK.frame_eq
      simp only [evaluate, Operand.map]
      generalize rs.frame = x at hf ⊢
      generalize rs'.frame = y at hf ⊢
      cases hf with
      | error he => exact .error he hs
      | @ok f _ hf =>
          subst hf
          obtain ⟨hv, hst⟩ := hs.make fun tag => (⟨1, rfl, rfl, .closure f
            (TagMatch.grow_last Eq tag tag 0) (hlink.code entry (by simp [Operand.targets]))⟩ :
              Made K Eq tag tag (.closure tag (ref entry) f, tag + 1)
                (.closure tag (ref' (g entry)) f, tag + 1))
          exact .ok hv hst
  | closureEnv =>
      have hc := hrs.closure
      simp only [evaluate, Operand.map]
      generalize rs.closure = x at hc ⊢
      generalize rs'.closure = y at hc ⊢
      cases hc with
      | error he => exact .error he hs
      | ok hc =>
          refine .ok (.environment ?_) hs
          rw [hK.frame_eq]
          exact hc.2
  | closureEntry =>
      have hc := hrs.closure
      simp only [evaluate, Operand.map]
      generalize rs.closure = x at hc ⊢
      generalize rs'.closure = y at hc ⊢
      cases hc with
      | error he => exact .error he hs
      | ok hc => exact .ok (.label (hK.place_of_code hc.1)) hs
  | extendEnv formals => exact extendEnv_like hK formals hrs hs
  | applyPrimitive => exact applyPrimitive_like hK hrs hs

/-- An operation takes alike machines to alike machines, and goes to matching targets. -/
theorem perform_like (hK : K.Exact) {operation : Operation L}
    (hlink : K.Links ref ref' g operation.targets) {m : Machine C} {m' : Machine D}
    (hm : m.Like K m') :
    Performed (RunError.Like K Eq) (Machine.Like K)
      (fun target target' => target' = target.map g ∧ ∀ l ∈ target, l ∈ operation.targets)
      (perform ref operation m) (perform ref' (operation.map g) m') := by
  obtain ⟨maxSteps, rs, stack, s, stats⟩ := m
  obtain ⟨maxSteps', rs', stack', t, stats'⟩ := m'
  obtain ⟨hmax, hrs, hstack, hs, hsteps, hdepth⟩ := hm
  simp only at hmax hrs hstack hs hsteps hdepth
  cases operation with
  | assign target source =>
      have hv := evaluate_like hK hlink hrs hs
      simp only [perform, Operation.map]
      generalize evaluate ref rs s source = x at hv ⊢
      generalize evaluate ref' rs' t (source.map g) = y at hv ⊢
      cases hv with
      | error he hst => exact .error he ⟨hmax, hrs, hstack, hst, hsteps, hdepth⟩
      | ok hv hst =>
          exact .ok ⟨rfl, by simp⟩ ⟨hmax, hrs.set target hv, hstack, hst, hsteps, hdepth⟩
  | save r =>
      have hstack' : List.Forall₂ (Value.Like K Eq) (stack.push (rs.get r)).toList
          (stack'.push (rs'.get r)).toList := by
        simpa only [Array.toList_push] using List.rel_append hstack (.cons (hrs r) .nil)
      have hsize : (stack.push (rs.get r)).size = (stack'.push (rs'.get r)).size := by
        simpa using hstack'.length_eq
      refine .ok ⟨rfl, by simp⟩ ⟨hmax, hrs, hstack', hs, hsteps, ?_⟩
      simp only [hsize, hdepth]
  | restore r =>
      obtain ⟨hlast, hinit⟩ := forall₂_last hstack
      rw [Array.getLast?_toList, Array.getLast?_toList] at hlast
      rw [← Array.toList_pop, ← Array.toList_pop] at hinit
      simp only [perform, Operation.map]
      generalize stack.back? = x at hlast ⊢
      generalize stack'.back? = y at hlast ⊢
      cases hlast with
      | none => exact .error (.stackUnderflow r) ⟨hmax, hrs, hstack, hs, hsteps, hdepth⟩
      | some hv => exact .ok ⟨rfl, by simp⟩ ⟨hmax, hrs.set r hv, hinit, hs, hsteps, hdepth⟩
  | define name =>
      have hf := hrs.frame hK.frame_eq
      simp only [perform, Operation.map]
      generalize rs.frame = x at hf ⊢
      generalize rs'.frame = y at hf ⊢
      cases hf with
      | error he => exact .error he ⟨hmax, hrs, hstack, hs, hsteps, hdepth⟩
      | @ok f _ hf =>
          subst hf
          exact .ok ⟨rfl, by simp⟩ ⟨hmax, hrs, hstack,
            ⟨hs.like.define f name (hrs .val), hs.nextTag⟩, hsteps, hdepth⟩
  | set name =>
      have hf := hrs.frame hK.frame_eq
      simp only [perform, Operation.map]
      generalize rs.frame = x at hf ⊢
      generalize rs'.frame = y at hf ⊢
      cases hf with
      | error he => exact .error he ⟨hmax, hrs, hstack, hs, hsteps, hdepth⟩
      | @ok f _ hf =>
          subst hf
          simp only [hs.like.binder?_eq f name]
          cases t.binder? f name with
          | none => exact .error (.unboundVariable name) ⟨hmax, hrs, hstack, hs, hsteps, hdepth⟩
          | some f' =>
              exact .ok ⟨rfl, by simp⟩ ⟨hmax, hrs, hstack,
                ⟨hs.like.define f' name (hrs .val), hs.nextTag⟩, hsteps, hdepth⟩
  | testFalse =>
      have htrue : rs.val.isTrue = rs'.val.isTrue := (hrs .val).isTrue_eq
      simp only [perform, Operation.map, htrue]
      exact .ok ⟨rfl, by simp⟩
        ⟨hmax, hrs.set .flag (.boolean _), hstack, hs, hsteps, hdepth⟩
  | testPrimitive =>
      have hproc : rs.proc.Like K Eq rs'.proc := hrs .proc
      refine .ok ⟨rfl, by simp⟩ ⟨hmax, hrs.set .flag ?_, hstack, hs, hsteps, hdepth⟩
      generalize rs.proc = v at hproc ⊢
      generalize rs'.proc = w at hproc ⊢
      cases hproc <;> exact .boolean _
  | branch target =>
      have htrue : rs.flag.isTrue = rs'.flag.isTrue := (hrs .flag).isTrue_eq
      simp only [perform, Operation.map, htrue]
      refine .ok ⟨?_, ?_⟩ ⟨hmax, hrs, hstack, hs, hsteps, hdepth⟩
      · cases rs'.flag.isTrue <;> rfl
      · cases rs'.flag.isTrue <;> simp [Operation.targets]

end Machine
end SchemeMachine
