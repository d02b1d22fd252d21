import SchemeMachine.Proofs.Registers.Discipline

/-!
# What operations depend on and what they make

An operand depends on the registers that it reads and on no other.  From compiled procedures it
makes no others: if all procedures in a store and in the registers that are read were compiled, so
were those in its value.  The environment is left out, since procedures in `env` are never looked at.

Both together say what a plain operation does in two scenes that agree on what it reads: it fails in
both alike, or it writes the same.
-/

namespace SchemeMachine

variable {C D : Type}

/-! ## Compiled procedures -/

mutual

/-- The code of the procedures that a value holds. -/
def Value.closures : Value C → List C
  | .pair _ a d => a.closures ++ d.closures
  | .vector _ items => Value.closuresAll items
  | .closure _ entry _ => [entry]
  | _ => []

/-- The code of the procedures that some values hold. -/
def Value.closuresAll : List (Value C) → List C
  | [] => []
  | value :: rest => value.closures ++ Value.closuresAll rest

end

/-- Code that was compiled from the body of some procedure. -/
def CodeRef.IsCompiled (ref : CodeRef) : Prop :=
  ∃ procedure : Procedure, procedure.CompiledAt ref

/-- All procedures in a value were compiled. -/
def Value.Compiled (v : Value) : Prop :=
  ∀ ref ∈ v.closures, ref.IsCompiled

/-- All procedures in the frames of a store were compiled. -/
def Store.Compiled (s : Store) : Prop :=
  ∀ frame ∈ s.frames, ∀ binding ∈ frame.bindings, binding.2.Compiled

theorem Value.compiled_label (ref : CodeRef) : (Value.label ref).Compiled := by
  simp [Value.Compiled, Value.closures]

theorem Value.compiled_boolean (b : Bool) : (Value.boolean b : Value).Compiled := by
  simp [Value.Compiled, Value.closures]

/-- Code is matched with itself, as far as it is compiled. -/
def sameCode : Matching CodeRef CodeRef :=
  ⟨fun ref ref' => ref = ref' ∧ ref.IsCompiled, Eq, Eq⟩

theorem sameCode_exact : sameCode.Exact := by
  refine ⟨⟨?_, ?_⟩, rfl, fun h => h.1⟩
  · rintro c c' _ _ rfl rfl
    rfl
  · exact ⟨fun _ _ _ h h' => h.trans h'.symm, fun _ _ _ h h' => h.symm.trans h'⟩

theorem isCompiled_of_sameCode (ref ref' : CodeRef) (h : sameCode.code ref ref') :
    ref'.IsCompiled :=
  h.1 ▸ h.2

mutual

/-- A value whose procedures were compiled is like itself. -/
theorem Value.Compiled.like : ∀ v : Value, v.Compiled → v.Like sameCode Eq v
  | .unspecified, _ => .unspecified
  | .empty, _ => .empty
  | .boolean b, _ => .boolean b
  | .number n, _ => .number n
  | .string _ text, _ => .string text rfl
  | .symbol name, _ => .symbol name
  | .pair _ a d, h => by
      unfold Value.Compiled at h
      rw [Value.closures] at h
      exact .pair rfl (Value.Compiled.like a fun ref href => h ref (List.mem_append_left _ href))
        (Value.Compiled.like d fun ref href => h ref (List.mem_append_right _ href))
  | .vector _ items, h => by
      unfold Value.Compiled at h
      rw [Value.closures] at h
      exact .vector rfl (Value.Compiled.likeAll items h)
  | .primitive p, _ => .primitive p
  | .closure _ entry env, h => by
      unfold Value.Compiled at h
      rw [Value.closures] at h
      exact .closure env rfl ⟨rfl, h entry (List.mem_singleton_self entry)⟩
  | .label _, _ => .label rfl
  | .environment _, _ => .environment rfl

theorem Value.Compiled.likeAll :
    ∀ vs : List Value, (∀ ref ∈ Value.closuresAll vs, ref.IsCompiled) →
      List.Forall₂ (Value.Like sameCode Eq) vs vs
  | [], _ => .nil
  | v :: vs, h => by
      rw [Value.closuresAll] at h
      exact .cons (Value.Compiled.like v fun ref href => h ref (List.mem_append_left _ href))
        (Value.Compiled.likeAll vs fun ref href => h ref (List.mem_append_right _ href))

end

section Matched

variable {K : Matching C CodeRef} {W : TagMatch} (hK : ∀ c ref, K.code c ref → ref.IsCompiled)
include hK

/-- What is like another value was compiled, if code is matched with compiled code alone. -/
theorem Value.Like.compiled {v : Value C} {w : Value} (h : v.Like K W w) : w.Compiled := by
  unfold Value.Compiled
  induction h using Value.Like.elementwise with
  | pair s t a d a' d' tag _ _ car cdr =>
      rw [Value.closures]
      exact List.forall_mem_append.mpr ⟨car, cdr⟩
  | vector s t xs ys tag like items =>
      rw [Value.closures]
      clear tag like
      induction items with
      | nil => simp [Value.closuresAll]
      | cons head _ ih =>
          rw [Value.closuresAll]
          exact List.forall_mem_append.mpr ⟨head.2, ih⟩
  | closure s t c d f tag code =>
      rw [Value.closures]
      exact List.forall_mem_singleton.mpr (hK c d code)
  | _ => simp [Value.closures]

theorem Bindings.Like.compiled {bs : Bindings C} {bs' : Bindings} (h : bs.Like K W bs') :
    ∀ binding ∈ bs', binding.2.Compiled := by
  induction h with
  | nil => exact fun _ hbinding => nomatch hbinding
  | cons head _ ih => exact List.forall_mem_cons.mpr ⟨head.2.compiled hK, ih⟩

theorem Store.Like.compiled {s : Store C} {t : Store} (h : s.Like K W t) : t.Compiled := by
  intro frame hframe
  obtain ⟨f, hf⟩ := Array.mem_iff_getElem?.mp hframe
  have hlike := h f
  rw [hf] at hlike
  generalize s.frames[f]? = x at hlike
  cases hlike with
  | some hlike => exact hlike.bindings.compiled hK

end Matched

/-- The store of the machine that stands for one of the evaluator holds compiled procedures. -/
theorem Represents.compiled {W : TagMatch} {w : Store Procedure} {s : Store}
    (h : Represents W w s) : s.Compiled :=
  h.like.compiled fun procedure _ hcode => ⟨procedure, hcode⟩

theorem Store.Compiled.matches {s : Store} (h : s.Compiled) : s.Match sameCode s := by
  refine ⟨fun f => ?_, rfl⟩
  cases hf : s.frames[f]? with
  | none => exact .none
  | some frame =>
      refine .some ⟨List.forall₂_same.mpr ?_, rfl⟩
      intro binding hbinding
      exact ⟨rfl, (h frame (Array.mem_of_getElem? hf) binding hbinding).like⟩

theorem Store.Match.compiled {s t : Store} (h : s.Match sameCode t) : t.Compiled :=
  h.like.compiled isCompiled_of_sameCode

/-! ## Operands -/

namespace Machine

variable {L : Type} [BEq C]

/-- The value of an operand depends on the registers that it reads alone. -/
theorem evaluate_congr (ref : L → C) {rs rs' : Registers C} (s : Store C) {source : Operand L}
    (h : ∀ r, source.reads.contains r = true → rs'.get r = rs.get r) :
    evaluate ref rs' s source = evaluate ref rs s source := by
  cases source with
  | const c => rfl
  | label target => rfl
  | register r => simp only [evaluate, h r (by simp [Operand.reads])]
  | lookup name =>
      have henv : rs'.env = rs.env := h .env rfl
      simp only [evaluate, Registers.frame, henv]
  | makeClosure entry =>
      have henv : rs'.env = rs.env := h .env rfl
      simp only [evaluate, Registers.frame, henv]
  | consArg =>
      have hval : rs'.val = rs.val := h .val rfl
      have hargl : rs'.argl = rs.argl := h .argl rfl
      simp only [evaluate, hval, hargl]
  | listArg =>
      have hval : rs'.val = rs.val := h .val rfl
      simp only [evaluate, hval]
  | closureEnv =>
      have hproc : rs'.proc = rs.proc := h .proc rfl
      simp only [evaluate, Registers.closure, hproc]
  | closureEntry =>
      have hproc : rs'.proc = rs.proc := h .proc rfl
      simp only [evaluate, Registers.closure, hproc]
  | extendEnv formals =>
      have henv : rs'.env = rs.env := h .env rfl
      have hargl : rs'.argl = rs.argl := h .argl rfl
      simp only [evaluate, Registers.frame, henv, hargl]
  | applyPrimitive =>
      have hproc : rs'.proc = rs.proc := h .proc rfl
      have hargl : rs'.argl = rs.argl := h .argl rfl
      simp only [evaluate, hproc, hargl]

/-- An operand that has a value has looked at the environment as a frame, or not at all. -/
theorem frame_of_evaluate {ref : L → C} {rs : Registers C} {s s' : Store C} {v : Value C}
    {source : Operand L} (h : evaluate ref rs s source = .ok v s')
    (hreads : source.reads.contains .env = true) (hregister : source ≠ .register .env) :
    ∃ f, rs.env = .environment f := by
  have hframe : ∀ e, rs.frame ≠ .error e := by
    intro e he
    cases source with
    | register r =>
        cases r with
        | env => exact hregister rfl
        | _ => cases hreads
    | lookup name | makeClosure entry | extendEnv formals =>
        simp only [evaluate, he] at h
        cases h
    | _ => cases hreads
  unfold Registers.frame at hframe
  split at hframe
  · next f hf => exact ⟨f, hf⟩
  · exact absurd rfl (hframe _)

end Machine

/-- The registers with all but some forgotten. -/
def Registers.only (rs : Registers) (registers : RegisterSet) : Registers :=
  let keep r := if registers.contains r then rs.get r else .unspecified
  ⟨keep .env, keep .proc, keep .val, keep .argl, keep .kontinue, keep .flag⟩

theorem Registers.get_only (rs : Registers) (registers : RegisterSet) (r : Register) :
    (rs.only registers).get r = if registers.contains r then rs.get r else .unspecified := by
  cases r <;> rfl

/-- From compiled procedures no others are made. -/
theorem Machine.evaluate_compiled {ref : BlockId → CodeRef} {rs : Registers} {s s' : Store}
    {v : Value} {source : Operand BlockId} (h : evaluate ref rs s source = .ok v s')
    (hclosure : ∀ entry, source = .makeClosure entry → (ref entry).IsCompiled)
    (hregister : source ≠ .register .env)
    (hrs : ∀ r, source.reads.contains r = true → r ≠ .env → (rs.get r).Compiled)
    (hs : s.Compiled) : v.Compiled ∧ s'.Compiled := by
  have hmap : source.map id = source := by cases source <;> rfl
  -- Registers that are not read may hold anything, so they are forgotten.
  have honly : (rs.only source.reads).Like sameCode (rs.only source.reads) := by
    intro r
    rw [Registers.get_only]
    split
    · next hr =>
      by_cases henv : r = .env
      · subst henv
        obtain ⟨f, hf⟩ := frame_of_evaluate h hr hregister
        have hget : rs.get .env = .environment f := hf
        rw [hget]
        exact .environment rfl
      · exact (hrs r hr henv).like
    · exact .unspecified
  by_cases hlabel : ∃ target, source = .label target
  · obtain ⟨target, rfl⟩ := hlabel
    cases h
    exact ⟨Value.compiled_label _, hs⟩
  · have hlinks : sameCode.Links ref ref id source.targets := by
      refine ⟨?_, fun _ _ => rfl⟩
      intro target htarget
      cases source with
      | label other => exact absurd ⟨other, rfl⟩ hlabel
      | makeClosure entry =>
          rw [List.mem_singleton.mp htarget]
          exact ⟨rfl, hclosure entry rfl⟩
      | _ => cases htarget
    have hlike := evaluate_like sameCode_exact hlinks honly hs.matches
    have hcongr : evaluate ref (rs.only source.reads) s source = .ok v s' := by
      rw [← h]
      exact evaluate_congr ref s fun r hr => by rw [Registers.get_only, if_pos hr]
    rw [hmap, hcongr] at hlike
    cases hlike with
    | ok hv hst => exact ⟨hv.compiled isCompiled_of_sameCode, hst.compiled⟩

/-! ## Plain operations -/

/-- A procedure whose code is among the statements ahead is compiled. -/
theorem Label.Enters.isCompiled {site : Site} {entry : Label} {rest : List Statement}
    (h : entry.Enters rest) (hcovers : site.Covers rest) :
    (site.code.ref (site.number entry)).IsCompiled := by
  obtain ⟨procedure, body, rest', n, n', hne, hbody, hsuffix⟩ := h
  exact ⟨procedure, site, entry, body, rest', n, n', rfl, hne, hbody, hsuffix.trans hcovers⟩

/-- Two scenes with the same control and store, in both of which some registers hold the same. -/
structure Scene.Agree (known : RegisterSet) (s s' : Scene) : Prop where
  control : s'.control = s.control
  store : s'.store = s.store
  compiledStore : s.store.Compiled
  equal : ∀ r, known.contains r = true → s'.registers.get r = s.registers.get r
  compiled : ∀ r, known.contains r = true → r ≠ .env → (s.registers.get r).Compiled

/-- An operation has gone wrong in both scenes alike. -/
def Scene.FailAlike (s s' : Scene) : Prop :=
  ∃ e store, s.next = .finished s.stack store (.error e) ∧
    s'.next = .finished s'.stack store (.error e)

/-- Registers before and after the same has been written into some of them on both sides. -/
structure Registers.WrittenAlike (writes : RegisterSet) (rs rs' out out' : Registers) : Prop where
  kept : ∀ r, writes.contains r = false → out.get r = rs.get r ∧ out'.get r = rs'.get r
  written : ∀ r, writes.contains r = true →
    out'.get r = out.get r ∧ (r ≠ .env → (out.get r).Compiled)

theorem Registers.writtenAlike_none (rs rs' : Registers) : WrittenAlike .none rs rs' rs rs' :=
  ⟨fun _ _ => ⟨rfl, rfl⟩, fun r hr => by simp at hr⟩

theorem Registers.writtenAlike_set (rs rs' : Registers) {target : Register} {v : Value}
    (hv : target ≠ .env → v.Compiled) :
    WrittenAlike (.ofList [target]) rs rs' (rs.set target v) (rs'.set target v) := by
  refine ⟨?_, ?_⟩
  · intro r hr
    have hne : r ≠ target := by
      rintro rfl
      simp at hr
    exact ⟨Registers.get_set_of_ne _ _ hne, Registers.get_set_of_ne _ _ hne⟩
  · intro r hr
    obtain rfl : r = target := by simpa using hr
    rw [Registers.get_set_self, Registers.get_set_self]
    exact ⟨rfl, hv⟩

/-- An operation has written the same registers in both scenes, and gone on. -/
structure Scene.WriteAlike (site : Site) (rest : List Statement) (writes : RegisterSet)
    (s s' : Scene) (rs rs' : Registers) (store : Store) : Prop where
  next : s.next = .running { s with registers := rs, store := store, control := site.before rest }
  next' : s'.next =
    .running { s' with registers := rs', store := store, control := site.before rest }
  compiledStore : store.Compiled
  written : Registers.WrittenAlike writes s.registers s'.registers rs rs'

namespace Scene

variable {site : Site} {rest : List Statement} {s s' : Scene}

/-- An assignment of an operand that both scenes agree about. -/
theorem assign_alike {target : Register} {source : Operand Label}
    (hagree : Agree source.reads s s')
    (hc : s.control = site.before (.assign target source :: rest)) (htarget : target ≠ .kontinue)
    (hclosure : ∀ entry, source = .makeClosure entry →
      (site.code.ref (site.number entry)).IsCompiled)
    (hregister : source ≠ .register .env) :
    FailAlike s s' ∨ ∃ rs rs' store, WriteAlike site rest (.ofList [target]) s s' rs rs' store := by
  have hreads : (source.map site.number).reads = source.reads := by cases source <;> rfl
  have hcongr : Machine.evaluate site.code.ref s'.registers s.store (source.map site.number) =
      Machine.evaluate site.code.ref s.registers s.store (source.map site.number) :=
    Machine.evaluate_congr _ _ fun r hr => hagree.equal r (by rw [← hreads]; exact hr)
  have hc' := hagree.control.trans hc
  cases hv : Machine.evaluate site.code.ref s.registers s.store (source.map site.number) with
  | error e store =>
      rw [hv, ← hagree.store] at hcongr
      exact Or.inl ⟨e, store, next_assign_error hc hv, next_assign_error hc' hcongr⟩
  | ok v store =>
      obtain ⟨hcompiled, hstore⟩ := Machine.evaluate_compiled hv
        (by
          intro entry hentry
          cases source with
          | makeClosure name =>
              cases hentry
              exact hclosure name rfl
          | _ => cases hentry)
        (by
          intro hentry
          cases source with
          | register r =>
              cases hentry
              exact hregister rfl
          | _ => cases hentry)
        (fun r hr => hagree.compiled r (by rw [← hreads]; exact hr)) hagree.compiledStore
      rw [hv, ← hagree.store] at hcongr
      exact Or.inr ⟨_, _, store, next_assign hc htarget hv, next_assign hc' htarget hcongr, hstore,
        Registers.writtenAlike_set _ _ fun _ => hcompiled⟩

/-- Nothing can be stored when `env` holds no frame. -/
theorem next_store_error {store : Operation Label} {name : String} {e : RunError}
    (hstore : store = .define name ∨ store = .set name)
    (hc : s.control = site.before (.perform store :: rest))
    (hframe : s.registers.frame = .error e) : s.next = .finished s.stack s.store (.error e) := by
  unfold next
  rw [hc]
  rcases hstore with rfl | rfl
  · simp only [Site.before_perform, Operation.map, Machine.advance, Machine.perform, machine,
      hframe, Progress.stage]
  · simp only [Site.before_perform, Operation.map, Machine.advance, Machine.perform, machine,
      hframe, Progress.stage]

/-- Storing a value that both scenes agree about, in the frame that they agree about. -/
theorem store_alike {store : Operation Label} {name : String}
    (hstore : store = .define name ∨ store = .set name)
    (hagree : Agree (.ofList [.env, .val]) s s')
    (hc : s.control = site.before (.perform store :: rest)) :
    FailAlike s s' ∨ ∃ rs rs' store, WriteAlike site rest .none s s' rs rs' store := by
  have hc' := hagree.control.trans hc
  have henv : s'.registers.env = s.registers.env := hagree.equal .env rfl
  have hval : s'.registers.val = s.registers.val := hagree.equal .val rfl
  have hdefined : ∀ f, (s.store.define f name s.registers.val).Compiled := by
    intro f
    have hv : s.registers.val.Compiled := hagree.compiled .val rfl (by decide)
    exact (hagree.compiledStore.matches.like.define f name hv.like).compiled isCompiled_of_sameCode
  cases hframe : s.registers.frame with
  | error e =>
      have hframe' : s'.registers.frame = .error e := by
        rw [Registers.frame, henv]
        exact hframe
      refine Or.inl ⟨e, s.store, next_store_error hstore hc hframe, ?_⟩
      rw [next_store_error hstore hc' hframe', hagree.store]
  | ok f =>
      obtain ⟨g, hg⟩ : ∃ g, s.registers.env = .environment g := by
        unfold Registers.frame at hframe
        split at hframe
        · next g hg => exact ⟨g, hg⟩
        · cases hframe
      have hg' := henv.trans hg
      rcases hstore with rfl | rfl
      · have hnext' := next_define hc' hg'
        rw [hagree.store, hval] at hnext'
        exact Or.inr ⟨_, _, _, next_define hc hg, hnext', hdefined g,
          Registers.writtenAlike_none _ _⟩
      · cases hbinder : s.store.binder? g name with
        | none =>
            have hnext' := next_set_error hc' hg' (by rw [hagree.store]; exact hbinder)
            rw [hagree.store] at hnext'
            exact Or.inl ⟨_, _, next_set_error hc hg hbinder, hnext'⟩
        | some g' =>
            have hnext' := next_set hc' hg' (by rw [hagree.store]; exact hbinder)
            rw [hagree.store, hval] at hnext'
            exact Or.inr ⟨_, _, _, next_set hc hg hbinder, hnext', hdefined g',
              Registers.writtenAlike_none _ _⟩

/-- A test of what both scenes agree about. -/
theorem test_alike {test : Operation Label} (htest : test = .testFalse ∨ test = .testPrimitive)
    (hagree : Agree test.reads s s') (hc : s.control = site.before (.perform test :: rest)) :
    ∃ rs rs' store, WriteAlike site rest (.ofList [.flag]) s s' rs rs' store := by
  have hc' := hagree.control.trans hc
  -- Both tests raise or lower the flag, by a truth value that is the same in both scenes.
  have hflag : ∀ b, s.next = .running { s with
      registers := s.registers.set .flag (.boolean b), control := site.before rest } →
      s'.next = .running { s' with
        registers := s'.registers.set .flag (.boolean b), control := site.before rest } →
      ∃ rs rs' store, WriteAlike site rest (.ofList [.flag]) s s' rs rs' store := by
    intro b hnext hnext'
    refine ⟨_, _, s.store, hnext, ?_, hagree.compiledStore,
      Registers.writtenAlike_set _ _ fun _ => Value.compiled_boolean b⟩
    rw [hnext', ← hagree.store]
  rcases htest with rfl | rfl
  · have hval : s'.registers.val = s.registers.val := hagree.equal .val rfl
    refine hflag _ (next_testFalse hc) ?_
    rw [next_testFalse hc', hval]
  · have hproc : s'.registers.proc = s.registers.proc := hagree.equal .proc rfl
    by_cases hprimitive : ∃ p, s.registers.proc = .primitive p
    · obtain ⟨p, hp⟩ := hprimitive
      exact hflag true (next_testPrimitive hc hp) (next_testPrimitive hc' (hproc.trans hp))
    · have hother : ∀ p, s.registers.proc ≠ .primitive p := fun p hp => hprimitive ⟨p, hp⟩
      exact hflag false (next_testPrimitive_other hc hother)
        (next_testPrimitive_other hc' (by rw [hproc]; exact hother))

/-- A plain operation fails alike or writes alike in scenes that agree about what it reads. -/
theorem plain_alike {operation : Operation Label} (hplain : operation.Plain rest)
    (hagree : Agree operation.reads s s')
    (hc : s.control = site.before (.perform operation :: rest))
    (hcovers : site.Covers (.perform operation :: rest)) :
    FailAlike s s' ∨ ∃ rs rs' store, WriteAlike site rest operation.writes s s' rs rs' store := by
  cases operation with
  | assign target source =>
      have htarget : target ≠ .kontinue := by
        cases source with
        | makeClosure entry => exact hplain.1
        | register r => exact hplain.1
        | _ => exact hplain
      refine assign_alike hagree hc htarget ?_ ?_
      · rintro entry rfl
        exact hplain.2.isCompiled hcovers.tail
      · rintro rfl
        exact hplain.2 rfl
  | define name => exact store_alike (Or.inl rfl) hagree hc
  | set name => exact store_alike (Or.inr rfl) hagree hc
  | testFalse => exact Or.inr (test_alike (Or.inl rfl) hagree hc)
  | testPrimitive => exact Or.inr (test_alike (Or.inr rfl) hagree hc)
  | save r | restore r | branch target => exact hplain.elim

end Scene
end SchemeMachine
