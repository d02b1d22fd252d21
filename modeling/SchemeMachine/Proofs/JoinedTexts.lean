import SchemeMachine.Proofs.Internals
import SchemeMachine.Proofs.Reading.Joined
import SchemeMachine.Proofs.Rewording

/-!
# Joined texts

Two texts can be evaluated one after the other, or joined by a line end and evaluated at once.  The
joined text reads as the forms of both, it makes a program if they do, and evaluating it prints what
evaluating the texts in turn prints.  The machine runs other code then, at other places and with
other labels.  The evaluator connects the two: it evaluates the forms of both texts in a row,
whatever their marks are, and each of the runs follows it.
-/

namespace SchemeMachine

/-! ## What is printed -/

section Printed

variable {x x' : Value Procedure} {v v' : Value} {W W' : TagMatch}

theorem itemTexts_eq {xs xs' : List (Value Procedure)} {vs vs' : List Value}
    (h : List.Forall₂ (fun x x' => ∀ v v' : Value, x.Like compiled W v → x'.Like compiled W' v' →
      ∀ standing, v.textAs standing = v'.textAs standing) xs xs')
    (hvs : List.Forall₂ (Value.Like compiled W) xs vs)
    (hvs' : List.Forall₂ (Value.Like compiled W') xs' vs') :
    Value.itemTexts vs = Value.itemTexts vs' := by
  induction h generalizing vs vs' with
  | nil =>
      cases hvs
      cases hvs'
      rfl
  | cons head _ ih =>
      cases hvs with
      | cons hv hvs =>
          cases hvs' with
          | cons hv' hvs' =>
              rw [Value.itemTexts, Value.itemTexts, head _ _ hv hv' .alone, ih hvs hvs']

/-- Values that stand for alike values of the evaluator are printed alike. -/
theorem Value.textAs_eq (h : x.Like worded Eq x') (hv : x.Like compiled W v)
    (hv' : x'.Like compiled W' v') (standing : Standing) :
    v.textAs standing = v'.textAs standing := by
  induction h using Value.Like.elementwise generalizing v v' standing with
  | pair s t a d a' d' tag car cdr ihcar ihcdr =>
      cases hv with
      | pair _ hcar hcdr =>
          cases hv' with
          | pair _ hcar' hcdr' =>
              simp only [textAs, ihcar hcar hcar' .alone, ihcdr hcdr hcdr' .tail]
  | vector s t xs ys tag items ih =>
      cases hv with
      | vector _ hitems =>
          cases hv' with
          | vector _ hitems' =>
              have htexts := itemTexts_eq (ih.imp fun _ _ h _ _ => by
                obtain ⟨_, h⟩ := h
                exact h) hitems hitems'
              simp only [textAs, htexts]
  | label c d place =>
      -- No value of the evaluator stands for a place in code.
      cases hv with
      | label nowhere => exact nowhere.elim
  | _ =>
      cases hv
      cases hv'
      rfl

theorem Value.text_eq (h : x.Like worded Eq x') (hv : x.Like compiled W v)
    (hv' : x'.Like compiled W' v') : v.text = v'.text :=
  textAs_eq h hv hv' .alone

theorem Value.typeName_eq (h : x.Like worded Eq x') (hv : x.Like compiled W v)
    (hv' : x'.Like compiled W' v') : v.typeName = v'.typeName := by
  cases h <;> cases hv <;> cases hv' <;> rfl

end Printed

/-- The same error, as far as it can be told: values are told by their texts, or by their kinds. -/
inductive RunError.Same : RunError → RunError → Prop
  | unboundVariable (name : String) : Same (.unboundVariable name) (.unboundVariable name)
  | arityMismatch (expected : Arity) (got : Nat) :
      Same (.arityMismatch expected got) (.arityMismatch expected got)
  | typeMismatch (procedure expected : String) {v v' : Value} (got : v.typeName = v'.typeName) :
      Same (.typeMismatch procedure expected v) (.typeMismatch procedure expected v')
  | notAProcedure {v v' : Value} (value : v.text = v'.text) :
      Same (.notAProcedure v) (.notAProcedure v')
  | divisionByZero : Same .divisionByZero .divisionByZero
  | notALabel {v v' : Value} (value : v.text = v'.text) : Same (.notALabel v) (.notALabel v')
  | missingBlock (id : BlockId) : Same (.missingBlock id) (.missingBlock id)
  | stackUnderflow (r : Register) : Same (.stackUnderflow r) (.stackUnderflow r)
  | stepLimitExceeded (limit : Nat) : Same (.stepLimitExceeded limit) (.stepLimitExceeded limit)

/-- The same error is worded the same. -/
theorem RunError.Same.message_eq {e e' : RunError} (h : e.Same e') : e.message = e'.message := by
  cases h with
  | typeMismatch procedure expected got =>
      exact congrArg
        (fun kind => s!"type error in {procedure}: expected {expected}, got {kind}") got
  | notAProcedure value => exact congrArg (fun text => s!"not a procedure: {text}") value
  | notALabel value => exact congrArg (fun text => s!"invalid jump target: {text}") value
  | _ => rfl

theorem RunError.same_of_like {e e' : RunError Procedure} (h : e.Like worded Eq e')
    {W W' : TagMatch} {e₁ e₂ : RunError} (he : e.Like compiled W e₁)
    (he' : e'.Like compiled W' e₂) : e₁.Same e₂ := by
  cases h with
  | typeMismatch procedure expected got =>
      cases he with
      | typeMismatch _ _ hv =>
          cases he' with
          | typeMismatch _ _ hv' =>
              exact .typeMismatch procedure expected (Value.typeName_eq got hv hv')
  | notAProcedure value =>
      cases he with
      | notAProcedure hv =>
          cases he' with
          | notAProcedure hv' => exact .notAProcedure (Value.text_eq value hv hv')
  | notALabel value =>
      cases he with
      | notALabel hv =>
          cases he' with
          | notALabel hv' => exact .notALabel (Value.text_eq value hv hv')
  | _ =>
      cases he
      cases he'
      constructor

/-- The same error of an evaluation. -/
inductive EvalError.Same : EvalError → EvalError → Prop
  | build (e : BuildError) : Same (.build e) (.build e)
  | run {e e' : RunError} (error : e.Same e') : Same (.run e) (.run e')

/-- The names that the global frame binds, with the texts of their values. -/
def Machine.globals (m : Machine) : List (String × String) :=
  (m.store.bindingsOf global).map fun binding => (binding.1, binding.2.text)

theorem Bindings.texts_eq {bs bs' : Bindings Procedure} (h : bs.Like worded Eq bs')
    {W W' : TagMatch} {cs cs' : Bindings} (hcs : bs.Like compiled W cs)
    (hcs' : bs'.Like compiled W' cs') :
    cs.map (fun binding => (binding.1, binding.2.text)) =
      cs'.map fun binding => (binding.1, binding.2.text) := by
  unfold Bindings.Like at h hcs hcs'
  induction h generalizing cs cs' with
  | nil =>
      cases hcs
      cases hcs'
      rfl
  | cons head _ ih =>
      cases hcs with
      | cons hc hcs =>
          cases hcs' with
          | cons hc' hcs' =>
              rw [List.map_cons, List.map_cons, ih hcs hcs', ← hc.1, ← hc'.1, head.1,
                Value.text_eq head.2 hc.2 hc'.2]

/-- A run has ended where the evaluator has. -/
def Machine.EndsAs (outcome : Except RunError Value) (m : Machine)
    (result : Except (RunError Procedure) (Value Procedure)) (w : Store Procedure) : Prop :=
  ∃ W, Represents W w m.store ∧
    ResultLike (RunError.Like compiled W) (Value.Like compiled W) result outcome

/-- Runs that end where the evaluator ends alike print the same, and so do their global frames. -/
theorem Machine.EndsAs.same {outcome outcome' : Except RunError Value} {m m' : Machine}
    {result result' : Except (RunError Procedure) (Value Procedure)} {w w' : Store Procedure}
    (h : EndsAs outcome m result w) (h' : EndsAs outcome' m' result' w')
    (hresult : ResultLike (RunError.Like worded Eq) (Value.Like worded Eq) result result')
    (hw : w.Match worded w') :
    ResultLike RunError.Same (fun v v' => v.text = v'.text) outcome outcome' ∧
      m.globals = m'.globals := by
  obtain ⟨W, hrep, hlike⟩ := h
  obtain ⟨W', hrep', hlike'⟩ := h'
  constructor
  · cases hresult with
    | error he =>
        cases hlike with
        | error he₁ =>
            cases hlike' with
            | error he₂ => exact .error (RunError.same_of_like he he₁ he₂)
    | ok hv =>
        cases hlike with
        | ok hv₁ =>
            cases hlike' with
            | ok hv₂ => exact .ok (Value.text_eq hv hv₁ hv₂)
  · exact Bindings.texts_eq (hw.like.bindingsOf global) (hrep.like.bindingsOf global)
      (hrep'.like.bindingsOf global)

/-! ## Programs of texts -/

/-- The text reads as the forms, and the program is theirs. -/
structure Program.MadeFrom (source : String) (forms : List Datum) (p : Program) : Prop where
  parsed : Datum.parse source = .ok forms
  compiled : ∃ code n, Expression.compileProgram forms 0 = .ok code n ∧
    Program.assemble code.statements = .ok p

namespace Program.MadeFrom

variable {a b source source' : String} {forms fa fb : List Datum} {p p' pa pb : Program}

theorem of_compileText {code : Sequence} (h : Expression.compileText source = .ok code) :
    ∃ forms p, MadeFrom source forms p := by
  obtain ⟨forms, n, hparse, hcode⟩ := Expression.compileText_eq_ok h
  obtain ⟨p, hassemble⟩ := Expression.compileProgram_assembles hcode
  exact ⟨forms, p, hparse, code, n, hcode, hassemble⟩

/-- The forms settle the program. -/
theorem unique (h : MadeFrom source forms p) (h' : MadeFrom source' forms p') : p = p' := by
  obtain ⟨code, n, hcode, hassemble⟩ := h.compiled
  obtain ⟨code', n', hcode', hassemble'⟩ := h'.compiled
  rw [hcode] at hcode'
  cases hcode'
  rw [hassemble] at hassemble'
  cases hassemble'
  rfl

theorem ofText_eq (h : MadeFrom source forms p) : Program.ofText source = .ok p := by
  obtain ⟨code, n, hcode, hassemble⟩ := h.compiled
  have hcompile : Expression.compileText source = .ok code := by
    unfold Expression.compileText
    rw [h.parsed]
    dsimp only
    rw [hcode]
  unfold Program.ofText
  rw [hcompile]
  dsimp only
  rw [hassemble]

/-- Joined by a line end, texts that make programs make one again.  The forms of the second are
alike but carry other marks. -/
theorem join (ha : MadeFrom a fa pa) (hb : MadeFrom b fb pb) :
    ∃ fb' p, List.Forall₂ Datum.Alike fb fb' ∧ MadeFrom (a ++ "\n" ++ b) (fa ++ fb') p := by
  obtain ⟨s, hparse⟩ := Datum.parse_join ha.parsed hb.parsed
  have halike : ∀ d : Datum, d.Alike (s.datum d) :=
    fun d => Datum.alike_of_unmarked_eq (s.unmarked_datum d).symm
  obtain ⟨sa, na, hsa, -⟩ := ha.compiled
  obtain ⟨sb, nb, hsb, -⟩ := hb.compiled
  -- Whether a form is whole does not depend on its marks.
  have hwhole : ∀ d ∈ fa ++ fb.map s.datum, (Expression.ofDatum d).isWhole = true := by
    intro d hd
    rcases List.mem_append.mp hd with hd | hd
    · exact (Expression.compileProgram_succeedsIff fa 0).mp ⟨sa, na, hsa⟩ d hd
    · obtain ⟨e, he, rfl⟩ := List.mem_map.mp hd
      rw [← Expression.ofDatum_isWhole (halike e)]
      exact (Expression.compileProgram_succeedsIff fb 0).mp ⟨sb, nb, hsb⟩ e he
  obtain ⟨code, n, hcode⟩ := (Expression.compileProgram_succeedsIff _ 0).mpr hwhole
  obtain ⟨p, hassemble⟩ := Expression.compileProgram_assembles hcode
  refine ⟨fb.map s.datum, p, ?_, hparse, code, n, hcode, hassemble⟩
  rw [List.forall₂_map_right_iff, List.forall₂_same]
  exact fun d _ => halike d

variable {m : Machine} {fuel : Nat}

/-- Evaluating a text is running its program. -/
theorem eval_eq (h : MadeFrom source forms p) :
    m.eval fuel source = (m.execute fuel p).map (Prod.map (Except.mapError .run) id) := by
  unfold Machine.eval
  rw [h.ofText_eq]
  dsimp only
  cases m.execute fuel p with
  | none => rfl
  | some x =>
      obtain ⟨e | v, m'⟩ := x <;> rfl

theorem eval_of_execute (h : MadeFrom source forms p) {outcome : Except RunError Value}
    {m' : Machine} (hexecute : m.execute fuel p = some (outcome, m')) :
    m.eval fuel source = some (outcome.mapError .run, m') := by
  rw [h.eval_eq, hexecute]
  rfl

theorem execute_of_eval (h : MadeFrom source forms p) {result : Except EvalError Value}
    {m' : Machine} (heval : m.eval fuel source = some (result, m')) :
    ∃ outcome, m.execute fuel p = some (outcome, m') ∧ result = outcome.mapError .run := by
  rw [h.eval_eq, Option.map_eq_some_iff] at heval
  obtain ⟨⟨outcome, last⟩, hexecute, heq⟩ := heval
  cases heq
  exact ⟨outcome, hexecute, rfl⟩

theorem eval_eq_none (h : MadeFrom source forms p) :
    m.eval fuel source = none ↔ m.execute fuel p = none := by
  rw [h.eval_eq, Option.map_eq_none_iff]

theorem execute_nil (h : MadeFrom source [] p) (hlimit : m.maxSteps = none) (fuel : Nat) :
    m.execute (fuel + 1) p = some (.ok m.registers.val, m.loaded.tick) :=
  Machine.execute_empty_unlimited (Machine.assemble_nil_of_ofText h.parsed h.ofText_eq) hlimit fuel

/-- Without forms and without a limit, a run can only end with what `val` holds. -/
theorem eq_of_execute_nil (h : MadeFrom source [] p) (hlimit : m.maxSteps = none)
    {outcome : Except RunError Value} {m' : Machine}
    (hexecute : m.execute fuel p = some (outcome, m')) :
    outcome = .ok m.registers.val ∧ m' = m.loaded.tick := by
  have hmore := Machine.execute_of_le (Nat.le_succ fuel) hexecute
  rw [h.execute_nil hlimit fuel] at hmore
  cases hmore
  exact ⟨rfl, rfl⟩

end Program.MadeFrom

/-! ## Running joined texts -/

namespace Machine

variable {m m₁ m₂ : Machine} {a b whole : String} {fa fb fb' later : List Datum}
variable {pa pb p : Program} {fuel : Nat} {v : Value}

/-- A run without a limit is not stopped by one. -/
theorem not_stopped (hlimit : m.maxSteps = none) (outcome : Except RunError Value) (limit : Nat)
    (h : m.maxSteps = some limit) : outcome ≠ .error (.stepLimitExceeded limit) := by
  rw [hlimit] at h
  cases h

/-- Where the first of two texts has ended with a value, the evaluator has only the forms of the
second before it. -/
theorem AtRest.seam (hm : m.AtRest) (hlimit : m.maxSteps = none) (ha : pa.MadeFrom a fa)
    {W : TagMatch} {w : Store Procedure} (hrep : Represents W w m.store)
    (hexecute : m.execute fuel pa = some (.ok v, m₁)) {depth : Nat} (hle : fuel ≤ depth)
    (hlater : later ≠ []) :
    ∃ W₁ w₁, Represents W₁ w₁ m₁.store ∧
      evaluateForms depth (fa ++ later) w = evaluateForms depth later w₁ := by
  by_cases hforms : fa = []
  · -- Nothing is evaluated, and the machine has only taken a tag.
    subst hforms
    obtain ⟨-, rfl⟩ := ha.eq_of_execute_nil hlimit hexecute
    exact ⟨W, w, hrep.skip (Nat.le_succ _), rfl⟩
  · obtain ⟨code, n, hcode, hassemble⟩ := ha.compiled
    obtain ⟨result, w₁, W₁, heval, hrep₁, hlike⟩ := hm.evaluated_of_execute hrep hforms hcode
      hassemble (execute_of_le hle hexecute) (not_stopped hlimit _)
    cases hlike with
    | ok hv =>
        refine ⟨W₁, w₁, hrep₁, ?_⟩
        rw [evaluateForms_append depth hforms hlater, Evaluator.bind_of_ok heval]

section Both

variable (hm : m.AtRest) (hlimit : m.maxSteps = none) (ha : pa.MadeFrom a fa)
variable (hwhole : p.MadeFrom whole (fa ++ fb'))
include hm hlimit ha hwhole

/-- If the first text fails, both at once fail the same. -/
theorem execute_joined_fails {e : RunError} (hexecute : m.execute fuel pa = some (.error e, m₁)) :
    ∃ fuel' e' m', m.execute fuel' p = some (.error e', m') ∧ e.Same e' ∧
      m₁.globals = m'.globals := by
  have hforms : fa ≠ [] := by
    rintro rfl
    cases (ha.eq_of_execute_nil hlimit hexecute).1
  obtain ⟨W, w, hrep⟩ := hm.represented
  obtain ⟨code₁, n₁, hcode₁, hassemble₁⟩ := ha.compiled
  obtain ⟨result₁, w₁, W₁, heval₁, hrep₁, hlike₁⟩ :=
    hm.evaluated_of_execute hrep hforms hcode₁ hassemble₁ hexecute (not_stopped hlimit _)
  obtain ⟨result, w', heval, hresult, hw⟩ :=
    evaluateForms_within (Nat.le_refl fuel) (forall₂_alike_refl fa) w.worded_refl heval₁
  have h₁ : EndsAs (.error e) m₁ result₁ w₁ := ⟨W₁, hrep₁, hlike₁⟩
  cases hlike₁ with
  | error he =>
      cases hresult with
      | @error _ e₁ he' =>
          -- The evaluator does not come to the forms of the second text.
          have hstops : evaluateForms fuel (fa ++ fb') w = some (.error e₁, w') := by
            by_cases hlater : fb' = []
            · rw [hlater, List.append_nil]
              exact heval
            · rw [evaluateForms_append fuel hforms hlater, Evaluator.bind_of_error heval]
          obtain ⟨code, n, hcode, hassemble⟩ := hwhole.compiled
          obtain ⟨fuel', outcome, m', W', hexecute', hrep', hlike'⟩ :=
            hm.execute_of_evaluated hlimit hrep (List.append_ne_nil_of_left_ne_nil hforms fb') hcode
              hassemble hstops
          obtain ⟨hsame, hglobals⟩ := h₁.same ⟨W', hrep', hlike'⟩ (.error he') hw
          cases hsame with
          | error hsame => exact ⟨fuel', _, m', hexecute', hsame, hglobals⟩

variable (halike : List.Forall₂ Datum.Alike fb fb')
include halike

variable (hm₁ : m₁.AtRest) (hb : pb.MadeFrom b fb)
variable (hexecute : m.execute fuel pa = some (.ok v, m₁))
include hm₁ hb hexecute

/-- If the first text ends with a value and the second after it ends, then both at once end the
same. -/
theorem execute_joined_ends {fuel₂ : Nat} {outcome₂ : Except RunError Value}
    (hexecute₂ : m₁.execute fuel₂ pb = some (outcome₂, m₂)) :
    ∃ fuel' outcome m', m.execute fuel' p = some (outcome, m') ∧
      ResultLike RunError.Same (fun v v' => v.text = v'.text) outcome₂ outcome ∧
      m₂.globals = m'.globals := by
  have hlimit₁ : m₁.maxSteps = none := (execute_maxSteps hexecute).trans hlimit
  by_cases hne : fb = []
  · -- Both texts together have the forms of the first, whose value is still in `val`.
    subst hne
    obtain rfl := List.forall₂_nil_left_iff.mp halike
    rw [List.append_nil] at hwhole
    obtain rfl := hwhole.unique ha
    obtain ⟨rfl, rfl⟩ := hb.eq_of_execute_nil hlimit₁ hexecute₂
    have htext : m₁.registers.val.text = v.text := by
      rw [execute_ok_val hexecute]
    exact ⟨fuel, .ok v, m₁, hexecute, .ok htext, rfl⟩
  · have hne' : fb' ≠ [] := by
      rintro rfl
      exact hne (List.forall₂_nil_right_iff.mp halike)
    obtain ⟨W, w, hrep⟩ := hm.represented
    -- As deep as the longer of the two runs is long, the evaluator follows both.
    obtain ⟨W₁, w₁, hrep₁, hseam⟩ :=
      hm.seam hlimit ha hrep hexecute (Nat.le_max_left fuel fuel₂) hne'
    obtain ⟨code₂, n₂, hcode₂, hassemble₂⟩ := hb.compiled
    obtain ⟨result₂, w₂, W₂, heval₂, hrep₂, hlike₂⟩ := hm₁.evaluated_of_execute hrep₁ hne hcode₂
      hassemble₂ (execute_of_le (Nat.le_max_right fuel fuel₂) hexecute₂) (not_stopped hlimit₁ _)
    obtain ⟨result, w', heval, hresult, hw⟩ :=
      evaluateForms_within (Nat.le_refl _) halike w₁.worded_refl heval₂
    rw [← hseam] at heval
    obtain ⟨code, n, hcode, hassemble⟩ := hwhole.compiled
    obtain ⟨fuel', outcome, m', W', hexecute', hrep', hlike'⟩ := hm.execute_of_evaluated hlimit hrep
      (List.append_ne_nil_of_right_ne_nil fa hne') hcode hassemble heval
    have h₂ : EndsAs outcome₂ m₂ result₂ w₂ := ⟨W₂, hrep₂, hlike₂⟩
    exact ⟨fuel', outcome, m', hexecute', h₂.same ⟨W', hrep', hlike'⟩ hresult hw⟩

/-- If the first text ends with a value and the second after it never ends, then both at once never
end. -/
theorem execute_joined_goes_on (hnone : ∀ fuel₂, m₁.execute fuel₂ pb = none) (fuel' : Nat) :
    m.execute fuel' p = none := by
  have hlimit₁ : m₁.maxSteps = none := (execute_maxSteps hexecute).trans hlimit
  have hne : fb ≠ [] := by
    rintro rfl
    have hends := hb.execute_nil hlimit₁ 0
    rw [hnone 1] at hends
    cases hends
  have hne' : fb' ≠ [] := by
    rintro rfl
    exact hne (List.forall₂_nil_right_iff.mp halike)
  obtain ⟨W, w, hrep⟩ := hm.represented
  obtain ⟨code, n, hcode, hassemble⟩ := hwhole.compiled
  apply hm.execute_of_given_up hlimit hrep (List.append_ne_nil_of_right_ne_nil fa hne') hcode
    hassemble
  intro depth
  cases heval : evaluateForms depth (fa ++ fb') w with
  | none => rfl
  | some x =>
      -- Then the evaluator ends as well where it may go as deep as the first run was long.
      obtain ⟨result, w'⟩ := x
      obtain ⟨result', w'', hdeeper, -, -⟩ := evaluateForms_within (Nat.le_max_right fuel depth)
        (forall₂_alike_refl _) w.worded_refl heval
      obtain ⟨W₁, w₁, hrep₁, hseam⟩ :=
        hm.seam hlimit ha hrep hexecute (Nat.le_max_left fuel depth) hne'
      rw [hseam] at hdeeper
      obtain ⟨result₂, w₂, heval₂, -, -⟩ := evaluateForms_within (Nat.le_refl _)
        (halike.flip.imp fun _ _ h => h.symm) w₁.worded_refl hdeeper
      obtain ⟨code₂, n₂, hcode₂, hassemble₂⟩ := hb.compiled
      obtain ⟨fuel₂, outcome₂, m₂, W₂, hexecute₂, -, -⟩ :=
        hm₁.execute_of_evaluated hlimit₁ hrep₁ hne hcode₂ hassemble₂ heval₂
      rw [hnone fuel₂] at hexecute₂
      cases hexecute₂

end Both

/-- Evaluating two texts at once, joined by a line end, is evaluating them one after the other, on
every driven machine without a limit.  If the first evaluates to a value, then both at once end if
and only if the second ends after it, and print the same value or fail with the same error; in the
end the global frames bind the same names to values that print the same.  If the first fails, so do
both at once, with the same error. -/
theorem eval_joined (hm : m.Driven) (hlimit : m.maxSteps = none) {sa sb : Sequence}
    (ha : Expression.compileText a = .ok sa) (hb : Expression.compileText b = .ok sb) :
    (∀ fuel v m₁, m.eval fuel a = some (.ok v, m₁) →
      (∀ fuel₂ result₂ m₂, m₁.eval fuel₂ b = some (result₂, m₂) →
        ∃ fuel' result m', m.eval fuel' (a ++ "\n" ++ b) = some (result, m') ∧
          ResultLike EvalError.Same (fun v v' => v.text = v'.text) result₂ result ∧
          m₂.globals = m'.globals) ∧
      ((∀ fuel₂, m₁.eval fuel₂ b = none) → ∀ fuel', m.eval fuel' (a ++ "\n" ++ b) = none)) ∧
    (∀ fuel e m₁, m.eval fuel a = some (.error (.run e), m₁) →
      ∃ fuel' e' m', m.eval fuel' (a ++ "\n" ++ b) = some (.error (.run e'), m') ∧ e.Same e' ∧
        m₁.globals = m'.globals) := by
  obtain ⟨fa, pa, ha⟩ := Program.MadeFrom.of_compileText ha
  obtain ⟨fb, pb, hb⟩ := Program.MadeFrom.of_compileText hb
  obtain ⟨fb', p, halike, hwhole⟩ := ha.join hb
  have hrest := hm.atRest
  constructor
  · intro fuel v m₁ heval
    have hrest₁ := (hm.eval heval).atRest
    obtain ⟨outcome, hexecute, hv⟩ := ha.execute_of_eval heval
    obtain rfl : outcome = .ok v := by
      cases outcome <;> cases hv
      rfl
    constructor
    · intro fuel₂ result₂ m₂ heval₂
      obtain ⟨outcome₂, hexecute₂, rfl⟩ := hb.execute_of_eval heval₂
      obtain ⟨fuel', outcome, m', hexecute', hsame, hglobals⟩ :=
        execute_joined_ends hrest hlimit ha hwhole halike hrest₁ hb hexecute hexecute₂
      refine ⟨fuel', _, m', hwhole.eval_of_execute hexecute', ?_, hglobals⟩
      cases hsame with
      | error he => exact .error (.run he)
      | ok hv => exact .ok hv
    · intro hnone fuel'
      rw [hwhole.eval_eq_none]
      apply execute_joined_goes_on hrest hlimit ha hwhole halike hrest₁ hb hexecute
      intro fuel₂
      exact hb.eval_eq_none.mp (hnone fuel₂)
  · intro fuel e m₁ heval
    obtain ⟨outcome, hexecute, he⟩ := ha.execute_of_eval heval
    obtain rfl : outcome = .error e := by
      cases outcome <;> cases he
      rfl
    obtain ⟨fuel', e', m', hexecute', hsame, hglobals⟩ :=
      execute_joined_fails hrest hlimit ha hwhole hexecute
    exact ⟨fuel', e', m', hwhole.eval_of_execute hexecute', hsame, hglobals⟩

/-- A procedure that counts is made by the first text and called by the second.  It is printed as a
procedure, and its count has gone on, when both are one text. -/
theorem counter_joined_to_calls :
    ∃ fuel v m', (Machine.new none).eval fuel
        ("(define c ((lambda (n) (lambda (k) (set! n (+ n k)) n)) 10))" ++ "\n" ++
          "(c 5) (list c (c 1))") = some (.ok v, m') ∧
      v.text = "(#<compiled-procedure> 16)" := by
  have hfirst : (Expression.compileText
      "(define c ((lambda (n) (lambda (k) (set! n (+ n k)) n)) 10))").toOption.isSome = true := by
    decide +kernel
  have hsecond : (Expression.compileText "(c 5) (list c (c 1))").toOption.isSome = true := by
    decide +kernel
  have hruns : ((Machine.new none).eval 40
      "(define c ((lambda (n) (lambda (k) (set! n (+ n k)) n)) 10))").any (fun x =>
        x.1.toOption.isSome && (x.2.eval 120 "(c 5) (list c (c 1))").any fun y =>
          y.1.toOption.any fun v => v.text == "(#<compiled-procedure> 16)") = true := by
    decide +kernel
  obtain ⟨sa, hsa⟩ := Option.isSome_iff_exists.mp hfirst
  obtain ⟨sb, hsb⟩ := Option.isSome_iff_exists.mp hsecond
  obtain ⟨⟨result, m₁⟩, hdefines, hthen⟩ := (Option.any_eq_true _ _).mp hruns
  obtain ⟨hdefined, hthen⟩ := (Bool.and_eq_true _ _).mp hthen
  obtain ⟨v, hv⟩ := Option.isSome_iff_exists.mp hdefined
  obtain ⟨⟨result₂, m₂⟩, hcalls, hprints⟩ := (Option.any_eq_true _ _).mp hthen
  obtain ⟨v₂, hv₂, htext⟩ := (Option.any_eq_true _ _).mp hprints
  obtain rfl : result = .ok v := eq_ok_of_toOption hv
  obtain rfl : result₂ = .ok v₂ := eq_ok_of_toOption hv₂
  obtain ⟨fuel, result, m', heval, hsame, -⟩ := ((eval_joined (.new none) rfl
    (eq_ok_of_toOption hsa) (eq_ok_of_toOption hsb)).1 40 v m₁ hdefines).1 120 _ m₂ hcalls
  cases hsame with
  | ok h => exact ⟨fuel, _, m', heval, h.symm.trans (beq_iff_eq.mp htext)⟩

end Machine

end SchemeMachine
