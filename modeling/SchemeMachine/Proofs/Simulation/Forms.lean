import SchemeMachine.Proofs.Simulation.Calls

/-!
# Compiled forms do what the evaluator does

By induction on a form, its code does what the evaluator does with it, if entering a procedure runs
its body.  By induction on how deep procedures are entered within each other, entering a procedure
does run its body.  Together: the code of a program follows the evaluator.
-/

namespace SchemeMachine
namespace Expression

open Sequence

/-- Code for an expression does what a computation does, for whatever target and linkage it was
compiled. -/
def Realises (depth : Nat) (e : Expression) (x : FrameId → Evaluator (Value Procedure)) : Prop :=
  ∀ ⦃target : Register⦄ ⦃linkage : Linkage⦄ ⦃n : Nat⦄ ⦃code : Sequence⦄ ⦃n' : Nat⦄,
    target.IsTarget → compile target linkage e n = .ok code n' →
    code.Runs depth linkage anything x (Holds target)

namespace Realises

variable {depth : Nat} {enter : Enter} {x y z : FrameId → Evaluator (Value Procedure)}

theorem malformed (why : Malformed) : Realises depth (.malformed why) x := by
  intro target linkage n code n' htarget h
  rw [compile] at h
  cases h

theorem constant (c : Constant) :
    Realises depth (.constant c) fun _ => Evaluator.make fun tag => Value.ofConstant tag c := by
  intro target linkage n code n' htarget h
  rw [compile] at h
  obtain ⟨rfl, rfl⟩ := Compile.pure_eq_ok h
  exact constantCode_runs c htarget linkage

theorem reference (name : String) :
    Realises depth (.reference name) fun f => Evaluator.lookup f name := by
  intro target linkage n code n' htarget h
  rw [compile] at h
  obtain ⟨rfl, rfl⟩ := Compile.pure_eq_ok h
  exact variableCode_runs name htarget linkage

theorem assignment (name : String) {value : Expression} (hvalue : Realises depth value x) :
    Realises depth (.assignment name value) fun f => x f >>= Evaluator.assign f name := by
  intro target linkage n code n' htarget h
  obtain ⟨valueCode, hcode, rfl⟩ := compile_assignment h
  exact storeCode_runs (set_stores name) (hvalue (Or.inl rfl) hcode) htarget linkage

theorem definition (name : String) {value : Expression} (hvalue : Realises depth value x) :
    Realises depth (.definition name value) fun f => x f >>= Evaluator.define f name := by
  intro target linkage n code n' htarget h
  obtain ⟨valueCode, hcode, rfl⟩ := compile_definition h
  exact storeCode_runs (define_stores name) (hvalue (Or.inl rfl) hcode) htarget linkage

theorem conditional {test consequent alternative : Expression} (htest : Realises depth test x)
    (hconsequent : Realises depth consequent y) (halternative : Realises depth alternative z) :
    Realises depth (.conditional test consequent alternative) fun f =>
      x f >>= fun v => if v.isTrue then y f else z f := by
  intro target linkage n code n' htarget h
  obtain ⟨t, c, a, m, m', ht, hc, ha, rfl⟩ := compile_conditional h
  exact conditionalCode_runs _ _ _ (htest (Or.inl rfl) ht) (hconsequent htarget hc)
    (halternative htarget ha)

theorem lambda (procedure : Procedure) (hne : procedure.body ≠ []) :
    Realises depth (.lambda procedure.formals (procedure.body.map ofDatum)) fun f =>
      Evaluator.closure f procedure := by
  intro target linkage n code n' htarget h
  obtain ⟨body, hbody, rfl⟩ := compile_lambda h
  exact lambdaCode_runs hbody hne _ _ htarget linkage

/-- Expressions one after the other. -/
theorem compileSequence_runs {es : List Expression}
    {xs : List (FrameId → Evaluator (Value Procedure))}
    (h : List.Forall₂ (Realises depth) es xs) (hne : es ≠ []) {target : Register}
    {linkage : Linkage} {n n' : Nat} {code : Sequence} (htarget : target.IsTarget)
    (hcode : compileSequence target linkage es n = .ok code n') :
    code.Runs depth linkage anything (fun f => Evaluator.inOrder (xs.map (· f)))
      (Holds target) := by
  induction h generalizing n code with
  | nil => exact absurd rfl hne
  | @cons e x es xs head tail ih =>
      cases tail with
      | nil =>
          rw [compileSequence] at hcode
          exact head htarget hcode
      | @cons e' x' es xs head' tail' =>
          obtain ⟨first, rest, m, hfirst, hrest, rfl⟩ := compileSequence_cons hcode
          exact sequence_runs (head (Or.inl rfl) hfirst) (ih (List.cons_ne_nil _ _) hrest)

theorem sequence {es : List Expression} {xs : List (FrameId → Evaluator (Value Procedure))}
    (h : List.Forall₂ (Realises depth) es xs) (hne : es ≠ []) :
    Realises depth (.sequence es) fun f => Evaluator.inOrder (xs.map (· f)) := by
  intro target linkage n code n' htarget hcode
  rw [compile] at hcode
  exact compileSequence_runs h hne htarget hcode

theorem compileOperands_runs {es : List Expression}
    {xs : List (FrameId → Evaluator (Value Procedure))}
    (h : List.Forall₂ (Realises depth) es xs) {n n' : Nat} {codes : List Sequence}
    (hcodes : compileOperands es n = .ok codes n') : RunAll depth codes xs := by
  induction h generalizing n codes with
  | nil =>
      rw [compileOperands] at hcodes
      obtain ⟨rfl, rfl⟩ := Compile.pure_eq_ok hcodes
      exact .nil
  | cons head _ ih =>
      obtain ⟨code, rest, m, hcode, hrest, rfl⟩ := compileOperands_cons hcodes
      exact .cons (head (Or.inl rfl) hcode) (ih hrest)

theorem application (henters : Enters depth enter) {operator : Expression}
    {operands : List Expression} {ys : List (FrameId → Evaluator (Value Procedure))}
    (hoperator : Realises depth operator x)
    (hoperands : List.Forall₂ (Realises depth) operands ys) :
    Realises depth (.application operator operands) fun f =>
      x f >>= fun p => Evaluator.fromLast (ys.map (· f)) >>= Evaluator.apply enter p := by
  intro target linkage n code n' htarget h
  obtain ⟨operatorCode, operandCodes, call, m, m', ho, hos, hcall, rfl⟩ := compile_application h
  exact applicationCode_runs henters (hoperator (Or.inr rfl) ho) (compileOperands_runs hoperands hos)
    htarget hcall

end Realises

end Expression

/-! ## Names and elements -/

namespace Datum

/-- Induction along a list, whatever its elements are. -/
@[elab_as_elim]
theorem along {motive : Datum → Prop} (pair : ∀ m a d, motive d → motive (.pair m a d))
    (empty : ∀ m, motive (.empty m)) (symbol : ∀ m name, motive (.symbol m name))
    (literal : ∀ m l, motive (.literal m l)) (vector : ∀ m items, motive (.vector m items)) :
    ∀ d, motive d
  | .pair m a d => pair m a d (along pair empty symbol literal vector d)
  | .empty m => empty m
  | .symbol m name => symbol m name
  | .literal m l => literal m l
  | .vector m items => vector m items

theorem elements_of_items? {d : Datum} {items : List Datum} (h : d.items? = some items) :
    d.elements = items := by
  induction d using along generalizing items with
  | pair m a d ih =>
      obtain ⟨rest, hrest, rfl⟩ := Option.map_eq_some_iff.mp h
      rw [elements, ih hrest]
  | empty m =>
      cases h
      rfl
  | _ => cases h

theorem sizeOf_lt_of_mem_elements {d e : Datum} (h : e ∈ d.elements) : sizeOf e < sizeOf d := by
  induction d using along with
  | pair m a d ih =>
      simp only [elements, List.mem_cons] at h
      simp only [pair.sizeOf_spec]
      rcases h with rfl | h
      · omega
      · have := ih h
        omega
  | _ => cases h

theorem evaluateEach_eq_map (enter : Expression.Enter) (f : FrameId) (d : Datum) :
    d.evaluateEach enter f = d.elements.map (evaluate enter f) := by
  induction d using along with
  | pair m a d ih => rw [evaluateEach, elements, List.map_cons, ih]
  | _ => rfl

/-- The values in a list of bindings. -/
def boundValues : Datum → List Datum
  | pair _ (pair _ _ (pair _ value _)) rest => value :: boundValues rest
  | _ => []

theorem evaluateBound_eq_map (enter : Expression.Enter) (f : FrameId) (d : Datum) :
    d.evaluateBound enter f = d.boundValues.map (evaluate enter f) := by
  fun_induction boundValues d with
  | case1 m m' a m'' value tail rest ih => rw [evaluateBound, List.map_cons, ih]
  | case2 d hd =>
      unfold evaluateBound
      split
      · exact absurd rfl (hd _ _ _ _ _ _ _)
      · rfl

theorem sizeOf_lt_of_mem_boundValues {d e : Datum} (h : e ∈ d.boundValues) :
    sizeOf e < sizeOf d := by
  fun_induction boundValues d with
  | case1 m m' a m'' value tail rest ih =>
      simp only [List.mem_cons] at h
      simp only [pair.sizeOf_spec]
      rcases h with rfl | h
      · omega
      · have := ih h
        omega
  | case2 d hd => cases h

end Datum

namespace Expression

open Sequence

theorem ofItems_eq_map (d : Datum) : ofItems d = d.elements.map ofDatum := by
  induction d using Datum.along with
  | pair m a d ih => rw [ofItems, Datum.elements, List.map_cons, ih]
  | _ => rfl

theorem ofValues_eq_map (d : Datum) : ofValues d = d.boundValues.map ofDatum := by
  fun_induction Datum.boundValues d with
  | case1 m m' a m'' value tail rest ih => rw [ofValues, List.map_cons, ih]
  | case2 d hd =>
      unfold ofValues
      split
      · exact absurd rfl (hd _ _ _ _ _ _ _)
      · rfl

theorem formalNames_eq {seen : List String} {ds : List Datum} {names : List String}
    (h : formalNames seen ds = .ok names) : names = ds.filterMap Datum.symbolName? := by
  induction ds generalizing seen names with
  | nil =>
      cases h
      rfl
  | cons d rest ih =>
      rw [formalNames] at h
      cases hname : d.symbolName? with
      | none => simp [hname] at h
      | some name =>
          simp only [hname] at h
          split at h
          · cases h
          · cases hrest : formalNames (name :: seen) rest with
            | error fault =>
                rw [hrest] at h
                cases h
            | ok rest' =>
                rw [hrest] at h
                cases h
                rw [List.filterMap_cons, hname, ih hrest]

theorem lambdaFormals_eq {formals : Datum} {names : List String}
    (h : lambdaFormals formals = .ok names) : names = formals.names := by
  unfold lambdaFormals at h
  cases hitems : formals.items? with
  | none => simp [hitems] at h
  | some items =>
      simp only [hitems] at h
      rw [Datum.names, Datum.elements_of_items? hitems]
      exact formalNames_eq h

theorem headerFormals_eq {header : Datum} {name : String} {names : List String}
    (h : headerFormals header = .ok (name, names)) :
    ∃ m m' rest, header = .pair m (.symbol m' name) rest ∧ names = rest.names := by
  unfold headerFormals at h
  split at h
  · cases h
  · cases h
  · next first formals hitems =>
    cases hfirst : first.symbolName? with
    | none => simp [hfirst] at h
    | some name' =>
        simp only [hfirst] at h
        cases hnames : formalNames [] formals with
        | error fault =>
            rw [hnames] at h
            cases h
        | ok names' =>
            rw [hnames] at h
            cases h
            cases header with
            | pair m a rest =>
                obtain ⟨items, hrest, hcons⟩ := Option.map_eq_some_iff.mp hitems
                cases hcons
                cases first with
                | symbol m' name'' =>
                    cases hfirst
                    refine ⟨m, m', rest, rfl, ?_⟩
                    rw [Datum.names, Datum.elements_of_items? hrest]
                    exact formalNames_eq hnames
                | _ => cases hfirst
            | _ => cases hitems

theorem bindingNames_eq {ds names : List Datum} (h : bindingNames ds = .ok names) :
    names.filterMap Datum.symbolName? =
      ds.filterMap fun binding => binding.first?.bind Datum.symbolName? := by
  induction ds generalizing names with
  | nil =>
      cases h
      rfl
  | cons d rest ih =>
      rw [bindingNames] at h
      cases hname : bindingName? d with
      | none => simp [hname] at h
      | some name =>
          simp only [hname] at h
          cases hrest : bindingNames rest with
          | error fault =>
              rw [hrest] at h
              cases h
          | ok names' =>
              rw [hrest] at h
              cases h
              have hfirst : d.first? = some name := by
                unfold bindingName? at hname
                split at hname
                · cases hname
                  rfl
                · cases hname
              rw [List.filterMap_cons, List.filterMap_cons, ih hrest, hfirst]
              rfl

theorem bindingFormals_eq {bindings : Datum} {names : List String}
    (h : bindingFormals bindings = .ok names) : names = bindings.boundNames := by
  unfold bindingFormals at h
  cases hitems : bindings.items? with
  | none => simp [hitems] at h
  | some items =>
      simp only [hitems] at h
      cases hnames : bindingNames items with
      | error fault =>
          rw [hnames] at h
          cases h
      | ok data =>
          rw [hnames] at h
          rw [Datum.boundNames, Datum.elements_of_items? hitems, ← bindingNames_eq hnames]
          exact formalNames_eq h

/-! ## Forms -/

/-- The code of a form does what the evaluator does with it. -/
def Realised (depth : Nat) (enter : Enter) (d : Datum) : Prop :=
  Realises depth (ofDatum d) fun f => d.evaluate enter f

section Forms

variable {depth : Nat} {enter : Enter} {rest : Datum} (span : Option Span)

theorem realises_map (ds : List Datum) (h : ∀ d ∈ ds, Realised depth enter d) :
    List.Forall₂ (Realises depth) (ds.map ofDatum) (ds.map fun d f => d.evaluate enter f) := by
  simp only [List.forall₂_map_left_iff, List.forall₂_map_right_iff, List.forall₂_same]
  exact h

theorem ofConstant_ofDatum (tag : Tag) (d : Datum) :
    (Value.ofConstant tag (.ofDatum d) : Value Procedure × Tag) = Value.ofDatum tag d := by
  cases d <;> simp [Constant.ofDatum, Value.ofConstant, Value.ofDatum]

theorem ofQuote_realises :
    Realises depth (ofQuote span rest) fun _ => rest.evaluateQuote := by
  unfold ofQuote
  split
  · next m d _ =>
    have h : Realises depth (.constant (.ofDatum d)) _ := Realises.constant (.ofDatum d)
    simp only [ofConstant_ofDatum] at h
    exact h
  · exact .malformed _

theorem lambda_realises (formals : List String) (m : Mark) (a d : Datum) :
    Realises depth (.lambda formals (ofDatum a :: ofItems d)) fun f =>
      Evaluator.closure f ⟨formals, (Datum.pair m a d).elements⟩ := by
  rw [ofItems_eq_map]
  exact Realises.lambda ⟨formals, a :: d.elements⟩ (List.cons_ne_nil _ _)

theorem ofLambda_realises :
    Realises depth (ofLambda span rest) fun f => rest.evaluateLambda f := by
  unfold ofLambda
  split
  · next m formals body a d =>
    cases hformals : lambdaFormals formals with
    | error fault => exact .malformed _
    | ok names =>
        rw [lambdaFormals_eq hformals]
        exact lambda_realises _ body a d
  · exact .malformed _

variable (ih : ∀ d, sizeOf d < sizeOf rest → Realised depth enter d)
include ih

theorem ofDefine_realises :
    Realises depth (ofDefine span rest) fun f => rest.evaluateDefine enter f := by
  unfold ofDefine
  split
  · next m _ name _ value _ => exact Realises.definition name (ih value (by simp; omega))
  · exact .malformed _
  · next m header body a d _ _ =>
    cases hheader : headerFormals header with
    | error fault => exact .malformed _
    | ok found =>
        obtain ⟨name, names⟩ := found
        obtain ⟨_, _, formals, rfl, rfl⟩ := headerFormals_eq hheader
        exact Realises.definition name (lambda_realises _ body a d)
  · exact .malformed _

theorem ofSet_realises :
    Realises depth (ofSet span rest) fun f => rest.evaluateSet enter f := by
  unfold ofSet
  split
  · next m _ name _ value _ => exact Realises.assignment name (ih value (by simp; omega))
  · exact .malformed _
  · exact .malformed _

theorem ofCond_realises :
    Realises depth (ofCond span rest) fun f => rest.evaluateIf enter f := by
  unfold ofCond
  split
  · next m test _ consequent _ alternative _ =>
    exact Realises.conditional (ih test (by simp; omega)) (ih consequent (by simp; omega))
      (ih alternative (by simp; omega))
  · exact .malformed _

theorem elements_realised :
    List.Forall₂ (Realises depth) (ofItems rest)
      (rest.elements.map fun d f => d.evaluate enter f) := by
  rw [ofItems_eq_map]
  exact realises_map _ fun d hd => ih d (Datum.sizeOf_lt_of_mem_elements hd)

theorem ofBegin_realises :
    Realises depth (ofBegin span rest) fun f => Evaluator.inOrder (rest.evaluateEach enter f) := by
  have helements := elements_realised ih
  simp only [Datum.evaluateEach_eq_map]
  unfold ofBegin
  split
  · next m a d =>
    have h := Realises.sequence helements (by simp [ofItems])
    simp only [ofItems, List.map_map] at h
    exact h
  · exact .malformed _

theorem ofBinding_realises (henters : Enters depth enter) :
    Realises depth (ofBinding span rest) fun f => rest.evaluateLet enter f := by
  unfold ofBinding
  split
  · next m bindings body a d =>
    cases hformals : bindingFormals bindings with
    | error fault => exact .malformed _
    | ok names =>
        rw [bindingFormals_eq hformals, ofValues_eq_map]
        have hvalues := realises_map bindings.boundValues fun d hd =>
          ih d (by
            have := Datum.sizeOf_lt_of_mem_boundValues hd
            simp
            omega)
        have h := Realises.application henters (lambda_realises bindings.boundNames body a d) hvalues
        simp only [Datum.evaluateLet, Datum.evaluateBound_eq_map]
        simp only [List.map_map] at h
        exact h
  · exact .malformed _

end Forms

/-- By induction on a form, its code does what the evaluator does with it. -/
theorem realised {depth : Nat} {enter : Enter} (henters : Enters depth enter) (d : Datum) :
    Realised depth enter d := by
  induction hsize : sizeOf d using Nat.strongRecOn generalizing d with
  | ind size ih =>
      subst hsize
      cases d with
      | literal m l =>
          unfold Realised
          simp only [ofDatum, Datum.evaluate]
          exact Realises.constant (.literal l)
      | vector m items =>
          unfold Realised
          simp only [ofDatum, Datum.evaluate]
          exact Realises.constant (.datum (.vector m items))
      | symbol m name =>
          unfold Realised
          simp only [ofDatum, Datum.evaluate]
          exact Realises.reference name
      | empty m =>
          unfold Realised
          rw [ofDatum]
          exact .malformed _
      | pair m head rest =>
          have hhead : Realised depth enter head := ih _ (by simp; omega) head rfl
          -- Parts of forms lie at several depths in `rest`, so the induction goes by size.
          have hrest : ∀ d, sizeOf d < sizeOf rest → Realised depth enter d :=
            fun d hd => ih _ (by simp; omega) d rfl
          unfold Realised
          rw [ofDatum]
          split
          · exact .malformed _
          · simp only [Datum.evaluate]
            split
            · next h => simpa only [h] using ofQuote_realises m.span
            · next h => simpa only [h] using ofLambda_realises m.span
            · next h => simpa only [h] using ofDefine_realises m.span hrest
            · next h => simpa only [h] using ofSet_realises m.span hrest
            · next h => simpa only [h] using ofCond_realises m.span hrest
            · next h => simpa only [h] using ofBegin_realises m.span hrest
            · next h => simpa only [h] using ofBinding_realises m.span hrest henters
            · have h := Realises.application henters hhead (elements_realised hrest)
              simp only [Datum.evaluateEach_eq_map]
              simp only [List.map_map] at h
              exact h

/-! ## Entering procedures -/

/-- A new frame for the arguments in `argl`, or the complaint that there are too many or too few. -/
theorem extendEnv_yields {site : Site} {rs : Registers} {f : FrameId} {W : TagMatch}
    {w : Store Procedure} {store : Store} {args : List (Value Procedure)} (formals : List String)
    (henv : rs.env = .environment f) (hargs : HoldsList args W rs) (hrep : Represents W w store) :
    Yields W (fun g W' v => W' = W ∧ v = .environment g)
      ((if args.length = formals.length then Evaluator.newFrame f formals args
        else Evaluator.fail (.arityMismatch (.exactly formals.length) args.length) :
        Evaluator FrameId) w)
      (Machine.evaluate site.code.ref rs store ((Operand.extendEnv formals).map site.number)) := by
  obtain ⟨items, hitems, hlike⟩ := hargs
  have hlength := hlike.length_eq
  simp only [Operand.map, Machine.evaluate, Registers.frame, henv, Store.extend, hitems, ← hlength]
  by_cases h : args.length = formals.length
  · obtain ⟨hnumber, hrep'⟩ := hrep.push (⟨.ofPairs formals hlike, rfl⟩ : Frame.Like compiled W
      ⟨.ofPairs (formals.zip args), some f⟩ ⟨.ofPairs (formals.zip items), some f⟩)
    simp only [h, if_true]
    exact .ok le_rfl hrep' ⟨rfl, congrArg Value.environment hnumber.symm⟩
  · simp only [h, if_false]
    exact .error hrep (.arityMismatch _ _) id

/-- The body of a procedure, run in a new frame. -/
theorem body_runs {depth : Nat} {enter : Enter} (henters : Enters depth enter)
    {procedure : Procedure} (hne : procedure.body ≠ []) {n n' : Nat} {code : Sequence}
    (hcode : compileSequence .val .caller (procedure.body.map ofDatum) n = .ok code n') :
    code.Runs depth .caller anything
      (fun g => Evaluator.inOrder (procedure.body.map fun d => d.evaluate enter g)) (Holds .val) := by
  have h := Realises.compileSequence_runs (realises_map procedure.body fun d _ => realised henters d)
    (by simpa using hne) (Or.inl rfl) hcode
  simp only [List.map_map] at h
  exact h

theorem enter_succ (depth : Nat) (procedure : Procedure) (f : FrameId)
    (args : List (Value Procedure)) :
    procedure.enter (depth + 1) f args =
      (if args.length = procedure.formals.length then
        Evaluator.newFrame f procedure.formals args
      else Evaluator.fail (.arityMismatch (.exactly procedure.formals.length) args.length)) >>=
        fun g => Evaluator.inOrder
          (procedure.body.map fun d => d.evaluate (Procedure.enter depth) g) := by
  rw [Procedure.enter]
  split <;> rfl

/-- By induction on how deep procedures are entered within each other, entering a procedure runs
it. -/
theorem enters (depth : Nat) : Enters depth (Procedure.enter depth) := by
  induction depth with
  | zero =>
      -- At depth zero the evaluator gives up, and no steps are asked for.
      intro procedure tag ref back f args W w s d _ _ _ _ _ _ _ _ _
      exact ⟨0, s, .refl s, Nat.le_refl 0⟩
  | succ depth ih =>
      intro procedure tag ref back f args W w s d hcode hcontrol hproc hargs hrep hk hback hcalls
        hbottom
      obtain ⟨site, entry, body, rest, n, n', rfl, hne, hbody, hcovers⟩ := hcode
      have hc : s.control = site.before (.assign .env .closureEnv ::
          .assign .env (.extendEnv procedure.formals) :: (body.statements ++ rest)) :=
        Option.some.inj (hcontrol.symm.trans (Site.control?_ref hcovers))
      have hsteady : s.Steady := by
        refine ⟨⟨W, w, hrep⟩, ?_⟩
        intro a ha
        rw [hcalls] at ha
        rcases List.mem_cons.mp ha with rfl | ha
        · exact List.prefix_refl _
        · exact hbottom a ha
      have hframe : Machine.evaluate site.code.ref s.registers s.store
          (Operand.closureEnv.map site.number) = .ok (.environment f) s.store := by
        simp only [Operand.map, Machine.evaluate, Registers.closure, hproc]
      -- The step that opens the procedure makes up for one level of depth.
      refine Follows.deeper (hsteady.sound_perform hc) (Scene.next_assign hc (by decide) hframe) ?_
      rw [enter_succ]
      -- The scene once the new frame is open.
      let opened (g : FrameId) (store : Store) : Scene := { s with
        registers := (s.registers.set .env (.environment f)).set .env (.environment g)
        store := store
        control := site.before (body.statements ++ rest) }
      have hopened : Follows depth
          { s with
            registers := s.registers.set .env (.environment f)
            control := site.before (.assign .env (.extendEnv procedure.formals) ::
              (body.statements ++ rest)) }
          ((if args.length = procedure.formals.length then
              Evaluator.newFrame f procedure.formals args
            else Evaluator.fail (.arityMismatch (.exactly procedure.formals.length) args.length) :
            Evaluator FrameId) w)
          fun g w' s' => ∃ store, Represents W w' store ∧ s' = opened g store := by
        refine Yields.follows (extendEnv_yields procedure.formals rfl (hargs.of_argl_eq rfl) hrep)
          (hsteady.later rfl rfl rfl) rfl (by decide) ?_
        rintro g w' _ store _ - hrep' ⟨rfl, rfl⟩
        exact Follows.done ⟨store, hrep', rfl⟩
      refine hopened.bind ?_
      rintro g w' _ ⟨store, hrep', rfl⟩
      have hready : Ready g W w' body.needs (opened g store) :=
        ⟨hrep', hsteady.bottom, by simp only [opened, hcalls], fun _ => rfl⟩
      have hleads : Linkage.caller.Leads site rest body.needs (opened g store) d :=
        ⟨⟨s.stack, s.registers.kontinue⟩, back, by simp only [opened, hcalls], rfl, hk, hback,
          fun _ => rfl⟩
      refine (body_runs ih hne hbody hcovers.tail.tail.tail rfl hready trivial hleads).andThen ?_
      intro v w'' s' harrived
      refine Follows.done (harrived.from_earlier le_rfl rfl fun r hr => ?_)
      simp at hr

/-- The code of a program follows the evaluator. -/
theorem compileProgram_runs (depth : Nat) {forms : List Datum} (hne : forms ≠ []) {n n' : Nat}
    {code : Sequence} (hcode : compileProgram forms n = .ok code n') :
    code.Runs depth .next anything
      (fun f => Evaluator.inOrder (forms.map (Datum.evaluate (Procedure.enter depth) f)))
      (Holds .val) := by
  have h := Realises.compileSequence_runs
    (realises_map forms fun d _ => realised (enters depth) d) (by simpa using hne) (Or.inl rfl) hcode
  simp only [List.map_map] at h
  exact h

end Expression
end SchemeMachine
