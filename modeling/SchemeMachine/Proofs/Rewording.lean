import SchemeMachine.Proofs.Marks

/-!
# Evaluating alike forms

What the evaluator does with a form depends neither on marks nor on how deep procedures may be
entered within each other, as long as it ends.  A computation lies within another when the other
ends wherever it ends, with an alike result and in an alike store.  All that the evaluator does
keeps this up, so that evaluating a form lies within evaluating an alike form to at least the same
depth.
-/

namespace SchemeMachine

/-- Procedures that are written alike. -/
structure Procedure.Alike (p q : Procedure) : Prop where
  formals : p.formals = q.formals
  body : List.Forall₂ Datum.Alike p.body q.body

/-- Procedures match when they are written alike; tags are the same on both sides. -/
def worded : Matching Procedure Procedure :=
  ⟨Procedure.Alike, Eq, Eq⟩

theorem worded_faithful : worded.Faithful :=
  ⟨fun _ _ => rfl, fun _ _ _ h h' => h.trans h'.symm, fun _ _ _ h h' => h.symm.trans h'⟩

theorem forall₂_alike_refl (ds : List Datum) : List.Forall₂ Datum.Alike ds ds := by
  induction ds with
  | nil => exact .nil
  | cons d ds ih => exact .cons (.refl d) ih

mutual

theorem Value.worded_refl : ∀ v : Value Procedure, v.Like worded Eq v
  | .unspecified => .unspecified
  | .empty => .empty
  | .boolean b => .boolean b
  | .number n => .number n
  | .string _ text => .string text rfl
  | .symbol name => .symbol name
  | .pair _ a d => .pair rfl (worded_refl a) (worded_refl d)
  | .vector _ items => .vector rfl (worded_refl_all items)
  | .primitive p => .primitive p
  | .closure _ p f => .closure f rfl ⟨rfl, forall₂_alike_refl p.body⟩
  | .label _ => .label rfl
  | .environment _ => .environment rfl

theorem Value.worded_refl_all :
    ∀ vs : List (Value Procedure), List.Forall₂ (Value.Like worded Eq) vs vs
  | [] => .nil
  | v :: vs => .cons (worded_refl v) (worded_refl_all vs)

end

theorem Store.worded_refl (w : Store Procedure) : w.Match worded w := by
  refine ⟨?_, rfl⟩
  intro f
  cases w.frames[f]? with
  | none => exact .none
  | some frame =>
      refine .some ⟨?_, rfl⟩
      unfold Bindings.Like
      induction frame.bindings with
      | nil => exact .nil
      | cons binding _ ih => exact .cons ⟨rfl, binding.2.worded_refl⟩ ih

/-! ## Computations -/

/-- Where one computation ends, the other does, with an alike result and in an alike store. -/
def Within {α β : Type} (R : α → β → Prop) (x : Evaluator α) (y : Evaluator β) : Prop :=
  ∀ ⦃w w' : Store Procedure⦄, w.Match worded w' → ∀ ⦃result w₁⦄, x w = some (result, w₁) →
    ∃ result' w₁', y w' = some (result', w₁') ∧
      ResultLike (RunError.Like worded Eq) R result result' ∧ w₁.Match worded w₁'

namespace Within

open Evaluator

variable {α β γ δ : Type} {R : α → β → Prop} {S : γ → δ → Prop}

theorem giveUp (y : Evaluator β) : Within R giveUp y := by
  intro w w' _ result w₁ h
  cases h

theorem pure {a : α} {b : β} (h : R a b) : Within R (pure a) (pure b) := by
  intro w w' hw result w₁ hresult
  cases hresult
  exact ⟨_, _, rfl, .ok h, hw⟩

theorem fail {e e' : RunError Procedure} (h : e.Like worded Eq e') :
    Within R (fail e) (fail e') := by
  intro w w' hw result w₁ hresult
  cases hresult
  exact ⟨_, _, rfl, .error h, hw⟩

theorem bind {x : Evaluator α} {y : Evaluator β} {f : α → Evaluator γ} {g : β → Evaluator δ}
    (hx : Within R x y) (hf : ∀ a b, R a b → Within S (f a) (g b)) :
    Within S (x >>= f) (y >>= g) := by
  intro w w' hw result w₁ h
  cases hxw : x w with
  | none =>
      rw [bind_of_none hxw] at h
      cases h
  | some first =>
      obtain ⟨e | a, w₂⟩ := first
      · rw [bind_of_error hxw] at h
        cases h
        obtain ⟨_, w₂', hy, he, hw₂⟩ := hx hw hxw
        cases he with
        | error he => exact ⟨_, w₂', bind_of_error hy, .error he, hw₂⟩
      · rw [bind_of_ok hxw] at h
        obtain ⟨_, w₂', hy, ha, hw₂⟩ := hx hw hxw
        cases ha with
        | ok ha =>
            rw [bind_of_ok hy]
            exact hf _ _ ha hw₂ h

variable {f : FrameId}

theorem make {build build' : Tag → Value Procedure × Tag}
    (h : ∀ tag, Made worded Eq tag tag (build tag) (build' tag)) :
    Within (Value.Like worded Eq) (make build) (make build') := by
  intro w w' hw result w₁ hresult
  obtain ⟨hv, hw₁⟩ := hw.make h
  cases hresult
  exact ⟨_, _, rfl, .ok hv, hw₁⟩

theorem lookup (name : String) :
    Within (Value.Like worded Eq) (lookup f name) (lookup f name) := by
  intro w w' hw result w₁ hresult
  cases hresult
  exact ⟨_, _, rfl, hw.like.lookup f name, hw⟩

theorem define (name : String) {v v' : Value Procedure} (hv : v.Like worded Eq v') :
    Within (Value.Like worded Eq) (define f name v) (define f name v') := by
  intro w w' hw result w₁ hresult
  cases hresult
  exact ⟨_, _, rfl, .ok (.symbol "ok"), hw.like.define f name hv, hw.nextTag⟩

theorem assign (name : String) {v v' : Value Procedure} (hv : v.Like worded Eq v') :
    Within (Value.Like worded Eq) (assign f name v) (assign f name v') := by
  intro w w' hw result w₁ hresult
  -- The nearest frame that binds the name has the same number in both stores.
  have hbinder := hw.like.binder?_eq f name
  unfold Evaluator.assign Store.assign? at hresult ⊢
  rw [← hbinder]
  cases hfound : w.binder? f name with
  | none =>
      rw [hfound] at hresult
      cases hresult
      exact ⟨_, _, rfl, .error (.unboundVariable name), hw⟩
  | some g =>
      rw [hfound] at hresult
      cases hresult
      exact ⟨_, _, rfl, .ok (.symbol "ok"), hw.like.define g name hv, hw.nextTag⟩

theorem closure {p q : Procedure} (h : p.Alike q) :
    Within (Value.Like worded Eq) (closure f p) (closure f q) := by
  apply make
  intro tag
  exact ⟨1, rfl, rfl, .closure f (TagMatch.grow_last Eq tag tag 0) h⟩

theorem newFrame (names : List String) {vs vs' : List (Value Procedure)}
    (h : List.Forall₂ (Value.Like worded Eq) vs vs') :
    Within Eq (newFrame f names vs) (newFrame f names vs') := by
  intro w w' hw result w₁ hresult
  cases hresult
  obtain ⟨hnumber, hlike⟩ := hw.like.push (⟨.ofPairs names h, rfl⟩ : Frame.Like worded Eq
    ⟨.ofPairs (names.zip vs), some f⟩ ⟨.ofPairs (names.zip vs'), some f⟩)
  exact ⟨_, _, rfl, .ok hnumber, hlike, hw.nextTag⟩

theorem primitive (p : Primitive) {vs vs' : List (Value Procedure)}
    (h : List.Forall₂ (Value.Like worded Eq) vs vs') :
    Within (Value.Like worded Eq) (primitive p vs) (primitive p vs') := by
  intro w w' hw result w₁ hresult
  -- Both stores hand out the same tags, so that what is made carries the same ones.
  have happly := Primitive.apply_like worded_faithful worded_faithful.frame p h w.nextTag w.nextTag
  unfold Evaluator.primitive at hresult ⊢
  rw [← hw.nextTag]
  generalize p.apply vs w.nextTag = x at happly hresult
  generalize p.apply vs' w.nextTag = y at happly
  cases happly with
  | error he =>
      cases hresult
      exact ⟨_, _, rfl, .error he, hw⟩
  | @ok a b hmade =>
      obtain ⟨hv, htag⟩ := hmade.of_eq
      obtain ⟨v, tag⟩ := a
      obtain ⟨v', tag'⟩ := b
      cases hresult
      exact ⟨_, _, rfl, .ok hv, hw.like.withTags _ _, htag⟩

theorem inOrder {xs : List (Evaluator α)} {ys : List (Evaluator β)}
    (h : List.Forall₂ (Within R) xs ys) : Within R (inOrder xs) (inOrder ys) := by
  induction h with
  | nil => exact giveUp _
  | cons head tail ih =>
      -- The last computation stands alone, all others are gone through for what they do.
      cases tail with
      | nil => exact head
      | cons _ _ => exact head.bind fun _ _ _ => ih

theorem fromLast {xs : List (Evaluator α)} {ys : List (Evaluator β)}
    (h : List.Forall₂ (Within R) xs ys) :
    Within (List.Forall₂ R) (fromLast xs) (fromLast ys) := by
  induction h with
  | nil => exact pure .nil
  | cons head _ ih => exact ih.bind fun _ _ hvs => head.bind fun _ _ hv => pure (.cons hv hvs)

end Within

/-! ## Forms -/

/-- Ways to run the bodies of procedures. -/
abbrev Entering := Procedure → FrameId → List (Value Procedure) → Evaluator (Value Procedure)

/-- One way to run bodies lies within another, for procedures that are written alike and alike
arguments. -/
def EnterWithin (enter enter' : Entering) : Prop :=
  ∀ ⦃p q : Procedure⦄, p.Alike q → ∀ (f : FrameId) ⦃vs vs' : List (Value Procedure)⦄,
    List.Forall₂ (Value.Like worded Eq) vs vs' →
      Within (Value.Like worded Eq) (enter p f vs) (enter' q f vs')

theorem Within.apply {enter enter' : Entering} (henter : EnterWithin enter enter')
    {p p' : Value Procedure} (hp : p.Like worded Eq p') {vs vs' : List (Value Procedure)}
    (hvs : List.Forall₂ (Value.Like worded Eq) vs vs') :
    Within (Value.Like worded Eq) (Evaluator.apply enter p vs) (Evaluator.apply enter' p' vs') := by
  cases hp with
  | primitive p => exact .primitive p hvs
  | closure f _ code => exact henter code f hvs
  | _ => exact .fail (.notAProcedure (by constructor <;> assumption))

namespace Datum

section Forms

variable {enter enter' : Entering} {f : FrameId} {rest rest' : Datum}

/-- Evaluating one datum lies within evaluating the other. -/
def Evaluates (enter enter' : Entering) (f : FrameId) (d d' : Datum) : Prop :=
  Within (Value.Like worded Eq) (d.evaluate enter f) (d'.evaluate enter' f)

theorem evaluateQuote_within (h : rest.Alike rest') :
    Within (Value.Like worded Eq) rest.evaluateQuote rest'.evaluateQuote := by
  cases h with
  | pair car _ =>
      simp only [evaluateQuote]
      apply Within.make
      intro tag
      rw [Value.ofDatum_alike car tag]
      exact .ofDatum worded Eq tag tag _
  | _ => exact .giveUp _

theorem evaluateLambda_within (h : rest.Alike rest') :
    Within (Value.Like worded Eq) (rest.evaluateLambda f) (rest'.evaluateLambda f) := by
  cases h with
  | pair formals body => exact .closure ⟨formals.names_eq, body.elements⟩
  | _ => exact .giveUp _

variable (ih : ∀ d d', sizeOf d < sizeOf rest → d.Alike d' → Evaluates enter enter' f d d')
include ih

theorem parts_within {ds ds' : List Datum} (h : List.Forall₂ Alike ds ds')
    (hsize : ∀ d ∈ ds, sizeOf d < sizeOf rest) :
    List.Forall₂ (Within (Value.Like worded Eq)) (ds.map (evaluate enter f))
      (ds'.map (evaluate enter' f)) := by
  induction h with
  | nil => exact .nil
  | @cons d d' _ _ head _ ihtail =>
      exact .cons (ih d d' (hsize d List.mem_cons_self) head)
        (ihtail fun d hd => hsize d (List.mem_cons_of_mem _ hd))

theorem evaluateEach_within (h : rest.Alike rest') :
    List.Forall₂ (Within (Value.Like worded Eq)) (rest.evaluateEach enter f)
      (rest'.evaluateEach enter' f) := by
  rw [evaluateEach_eq_map, evaluateEach_eq_map]
  exact parts_within ih h.elements fun _ => sizeOf_lt_of_mem_elements

theorem evaluateDefine_within (h : rest.Alike rest') :
    Within (Value.Like worded Eq) (rest.evaluateDefine enter f)
      (rest'.evaluateDefine enter' f) := by
  cases h with
  | pair hheader hbody =>
      cases hheader with
      | symbol name =>
          cases hbody with
          | pair hvalue _ =>
              simp only [evaluateDefine]
              exact (ih _ _ (by simp; omega) hvalue).bind fun _ _ hv => .define name hv
          | _ => exact .giveUp _
      | pair hname hformals =>
          cases hname with
          | symbol name =>
              simp only [evaluateDefine]
              exact (Within.closure ⟨hformals.names_eq, hbody.elements⟩).bind fun _ _ hv =>
                .define name hv
          | _ => exact .giveUp _
      | _ => exact .giveUp _
  | _ => exact .giveUp _

theorem evaluateSet_within (h : rest.Alike rest') :
    Within (Value.Like worded Eq) (rest.evaluateSet enter f) (rest'.evaluateSet enter' f) := by
  cases h with
  | pair hname hvalue =>
      cases hname with
      | symbol name =>
          cases hvalue with
          | pair hvalue _ =>
              simp only [evaluateSet]
              exact (ih _ _ (by simp; omega) hvalue).bind fun _ _ hv => .assign name hv
          | _ => exact .giveUp _
      | _ => exact .giveUp _
  | _ => exact .giveUp _

theorem evaluateIf_within (h : rest.Alike rest') :
    Within (Value.Like worded Eq) (rest.evaluateIf enter f) (rest'.evaluateIf enter' f) := by
  cases h with
  | pair htest hrest =>
      cases hrest with
      | pair hconsequent hrest =>
          cases hrest with
          | pair halternative _ =>
              simp only [evaluateIf]
              apply (ih _ _ (by simp; omega) htest).bind
              intro v v' hv
              rw [hv.isTrue_eq]
              split
              · exact ih _ _ (by simp; omega) hconsequent
              · exact ih _ _ (by simp; omega) halternative
          | _ => exact .giveUp _
      | _ => exact .giveUp _
  | _ => exact .giveUp _

theorem evaluateLet_within (henter : EnterWithin enter enter') (h : rest.Alike rest') :
    Within (Value.Like worded Eq) (rest.evaluateLet enter f) (rest'.evaluateLet enter' f) := by
  cases h with
  | pair hbindings hbody =>
      simp only [evaluateLet, evaluateBound_eq_map]
      apply (Within.closure ⟨hbindings.boundNames_eq, hbody.elements⟩).bind
      intro p p' hp
      have hvalues := parts_within ih hbindings.boundValues (by
        intro e he
        have := sizeOf_lt_of_mem_boundValues he
        simp
        omega)
      exact (Within.fromLast hvalues).bind fun _ _ hvs => .apply henter hp hvs
  | _ => exact .giveUp _

end Forms

/-- By induction on a form, it is evaluated as an alike form is. -/
theorem evaluate_within {enter enter' : Entering} (henter : EnterWithin enter enter') (f : FrameId)
    {d d' : Datum} (h : d.Alike d') : Evaluates enter enter' f d d' := by
  -- On size again, as for the wholeness of forms.
  induction hsize : sizeOf d using Nat.strongRecOn generalizing d d' with
  | ind size ih =>
      subst hsize
      unfold Evaluates
      cases h with
      | literal value =>
          simp only [evaluate]
          exact .make fun tag => .ofLiteral worded Eq tag tag value
      | @vector m m' items items' same =>
          simp only [evaluate]
          apply Within.make
          intro tag
          rw [Value.ofDatum_alike (.vector same) tag]
          exact .ofDatum worded Eq tag tag _
      | symbol name =>
          simp only [evaluate]
          exact .lookup name
      | empty =>
          simp only [evaluate]
          exact .giveUp _
      | @pair m m' head head' rest rest' hhead hrest =>
          have hsmaller : ∀ e e', sizeOf e < sizeOf rest → e.Alike e' →
              Evaluates enter enter' f e e' :=
            fun e e' he halike => ih _ (by simp; omega) halike rfl
          simp only [evaluate, hhead.symbolName?_eq]
          split
          · exact evaluateQuote_within hrest
          · exact evaluateLambda_within hrest
          · exact evaluateDefine_within hsmaller hrest
          · exact evaluateSet_within hsmaller hrest
          · exact evaluateIf_within hsmaller hrest
          · exact .inOrder (evaluateEach_within hsmaller hrest)
          · exact evaluateLet_within hsmaller henter hrest
          · apply (ih _ (by simp; omega) hhead rfl).bind
            intro p p' hp
            apply (Within.fromLast (evaluateEach_within hsmaller hrest)).bind
            intro vs vs' hvs
            exact .apply henter hp hvs

end Datum

theorem map_evaluate_within {enter enter' : Entering} (henter : EnterWithin enter enter')
    (f : FrameId) {ds ds' : List Datum} (h : List.Forall₂ Datum.Alike ds ds') :
    List.Forall₂ (Within (Value.Like worded Eq)) (ds.map (Datum.evaluate enter f))
      (ds'.map (Datum.evaluate enter' f)) := by
  rw [List.forall₂_map_left_iff, List.forall₂_map_right_iff]
  exact h.imp fun _ _ hd => Datum.evaluate_within henter f hd

/-- Procedures that may be entered deeper within each other do the same where they end. -/
theorem Procedure.enter_within {depth depth' : Nat} (h : depth ≤ depth') :
    EnterWithin (enter depth) (enter depth') := by
  induction depth generalizing depth' with
  | zero => exact fun _ _ _ _ _ _ _ => .giveUp _
  | succ depth ih =>
      intro p q hpq f vs vs' hvs
      -- Then the other may enter a procedure as well, and the bodies are evaluated one level less deep.
      obtain ⟨depth', rfl⟩ : ∃ k, depth' = k + 1 := ⟨depth' - 1, by omega⟩
      rw [enter, enter, hpq.formals, hvs.length_eq]
      split
      · apply (Within.newFrame q.formals hvs).bind
        rintro g _ rfl
        exact .inOrder (map_evaluate_within (ih (by omega)) g hpq.body)
      · exact .fail (.arityMismatch _ _)

/-- Alike forms evaluate alike, if procedures may be entered at least as deep. -/
theorem evaluateForms_within {depth depth' : Nat} (h : depth ≤ depth') {forms forms' : List Datum}
    (hforms : List.Forall₂ Datum.Alike forms forms') :
    Within (Value.Like worded Eq) (evaluateForms depth forms) (evaluateForms depth' forms') :=
  .inOrder (map_evaluate_within (Procedure.enter_within h) Machine.global hforms)

/-! ## Forms after each other -/

theorem Evaluator.inOrder_append {α : Type} {xs ys : List (Evaluator α)} (hxs : xs ≠ [])
    (hys : ys ≠ []) : inOrder (xs ++ ys) = inOrder xs >>= fun _ => inOrder ys := by
  induction xs with
  | nil => exact absurd rfl hxs
  | cons x xs ih =>
      obtain ⟨y, ys', rfl⟩ := List.exists_cons_of_ne_nil hys
      cases xs with
      | nil => rfl
      | cons x' xs =>
          calc inOrder (x :: (x' :: xs ++ y :: ys'))
              = x >>= fun _ => inOrder (x' :: xs ++ y :: ys') := rfl
            _ = x >>= fun _ => inOrder (x' :: xs) >>= fun _ => inOrder (y :: ys') := by
                rw [ih (List.cons_ne_nil x' xs)]
            _ = inOrder (x :: x' :: xs) >>= fun _ => inOrder (y :: ys') := (bind_assoc _ _ _).symm

theorem evaluateForms_append (depth : Nat) {forms forms' : List Datum} (h : forms ≠ [])
    (h' : forms' ≠ []) :
    evaluateForms depth (forms ++ forms') =
      evaluateForms depth forms >>= fun _ => evaluateForms depth forms' := by
  unfold evaluateForms
  rw [List.map_append]
  exact Evaluator.inOrder_append (by simpa using h) (by simpa using h')

end SchemeMachine
