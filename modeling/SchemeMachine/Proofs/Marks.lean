import SchemeMachine.Proofs.Reading.Layout
import SchemeMachine.Proofs.Simulation.Forms
import SchemeMachine.Proofs.Wholeness

/-!
# Marks do not matter

Data are alike when they are the same but for their marks.  Alike data have the same elements and
bind the same names, they denote the same values, and both can be compiled or neither.
-/

namespace SchemeMachine

/-! ## Alike data -/

/-- The same data but for the marks. -/
inductive Datum.Alike : Datum → Datum → Prop
  | pair {m m' : Mark} {a a' d d' : Datum} (car : Alike a a') (cdr : Alike d d') :
      Alike (.pair m a d) (.pair m' a' d')
  | empty {m m' : Mark} : Alike (.empty m) (.empty m')
  | symbol {m m' : Mark} (name : String) : Alike (.symbol m name) (.symbol m' name)
  | literal {m m' : Mark} (value : Literal) : Alike (.literal m value) (.literal m' value)
  | vector {m m' : Mark} {items items' : List Datum}
      (same : Datum.unmarkedAll items = Datum.unmarkedAll items') :
      Alike (.vector m items) (.vector m' items')

namespace Datum

theorem alike_of_unmarked_eq : ∀ {d d' : Datum}, d.unmarked = d'.unmarked → d.Alike d'
  | .pair m a d, d', h => by
      cases d' with
      | pair m' a' d' =>
          simp only [unmarked, pair.injEq, true_and] at h
          exact .pair (alike_of_unmarked_eq h.1) (alike_of_unmarked_eq h.2)
      | _ => simp [unmarked] at h
  | .empty m, d', h => by
      cases d' with
      | empty m' => exact .empty
      | _ => simp [unmarked] at h
  | .symbol m name, d', h => by
      cases d' with
      | symbol m' name' =>
          simp only [unmarked, symbol.injEq, true_and] at h
          subst h
          exact .symbol name
      | _ => simp [unmarked] at h
  | .literal m value, d', h => by
      cases d' with
      | literal m' value' =>
          simp only [unmarked, literal.injEq, true_and] at h
          subst h
          exact .literal value
      | _ => simp [unmarked] at h
  | .vector m items, d', h => by
      cases d' with
      | vector m' items' =>
          simp only [unmarked, vector.injEq, true_and] at h
          exact .vector h
      | _ => simp [unmarked] at h

namespace Alike

variable {d d' : Datum}

theorem refl (d : Datum) : d.Alike d :=
  alike_of_unmarked_eq rfl

theorem unmarked_eq (h : d.Alike d') : d.unmarked = d'.unmarked := by
  induction h with
  | pair _ _ iha ihd => rw [unmarked, unmarked, iha, ihd]
  | empty => rw [unmarked, unmarked]
  | symbol name => rw [unmarked, unmarked]
  | literal value => rw [unmarked, unmarked]
  | vector same => rw [unmarked, unmarked, same]

theorem symm (h : d.Alike d') : d'.Alike d :=
  alike_of_unmarked_eq h.unmarked_eq.symm

theorem symbolName?_eq (h : d.Alike d') : d.symbolName? = d'.symbolName? := by
  cases h <;> rfl

theorem items? (h : d.Alike d') : Option.Rel (List.Forall₂ Alike) d.items? d'.items? := by
  induction h with
  | pair car _ _ ih => exact optionRel_map (fun _ _ rest => .cons car rest) ih
  | empty => exact .some .nil
  | _ => exact .none

theorem elements (h : d.Alike d') : List.Forall₂ Alike d.elements d'.elements := by
  induction h with
  | pair car _ _ ih => exact .cons car ih
  | _ => exact .nil

theorem filterMap_eq {α : Type} {f : Datum → Option α} (hf : ∀ d d', d.Alike d' → f d = f d')
    {ds ds' : List Datum} (h : List.Forall₂ Alike ds ds') : ds.filterMap f = ds'.filterMap f := by
  induction h with
  | nil => rfl
  | cons head _ ih => rw [List.filterMap_cons, List.filterMap_cons, hf _ _ head, ih]

theorem names_eq (h : d.Alike d') : d.names = d'.names :=
  filterMap_eq (fun _ _ => symbolName?_eq) h.elements

theorem first?_eq (h : d.Alike d') :
    d.first?.bind symbolName? = d'.first?.bind symbolName? := by
  cases h with
  | pair car _ => exact car.symbolName?_eq
  | _ => rfl

theorem boundNames_eq (h : d.Alike d') : d.boundNames = d'.boundNames :=
  filterMap_eq (fun _ _ => first?_eq) h.elements

theorem boundValues (h : d.Alike d') : List.Forall₂ Alike d.boundValues d'.boundValues := by
  induction h with
  | pair car _ _ ih =>
      cases car with
      | pair _ cdr =>
          cases cdr with
          | pair value _ => exact .cons value ih
          | _ => exact .nil
      | _ => exact .nil
  | _ => exact .nil

end Alike
end Datum

namespace Value

variable {C : Type}

mutual

theorem ofDatum_unmarked (tag : Tag) :
    ∀ d : Datum, (ofDatum tag d.unmarked : Value C × Tag) = ofDatum tag d
  | .pair m a d => by
      rw [Datum.unmarked, ofDatum, ofDatum, ofDatum_unmarked tag a]
      simp only [ofDatum_unmarked _ d]
  | .empty m => by rw [Datum.unmarked, ofDatum, ofDatum]
  | .symbol m name => by rw [Datum.unmarked, ofDatum, ofDatum]
  | .literal m value => by rw [Datum.unmarked, ofDatum, ofDatum]
  | .vector m items => by
      rw [Datum.unmarked, ofDatum, ofDatum, ofData_unmarkedAll tag items]

theorem ofData_unmarkedAll (tag : Tag) :
    ∀ ds : List Datum, (ofData tag (Datum.unmarkedAll ds) : List (Value C) × Tag) = ofData tag ds
  | [] => by rw [Datum.unmarkedAll]
  | d :: ds => by
      rw [Datum.unmarkedAll, ofData, ofData, ofDatum_unmarked tag d]
      simp only [ofData_unmarkedAll _ ds]

end

/-- Alike data denote the same value. -/
theorem ofDatum_alike {d d' : Datum} (h : d.Alike d') (tag : Tag) :
    (ofDatum tag d : Value C × Tag) = ofDatum tag d' := by
  rw [← ofDatum_unmarked, h.unmarked_eq, ofDatum_unmarked]

end Value

/-! ## Alike data as programs -/

namespace Expression

/-- Both sides fail, or both find the same. -/
def Agree {α : Type} : Except Fault α → Except Fault α → Prop :=
  ResultLike (fun _ _ => True) Eq

theorem formalNames_agree {ds ds' : List Datum} (h : List.Forall₂ Datum.Alike ds ds') :
    ∀ seen, Agree (formalNames seen ds) (formalNames seen ds') := by
  induction h with
  | nil => exact fun _ => .ok rfl
  | cons head _ ih =>
      intro seen
      rw [formalNames, formalNames, head.symbolName?_eq]
      split
      · exact .error trivial
      · split
        · exact .error trivial
        · exact (ih _).map fun _ _ hnames => by rw [hnames]

theorem lambdaFormals_agree {formals formals' : Datum} (h : formals.Alike formals') :
    Agree (lambdaFormals formals) (lambdaFormals formals') := by
  have hitems := h.items?
  unfold lambdaFormals
  generalize formals.items? = x at hitems ⊢
  generalize formals'.items? = y at hitems ⊢
  cases hitems with
  | none => exact .error trivial
  | some hitems => exact formalNames_agree hitems []

theorem headerFormals_agree {header header' : Datum} (h : header.Alike header') :
    Agree (headerFormals header) (headerFormals header') := by
  have hitems := h.items?
  unfold headerFormals
  generalize header.items? = x at hitems ⊢
  generalize header'.items? = y at hitems ⊢
  cases hitems with
  | none => exact .error trivial
  | some hitems =>
      cases hitems with
      | nil => exact .error trivial
      | cons head tail =>
          simp only [head.symbolName?_eq]
          split
          · exact .error trivial
          · exact (formalNames_agree tail []).map fun _ _ hnames => by rw [hnames]

theorem bindingName?_alike {d d' : Datum} (h : d.Alike d') :
    Option.Rel Datum.Alike (bindingName? d) (bindingName? d') := by
  cases h with
  | pair car cdr =>
      cases car with
      | symbol name =>
          cases cdr with
          | pair value rest =>
              cases rest with
              | empty => exact .some (.symbol name)
              | _ => exact .none
          | _ => exact .none
      | _ => exact .none
  | _ => exact .none

theorem bindingNames_alike {ds ds' : List Datum} (h : List.Forall₂ Datum.Alike ds ds') :
    ResultLike (fun _ _ => True) (List.Forall₂ Datum.Alike) (bindingNames ds)
      (bindingNames ds') := by
  induction h with
  | nil => exact .ok .nil
  | @cons d d' _ _ head _ ih =>
      have hname := bindingName?_alike head
      rw [bindingNames, bindingNames]
      generalize bindingName? d = x at hname ⊢
      generalize bindingName? d' = y at hname ⊢
      cases hname with
      | none => exact .error trivial
      | some hname => exact ih.map fun _ _ hnames => .cons hname hnames

theorem bindingFormals_agree {bindings bindings' : Datum} (h : bindings.Alike bindings') :
    Agree (bindingFormals bindings) (bindingFormals bindings') := by
  have hitems := h.items?
  unfold bindingFormals
  generalize bindings.items? = x at hitems ⊢
  generalize bindings'.items? = y at hitems ⊢
  cases hitems with
  | none => exact .error trivial
  | some hitems =>
      exact (bindingNames_alike hitems).bind fun _ _ hnames => formalNames_agree hnames []

section Whole

variable {rest rest' : Datum} (span span' : Option Span)

theorem ofQuote_isWhole (h : rest.Alike rest') :
    (ofQuote span rest).isWhole = (ofQuote span' rest').isWhole := by
  cases h with
  | pair car cdr => cases cdr <;> rfl
  | _ => rfl

variable (ih : ∀ d d', sizeOf d < sizeOf rest → d.Alike d' →
  (ofDatum d).isWhole = (ofDatum d').isWhole)
include ih

theorem allWhole_map {ds ds' : List Datum} (h : List.Forall₂ Datum.Alike ds ds')
    (hsize : ∀ d ∈ ds, sizeOf d < sizeOf rest) :
    allWhole (ds.map ofDatum) = allWhole (ds'.map ofDatum) := by
  induction h with
  | nil => rfl
  | @cons d d' ds ds' head _ ihtail =>
      rw [List.map_cons, List.map_cons, allWhole, allWhole,
        ih d d' (hsize d List.mem_cons_self) head,
        ihtail fun d hd => hsize d (List.mem_cons_of_mem _ hd)]

theorem ofItems_isWhole {a a' d d' : Datum} (ha : a.Alike a') (hd : d.Alike d')
    (hsize : sizeOf a + sizeOf d < sizeOf rest) :
    allWhole (ofDatum a :: ofItems d) = allWhole (ofDatum a' :: ofItems d') := by
  rw [ofItems_eq_map, ofItems_eq_map, ← List.map_cons, ← List.map_cons]
  apply allWhole_map ih (.cons ha hd.elements)
  intro e he
  rcases List.mem_cons.mp he with rfl | he
  · omega
  · have := Datum.sizeOf_lt_of_mem_elements he
    omega

theorem ofLambda_isWhole (h : rest.Alike rest') :
    (ofLambda span rest).isWhole = (ofLambda span' rest').isWhole := by
  cases h with
  | pair hformals hbody =>
      cases hbody with
      | pair ha hd =>
          have hagree := lambdaFormals_agree hformals
          have hwhole := ofItems_isWhole ih ha hd (by simp; omega)
          rw [ofLambda, ofLambda]
          generalize lambdaFormals _ = x at hagree ⊢
          generalize lambdaFormals _ = y at hagree ⊢
          cases hagree with
          | error _ => rfl
          | ok _ => exact hwhole
      | _ => rfl
  | _ => rfl

theorem ofSet_isWhole (h : rest.Alike rest') :
    (ofSet span rest).isWhole = (ofSet span' rest').isWhole := by
  cases h with
  | pair hname hvalue =>
      cases hvalue with
      | pair hvalue hend =>
          cases hend with
          | empty =>
              cases hname with
              | symbol name => exact ih _ _ (by simp; omega) hvalue
              | _ => rfl
          | _ => cases hname <;> rfl
      | _ => cases hname <;> rfl
  | _ => rfl

theorem ofCond_isWhole (h : rest.Alike rest') :
    (ofCond span rest).isWhole = (ofCond span' rest').isWhole := by
  cases h with
  | pair htest hrest =>
      cases hrest with
      | pair hconsequent hrest =>
          cases hrest with
          | pair halternative hend =>
              cases hend with
              | empty =>
                  rw [ofCond, ofCond, isWhole, isWhole, ih _ _ (by simp; omega) htest,
                    ih _ _ (by simp; omega) hconsequent, ih _ _ (by simp; omega) halternative]
              | _ => rfl
          | _ => rfl
      | _ => rfl
  | _ => rfl

theorem ofBegin_isWhole (h : rest.Alike rest') :
    (ofBegin span rest).isWhole = (ofBegin span' rest').isWhole := by
  cases h with
  | pair ha hd =>
      apply ofItems_isWhole ih ha hd
      rw [Datum.pair.sizeOf_spec]
      omega
  | _ => rfl

theorem ofDefine_isWhole (h : rest.Alike rest') :
    (ofDefine span rest).isWhole = (ofDefine span' rest').isWhole := by
  cases h with
  | pair hheader hbody =>
      cases hbody with
      | pair ha hd =>
          have hagree := headerFormals_agree hheader
          have hwhole := ofItems_isWhole ih ha hd (by simp; omega)
          cases hheader with
          | symbol name =>
              cases hd with
              | empty => exact ih _ _ (by simp; omega) ha
              | _ => rfl
          | _ =>
              simp only [ofDefine]
              generalize headerFormals _ = x at hagree ⊢
              generalize headerFormals _ = y at hagree ⊢
              cases hagree with
              | error _ => rfl
              | ok hnames =>
                  cases hnames
                  exact hwhole
      | _ => cases hheader <;> rfl
  | _ => rfl

theorem ofBinding_isWhole (h : rest.Alike rest') :
    (ofBinding span rest).isWhole = (ofBinding span' rest').isWhole := by
  cases h with
  | pair hbindings hbody =>
      cases hbody with
      | pair ha hd =>
          have hagree := bindingFormals_agree hbindings
          have hwhole := ofItems_isWhole ih ha hd (by simp; omega)
          have hvalues := allWhole_map ih hbindings.boundValues (by
            intro e he
            have := Datum.sizeOf_lt_of_mem_boundValues he
            simp
            omega)
          rw [ofBinding, ofBinding, ofValues_eq_map, ofValues_eq_map]
          generalize bindingFormals _ = x at hagree ⊢
          generalize bindingFormals _ = y at hagree ⊢
          cases hagree with
          | error _ => rfl
          | ok _ => simp only [isWhole, hwhole, hvalues]
      | _ => rfl
  | _ => rfl

end Whole

/-- Alike data are both whole as programs, or neither is. -/
theorem ofDatum_isWhole {d d' : Datum} (h : d.Alike d') :
    (ofDatum d).isWhole = (ofDatum d').isWhole := by
  -- The values that `let` binds lie two levels inside the form, so the induction is on size.
  induction hsize : sizeOf d using Nat.strongRecOn generalizing d d' with
  | ind size ih =>
      subst hsize
      cases h with
      | literal value => rfl
      | vector same => rfl
      | symbol name => rfl
      | empty => rfl
      | @pair m m' head head' rest rest' hhead hrest =>
          -- Parts of forms lie at several depths in `rest`, so the induction goes by size.
          have hsmaller : ∀ e e', sizeOf e < sizeOf rest → e.Alike e' →
              (ofDatum e).isWhole = (ofDatum e').isWhole :=
            fun e e' he halike => ih _ (by simp; omega) halike rfl
          have hproper : rest.items?.isNone = rest'.items?.isNone := by
            have hitems := hrest.items?
            generalize rest.items? = x at hitems ⊢
            generalize rest'.items? = y at hitems ⊢
            cases hitems <;> rfl
          rw [ofDatum, ofDatum, hproper, hhead.symbolName?_eq]
          split
          · rfl
          · split
            · exact ofQuote_isWhole _ _ hrest
            · exact ofLambda_isWhole _ _ hsmaller hrest
            · exact ofDefine_isWhole _ _ hsmaller hrest
            · exact ofSet_isWhole _ _ hsmaller hrest
            · exact ofCond_isWhole _ _ hsmaller hrest
            · exact ofBegin_isWhole _ _ hsmaller hrest
            · exact ofBinding_isWhole _ _ hsmaller hrest
            · rw [isWhole, isWhole, ofItems_eq_map, ofItems_eq_map, ih _ (by simp; omega) hhead rfl,
                allWhole_map hsmaller hrest.elements fun e he => Datum.sizeOf_lt_of_mem_elements he]

end Expression
end SchemeMachine
