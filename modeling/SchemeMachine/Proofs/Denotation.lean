import Mathlib.Data.Option.Basic
import SchemeMachine.Proofs.Reading.Layout
import SchemeMachine.Value.Basic

/-!
# Data and the values they denote

A quoted datum becomes a value made of fresh objects.  Data and values are printed, compared and
taken apart as lists by functions of their own.  Here these are shown to agree: neither its text nor
its equals nor its elements tell a value from the datum it was made of.  The marks of the datum and
the tags that the objects get have no say in it.
-/

namespace SchemeMachine

/-! ## Marks -/

namespace Datum

mutual

/-- Comparison does not see marks. -/
theorem same_unmarked : ∀ a b : Datum, a.unmarked.same b.unmarked = a.same b
  | .pair m a d, b => by
      cases b with
      | pair m' a' d' => simp only [unmarked, same, same_unmarked a a', same_unmarked d d']
      | _ => simp only [unmarked, same]
  | .empty m, b => by cases b <;> simp only [unmarked, same]
  | .symbol m name, b => by cases b <;> simp only [unmarked, same]
  | .literal m value, b => by cases b <;> simp only [unmarked, same]
  | .vector m items, b => by
      cases b with
      | vector m' items' => simp only [unmarked, same, sameAll_unmarked items items']
      | _ => simp only [unmarked, same]

theorem sameAll_unmarked : ∀ xs ys : List Datum,
    sameAll (unmarkedAll xs) (unmarkedAll ys) = sameAll xs ys
  | [], ys => by cases ys <;> simp only [unmarkedAll, sameAll]
  | x :: xs, ys => by
      cases ys with
      | nil => simp only [unmarkedAll, sameAll]
      | cons y ys => simp only [unmarkedAll, sameAll, same_unmarked x y, sameAll_unmarked xs ys]

end

end Datum

namespace Value

/-! ## Texts -/

theorem textAs_ofLiteral (standing : Standing) (tag : Tag) (value : Literal) :
    ((ofLiteral tag value).1 : Value).textAs standing = standing.place value.text := by
  cases value <;> simp only [ofLiteral, textAs, Literal.text]

mutual

/-- A value prints as the datum it was made of, also as the tail of a list. -/
theorem textAs_ofDatum : ∀ (d : Datum) (standing : Standing) (tag : Tag),
    ((ofDatum tag d).1 : Value).textAs standing = d.textAs standing
  | .pair m a d, standing, tag => by
      cases standing <;>
        simp only [ofDatum, textAs, Datum.textAs, textAs_ofDatum a, textAs_ofDatum d]
  | .empty m, standing, tag => by cases standing <;> simp only [ofDatum, textAs, Datum.textAs]
  | .symbol m name, standing, tag => by simp only [ofDatum, textAs, Datum.textAs]
  | .literal m value, standing, tag => by
      rw [ofDatum, textAs_ofLiteral, Datum.textAs]
  | .vector m items, standing, tag => by
      simp only [ofDatum, textAs, Datum.textAs, itemTexts_ofData items]

theorem itemTexts_ofData : ∀ (items : List Datum) (tag : Tag),
    itemTexts (ofData tag items).1 = Datum.itemTexts items
  | [], tag => by simp only [ofData, itemTexts, Datum.itemTexts]
  | x :: xs, tag => by
      simp only [ofData, itemTexts, Datum.itemTexts, textAs_ofDatum x, itemTexts_ofData xs]

end

/-! ## Equality -/

variable {C : Type}

theorem same_ofLiteral [BEq C] (s t : Tag) (x y : Literal) :
    (ofLiteral s x).1.same ((ofLiteral t y).1 : Value C) = x.same y := by
  cases x <;> cases y <;> simp only [ofLiteral, same, Literal.same]

mutual

/-- Two values are equal exactly when the data they were made of are. -/
theorem same_ofDatum [BEq C] : ∀ (a b : Datum) (s t : Tag),
    (ofDatum s a).1.same ((ofDatum t b).1 : Value C) = a.same b
  | .pair m a d, b, s, t => by
      cases b with
      | pair m' a' d' =>
          simp only [ofDatum, same, Datum.same, same_ofDatum a a', same_ofDatum d d']
      | literal m' value => cases value <;> simp only [ofDatum, ofLiteral, same, Datum.same]
      | _ => simp only [ofDatum, same, Datum.same]
  | .empty m, b, s, t => by
      cases b with
      | literal m' value => cases value <;> simp only [ofDatum, ofLiteral, same, Datum.same]
      | _ => simp only [ofDatum, same, Datum.same]
  | .symbol m name, b, s, t => by
      cases b with
      | literal m' value => cases value <;> simp only [ofDatum, ofLiteral, same, Datum.same]
      | _ => simp only [ofDatum, same, Datum.same]
  | .literal m value, b, s, t => by
      cases b with
      | literal m' value' =>
          rw [ofDatum, ofDatum, same_ofLiteral, Datum.same]
      | _ => cases value <;> simp only [ofDatum, ofLiteral, same, Datum.same]
  | .vector m items, b, s, t => by
      cases b with
      | vector m' items' =>
          simp only [ofDatum, same, Datum.same, sameAll_ofData items items']
      | literal m' value => cases value <;> simp only [ofDatum, ofLiteral, same, Datum.same]
      | _ => simp only [ofDatum, same, Datum.same]

theorem sameAll_ofData [BEq C] : ∀ (xs ys : List Datum) (s t : Tag),
    sameAll (ofData s xs).1 ((ofData t ys).1 : List (Value C)) = Datum.sameAll xs ys
  | [], ys, s, t => by cases ys <;> simp only [ofData, sameAll, Datum.sameAll]
  | x :: xs, ys, s, t => by
      cases ys with
      | nil => simp only [ofData, sameAll, Datum.sameAll]
      | cons y ys =>
          simp only [ofData, sameAll, Datum.sameAll, same_ofDatum x y, sameAll_ofData xs ys]

end

/-- Equality found by walking down two lists side by side.  Only heads are compared by going into
them; the walk ends at the first that differ, or where one of the lists has no pair left. -/
def sideBySide [BEq C] : Value C → Value C → Bool
  | pair _ a d, pair _ a' d' => if a.same a' then sideBySide d d' else false
  | v, w => v.same w

theorem sideBySide_eq_same [BEq C] (v w : Value C) : v.sideBySide w = v.same w := by
  fun_induction sideBySide v w with
  | case1 t a d t' a' d' hheads ih => rw [same, hheads, ih, Bool.true_and]
  | case2 t a d t' a' d' hheads =>
      rw [Bool.not_eq_true] at hheads
      rw [same, hheads, Bool.false_and]
  | case3 v w hpairs => rfl

/-! ## Elements -/

/-- The elements of a list get their tags one after the other, before any of its pairs does. -/
theorem items?_ofDatum : ∀ (d : Datum) (tag : Tag),
    ((ofDatum tag d).1 : Value C).items? = d.items?.map fun items => (ofData tag items).1
  | .pair m a d, tag => by
      simp only [ofDatum, items?, Datum.items?, items?_ofDatum d, Option.map_map]
      refine congrFun (congrArg Option.map (funext fun items => ?_)) _
      simp only [Function.comp_apply, ofData]
  | .empty m, tag => by simp only [ofDatum, items?, Datum.items?, Option.map_some, ofData]
  | .symbol m name, tag => by simp only [ofDatum, items?, Datum.items?, Option.map_none]
  | .literal m value, tag => by
      cases value <;> simp only [ofDatum, ofLiteral, items?, Datum.items?, Option.map_none]
  | .vector m items, tag => by simp only [ofDatum, items?, Datum.items?, Option.map_none]

/-- Whether a value was made of a datum, whatever tags its objects have got. -/
def MadeOf (d : Datum) (v : Value C) : Prop :=
  ∃ tag, v = (ofDatum tag d).1

/-- Rows of data become rows of values, one by one. -/
theorem madeOf_ofData (items : List Datum) (tag : Tag) :
    List.Forall₂ MadeOf items ((ofData tag items).1 : List (Value C)) := by
  induction items generalizing tag with
  | nil =>
      rw [ofData]
      exact .nil
  | cons x xs ih =>
      rw [ofData]
      exact .cons ⟨tag, rfl⟩ (ih _)

/-! ## Agreement -/

/-- Data and the values made of them agree.  They print the same text.  They are equal together,
where marks and tags do not matter, reals are compared as doubles, and walking down two lists side
by side finds what going into both finds.  And both or neither are proper lists, the elements of the
one made of those of the other. -/
theorem ofDatum_agrees (a b : Datum) (s t : Tag) :
    ((ofDatum s a).1 : Value).text = a.text ∧
      ((ofDatum s a).1.same ((ofDatum t b).1 : Value) = true ↔ a.same b = true) ∧
      ((ofDatum s a).1.sideBySide ((ofDatum t b).1 : Value) = true ↔ a.same b = true) ∧
      a.same b = a.unmarked.same b.unmarked ∧
      (∀ (m m' : Mark) (x y : Float),
        (Datum.literal m (.number (.real x))).same (.literal m' (.number (.real y))) = (x == y) ∧
        (number (.real x) : Value).same (number (.real y)) = (x == y)) ∧
      Option.Rel (List.Forall₂ MadeOf) a.items? ((ofDatum s a).1 : Value).items? := by
  refine ⟨textAs_ofDatum a .alone s, ?_, ?_, (Datum.same_unmarked a b).symm, ?_, ?_⟩
  · rw [same_ofDatum]
  · rw [sideBySide_eq_same, same_ofDatum]
  · intro m m' x y
    simp only [Datum.same, Literal.same, same, Number.same, and_self]
  · rw [items?_ofDatum]
    cases a.items? with
    | none => exact .none
    | some items => exact .some (madeOf_ofData items s)

end Value
end SchemeMachine
