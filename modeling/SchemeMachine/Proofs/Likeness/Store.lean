import SchemeMachine.Proofs.Likeness.Value
import SchemeMachine.Value.Primitive

/-!
# Alike stores and primitives applied to alike arguments

Stores are alike when they have the same frames, bound to the same names and alike values.  Names
are then found in the same frames, and binding a name or opening a frame keeps stores alike.  The
next tags of alike stores may differ.

A primitive that is applied to alike arguments fails alike or makes alike values.
-/

namespace SchemeMachine

variable {C D : Type} {K : Matching C D} {W W' : TagMatch}

/-! ## Frames -/

/-- The same names, bound in the same order to alike values. -/
def Bindings.Like (K : Matching C D) (W : TagMatch) : Bindings C → Bindings D → Prop :=
  List.Forall₂ fun x y => x.1 = y.1 ∧ x.2.Like K W y.2

namespace Bindings.Like

theorem mono (hW : W ≤ W') {bs : Bindings C} {bs' : Bindings D} (h : bs.Like K W bs') :
    bs.Like K W' bs' :=
  List.Forall₂.imp (fun _ _ ⟨hname, hvalue⟩ => ⟨hname, hvalue.mono hW⟩) h

theorem lookup {bs : Bindings C} {bs' : Bindings D} (h : bs.Like K W bs') (name : String) :
    Option.Rel (Value.Like K W) (bs.lookup name) (bs'.lookup name) := by
  induction h with
  | nil => exact .none
  | @cons x y _ _ head _ ih =>
      obtain ⟨x, v⟩ := x
      obtain ⟨y, w⟩ := y
      obtain ⟨hname, hvalue⟩ := head
      simp only at hname
      subst hname
      by_cases hx : name = x
      · simpa [List.lookup_cons, hx] using Option.Rel.some hvalue
      · have hne : (name == x) = false := by simp [hx]
        simpa only [List.lookup_cons, hne] using ih

theorem bind {bs : Bindings C} {bs' : Bindings D} (h : bs.Like K W bs') (name : String)
    {v : Value C} {w : Value D} (hv : v.Like K W w) :
    (bs.bind name v).Like K W (bs'.bind name w) := by
  induction h with
  | nil => exact .cons ⟨rfl, hv⟩ .nil
  | @cons x y _ _ head tail ih =>
      obtain ⟨x, old⟩ := x
      obtain ⟨y, old'⟩ := y
      obtain ⟨hname, hvalue⟩ := head
      simp only at hname
      subst hname
      by_cases hx : x = name
      · simp only [Bindings.bind, hx, beq_self_eq_true, if_true]
        exact .cons ⟨rfl, hv⟩ tail
      · simp only [Bindings.bind, beq_iff_eq, hx, if_false]
        exact .cons ⟨rfl, hvalue⟩ ih

theorem ofPairs (names : List String) {vs : List (Value C)} {ws : List (Value D)}
    (h : List.Forall₂ (Value.Like K W) vs ws) :
    (Bindings.ofPairs (names.zip vs)).Like K W (Bindings.ofPairs (names.zip ws)) := by
  have key : ∀ (bs : Bindings C) (bs' : Bindings D), bs.Like K W bs' →
      Bindings.Like K W
        ((names.zip vs).foldl (fun bs pair => bs.bind pair.1 pair.2) bs)
        ((names.zip ws).foldl (fun bs pair => bs.bind pair.1 pair.2) bs') := by
    induction h generalizing names with
    | nil =>
        intro bs bs' hbs
        simpa using hbs
    | cons head _ ih =>
        intro bs bs' hbs
        cases names with
        | nil => simpa using hbs
        | cons name names => exact ih names _ _ (hbs.bind name head)
  exact key [] [] .nil

end Bindings.Like

/-- Alike bindings under the same parent. -/
structure Frame.Like (K : Matching C D) (W : TagMatch) (f : Frame C) (g : Frame D) : Prop where
  bindings : f.bindings.Like K W g.bindings
  parent : f.parent = g.parent

/-- Frames of the same number are alike. -/
def Store.Like (K : Matching C D) (W : TagMatch) (s : Store C) (t : Store D) : Prop :=
  ∀ f : Nat, Option.Rel (Frame.Like K W) s.frames[f]? t.frames[f]?

namespace Store.Like

variable {s : Store C} {t : Store D}

theorem mono (hW : W ≤ W') (h : s.Like K W t) : s.Like K W' t :=
  fun f => optionRel_mono (fun _ _ hf => ⟨hf.bindings.mono hW, hf.parent⟩) (h f)

/-- Alike stores have the same frame numbers. -/
theorem size_eq (h : s.Like K W t) : s.frames.size = t.frames.size := by
  have hnone : ∀ f : Nat, s.frames.size ≤ f ↔ t.frames.size ≤ f := by
    intro f
    rw [← Array.getElem?_eq_none_iff, ← Array.getElem?_eq_none_iff]
    have hf := h f
    generalize s.frames[f]? = x at hf ⊢
    generalize t.frames[f]? = y at hf ⊢
    cases hf <;> simp
  have h₁ := (hnone s.frames.size).mp (Nat.le_refl _)
  have h₂ := (hnone t.frames.size).mpr (Nat.le_refl _)
  omega

theorem bindingsOf (h : s.Like K W t) (f : FrameId) :
    (s.bindingsOf f).Like K W (t.bindingsOf f) := by
  have hf := h f
  unfold Store.bindingsOf
  generalize s.frames[f]? = x at hf ⊢
  generalize t.frames[f]? = y at hf ⊢
  cases hf with
  | some hf => exact hf.bindings
  | none => exact .nil

theorem parentOf_eq (h : s.Like K W t) (f : FrameId) : s.parentOf f = t.parentOf f := by
  have hf := h f
  unfold Store.parentOf
  generalize s.frames[f]? = x at hf ⊢
  generalize t.frames[f]? = y at hf ⊢
  cases hf with
  | some hf => exact hf.parent
  | none => rfl

theorem chainWithin_eq (h : s.Like K W t) (bound : Nat) (f : FrameId) :
    s.chainWithin bound f = t.chainWithin bound f := by
  induction bound generalizing f with
  | zero => rfl
  | succ bound ih =>
      simp only [Store.chainWithin, h.parentOf_eq f]
      cases t.parentOf f with
      | none => rfl
      | some parent => simp only [ih parent]

/-- A name is bound in the same frame on both sides. -/
theorem binder?_eq (h : s.Like K W t) (f : FrameId) (name : String) :
    s.binder? f name = t.binder? f name := by
  unfold Store.binder? Store.chain
  rw [h.chainWithin_eq (f + 1) f]
  congr 1
  funext g
  have hg := (h.bindingsOf g).lookup name
  generalize (s.bindingsOf g).lookup name = x at hg ⊢
  generalize (t.bindingsOf g).lookup name = y at hg ⊢
  cases hg <;> rfl

/-- A name has alike values on both sides. -/
theorem lookup? (h : s.Like K W t) (f : FrameId) (name : String) :
    Option.Rel (Value.Like K W) (s.lookup? f name) (t.lookup? f name) := by
  unfold Store.lookup? Store.chain
  rw [h.chainWithin_eq (f + 1) f]
  induction t.chainWithin (f + 1) f with
  | nil => exact .none
  | cons g rest ih =>
      have hg := (h.bindingsOf g).lookup name
      simp only [List.findSome?_cons]
      generalize (s.bindingsOf g).lookup name = x at hg ⊢
      generalize (t.bindingsOf g).lookup name = y at hg ⊢
      cases hg with
      | some hv => exact .some hv
      | none => exact ih

theorem lookup (h : s.Like K W t) (f : FrameId) (name : String) :
    ResultLike (RunError.Like K W) (Value.Like K W) (s.lookup f name) (t.lookup f name) := by
  have hf := h.lookup? f name
  unfold Store.lookup
  generalize s.lookup? f name = x at hf ⊢
  generalize t.lookup? f name = y at hf ⊢
  cases hf with
  | some hv => exact .ok hv
  | none => exact .error (.unboundVariable name)

theorem define (h : s.Like K W t) (f : FrameId) (name : String) {v : Value C} {w : Value D}
    (hv : v.Like K W w) : (s.define f name v).Like K W (t.define f name w) := by
  intro g
  simp only [Store.define, Array.getElem?_modify]
  by_cases hfg : f = g
  · simp only [hfg, if_true]
    exact optionRel_map (fun _ _ hf => ⟨hf.bindings.bind name hv, hf.parent⟩) (h g)
  · simpa only [hfg, if_false] using h g

/-- A new frame gets the same number on both sides. -/
theorem push (h : s.Like K W t) {f : Frame C} {g : Frame D} (hf : f.Like K W g) :
    (s.push f).1 = (t.push g).1 ∧ (s.push f).2.Like K W (t.push g).2 := by
  refine ⟨h.size_eq, ?_⟩
  intro i
  simp only [Store.push, Array.getElem?_push, h.size_eq]
  by_cases hi : i = t.frames.size
  · simpa only [hi, if_true] using Option.Rel.some hf
  · simpa only [hi, if_false] using h i

/-- Both sides know the same primitives. -/
theorem install (h : s.Like K W t) (f : FrameId) : (s.install f).Like K W (t.install f) := by
  unfold Store.install
  induction Primitive.all generalizing s t with
  | nil => exact h
  | cons p rest ih => exact ih (h.define f p.name (.primitive p))

/-- Tags that are taken and matched to nothing leave stores alike. -/
theorem withTags (h : s.Like K W t) (m n : Tag) :
    ({ s with nextTag := m } : Store C).Like K W { t with nextTag := n } :=
  h

end Store.Like

/-! ## Primitives -/

namespace Primitive

theorem numbers_like (p : Primitive) {vs : List (Value C)} {ws : List (Value D)}
    (h : List.Forall₂ (Value.Like K W) vs ws) :
    ResultLike (RunError.Like K W) Eq (p.numbers vs) (p.numbers ws) := by
  induction h with
  | nil => exact .ok rfl
  | cons head _ ih =>
      cases head with
      | number n => exact ih.map fun _ _ hns => by rw [hns]
      | _ => exact .error (.typeMismatch _ _ (by constructor <;> assumption))

theorem divide_like (a b : Number) :
    ResultLike (RunError.Like K W) Eq (a.divide b : Except (RunError C) Number)
      (a.divide b : Except (RunError D) Number) := by
  unfold Number.divide
  split
  · exact .error .divisionByZero
  · split
    · exact .ok rfl
    · exact .ok rfl
  · exact .ok rfl

theorem quotient_like (ns : List Number) (n : Number) :
    ResultLike (RunError.Like K W) Eq
      (ns.foldlM Number.divide n : Except (RunError C) Number)
      (ns.foldlM Number.divide n : Except (RunError D) Number) := by
  induction ns generalizing n with
  | nil => exact .ok rfl
  | cons m rest ih =>
      simp only [List.foldlM_cons]
      refine (divide_like n m).bind ?_
      rintro a _ rfl
      exact ih a

/-- Arithmetic gives the same numbers and truth values on both sides. -/
theorem calculate_like (p : Primitive) (ns : List Number) :
    ResultLike (RunError.Like K W) (Value.Like K W) (p.calculate ns) (p.calculate ns) := by
  have hnumber : ∀ {x : Except (RunError C) Number} {y : Except (RunError D) Number},
      ResultLike (RunError.Like K W) Eq x y →
        ResultLike (RunError.Like K W) (Value.Like K W) (x.map .number) (y.map .number) := by
    intro x y h
    refine h.map ?_
    rintro n _ rfl
    exact .number n
  cases p with
  | add => exact .ok (.number _)
  | multiply => exact .ok (.number _)
  | subtract =>
      match ns with
      | [] => exact .error (.arityMismatch _ _)
      | [_] => exact .ok (.number _)
      | _ :: _ :: _ => exact .ok (.number _)
  | divide =>
      match ns with
      | [] => exact .error (.arityMismatch _ _)
      | [n] => exact hnumber (divide_like (.int 1) n)
      | m :: n :: rest => exact hnumber (quotient_like (n :: rest) m)
  | equal | less | greater | lessOrEqual | greaterOrEqual => exact .ok (.boolean _)
  | _ => exact .error (.arityMismatch _ _)

/-- A primitive that is run on alike arguments fails alike or makes alike values. -/
theorem run_like [BEq C] [BEq D] (hK : K.Faithful) (hW : Relator.BiUnique W) (p : Primitive)
    {vs : List (Value C)} {ws : List (Value D)} (h : List.Forall₂ (Value.Like K W) vs ws)
    (s t : Tag) :
    ResultLike (RunError.Like K W) (Made K W s t) (p.run vs s) (p.run ws t) := by
  -- What the primitives without a case of their own do, and all others on a wrong number of arguments.
  have hnumeric : ResultLike (RunError.Like K W) (Made K W s t)
      (do let result ← p.calculate (← p.numbers vs); return (result, s))
      (do let result ← p.calculate (← p.numbers ws); return (result, t)) := by
    refine (numbers_like p h).bind ?_
    rintro ns _ rfl
    exact (calculate_like p ns).bind fun _ _ hv => .ok (.old hv)
  cases p with
  | list => exact .ok (.ofList h)
  | cons =>
      match h with
      | .nil => exact hnumeric
      | .cons _ .nil => exact hnumeric
      | .cons ha (.cons hd .nil) =>
          refine .ok ⟨1, rfl, rfl, ?_⟩
          exact .pair (W.grow_last s t 0) (ha.mono (W.le_grow s t 1)) (hd.mono (W.le_grow s t 1))
      | .cons _ (.cons _ (.cons _ _)) => exact hnumeric
  | car =>
      match h with
      | .nil => exact hnumeric
      | .cons hv .nil =>
          cases hv with
          | pair _ ha _ => exact .ok (.old ha)
          | _ => exact .error (.typeMismatch _ _ (by constructor <;> assumption))
      | .cons hv (.cons _ _) => cases hv <;> exact hnumeric
  | cdr =>
      match h with
      | .nil => exact hnumeric
      | .cons hv .nil =>
          cases hv with
          | pair _ _ hd => exact .ok (.old hd)
          | _ => exact .error (.typeMismatch _ _ (by constructor <;> assumption))
      | .cons hv (.cons _ _) => cases hv <;> exact hnumeric
  | isNull =>
      match h with
      | .nil => exact hnumeric
      | .cons hv .nil => cases hv <;> exact .ok (.old (.boolean _))
      | .cons _ (.cons _ _) => exact hnumeric
  | isPair =>
      match h with
      | .nil => exact hnumeric
      | .cons hv .nil => cases hv <;> exact .ok (.old (.boolean _))
      | .cons _ (.cons _ _) => exact hnumeric
  | isEq =>
      match h with
      | .nil => exact hnumeric
      | .cons _ .nil => exact hnumeric
      | .cons hv (.cons hv' .nil) =>
          simp only [Primitive.run, hv.identical_eq hK hW hv']
          exact .ok (.old (.boolean _))
      | .cons _ (.cons _ (.cons _ _)) => exact hnumeric
  | not =>
      match h with
      | .nil => exact hnumeric
      | .cons hv .nil =>
          simp only [Primitive.run, hv.isTrue_eq]
          exact .ok (.old (.boolean _))
      | .cons _ (.cons _ _) => exact hnumeric
  | _ => exact hnumeric

theorem apply_like [BEq C] [BEq D] (hK : K.Faithful) (hW : Relator.BiUnique W) (p : Primitive)
    {vs : List (Value C)} {ws : List (Value D)} (h : List.Forall₂ (Value.Like K W) vs ws)
    (s t : Tag) :
    ResultLike (RunError.Like K W) (Made K W s t) (p.apply vs s) (p.apply ws t) := by
  unfold Primitive.apply
  rw [h.length_eq]
  split
  · exact run_like hK hW p h s t
  · exact .error (.arityMismatch _ _)

end Primitive
end SchemeMachine
