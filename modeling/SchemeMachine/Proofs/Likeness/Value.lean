import Mathlib.Data.List.Forall2
import Mathlib.Logic.Relator
import Mathlib.Order.Basic
import SchemeMachine.Value.Store

/-!
# Values that differ only in how they refer to code

Values, frames and errors leave open how they refer to code.  A value that refers to code in one
way and a value that refers to it in another are alike when they have the same shape, their
references to code match, and their tags match.  The tags of alike values need not be equal: what
counts is that they are matched one to one, so that the same objects are identical on both sides.

Whatever makes objects takes the same number of tags on both sides and matches them in order;
`TagMatch.grow` is the matching afterwards.
-/

namespace SchemeMachine

/-- Which references to code on one side stand for which on the other.  The code of procedures, places
to jump to and frames held as values are matched separately. -/
structure Matching (C D : Type) where
  code : C → D → Prop
  place : C → D → Prop
  frame : FrameId → FrameId → Prop

/-- Which tags on one side stand for which on the other. -/
abbrev TagMatch := Nat → Nat → Prop

namespace TagMatch

/-- The matching after `count` objects more have been made on both sides, the first of them with the
tags `s` and `t`. -/
def grow (W : TagMatch) (s t count : Nat) : TagMatch :=
  fun x y => W x y ∨ ∃ i < count, x = s + i ∧ y = t + i

theorem le_grow (W : TagMatch) (s t count : Nat) : W ≤ W.grow s t count :=
  fun _ _ h => Or.inl h

@[simp] theorem grow_zero (W : TagMatch) (s t : Nat) : W.grow s t 0 = W := by
  funext x y
  simp [grow]

theorem grow_last (W : TagMatch) (s t count : Nat) :
    W.grow s t (count + 1) (s + count) (t + count) :=
  Or.inr ⟨count, Nat.lt_succ_self count, rfl, rfl⟩

theorem grow_le_grow (W : TagMatch) (s t : Nat) {m n : Nat} (h : m ≤ n) :
    W.grow s t m ≤ W.grow s t n := by
  rintro x y (hW | ⟨i, hi, hx, hy⟩)
  · exact Or.inl hW
  · exact Or.inr ⟨i, by omega, hx, hy⟩

/-- Making objects twice is making all of them at once. -/
theorem grow_grow (W : TagMatch) (s t m n : Nat) :
    (W.grow s t m).grow (s + m) (t + m) n = W.grow s t (m + n) := by
  funext x y
  apply propext
  constructor
  · rintro ((hW | ⟨i, hi, hx, hy⟩) | ⟨i, hi, hx, hy⟩)
    · exact Or.inl hW
    · exact Or.inr ⟨i, by omega, hx, hy⟩
    · exact Or.inr ⟨m + i, by omega, by omega, by omega⟩
  · rintro (hW | ⟨i, hi, hx, hy⟩)
    · exact Or.inl (Or.inl hW)
    · by_cases him : i < m
      · exact Or.inl (Or.inr ⟨i, him, hx, hy⟩)
      · exact Or.inr ⟨i - m, by omega, by omega, by omega⟩

/-- Every matched tag is below the next tag of its side. -/
def Below (W : TagMatch) (s t : Nat) : Prop :=
  ∀ x y, W x y → x < s ∧ y < t

theorem Below.grow {W : TagMatch} {s t : Nat} (h : W.Below s t) (count : Nat) :
    (W.grow s t count).Below (s + count) (t + count) := by
  rintro x y (hW | ⟨i, hi, hx, hy⟩)
  · have := h x y hW
    omega
  · omega

/-- Fresh tags keep a one-to-one matching one to one. -/
theorem Below.biUnique_grow {W : TagMatch} {s t : Nat} (h : W.Below s t)
    (hW : Relator.BiUnique W) (count : Nat) : Relator.BiUnique (W.grow s t count) := by
  constructor
  · rintro x y z (hx | ⟨i, hi, hx, hz⟩) (hy | ⟨j, hj, hy, hz'⟩)
    · exact hW.1 hx hy
    · have := h x z hx
      omega
    · have := h y z hy
      omega
    · omega
  · rintro x y z (hy | ⟨i, hi, hx, hy⟩) (hz | ⟨j, hj, hx', hz⟩)
    · exact hW.2 hy hz
    · have := h x y hy
      omega
    · have := h x z hz
      omega
    · omega

end TagMatch

/-! ## Optional and failing results -/

theorem optionRel_mono {α β : Type} {R R' : α → β → Prop} (hR : ∀ a b, R a b → R' a b)
    {x : Option α} {y : Option β} (h : Option.Rel R x y) : Option.Rel R' x y := by
  cases h with
  | some h => exact .some (hR _ _ h)
  | none => exact .none

theorem optionRel_map {α β α' β' : Type} {R : α → β → Prop} {R' : α' → β' → Prop}
    {f : α → α'} {g : β → β'} (hfg : ∀ a b, R a b → R' (f a) (g b))
    {x : Option α} {y : Option β} (h : Option.Rel R x y) :
    Option.Rel R' (x.map f) (y.map g) := by
  cases h with
  | some h => exact .some (hfg _ _ h)
  | none => exact .none

/-- Both sides fail alike or both succeed alike. -/
inductive ResultLike {ε ε' α β : Type} (E : ε → ε' → Prop) (R : α → β → Prop) :
    Except ε α → Except ε' β → Prop
  | error {e : ε} {e' : ε'} (h : E e e') : ResultLike E R (.error e) (.error e')
  | ok {a : α} {b : β} (h : R a b) : ResultLike E R (.ok a) (.ok b)

/-- Results stay alike when both sides go on alike. -/
theorem ResultLike.bind {ε ε' α β α' β' : Type} {E : ε → ε' → Prop} {R : α → β → Prop}
    {R' : α' → β' → Prop} {x : Except ε α} {y : Except ε' β} {f : α → Except ε α'}
    {g : β → Except ε' β'} (h : ResultLike E R x y)
    (hfg : ∀ a b, R a b → ResultLike E R' (f a) (g b)) :
    ResultLike E R' (x >>= f) (y >>= g) := by
  cases h with
  | error h => exact .error h
  | ok h => exact hfg _ _ h

theorem ResultLike.map {ε ε' α β α' β' : Type} {E : ε → ε' → Prop} {R : α → β → Prop}
    {R' : α' → β' → Prop} {x : Except ε α} {y : Except ε' β} {f : α → α'} {g : β → β'}
    (h : ResultLike E R x y) (hfg : ∀ a b, R a b → R' (f a) (g b)) :
    ResultLike E R' (x.map f) (y.map g) := by
  cases h with
  | error h => exact .error h
  | ok h => exact .ok (hfg _ _ h)

variable {C D : Type}

/-- References that are compared with each other compare alike on both sides. -/
structure Matching.Faithful [BEq C] [BEq D] (K : Matching C D) : Prop where
  place : ∀ {c c' : C} {d d' : D}, K.place c d → K.place c' d' → (c == c') = (d == d')
  frame : Relator.BiUnique K.frame

/-! ## Values -/

/-- The same value, as far as references to code and tags match. -/
inductive Value.Like (K : Matching C D) (W : TagMatch) : Value C → Value D → Prop
  | unspecified : Like K W .unspecified .unspecified
  | empty : Like K W .empty .empty
  | boolean (b : Bool) : Like K W (.boolean b) (.boolean b)
  | number (n : Number) : Like K W (.number n) (.number n)
  | string {s t : Tag} (text : String) (tag : W s t) : Like K W (.string s text) (.string t text)
  | symbol (name : String) : Like K W (.symbol name) (.symbol name)
  | pair {s t : Tag} {a d : Value C} {a' d' : Value D} (tag : W s t)
      (car : Like K W a a') (cdr : Like K W d d') : Like K W (.pair s a d) (.pair t a' d')
  | vector {s t : Tag} {xs : List (Value C)} {ys : List (Value D)} (tag : W s t)
      (items : List.Forall₂ (Like K W) xs ys) : Like K W (.vector s xs) (.vector t ys)
  | primitive (p : Primitive) : Like K W (.primitive p) (.primitive p)
  | closure {s t : Tag} {c : C} {d : D} (f : FrameId) (tag : W s t) (code : K.code c d) :
      Like K W (.closure s c f) (.closure t d f)
  | label {c : C} {d : D} (place : K.place c d) : Like K W (.label c) (.label d)
  | environment {f g : FrameId} (frame : K.frame f g) :
      Like K W (.environment f) (.environment g)

namespace Value.Like

variable {K : Matching C D} {W W' : TagMatch}

/-- Induction on likeness, where the elements of vectors come with what is known of them. -/
@[elab_as_elim]
theorem elementwise {motive : (v : Value C) → (w : Value D) → v.Like K W w → Prop}
    (unspecified : motive .unspecified .unspecified .unspecified)
    (empty : motive .empty .empty .empty)
    (boolean : ∀ b, motive (.boolean b) (.boolean b) (.boolean b))
    (number : ∀ n, motive (.number n) (.number n) (.number n))
    (string : ∀ s t text (tag : W s t),
      motive (.string s text) (.string t text) (.string text tag))
    (symbol : ∀ name, motive (.symbol name) (.symbol name) (.symbol name))
    (pair : ∀ s t a d a' d' (tag : W s t) (car : a.Like K W a') (cdr : d.Like K W d'),
      motive a a' car → motive d d' cdr →
        motive (.pair s a d) (.pair t a' d') (.pair tag car cdr))
    (vector : ∀ s t xs ys (tag : W s t) (items : List.Forall₂ (Value.Like K W) xs ys),
      List.Forall₂ (fun x y => ∃ h, motive x y h) xs ys →
        motive (.vector s xs) (.vector t ys) (.vector tag items))
    (primitive : ∀ p, motive (.primitive p) (.primitive p) (.primitive p))
    (closure : ∀ s t c d f (tag : W s t) (code : K.code c d),
      motive (.closure s c f) (.closure t d f) (.closure f tag code))
    (label : ∀ c d (place : K.place c d), motive (.label c) (.label d) (.label place))
    (environment : ∀ f g (frame : K.frame f g),
      motive (.environment f) (.environment g) (.environment frame))
    {v : Value C} {w : Value D} (h : v.Like K W w) : motive v w h :=
  @Value.Like.rec C D K W motive
    (fun xs ys _ => List.Forall₂ (fun x y => ∃ h, motive x y h) xs ys)
    unspecified empty boolean number (fun text tag => string _ _ text tag) symbol
    (fun tag car cdr hcar hcdr => pair _ _ _ _ _ _ tag car cdr hcar hcdr)
    (fun tag items hitems => vector _ _ _ _ tag items hitems) primitive
    (fun f tag code => closure _ _ _ _ f tag code) (fun place => label _ _ place)
    (fun frame => environment _ _ frame) .nil
    (fun head _ hhead htail => .cons ⟨head, hhead⟩ htail) v w h

/-- Values stay alike when more tags are matched. -/
theorem mono (hW : W ≤ W') {v : Value C} {w : Value D} (h : v.Like K W w) : v.Like K W' w := by
  induction h using elementwise with
  | unspecified => exact .unspecified
  | empty => exact .empty
  | boolean b => exact .boolean b
  | number n => exact .number n
  | string s t text tag => exact .string text (hW s t tag)
  | symbol name => exact .symbol name
  | pair s t a d a' d' tag _ _ car cdr => exact .pair (hW s t tag) car cdr
  | vector s t xs ys tag _ items =>
      exact .vector (hW s t tag) (items.imp fun _ _ ⟨_, item⟩ => item)
  | primitive p => exact .primitive p
  | closure s t c d f tag code => exact .closure f (hW s t tag) code
  | label c d place => exact .label place
  | environment f g frame => exact .environment frame

theorem mono_all (hW : W ≤ W') {vs : List (Value C)} {ws : List (Value D)}
    (h : List.Forall₂ (Value.Like K W) vs ws) : List.Forall₂ (Value.Like K W') vs ws :=
  h.imp fun _ _ => mono hW

theorem isTrue_eq {v : Value C} {w : Value D} (h : v.Like K W w) : v.isTrue = w.isTrue := by
  cases h with
  | boolean b => cases b <;> rfl
  | _ => rfl

/-- Proper lists are alike element by element, and a value that is no proper list is like none
that is. -/
theorem items? {v : Value C} {w : Value D} (h : v.Like K W w) :
    Option.Rel (List.Forall₂ (Value.Like K W)) v.items? w.items? := by
  induction h using elementwise with
  | empty => exact .some .nil
  | pair s t a d a' d' tag car cdr _ ih =>
      simp only [Value.items?]
      exact optionRel_map (fun _ _ rest => .cons car rest) ih
  | _ => exact .none

theorem sameAll_eq [BEq C] [BEq D] {xs xs' : List (Value C)} {ys ys' : List (Value D)}
    (h : List.Forall₂ (fun x y => ∃ _ : x.Like K W y, ∀ {x' : Value C} {y' : Value D},
      x'.Like K W y' → x.same x' = y.same y') xs ys)
    (h' : List.Forall₂ (Value.Like K W) xs' ys') :
    Value.sameAll xs xs' = Value.sameAll ys ys' := by
  induction h generalizing xs' ys' with
  | nil => cases h' <;> rfl
  | cons head _ ih =>
      cases h' with
      | nil => rfl
      | cons head' tail' =>
          obtain ⟨_, hhead⟩ := head
          simp only [Value.sameAll, hhead head', ih tail']

/-- Alike values are equal to alike values on both sides or on neither. -/
theorem same_eq [BEq C] [BEq D] (hK : K.Faithful) (hW : Relator.BiUnique W)
    {v : Value C} {w : Value D} (h : v.Like K W w) :
    ∀ {v' : Value C} {w' : Value D}, v'.Like K W w' → v.same v' = w.same w' := by
  induction h using elementwise with
  | pair s t a d a' d' tag _ _ car cdr =>
      intro v' w' h'
      cases h' with
      | pair tag' car' cdr' => simp only [Value.same, car car', cdr cdr']
      | _ => simp only [Value.same]
  | vector s t xs ys tag _ items =>
      intro v' w' h'
      cases h' with
      | vector tag' items' => simpa only [Value.same] using sameAll_eq items items'
      | _ => simp only [Value.same]
  | closure s t c d f tag code =>
      intro v' w' h'
      cases h' with
      | closure _ tag' _ =>
          -- Procedures are compared by their tags alone, whatever their code.
          simp only [Value.same, Bool.beq_eq_decide_eq]
          exact decide_eq_decide.mpr (Relator.rel_eq hW tag tag')
      | _ => simp only [Value.same]
  | label c d place =>
      intro v' w' h'
      cases h' with
      | label place' => exact hK.place place place'
      | _ => simp only [Value.same]
  | environment f g frame =>
      intro v' w' h'
      cases h' with
      | environment frame' =>
          simp only [Value.same]
          exact decide_eq_decide.mpr (Relator.rel_eq hK.frame frame frame')
      | _ => simp only [Value.same]
  | _ =>
      intro v' w' h'
      cases h' <;> simp only [Value.same]

/-- Alike objects are identical to alike objects on both sides or on neither. -/
theorem identical_eq [BEq C] [BEq D] (hK : K.Faithful) (hW : Relator.BiUnique W)
    {v v' : Value C} {w w' : Value D} (h : v.Like K W w) (h' : v'.Like K W w') :
    v.identical v' = w.identical w' := by
  have hsame := same_eq hK hW h h'
  cases h with
  | pair tag _ _ =>
      cases h' with
      | pair tag' _ _ => exact decide_eq_decide.mpr (Relator.rel_eq hW tag tag')
      | _ => exact hsame
  | vector tag _ =>
      cases h' with
      | vector tag' _ => exact decide_eq_decide.mpr (Relator.rel_eq hW tag tag')
      | _ => exact hsame
  | string _ tag =>
      cases h' with
      | string _ tag' => exact decide_eq_decide.mpr (Relator.rel_eq hW tag tag')
      | _ => exact hsame
  | _ => exact hsame

end Value.Like

/-! ## Making values -/

/-- Values made alike: both sides have taken the same number of tags, from `s` and from `t` on, and the
values are alike once these are matched. -/
def Made (K : Matching C D) (W : TagMatch) (s t : Nat) (x : Value C × Tag) (y : Value D × Tag) :
    Prop :=
  ∃ count, x.2 = s + count ∧ y.2 = t + count ∧ x.1.Like K (W.grow s t count) y.1

namespace Made

variable {K : Matching C D} {W : TagMatch} {s t : Nat}

/-- A value that takes no tags. -/
theorem old {v : Value C} {w : Value D} (h : v.Like K W w) : Made K W s t (v, s) (w, t) :=
  ⟨0, rfl, rfl, by simpa using h⟩

theorem ofLiteral (K : Matching C D) (W : TagMatch) (s t : Nat) (l : Literal) :
    Made K W s t (Value.ofLiteral s l) (Value.ofLiteral t l) := by
  cases l with
  | number n => exact old (.number n)
  | string text => exact ⟨1, rfl, rfl, .string text (W.grow_last s t 0)⟩
  | boolean b => exact old (.boolean b)

mutual

theorem ofDatum (K : Matching C D) (W : TagMatch) (s t : Nat) :
    ∀ d : Datum, Made K W s t (Value.ofDatum s d) (Value.ofDatum t d)
  | .empty _ => by
      simp only [Value.ofDatum]
      exact old .empty
  | .symbol _ name => by
      simp only [Value.ofDatum]
      exact old (.symbol name)
  | .literal _ l => by
      simp only [Value.ofDatum]
      exact ofLiteral K W s t l
  | .pair _ a d => by
      obtain ⟨m, hs, ht, ha⟩ := ofDatum K W s t a
      obtain ⟨n, hs', ht', hd⟩ := ofDatum K (W.grow s t m) (s + m) (t + m) d
      rw [W.grow_grow] at hd
      refine ⟨m + n + 1, ?_, ?_, ?_⟩
      · simp only [Value.ofDatum, hs, hs', Nat.add_assoc]
      · simp only [Value.ofDatum, ht, ht', Nat.add_assoc]
      · simp only [Value.ofDatum, hs, ht, hs', ht', Nat.add_assoc]
        exact .pair (by simpa [Nat.add_assoc] using W.grow_last s t (m + n))
          (ha.mono (W.grow_le_grow s t (by omega))) (hd.mono (W.grow_le_grow s t (by omega)))
  | .vector _ items => by
      obtain ⟨n, hs, ht, hitems⟩ := ofData K W s t items
      refine ⟨n + 1, ?_, ?_, ?_⟩
      · simp only [Value.ofDatum, hs, Nat.add_assoc]
      · simp only [Value.ofDatum, ht, Nat.add_assoc]
      · simp only [Value.ofDatum, hs, ht]
        exact .vector (W.grow_last s t n)
          (Value.Like.mono_all (W.grow_le_grow s t (by omega)) hitems)

theorem ofData (K : Matching C D) (W : TagMatch) (s t : Nat) :
    ∀ ds : List Datum, ∃ count, (Value.ofData s ds : List (Value C) × Tag).2 = s + count ∧
      (Value.ofData t ds : List (Value D) × Tag).2 = t + count ∧
      List.Forall₂ (Value.Like K (W.grow s t count)) (Value.ofData s ds).1 (Value.ofData t ds).1
  | [] => ⟨0, by simp [Value.ofData], by simp [Value.ofData], by simp [Value.ofData]⟩
  | d :: ds => by
      obtain ⟨m, hs, ht, hd⟩ := ofDatum K W s t d
      obtain ⟨n, hs', ht', hds⟩ := ofData K (W.grow s t m) (s + m) (t + m) ds
      rw [W.grow_grow] at hds
      refine ⟨m + n, ?_, ?_, ?_⟩
      · simp only [Value.ofData, hs, hs', Nat.add_assoc]
      · simp only [Value.ofData, ht, ht', Nat.add_assoc]
      · simp only [Value.ofData, hs, ht]
        exact .cons (hd.mono (W.grow_le_grow s t (by omega))) hds

end

/-- A constant makes alike values on both sides. -/
theorem ofConstant (K : Matching C D) (W : TagMatch) (s t : Nat) (c : Constant) :
    Made K W s t (Value.ofConstant s c) (Value.ofConstant t c) := by
  cases c with
  | empty => exact old .empty
  | literal l => exact ofLiteral K W s t l
  | symbol name => exact old (.symbol name)
  | datum d => exact ofDatum K W s t d

/-- A list of alike values is made alike. -/
theorem ofList {vs : List (Value C)} {ws : List (Value D)}
    (h : List.Forall₂ (Value.Like K W) vs ws) :
    Made K W s t (Value.ofList vs s) (Value.ofList ws t) := by
  induction h with
  | nil => exact old .empty
  | cons head _ ih =>
      obtain ⟨n, hs, ht, htail⟩ := ih
      simp only [Value.ofList] at hs ht htail
      refine ⟨n + 1, ?_, ?_, ?_⟩
      · simp only [Value.ofList, List.foldr_cons, hs, Nat.add_assoc]
      · simp only [Value.ofList, List.foldr_cons, ht, Nat.add_assoc]
      · simp only [Value.ofList, List.foldr_cons, hs, ht]
        exact .pair (W.grow_last s t n) (head.mono (W.le_grow s t (n + 1)))
          (htail.mono (W.grow_le_grow s t (by omega)))

end Made

/-! ## Errors -/

/-- The same error, with alike values in it. -/
inductive RunError.Like (K : Matching C D) (W : TagMatch) : RunError C → RunError D → Prop
  | unboundVariable (name : String) : Like K W (.unboundVariable name) (.unboundVariable name)
  | arityMismatch (expected : Arity) (got : Nat) :
      Like K W (.arityMismatch expected got) (.arityMismatch expected got)
  | typeMismatch (procedure expected : String) {v : Value C} {w : Value D} (got : v.Like K W w) :
      Like K W (.typeMismatch procedure expected v) (.typeMismatch procedure expected w)
  | notAProcedure {v : Value C} {w : Value D} (value : v.Like K W w) :
      Like K W (.notAProcedure v) (.notAProcedure w)
  | divisionByZero : Like K W .divisionByZero .divisionByZero
  | notALabel {v : Value C} {w : Value D} (value : v.Like K W w) :
      Like K W (.notALabel v) (.notALabel w)
  | missingBlock (id : BlockId) : Like K W (.missingBlock id) (.missingBlock id)
  | stackUnderflow (r : Register) : Like K W (.stackUnderflow r) (.stackUnderflow r)
  | stepLimitExceeded (limit : Nat) :
      Like K W (.stepLimitExceeded limit) (.stepLimitExceeded limit)

end SchemeMachine
