import Mathlib.Data.Rat.Cast.Defs
import Mathlib.Tactic.NormNum
import SchemeMachine.Value.Primitive

/-!
# Arithmetic on integers

The arithmetic primitives fold an operation over their arguments from the left.  On integers the
fold is measured against the same fold over the rationals, where nothing overflows and every
quotient exists: the primitive stays with integers exactly as long as the rational fold does and
its partial results have 64 bits.  The first partial result that is none turns the accumulator
into a double, and a double never turns back.
-/

namespace SchemeMachine

/-- A rational that is an integer of 64 bits. -/
def FitsInt64 (q : ℚ) : Prop :=
  ∃ k : Int, (k : ℚ) = q ∧ -2 ^ 63 ≤ k ∧ k < 2 ^ 63

theorem fitsInt64_intCast_iff (k : Int) : FitsInt64 (k : ℚ) ↔ -2 ^ 63 ≤ k ∧ k < 2 ^ 63 := by
  constructor
  · rintro ⟨j, hj, hrange⟩
    rwa [Int.cast_inj.mp hj] at hrange
  · intro hrange
    exact ⟨k, rfl, hrange⟩

theorem fitsInt64_toInt (n : Int64) : FitsInt64 (n.toInt : ℚ) :=
  (fitsInt64_intCast_iff _).mpr ⟨n.le_toInt, n.toInt_lt⟩

/-- An integer quotient of integers is found by truncating division, which leaves no remainder. -/
theorem rat_div_eq_intCast_iff {x y : Int} (k : Int) (hy : y ≠ 0) :
    (x : ℚ) / y = k ↔ x.tmod y = 0 ∧ x.tdiv y = k := by
  have hcast : (x : ℚ) / y = k ↔ x = k * y := by
    rw [div_eq_iff (Int.cast_ne_zero.mpr hy)]
    exact_mod_cast Iff.rfl
  rw [hcast]
  constructor
  · rintro rfl
    exact ⟨Int.mul_tmod_left k y, Int.mul_tdiv_cancel k hy⟩
  · rintro ⟨hrem, rfl⟩
    exact (Int.tdiv_mul_cancel (Int.dvd_of_tmod_eq_zero hrem)).symm

namespace Number

variable {C : Type}

theorem int64?_eq_none_iff (k : Int) : int64? k = none ↔ ¬ FitsInt64 (k : ℚ) := by
  rw [fitsInt64_intCast_iff]
  unfold int64?
  split <;> simp <;> omega

/-- What an operation on two integers with the exact result `q` may answer: the integer `q`, or a
double where `q` is no integer of 64 bits. -/
def Answers (q : ℚ) (result : Number) : Prop :=
  (∃ n : Int64, result = int n ∧ (n.toInt : ℚ) = q) ∨ (¬ FitsInt64 q ∧ ∃ r, result = real r)

theorem combine_answers (exact : Int → Int → Int) (inexact : Float → Float → Float)
    (x y : Int64) :
    Answers (exact x.toInt y.toInt : ℚ) (combine exact inexact (int x) (int y)) := by
  simp only [combine]
  cases hfit : int64? (exact x.toInt y.toInt) with
  | some n => exact .inl ⟨n, rfl, congrArg Int.cast ((int64?_eq_some_iff _ _).mp hfit)⟩
  | none => exact .inr ⟨(int64?_eq_none_iff _).mp hfit, _, rfl⟩

theorem divide_zero (a : Number) : divide (C := C) a (int 0) = .error .divisionByZero := by
  cases a <;> rfl

theorem divide_real (r : Float) {y : Int64} (hy : y ≠ 0) :
    divide (C := C) (real r) (int y) = .ok (real (r / y.toFloat)) := by
  unfold divide
  -- The zero is a pattern of its own, so the cases are told apart before anything reduces.
  split
  next h => exact absurd (Number.int.inj h) hy
  next h _ => cases h
  next => rfl

/-- Division of integers by one that is not zero: the quotient if the division leaves no
remainder and the quotient has 64 bits, else a double. -/
theorem divide_int (x : Int64) {y : Int64} (hy : y ≠ 0) :
    divide (C := C) (int x) (int y) = .ok
      (((if x.toInt.tmod y.toInt = 0 then int64? (x.toInt.tdiv y.toInt) else none).map int).getD
        (real (x.toFloat / y.toFloat))) := by
  unfold divide
  split
  next h => exact absurd (Number.int.inj h) hy
  next ha hb =>
    cases ha
    cases hb
    split <;> simp_all
  next hother => exact (hother x y rfl rfl).elim

theorem divide_answers (x : Int64) {y : Int64} (hy : y ≠ 0) :
    ∃ result, divide (C := C) (int x) (int y) = .ok result ∧
      Answers ((x.toInt : ℚ) / y.toInt) result := by
  have hzero : y.toInt ≠ 0 := fun h => hy (Int64.toInt_inj.mp h)
  refine ⟨_, divide_int x hy, ?_⟩
  cases hquot : (if x.toInt.tmod y.toInt = 0 then int64? (x.toInt.tdiv y.toInt) else none) with
  | some n =>
    refine .inl ⟨n, rfl, ?_⟩
    split at hquot
    next hrem =>
      have hdiv := ((int64?_eq_some_iff _ _).mp hquot).symm
      exact ((rat_div_eq_intCast_iff _ hzero).mpr ⟨hrem, hdiv⟩).symm
    next => cases hquot
  | none =>
    refine .inr ⟨?_, _, rfl⟩
    rintro ⟨k, hk, hrange⟩
    obtain ⟨hrem, hdiv⟩ := (rat_div_eq_intCast_iff k hzero).mp hk.symm
    rw [if_pos hrem, int64?_eq_none_iff, hdiv] at hquot
    exact hquot ((fitsInt64_intCast_iff k).mpr hrange)

/-- The operation `f` on numbers carries out `op` on integers: the accumulator is an integer or a
double, the operand an integer, and no operand fails but a zero where zeros are refused. -/
structure Carries (refusesZero : Prop) (op : ℚ → ℚ → ℚ)
    (f : Number → Number → Except (RunError C) Number) : Prop where
  int : ∀ x y : Int64, (refusesZero → y ≠ 0) →
    ∃ result, f (.int x) (.int y) = .ok result ∧ Answers (op x.toInt y.toInt) result
  real : ∀ (r : Float) (y : Int64), (refusesZero → y ≠ 0) →
    ∃ s, f (.real r) (.int y) = .ok (.real s)
  zero : refusesZero → ∀ a, f a (.int 0) = .error .divisionByZero

theorem combine_carries {exact : Int → Int → Int} (inexact : Float → Float → Float)
    {op : ℚ → ℚ → ℚ} (hop : ∀ x y : Int, op x y = exact x y) {refusesZero : Prop}
    (htotal : ¬ refusesZero) :
    Carries (C := C) refusesZero op fun a b => .ok (combine exact inexact a b) where
  int x y _ := ⟨_, rfl, by rw [hop]; exact combine_answers exact inexact x y⟩
  real r y _ := ⟨_, rfl⟩
  zero h := (htotal h).elim

theorem divide_carries {refusesZero : Prop} (hrefuses : refusesZero) :
    Carries (C := C) refusesZero (· / ·) divide where
  int x _ hy := divide_answers x (hy hrefuses)
  real r _ hy := ⟨_, divide_real r (hy hrefuses)⟩
  zero _ a := divide_zero a

namespace Carries

variable {refusesZero : Prop} {op : ℚ → ℚ → ℚ} {f : Number → Number → Except (RunError C) Number}

/-- Doubles are never left again. -/
theorem foldlM_real (h : Carries refusesZero op f) (ys : List Int64)
    (hys : refusesZero → 0 ∉ ys) (r : Float) :
    ∃ s, (ys.map Number.int).foldlM f (.real r) = .ok (.real s) := by
  induction ys generalizing r with
  | nil => exact ⟨r, rfl⟩
  | cons y ys ih =>
    obtain ⟨t, ht⟩ := h.real r y fun hz => (List.ne_of_not_mem_cons (hys hz)).symm
    obtain ⟨s, hs⟩ := ih (fun hz => List.not_mem_of_not_mem_cons (hys hz)) t
    refine ⟨s, ?_⟩
    rw [List.map_cons, List.foldlM_cons, ht]
    exact hs

/-- A refused zero anywhere among the operands fails the fold: what stands before it does not. -/
theorem foldlM_zero (h : Carries refusesZero op f) (hrefuses : refusesZero) {ys : List Int64}
    (hmem : 0 ∈ ys) (a : Number) : (ys.map Number.int).foldlM f a = .error .divisionByZero := by
  induction ys generalizing a with
  | nil => cases hmem
  | cons y ys ih =>
    rw [List.map_cons, List.foldlM_cons]
    by_cases hy : y = 0
    · rw [hy, h.zero hrefuses]
      rfl
    · have hrest : 0 ∈ ys := (List.mem_cons.mp hmem).resolve_left fun heq => hy heq.symm
      have hstep : ∃ b, f a (.int y) = .ok b := by
        cases a with
        | int x => exact (h.int x y fun _ => hy).imp fun _ hb => hb.1
        | real r => exact (h.real r y fun _ => hy).imp' _ fun _ hb => hb
      obtain ⟨b, hb⟩ := hstep
      rw [hb]
      exact ih hrest b

/-- From an integer the fold ends in the exact integer if every partial result has 64 bits, and
in a double if one does not. -/
theorem foldlM_int (h : Carries refusesZero op f) (ys : List Int64)
    (hys : refusesZero → 0 ∉ ys) (x : Int64) :
    (∃ n : Int64, (ys.map Number.int).foldlM f (.int x) = .ok (.int n) ∧
      (n.toInt : ℚ) = ys.foldl (fun q y => op q y.toInt) x.toInt ∧
      ∀ q ∈ ys.scanl (fun q y => op q y.toInt) x.toInt, FitsInt64 q) ∨
    ∃ s, (ys.map Number.int).foldlM f (.int x) = .ok (.real s) ∧
      ∃ q ∈ ys.scanl (fun q y => op q y.toInt) x.toInt, ¬ FitsInt64 q := by
  induction ys generalizing x with
  | nil =>
    refine .inl ⟨x, rfl, rfl, ?_⟩
    rw [List.scanl_nil, List.forall_mem_singleton]
    exact fitsInt64_toInt x
  | cons y ys ih =>
    have hrest : refusesZero → 0 ∉ ys := fun hz => List.not_mem_of_not_mem_cons (hys hz)
    obtain ⟨result, hresult, hanswer⟩ :=
      h.int x y fun hz => (List.ne_of_not_mem_cons (hys hz)).symm
    simp only [List.map_cons, List.foldlM_cons, hresult, List.scanl_cons, List.foldl_cons]
    obtain ⟨m, rfl, hm⟩ | ⟨hbeyond, t, rfl⟩ := hanswer
    · rw [← hm]
      obtain ⟨n, hrun, hn, hfits⟩ | ⟨s, hrun, q, hq, hbeyond⟩ := ih hrest m
      · exact .inl ⟨n, hrun, hn, List.forall_mem_cons.mpr ⟨fitsInt64_toInt x, hfits⟩⟩
      · exact .inr ⟨s, hrun, q, List.mem_cons_of_mem _ hq, hbeyond⟩
    · -- The partial result is the first of those that are left: `scanl` starts with it.
      obtain ⟨s, hrun⟩ := h.foldlM_real ys hrest t
      refine .inr ⟨s, hrun, _, List.mem_cons_of_mem _ ?_, hbeyond⟩
      cases ys with
      | nil => simp
      | cons => simp [List.scanl_cons]

end Carries
end Number

namespace Primitive

variable {C : Type}

/-- The operation on rationals that an arithmetic primitive stands for. -/
def rational? : Primitive → Option (ℚ → ℚ → ℚ)
  | add => some (· + ·)
  | subtract => some (· - ·)
  | multiply => some (· * ·)
  | divide => some (· / ·)
  | _ => none

/-- Where an arithmetic primitive starts its fold, and what it folds over: sums and products start
from their neutral number, and so do a difference and a quotient of one argument; those of more
start from the first. -/
def parts : Primitive → List Int64 → Int64 × List Int64
  | subtract, first :: second :: rest => (first, second :: rest)
  | divide, first :: second :: rest => (first, second :: rest)
  | multiply, args => (1, args)
  | divide, args => (1, args)
  | _, args => (0, args)

/-- The partial results over the rationals, the start and the final result among them. -/
def partialResults (p : Primitive) (op : ℚ → ℚ → ℚ) (args : List Int64) : List ℚ :=
  (p.parts args).2.scanl (fun q y => op q y.toInt) (p.parts args).1.toInt

/-- The final result over the rationals. -/
def exactResult (p : Primitive) (op : ℚ → ℚ → ℚ) (args : List Int64) : ℚ :=
  (p.parts args).2.foldl (fun q y => op q y.toInt) (p.parts args).1.toInt

/-- The arguments hold an integer zero to divide by. -/
def DividesByZero (p : Primitive) (args : List Int64) : Prop :=
  p = divide ∧ 0 ∈ (p.parts args).2

theorem numbers_map_int (p : Primitive) (args : List Int64) :
    p.numbers (C := C) (args.map fun n => .number (.int n)) = .ok (args.map .int) := by
  induction args with
  | nil => rfl
  | cons n args ih =>
    rw [List.map_cons, numbers, ih]
    rfl

theorem numbers_first_other (p : Primitive) {before : List (Value C)} {v : Value C}
    (after : List (Value C)) (hbefore : ∀ b ∈ before, ∃ n, b = .number n)
    (hv : ∀ n, v ≠ .number n) :
    p.numbers (before ++ v :: after) = .error (.typeMismatch p.name "number" v) := by
  induction before with
  | nil =>
    cases v with
    | number n => exact absurd rfl (hv n)
    | _ => rfl
  | cons b before ih =>
    obtain ⟨⟨n, rfl⟩, hrest⟩ := List.forall_mem_cons.mp hbefore
    rw [List.cons_append, numbers, ih hrest]
    rfl

theorem rational?_cases {p : Primitive} {op : ℚ → ℚ → ℚ} (hp : p.rational? = some op) :
    (p = add ∧ op = (· + ·)) ∨ (p = subtract ∧ op = (· - ·)) ∨
      (p = multiply ∧ op = (· * ·)) ∨ (p = divide ∧ op = (· / ·)) := by
  cases p <;> simp_all [rational?]

theorem run_arithmetic [BEq C] {p : Primitive} {op : ℚ → ℚ → ℚ} (hp : p.rational? = some op)
    (args : List (Value C)) (tag : Tag) :
    p.run args tag = (p.numbers args >>= p.calculate).map fun result => (result, tag) := by
  obtain ⟨rfl, -⟩ | ⟨rfl, -⟩ | ⟨rfl, -⟩ | ⟨rfl, -⟩ := rational?_cases hp
  all_goals
    simp only [run]
    cases numbers _ args <;> rfl

theorem arity_accepts {p : Primitive} {op : ℚ → ℚ → ℚ} (hp : p.rational? = some op) {count : Nat}
    (hcount : count = 0 → p = add ∨ p = multiply) : p.arity.accepts count = true := by
  obtain ⟨rfl, -⟩ | ⟨rfl, -⟩ | ⟨rfl, -⟩ | ⟨rfl, -⟩ := rational?_cases hp
  all_goals simp_all [arity, Arity.accepts]
  all_goals omega

/-- Every arithmetic primitive is a fold of an operation that carries its exact one. -/
theorem calculate_folds {p : Primitive} {op : ℚ → ℚ → ℚ} (hp : p.rational? = some op) :
    ∃ f, Number.Carries (C := C) (p = divide) op f ∧
      ∀ args : List Int64, (args = [] → p = add ∨ p = multiply) →
        p.calculate (args.map .int) =
          (((p.parts args).2.map .int).foldlM f (.int (p.parts args).1)).map .number := by
  have htotal : ∀ (g : Number → Number → Number) (a : Number) (l : List Number),
      (l.foldlM (fun a b => .ok (g a b)) a : Except (RunError C) Number) = .ok (l.foldl g a) :=
    fun _ _ _ => List.foldlM_pure
  -- Differences and quotients of one argument are folds from the neutral number as well.
  obtain ⟨rfl, rfl⟩ | ⟨rfl, rfl⟩ | ⟨rfl, rfl⟩ | ⟨rfl, rfl⟩ := rational?_cases hp
  · refine ⟨_, Number.combine_carries (· + ·) (fun x y => (Int.cast_add x y).symm) (by decide), ?_⟩
    intro args _
    rw [htotal]
    rfl
  · refine ⟨_, Number.combine_carries (· - ·) (fun x y => (Int.cast_sub x y).symm) (by decide), ?_⟩
    intro args hargs
    rw [htotal]
    obtain _ | ⟨first, _ | ⟨second, rest⟩⟩ := args
    · simp at hargs
    · rfl
    · rfl
  · refine ⟨_, Number.combine_carries (· * ·) (fun x y => (Int.cast_mul x y).symm) (by decide), ?_⟩
    intro args _
    rw [htotal]
    rfl
  · refine ⟨_, Number.divide_carries rfl, ?_⟩
    intro args hargs
    obtain _ | ⟨first, _ | ⟨second, rest⟩⟩ := args
    · simp at hargs
    · simp [calculate, parts]
    · rfl

theorem apply_integers [BEq C] {p : Primitive} {op : ℚ → ℚ → ℚ} (hp : p.rational? = some op)
    {args : List Int64} (hargs : args = [] → p = add ∨ p = multiply) (tag : Tag) :
    p.apply (C := C) (args.map fun n => .number (.int n)) tag =
      (p.calculate (args.map .int)).map fun result => (result, tag) := by
  have haccepts : p.arity.accepts args.length = true :=
    arity_accepts hp fun hlength => hargs (List.eq_nil_of_length_eq_zero hlength)
  rw [apply, List.length_map, if_pos haccepts, run_arithmetic hp, numbers_map_int]
  rfl

/-- Applied to integers, an arithmetic primitive fails on a zero to divide by; otherwise it ends
in the exact integer if every partial result has 64 bits, and in a double if one does not. -/
theorem apply_integers_cases [BEq C] {p : Primitive} {op : ℚ → ℚ → ℚ} (hp : p.rational? = some op)
    {args : List Int64} (hargs : args = [] → p = add ∨ p = multiply) (tag : Tag) :
    (p.DividesByZero args ∧
      p.apply (C := C) (args.map fun n => .number (.int n)) tag = .error .divisionByZero) ∨
    (¬ p.DividesByZero args ∧ (∀ q ∈ p.partialResults op args, FitsInt64 q) ∧
      ∃ n : Int64, (n.toInt : ℚ) = p.exactResult op args ∧
        p.apply (C := C) (args.map fun n => .number (.int n)) tag =
          .ok (.number (.int n), tag)) ∨
    (¬ p.DividesByZero args ∧ (∃ q ∈ p.partialResults op args, ¬ FitsInt64 q) ∧
      ∃ r, p.apply (C := C) (args.map fun n => .number (.int n)) tag =
        .ok (.number (.real r), tag)) := by
  obtain ⟨f, hcarries, hfold⟩ := calculate_folds (C := C) hp
  rw [apply_integers hp hargs, hfold args hargs]
  by_cases hzero : p.DividesByZero args
  · refine .inl ⟨hzero, ?_⟩
    rw [hcarries.foldlM_zero hzero.1 hzero.2]
    rfl
  · have hoperands : p = divide → 0 ∉ (p.parts args).2 := fun hdivide hmem =>
      hzero ⟨hdivide, hmem⟩
    refine .inr ?_
    obtain ⟨n, hrun, hexact, hfits⟩ | ⟨r, hrun, hbeyond⟩ :=
      hcarries.foldlM_int (p.parts args).2 hoperands (p.parts args).1
    · refine .inl ⟨hzero, hfits, n, hexact, ?_⟩
      rw [hrun]
      rfl
    · refine .inr ⟨hzero, hbeyond, r, ?_⟩
      rw [hrun]
      rfl

theorem apply_first_other [BEq C] {p : Primitive} {op : ℚ → ℚ → ℚ} (hp : p.rational? = some op)
    {before : List (Value C)} {v : Value C} (after : List (Value C)) (tag : Tag)
    (hbefore : ∀ b ∈ before, ∃ n, b = .number n) (hv : ∀ n, v ≠ .number n) :
    p.apply (before ++ v :: after) tag = .error (.typeMismatch p.name "number" v) := by
  have haccepts : p.arity.accepts (before ++ v :: after).length = true :=
    arity_accepts hp fun hlength => by simp at hlength
  rw [apply, if_pos haccepts, run_arithmetic hp, numbers_first_other p after hbefore hv]
  rfl

/-- Integer arithmetic never wraps.  An arithmetic primitive applied to integers, at least one
where it is a difference or a quotient, fails exactly if it has a zero to divide by; it ends in an
integer exactly if it has none and every partial result over the rationals is an integer of 64
bits, and that integer is the exact result; else it ends in a double.  An argument that is no
number is reported, the first of them, whatever the others are. -/
theorem integer_arithmetic_never_wraps [BEq C] {p : Primitive} {op : ℚ → ℚ → ℚ}
    (hp : p.rational? = some op) :
    (∀ (args : List Int64) (tag : Tag), (args = [] → p = add ∨ p = multiply) →
      (p.apply (C := C) (args.map fun n => .number (.int n)) tag = .error .divisionByZero ↔
        p.DividesByZero args) ∧
      ((∃ n : Int64, p.apply (C := C) (args.map fun n => .number (.int n)) tag =
          .ok (.number (.int n), tag)) ↔
        ¬ p.DividesByZero args ∧ ∀ q ∈ p.partialResults op args, FitsInt64 q) ∧
      (∀ n : Int64, p.apply (C := C) (args.map fun n => .number (.int n)) tag =
          .ok (.number (.int n), tag) →
        (n.toInt : ℚ) = p.exactResult op args) ∧
      (¬ p.DividesByZero args → (∃ q ∈ p.partialResults op args, ¬ FitsInt64 q) →
        ∃ r, p.apply (C := C) (args.map fun n => .number (.int n)) tag =
          .ok (.number (.real r), tag))) ∧
    ∀ (before : List (Value C)) (v : Value C) (after : List (Value C)) (tag : Tag),
      (∀ b ∈ before, ∃ n, b = .number n) → (∀ n, v ≠ .number n) →
        p.apply (before ++ v :: after) tag = .error (.typeMismatch p.name "number" v) := by
  refine ⟨fun args tag hargs => ?_, fun before v after tag hbefore hv =>
    apply_first_other hp after tag hbefore hv⟩
  obtain ⟨hzero, hrun⟩ | ⟨hzero, hfits, n, hexact, hrun⟩ | ⟨hzero, ⟨q, hq, hbeyond⟩, r, hrun⟩ :=
    apply_integers_cases (C := C) hp hargs tag
  · simp [hrun, hzero]
  · refine ⟨by simp [hrun, hzero], ?_, ?_, ?_⟩
    · exact iff_of_true ⟨n, hrun⟩ ⟨hzero, hfits⟩
    · intro m hm
      rw [hrun] at hm
      cases hm
      exact hexact
    · rintro - ⟨q, hq, hbeyond⟩
      exact absurd (hfits q hq) hbeyond
  · refine ⟨by simp [hrun, hzero], ?_, ?_, fun _ _ => ⟨r, hrun⟩⟩
    · refine iff_of_false ?_ fun h => hbeyond (h.2 q hq)
      rintro ⟨m, hm⟩
      rw [hrun] at hm
      cases hm
    · intro m hm
      rw [hrun] at hm
      cases hm

/-- The least integer divided by `-1` is a double and stays one, though dividing by two would
bring it back into range; six divided by two and by three is one; and an argument that is no
number is reported even behind a zero to divide by. -/
theorem least_over_minus_one_leaves_integers :
    (∃ r, divide.apply (C := CodeRef)
      ([Int64.minValue, -1, 2].map fun n => .number (.int n)) 0 = .ok (.number (.real r), 0)) ∧
    (∃ n : Int64, divide.apply (C := CodeRef) ([6, 2, 3].map fun n => .number (.int n)) 0 =
      .ok (.number (.int n), 0) ∧ (n.toInt : ℚ) = 1) ∧
    divide.apply (C := CodeRef) ([.number (.int 1), .number (.int 0)] ++ .empty :: []) 0 =
      .error (.typeMismatch "/" "number" .empty) := by
  have hleast : ¬ divide.DividesByZero [Int64.minValue, -1, 2] := by
    simp [DividesByZero, parts]
  have hbeyond : ∃ q ∈ divide.partialResults (· / ·) [Int64.minValue, -1, 2], ¬ FitsInt64 q := by
    refine ⟨(2 ^ 63 : Int), ?_, ?_⟩
    · simp [partialResults, parts, List.scanl_cons]
    · rw [fitsInt64_intCast_iff]
      omega
  have hsix : ¬ divide.DividesByZero [6, 2, 3] := by simp [DividesByZero, parts]
  have hpartial : divide.partialResults (· / ·) [6, 2, 3] =
      [((6 : Int64).toInt : ℚ), ((3 : Int64).toInt : ℚ), ((1 : Int64).toInt : ℚ)] := by
    decide +kernel
  have hfits : ∀ q ∈ divide.partialResults (· / ·) [6, 2, 3], FitsInt64 q := by
    rw [hpartial]
    simp only [List.forall_mem_cons, fitsInt64_toInt, true_and]
    exact List.forall_mem_nil _
  obtain ⟨hlaw, hother⟩ := integer_arithmetic_never_wraps (C := CodeRef) (p := divide) rfl
  obtain ⟨n, hn⟩ := (hlaw [6, 2, 3] 0 (by simp)).2.1.mpr ⟨hsix, hfits⟩
  refine ⟨(hlaw [Int64.minValue, -1, 2] 0 (by simp)).2.2.2 hleast hbeyond, ⟨n, hn, ?_⟩,
    hother _ _ _ _ (by simp) (by simp)⟩
  rw [(hlaw [6, 2, 3] 0 (by simp)).2.2.1 n hn]
  decide +kernel

end Primitive
end SchemeMachine
