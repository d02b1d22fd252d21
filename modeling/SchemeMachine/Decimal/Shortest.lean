/-!
# The shortest decimal that reads back

A finite binary number is an exact rational `m · 2^q`.  The reals that round to it form an
interval around it, whose ends belong to it exactly when `m` is even.  The shortest decimal of the
number is the one with the fewest digits inside that interval, and among those the nearest to the
number.  Everything is decided in exact natural-number arithmetic: on the grid of decimals with a
given number of digits only the two neighbours of the number can be nearest, so only those two are
tried.
-/

namespace SchemeMachine

/-- The magnitude `mantissa · 2^exponent`. -/
structure Binary where
  mantissa : Nat
  exponent : Int
  deriving Repr, DecidableEq

/-- The magnitude `coefficient · 10^exponent`. -/
structure Decimal where
  coefficient : Nat
  exponent : Int
  deriving Repr, DecidableEq

/-- Which of two equally near decimals is taken. -/
inductive Tie where
  | upward
  | toEven
  deriving Repr, DecidableEq

namespace Binary

/-- The magnitude of a finite double: 52 stored bits under a hidden one, except next to zero,
where the exponent stays at its least and the hidden bit is absent. -/
def ofBits (bits : UInt64) : Binary :=
  let fraction : Nat := bits.toNat % Nat.pow 2 52
  let biased : Nat := bits.toNat / Nat.pow 2 52 % Nat.pow 2 11
  if biased = 0 then ⟨fraction, -1074⟩ else ⟨Nat.pow 2 52 + fraction, (biased : Int) - 1075⟩

/-- At a power of two the neighbour below is half as far away as the neighbour above. -/
def narrowBelow (x : Binary) : Bool :=
  x.mantissa == Nat.pow 2 52 && x.exponent != -1074

/-- The number as a quotient of natural numbers, the divisor being positive. -/
def quotient (x : Binary) : Nat × Nat :=
  (x.mantissa * Nat.pow 2 x.exponent.toNat, Nat.pow 2 (-x.exponent).toNat)

end Binary

namespace Decimal

/-- Order of `d` against `numerator · 2^exponent`, by clearing both denominators. -/
def compareBinary (d : Decimal) (numerator : Nat) (exponent : Int) : Ordering :=
  compare
    (d.coefficient * Nat.pow 10 d.exponent.toNat * Nat.pow 2 (-exponent).toNat)
    (numerator * Nat.pow 2 exponent.toNat * Nat.pow 10 (-d.exponent).toNat)

/-- The number of decimal digits of a natural number, none for zero. -/
def digitCount (n : Nat) : Nat :=
  if n = 0 then 0 else (Nat.toDigits 10 n).length

/-- The exponent of the leading digit of a positive quotient: the greatest `k` with
`10^k ≤ numerator / denominator`. -/
def leadingExponent (numerator denominator : Nat) : Int :=
  if denominator ≤ numerator then
    (digitCount (numerator / denominator) : Int) - 1
  else
    -(digitCount ((denominator - 1) / numerator) : Int)

end Decimal

namespace Binary

/-- Whether `d` lies among the reals that round to `x`. -/
def readsBack (x : Binary) (d : Decimal) : Bool :=
  let ends := x.mantissa % 2 == 0
  let below := 4 * x.mantissa - (if x.narrowBelow then 1 else 2)
  let above := 4 * x.mantissa + 2
  let low := match d.compareBinary below (x.exponent - 2) with
    | .lt => false
    | .eq => ends
    | .gt => true
  let high := match d.compareBinary above (x.exponent - 2) with
    | .lt => true
    | .eq => ends
    | .gt => false
  low && high

/-- The number on the grid of multiples of `10^exponent`: how many whole multiples it holds, and
the order of twice the remainder against one multiple. -/
def onGrid (x : Binary) (exponent : Int) : Nat × Ordering :=
  let (top, bottom) := x.quotient
  let top := top * Nat.pow 10 (-exponent).toNat
  let bottom := bottom * Nat.pow 10 exponent.toNat
  (top / bottom, compare (2 * (top % bottom)) bottom)

/-- The nearer of the two grid neighbours that read back, if any does. -/
def candidate? (x : Binary) (tie : Tie) (exponent : Int) : Option Decimal :=
  let (whole, half) := x.onGrid exponent
  let lower : Decimal := ⟨whole, exponent⟩
  let upper : Decimal := ⟨whole + 1, exponent⟩
  match x.readsBack lower, x.readsBack upper with
  | false, false => none
  | true, false => some lower
  | false, true => some upper
  | true, true =>
    match half, tie with
    | .lt, _ => some lower
    | .gt, _ => some upper
    | .eq, .upward => some upper
    | .eq, .toEven => some (if whole % 2 = 0 then lower else upper)

/-- Grids of one to seventeen digits are tried in turn; seventeen always suffice for a double. -/
def shortest (x : Binary) (tie : Tie) : Decimal :=
  let (top, bottom) := x.quotient
  let lead := Decimal.leadingExponent top bottom
  let grids := (List.range 17).map fun (k : Nat) => lead - (k : Int)
  (grids.findSome? (x.candidate? tie)).getD ⟨(x.onGrid (lead - 16)).1, lead - 16⟩

end Binary

example : (Binary.ofBits 0x3FB999999999999A).shortest .upward = ⟨1, -1⟩ := by decide +kernel
example : (Binary.ofBits 0x0000000000000001).shortest .upward = ⟨5, -324⟩ := by decide +kernel
example : (Binary.ofBits 0x3E60000000000000).shortest .upward = ⟨29802322387695313, -24⟩ := by
  decide +kernel
example : (Binary.ofBits 0x3E60000000000000).shortest .toEven = ⟨29802322387695312, -24⟩ := by
  decide +kernel

end SchemeMachine
