import SchemeMachine.Decimal.Layout
import SchemeMachine.Decimal.Numeral

/-!
# Numbers of the language

A number is an exact 64-bit integer or a double.  The two never compare equal to each other, and
each has a text that reads back as a number of the same kind, the three doubles that are no
numbers apart.
-/

namespace SchemeMachine

/-- A number of the language. -/
inductive Number where
  | int (value : Int64)
  | real (value : Float)
  deriving Inhabited

namespace Number

/-- Reals print positionally between `0.0001` and `10^16`, always with a point or an exponent, so
that they never read back as integers. -/
def display : RealLayout where
  plainFrom := -4
  plainBelow := 16
  exponentPlus := false
  tie := .upward
  nan := "+nan.0"
  posInfinity := "+inf.0"
  negInfinity := "-inf.0"

/-- The text of a number. -/
def text : Number → String
  | int n => Decimal.integerText n.toInt
  | real x => display.render x

/-- The number as a double. -/
def toFloat : Number → Float
  | int n => n.toFloat
  | real x => x

/-- Integers equal integers of the same value, reals equal reals as doubles do: the zeros are
equal, and a value that is not a number equals nothing. -/
def same : Number → Number → Bool
  | int m, int n => m == n
  | real x, real y => x == y
  | _, _ => false

/-- The integer, if it has 64 bits. -/
def int64? (n : Int) : Option Int64 :=
  if -9223372036854775808 ≤ n ∧ n < 9223372036854775808 then some (Int64.ofInt n) else none

theorem int64?_eq_some_iff (k : Int) (n : Int64) : int64? k = some n ↔ n.toInt = k := by
  have hlow := n.le_toInt
  have hhigh := n.toInt_lt
  unfold int64?
  split
  next hrange =>
    have hof : (Int64.ofInt k).toInt = k := Int64.toInt_ofInt_of_le (by omega) (by omega)
    rw [Option.some.injEq, ← Int64.toInt_inj, hof, eq_comm]
  next hrange =>
    constructor
    · intro h
      cases h
    · rintro rfl
      omega

end Number
end SchemeMachine
