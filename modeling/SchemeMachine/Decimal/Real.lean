import SchemeMachine.Decimal.Numeral
import SchemeMachine.Decimal.Shortest

/-!
# Real numerals

A real numeral is an optional sign, digits with an optional point among, before or after them, and
an optional exponent.  It stands for the nearest double; one too large for every finite double
stands for an infinity.
-/

namespace SchemeMachine
namespace Decimal

/-- What follows the digits of a real numeral: nothing, or an exponent mark and an integer
numeral. -/
def exponent? : List Char → Option Int
  | [] => some 0
  | c :: rest => if c = 'e' ∨ c = 'E' then integer? rest else none

/-- A real numeral as its sign and its exact decimal magnitude. -/
def real? (text : List Char) : Option (Bool × Decimal) := do
  let (negative, unsigned) := splitSign text
  let whole := unsigned.takeWhile Char.isDigit
  let rest := unsigned.dropWhile Char.isDigit
  let (fraction, rest) := match rest with
    | '.' :: after => (after.takeWhile Char.isDigit, after.dropWhile Char.isDigit)
    | _ => ([], rest)
  if whole.isEmpty && fraction.isEmpty then none
  else
    let exponent ← exponent? rest
    some (negative, ⟨ofDigits (whole ++ fraction), exponent - fraction.length⟩)

/-- Leading exponents beyond this bound lie outside the doubles on either side. -/
def leadBound : Int := 400

/-- The double nearest to a decimal magnitude. -/
def nearestFloat (d : Decimal) : Float :=
  let lead := d.exponent + (digitCount d.coefficient : Int) - 1
  if d.coefficient = 0 || lead < -leadBound then 0.0
  else if leadBound < lead then 1.0 / 0.0
  else Float.ofScientific d.coefficient (d.exponent < 0) d.exponent.natAbs

/-- The double a real numeral stands for. -/
def float? (text : List Char) : Option Float :=
  (real? text).map fun (negative, d) => if negative then -(nearestFloat d) else nearestFloat d

end Decimal
end SchemeMachine
