import SchemeMachine.Decimal.Shortest

/-!
# How a real is laid out

A layout says from which magnitude on a real is written with an exponent, how the exponent is
marked, which of two equally near decimals is taken, and how the values that are no numbers are
spelled.  The digits themselves are always the shortest that read back.
-/

namespace SchemeMachine

/-- The decisions of one text form of reals. -/
structure RealLayout where
  /-- Least exponent of the leading digit that is written positionally. -/
  plainFrom : Int
  /-- Exponents of the leading digit from here on are written out as exponents. -/
  plainBelow : Int
  /-- Whether a positive exponent carries a plus sign. -/
  exponentPlus : Bool
  /-- Which of two equally near decimals is taken. -/
  tie : Tie
  /-- Text of a value that is not a number. -/
  nan : String
  /-- Text of positive infinity. -/
  posInfinity : String
  /-- Text of negative infinity. -/
  negInfinity : String

namespace RealLayout

/-- Digits without the zeros at their end. -/
def significant (digits : List Char) : List Char :=
  (digits.reverse.dropWhile (· == '0')).reverse

/-- Positional form: the point stands `lead + 1` digits from the front, with at least one digit on
either side of it. -/
def positional (digits : List Char) (lead : Int) : List Char :=
  if lead < 0 then
    '0' :: '.' :: (List.replicate (-lead - 1).toNat '0' ++ digits)
  else
    let whole := lead.toNat + 1
    let front := digits.take whole
    let back := digits.drop whole
    front ++ List.replicate (whole - front.length) '0' ++
      '.' :: (if back.isEmpty then ['0'] else back)

/-- Exponent form: one digit, the rest after a point if there is a rest, and the exponent. -/
def scientific (layout : RealLayout) (digits : List Char) (lead : Int) : List Char :=
  let back := digits.drop 1
  let mark := if lead < 0 then ['-'] else if layout.exponentPlus then ['+'] else []
  digits.take 1 ++ (if back.isEmpty then [] else '.' :: back) ++ 'e' :: mark ++
    Nat.toDigits 10 lead.natAbs

/-- The digits and point of a decimal magnitude. -/
def magnitude (layout : RealLayout) (d : Decimal) : List Char :=
  let digits := Nat.toDigits 10 d.coefficient
  let lead := d.exponent + (digits.length : Int) - 1
  if layout.plainFrom ≤ lead && lead < layout.plainBelow then
    positional (significant digits) lead
  else
    layout.scientific (significant digits) lead

/-- The text of a real. -/
def render (layout : RealLayout) (x : Float) : String :=
  let negative := x.toBits.toNat / Nat.pow 2 63 == 1
  if x.isNaN then layout.nan
  else if x.isInf then (if negative then layout.negInfinity else layout.posInfinity)
  else
    let binary := Binary.ofBits x.toBits
    let body := if binary.mantissa = 0 then ['0', '.', '0'] else
      layout.magnitude (binary.shortest layout.tie)
    String.ofList (if negative then '-' :: body else body)

end RealLayout
end SchemeMachine
