import SchemeMachine.Decimal.Numeral

/-!
# Elapsed time

Short times are shown in microseconds, longer ones in milliseconds with two places.
-/

namespace SchemeMachine
namespace Text

/-- A number below a hundred with two digits. -/
def twoDigits (n : Nat) : String :=
  if n < 10 then "0" ++ Decimal.naturalText n else Decimal.naturalText n

/-- A time that is given in nanoseconds. -/
def elapsed (nanoseconds : Nat) : String :=
  if nanoseconds < 1000000 then "(" ++ Decimal.naturalText (nanoseconds / 1000) ++ "µs)"
  else
    let hundredths := (nanoseconds + 5000) / 10000
    "(" ++ Decimal.naturalText (hundredths / 100) ++ "." ++ twoDigits (hundredths % 100) ++ "ms)"

example : elapsed 999999 = "(999µs)" := by decide +kernel
example : elapsed 12345678 = "(12.35ms)" := by decide +kernel

end Text
end SchemeMachine
