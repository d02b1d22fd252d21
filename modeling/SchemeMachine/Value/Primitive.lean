import SchemeMachine.Value.Store

/-!
# Applying primitives

Arithmetic on integers is exact as long as the result has 64 bits; a result beyond that, and every
operation that a real takes part in, is computed on doubles.  A quotient of integers is an integer
if the division leaves no remainder.  All arguments of an arithmetic primitive are checked to be
numbers before anything is computed.
-/

namespace SchemeMachine

namespace Number

/-- The exact result if both are integers and it has 64 bits, else the result on doubles. -/
def combine (exact : Int → Int → Int) (inexact : Float → Float → Float) (a b : Number) : Number :=
  match a, b with
  | int x, int y =>
    match int64? (exact x.toInt y.toInt) with
    | some n => int n
    | none => real (inexact x.toFloat y.toFloat)
  | a, b => real (inexact a.toFloat b.toFloat)

/-- The sum. -/
def add : Number → Number → Number := combine (· + ·) (· + ·)

/-- The difference. -/
def subtract : Number → Number → Number := combine (· - ·) (· - ·)

/-- The product. -/
def multiply : Number → Number → Number := combine (· * ·) (· * ·)

/-- The quotient; an integer zero divides nothing. -/
def divide {C : Type} (a b : Number) : Except (RunError C) Number :=
  match a, b with
  | _, int 0 => .error .divisionByZero
  | int x, int y =>
    match if x.toInt.tmod y.toInt = 0 then int64? (x.toInt.tdiv y.toInt) else none with
    | some n => .ok (int n)
    | none => .ok (real (x.toFloat / y.toFloat))
  | a, b => .ok (real (a.toFloat / b.toFloat))

/-- Whether two numbers stand in a relation: integers by value, all else as doubles. -/
def related (exact : Int → Int → Bool) (inexact : Float → Float → Bool) (a b : Number) : Bool :=
  match a, b with
  | int x, int y => exact x.toInt y.toInt
  | a, b => inexact a.toFloat b.toFloat

end Number

/-- Whether each element of a list stands in a relation to the next. -/
def adjacent {α : Type} (related : α → α → Bool) : List α → Bool
  | a :: b :: rest => related a b && adjacent related (b :: rest)
  | _ => true

namespace Primitive

variable {C : Type}

/-- The arguments as numbers; the first that is none is an error. -/
def numbers (p : Primitive) : List (Value C) → Except (RunError C) (List Number)
  | [] => .ok []
  | .number n :: rest => (p.numbers rest).map (n :: ·)
  | other :: _ => .error (.typeMismatch p.name "number" other)

/-- Arithmetic on numbers: the result of applying a numeric primitive. -/
def calculate (p : Primitive) (args : List Number) : Except (RunError C) (Value C) :=
  let number (n : Number) : Except (RunError C) (Value C) := .ok (.number n)
  let compare (exact : Int → Int → Bool) (inexact : Float → Float → Bool) :
      Except (RunError C) (Value C) :=
    .ok (.boolean (adjacent (Number.related exact inexact) args))
  match p, args with
  | add, args => number (args.foldl Number.add (.int 0))
  | multiply, args => number (args.foldl Number.multiply (.int 1))
  | subtract, [only] => number (Number.subtract (.int 0) only)
  | subtract, first :: rest => number (rest.foldl Number.subtract first)
  | divide, [only] => (Number.divide (.int 1) only).map .number
  | divide, first :: rest => (rest.foldlM Number.divide first).map .number
  | equal, _ => compare (· == ·) (· == ·)
  | less, _ => compare (· < ·) (· < ·)
  | greater, _ => compare (· > ·) (· > ·)
  | lessOrEqual, _ => compare (· ≤ ·) (· ≤ ·)
  | greaterOrEqual, _ => compare (· ≥ ·) (· ≥ ·)
  | p, args => .error (.arityMismatch p.arity args.length)

/-- The result of a primitive on arguments whose number it accepts, with the next free tag. -/
def run [BEq C] (p : Primitive) (args : List (Value C)) (tag : Tag) :
    Except (RunError C) (Value C × Tag) :=
  match p, args with
  | cons, [a, d] => .ok (.pair tag a d, tag + 1)
  | car, [.pair _ a _] => .ok (a, tag)
  | car, [other] => .error (.typeMismatch car.name "pair" other)
  | cdr, [.pair _ _ d] => .ok (d, tag)
  | cdr, [other] => .error (.typeMismatch cdr.name "pair" other)
  | list, items => .ok (Value.ofList items tag)
  | isNull, [v] => .ok (.boolean (match v with | .empty => true | _ => false), tag)
  | isPair, [v] => .ok (.boolean (match v with | .pair _ _ _ => true | _ => false), tag)
  | isEq, [v, w] => .ok (.boolean (v.identical w), tag)
  | not, [v] => .ok (.boolean (!v.isTrue), tag)
  | p, args => do
    let result ← p.calculate (← p.numbers args)
    return (result, tag)

/-- Applies a primitive to arguments, with the next free tag. -/
def apply [BEq C] (p : Primitive) (args : List (Value C)) (tag : Tag) :
    Except (RunError C) (Value C × Tag) :=
  if p.arity.accepts args.length then p.run args tag
  else .error (.arityMismatch p.arity args.length)

end Primitive
end SchemeMachine
