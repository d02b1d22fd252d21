import SchemeMachine.Json.Basic

/-!
# Reading JSON

A text is read into a value if it is one JSON value with nothing but blanks around it.  Escapes
above the basic plane come as surrogate pairs; a surrogate alone is refused.
-/

namespace SchemeMachine
namespace Json

/-- The characters that may stand between tokens. -/
def isSpace (c : Char) : Bool :=
  c == ' ' || c == '\t' || c == '\n' || c == '\r'

/-- The text from its next token on. -/
def skipSpace (text : List Char) : List Char :=
  text.dropWhile isSpace

/-- The value of a hexadecimal digit. -/
def hexValue? (c : Char) : Option Nat :=
  if c.isDigit then some (c.toNat - '0'.toNat)
  else if 'a' ≤ c ∧ c ≤ 'f' then some (c.toNat - 'a'.toNat + 10)
  else if 'A' ≤ c ∧ c ≤ 'F' then some (c.toNat - 'A'.toNat + 10)
  else none

/-- The number that four hexadecimal digits stand for. -/
def hexUnit? (a b c d : Char) : Option Nat := do
  return (((← hexValue? a) * 16 + (← hexValue? b)) * 16 + (← hexValue? c)) * 16 + (← hexValue? d)

/-- What a numeric escape means after `pending`, the first half of a surrogate pair if one has just
been read: a character, or the first half of a pair. -/
def joinUnit? (pending : Option Nat) (unit : Nat) : Option (Nat ⊕ Char) :=
  match pending with
  | some high =>
    if 0xDC00 ≤ unit ∧ unit < 0xE000 then
      some (.inr (Char.ofNat (0x10000 + (high - 0xD800) * 0x400 + (unit - 0xDC00))))
    else none
  | none =>
    if 0xD800 ≤ unit ∧ unit < 0xDC00 then some (.inl unit)
    else if 0xDC00 ≤ unit ∧ unit < 0xE000 then none
    else some (.inr (Char.ofNat unit))

/-- The character that a one-letter escape stands for. -/
def letterEscape? (c : Char) : Option Char :=
  match c with
  | '"' => some '"'
  | '\\' => some '\\'
  | '/' => some '/'
  | 'b' => some '\x08'
  | 'f' => some '\x0c'
  | 'n' => some '\n'
  | 'r' => some '\r'
  | 't' => some '\t'
  | _ => none

/-- The contents of a string behind its opening quote, given those read so far, latest first, and
the rest behind its closing quote.  Nothing but its second half may follow the first half of a
surrogate pair. -/
def stringFrom (pending : Option Nat) (done : List Char) : List Char → Option (String × List Char)
  | [] => none
  | '\\' :: 'u' :: a :: b :: c :: d :: rest =>
    match (hexUnit? a b c d).bind (joinUnit? pending) with
    | some (.inl high) => stringFrom (some high) done rest
    | some (.inr ch) => stringFrom none (ch :: done) rest
    | none => none
  | '\\' :: e :: rest =>
    match pending, letterEscape? e with
    | none, some ch => stringFrom none (ch :: done) rest
    | _, _ => none
  | c :: rest =>
    if pending.isSome then none
    else if c = '"' then some (String.ofList done.reverse, rest)
    else if c = '\\' ∨ c.toNat < 0x20 then none
    else stringFrom none (c :: done) rest

/-- A string behind its opening quote. -/
def stringBody? (text : List Char) : Option (String × List Char) :=
  stringFrom none [] text

/-- Whether a character may stand in a number. -/
def isNumeralChar (c : Char) : Bool :=
  c.isDigit || c == '-' || c == '+' || c == '.' || c == 'e' || c == 'E'

/-- A nonempty row of digits at the front, and the rest. -/
def digitsFront? (text : List Char) : Option (List Char) :=
  if (text.takeWhile Char.isDigit).isEmpty then none else some (text.dropWhile Char.isDigit)

/-- Whether a row of characters is a JSON number: a minus sign or none, an integer without leading
zeros, then perhaps a point and digits, then perhaps an exponent. -/
def isNumeral (text : List Char) : Bool :=
  let unsigned := match text with
    | '-' :: rest => rest
    | rest => rest
  let whole := match unsigned with
    | '0' :: rest => some rest
    | rest => digitsFront? rest
  let fraction := whole.bind fun
    | '.' :: rest => digitsFront? rest
    | rest => some rest
  let exponent := fraction.bind fun
    | c :: rest =>
      if c = 'e' ∨ c = 'E' then
        digitsFront? (match rest with
          | '+' :: rest => rest
          | '-' :: rest => rest
          | rest => rest)
      else some (c :: rest)
    | [] => some []
  exponent == some []

mutual

/-- One value at the front of a text, and the rest. -/
def valueFrom : Nat → List Char → Option (Json × List Char)
  | 0, _ => none
  | turns + 1, text =>
    match skipSpace text with
    | 'n' :: 'u' :: 'l' :: 'l' :: rest => some (null, rest)
    | 't' :: 'r' :: 'u' :: 'e' :: rest => some (bool true, rest)
    | 'f' :: 'a' :: 'l' :: 's' :: 'e' :: rest => some (bool false, rest)
    | '"' :: rest => (stringBody? rest).map fun (s, rest) => (string s, rest)
    | '[' :: rest =>
      match skipSpace rest with
      | ']' :: rest => some (array [], rest)
      | rest => (itemsFrom turns rest).map fun (items, rest) => (array items, rest)
    | '\x7b' :: rest =>
      match skipSpace rest with
      | '\x7d' :: rest => some (object [], rest)
      | rest => (membersFrom turns rest).map fun (members, rest) => (object members, rest)
    | text =>
      let numeral := text.takeWhile isNumeralChar
      if isNumeral numeral then
        some (number (String.ofList numeral), text.dropWhile isNumeralChar)
      else none

/-- The elements of an array up to its closing bracket. -/
def itemsFrom : Nat → List Char → Option (List Json × List Char)
  | 0, _ => none
  | turns + 1, text =>
    match valueFrom turns text with
    | none => none
    | some (item, rest) =>
      match skipSpace rest with
      | ']' :: rest => some ([item], rest)
      | ',' :: rest => (itemsFrom turns rest).map fun (items, rest) => (item :: items, rest)
      | _ => none

/-- The members of an object up to its closing brace. -/
def membersFrom : Nat → List Char → Option (List (String × Json) × List Char)
  | 0, _ => none
  | turns + 1, text =>
    match skipSpace text with
    | '"' :: rest =>
      match stringBody? rest with
      | none => none
      | some (key, rest) =>
        match skipSpace rest with
        | ':' :: rest =>
          match valueFrom turns rest with
          | none => none
          | some (value, rest) =>
            match skipSpace rest with
            | '\x7d' :: rest => some ([(key, value)], rest)
            | ',' :: rest =>
              (membersFrom turns rest).map fun (members, rest) => ((key, value) :: members, rest)
            | _ => none
        | _ => none
    | _ => none

end

/-- The value that a text stands for.  Of any two nested steps at least one passes a character,
which bounds their number. -/
def parse? (text : String) : Option Json :=
  let chars := text.toList
  match valueFrom (2 * chars.length + 2) chars with
  | some (value, rest) => if (skipSpace rest).isEmpty then some value else none
  | none => none

end Json
end SchemeMachine
