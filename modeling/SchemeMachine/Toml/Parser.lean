import SchemeMachine.Decimal.Real
import SchemeMachine.Json.Parser
import SchemeMachine.Toml.Basic

/-!
# Reading TOML

A document is a row of lines: entries, table headers, comments and empty lines.  Keys are bare,
quoted or dotted; values are strings, integers, floats, truth values, arrays and inline tables.
Neither the parts of a key nor the arrays and inline tables within each other may be more than a
fixed number.
-/

namespace SchemeMachine
namespace Toml

/-- How many parts a key may have, and how many arrays and inline tables may be open at once. -/
def nestingLimit : Nat := 79

/-- Blanks within a line. -/
def isSpace (c : Char) : Bool :=
  c == ' ' || c == '\t'

/-- The rest of a line from its next token on. -/
def skipSpace (text : List Char) : List Char :=
  text.dropWhile isSpace

/-- Characters that may stand in comments and strings: tabs and everything that is no control
character. -/
def isPlain (c : Char) : Bool :=
  c == '\t' || (0x20 ≤ c.toNat && c.toNat != 0x7F)

/-- The rest behind the end of a line, if a line ends here. -/
def newline? : List Char → Option (List Char)
  | '\n' :: rest => some rest
  | '\r' :: '\n' :: rest => some rest
  | _ => none

/-- The rest behind a comment, if there is one. -/
def skipComment : List Char → List Char
  | '#' :: rest => rest.dropWhile isPlain
  | text => text

/-- The rest behind the end of a line on which nothing but a comment is left. -/
def endLine? (text : List Char) : Option (List Char) :=
  match skipComment (skipSpace text) with
  | [] => some []
  | rest => newline? rest

/-- The rest behind blanks, comments and ends of lines, of which there are at most `turns`. -/
def skipLines : Nat → List Char → List Char
  | 0, text => text
  | turns + 1, text =>
    let rest := skipComment (skipSpace text)
    match newline? rest with
    | some rest => skipLines turns rest
    | none => rest

/-- Characters of bare keys. -/
def isBare (c : Char) : Bool :=
  c.isAlphanum || c == '_' || c == '-'

/-- The character of that number, surrogates excepted. -/
def scalar? (n : Nat) : Option Char :=
  if n < 0xD800 ∨ (0xE000 ≤ n ∧ n < 0x110000) then some (Char.ofNat n) else none

/-- The number that hexadecimal digits stand for. -/
def hexNumber? (digits : List Char) : Option Nat :=
  digits.foldlM (fun n c => (Json.hexValue? c).map (16 * n + ·)) 0

/-- The character that a one-letter escape stands for. -/
def letterEscape? (c : Char) : Option Char :=
  match c with
  | 'b' => some '\x08'
  | 't' => some '\t'
  | 'n' => some '\n'
  | 'f' => some '\x0c'
  | 'r' => some '\r'
  | '"' => some '"'
  | '\\' => some '\\'
  | _ => none

/-- An escape behind its backslash: the character it stands for and the rest. -/
def escape? : List Char → Option (Char × List Char)
  | 'u' :: a :: b :: c :: d :: rest => do
    return (← scalar? (← hexNumber? [a, b, c, d]), rest)
  | 'U' :: a :: b :: c :: d :: e :: f :: g :: h :: rest => do
    return (← scalar? (← hexNumber? [a, b, c, d, e, f, g, h]), rest)
  | c :: rest => (letterEscape? c).map (·, rest)
  | [] => none

/-- A basic string behind its opening quote, given what has been read of it, latest first.  At most
`turns` characters are read. -/
def basicFrom : Nat → List Char → List Char → Option (String × List Char)
  | 0, _, _ => none
  | _ + 1, _, [] => none
  | turns + 1, done, c :: rest =>
    if c = '"' then some (String.ofList done.reverse, rest)
    else if c = '\\' then
      match escape? rest with
      | some (c, rest) => basicFrom turns (c :: done) rest
      | none => none
    else if isPlain c then basicFrom turns (c :: done) rest
    else none

/-- A literal string behind its opening quote. -/
def literal? (text : List Char) : Option (String × List Char) :=
  let body := text.takeWhile fun c => c != '\'' && isPlain c
  match text.dropWhile fun c => c != '\'' && isPlain c with
  | '\'' :: rest => some (String.ofList body, rest)
  | _ => none

/-- Quotes at the front beyond the three that close a string belong to the string, at most two. -/
def closeMultiline (quote : Char) (done : List Char) (text : List Char) : String × List Char :=
  let extra := min 2 (text.takeWhile (· == quote)).length
  (String.ofList (done.reverse ++ List.replicate extra quote), text.drop extra)

/-- The rest behind the blanks and line ends that a backslash at the end of a line skips. -/
def skipBlankLines : List Char → List Char
  | '\r' :: '\n' :: rest => skipBlankLines rest
  | c :: rest => if isSpace c || c == '\n' then skipBlankLines rest else c :: rest
  | [] => []

/-- A string over several lines behind its opening quotes; escapes have a meaning in basic ones
only. -/
def multilineFrom (quote : Char) : Nat → List Char → List Char → Option (String × List Char)
  | 0, _, _ => none
  | turns + 1, done, text =>
    match text with
    | [] => none
    | a :: b :: c :: rest =>
      if a = quote ∧ b = quote ∧ c = quote then some (closeMultiline quote done rest)
      else multilineNext turns done a (b :: c :: rest)
    | a :: rest => multilineNext turns done a rest
where
  /-- Goes on behind one character of the string. -/
  multilineNext (turns : Nat) (done : List Char) (c : Char) (rest : List Char) :
      Option (String × List Char) :=
    if c = '\\' ∧ quote = '"' then
      if (newline? (skipSpace rest)).isSome then
        multilineFrom quote turns done (skipBlankLines rest)
      else
        match escape? rest with
        | some (c, rest) => multilineFrom quote turns (c :: done) rest
        | none => none
    else if c = '\r' then
      match rest with
      | '\n' :: rest => multilineFrom quote turns ('\n' :: done) rest
      | _ => none
    else if c = '\n' ∨ isPlain c then multilineFrom quote turns (c :: done) rest
    else none

/-- A string over several lines behind its opening quotes; a line end right there is no part of
it. -/
def multiline? (quote : Char) (text : List Char) : Option (String × List Char) :=
  multilineFrom quote (text.length + 1) [] ((newline? text).getD text)

/-- A string on one line, as keys are written. -/
def quoted? : List Char → Option (String × List Char)
  | '"' :: rest => basicFrom (rest.length + 1) [] rest
  | '\'' :: rest => literal? rest
  | _ => none

/-- A string of any kind. -/
def string? : List Char → Option (String × List Char)
  | '"' :: '"' :: '"' :: rest => multiline? '"' rest
  | '\'' :: '\'' :: '\'' :: rest => multiline? '\'' rest
  | text => quoted? text

/-- One part of a key. -/
def keyPart? (text : List Char) : Option (String × List Char) :=
  let bare := text.takeWhile isBare
  if bare.isEmpty then quoted? text else some (String.ofList bare, text.dropWhile isBare)

/-- The parts of a key, with dots between them; at most `turns` of them. -/
def keyFrom : Nat → List Char → Option (List String × List Char)
  | 0, _ => none
  | turns + 1, text => do
    let (part, rest) ← keyPart? (skipSpace text)
    match skipSpace rest with
    | '.' :: rest =>
      let (parts, rest) ← keyFrom turns rest
      return (part :: parts, rest)
    | rest => return ([part], rest)

/-- A key: the parts before its last dot, its last part, and the rest. -/
def key? (text : List Char) : Option (List String × String × List Char) := do
  let (parts, rest) ← keyFrom (text.length + 1) text
  guard (parts.length ≤ nestingLimit)
  match parts.reverse with
  | last :: path => return (path.reverse, last, rest)
  | [] => none

/-- A row of digits that satisfy `p`, with single underscores between digits only. -/
def digitRow? (p : Char → Bool) : List Char → Option (List Char)
  | [] => none
  | [c] => if p c then some [c] else none
  | c :: '_' :: rest => if p c then (digitRow? p rest).map (c :: ·) else none
  | c :: rest => if p c then (digitRow? p rest).map (c :: ·) else none

/-- A decimal integer without leading zeros, and with a sign or without. -/
def decimal? (text : List Char) : Option Int := do
  let (negative, digits) := Decimal.splitSign text
  let digits ← digitRow? Char.isDigit digits
  if digits.length > 1 && digits.head? == some '0' then none
  else
    let n := Decimal.ofDigits digits
    return if negative then -(n : Int) else n

/-- An integer in the notation of another base, which takes no sign. -/
def based? : List Char → Option Int
  | '0' :: 'x' :: rest => do
    return ((← hexNumber? (← digitRow? (fun c => (Json.hexValue? c).isSome) rest)) : Nat)
  | '0' :: 'o' :: rest => do
    let digits ← digitRow? (fun c => '0' ≤ c && c ≤ '7') rest
    return (digits.foldl (fun n c => 8 * n + Decimal.digitValue c) 0 : Nat)
  | '0' :: 'b' :: rest => do
    let digits ← digitRow? (fun c => c == '0' || c == '1') rest
    return (digits.foldl (fun n c => 2 * n + Decimal.digitValue c) 0 : Nat)
  | _ => none

/-- The integer, if it has 64 bits. -/
def inRange? (n : Int) : Option Int :=
  if -9223372036854775808 ≤ n ∧ n < 9223372036854775808 then some n else none

/-- Whether a token is a float: digits around a point, or an exponent, or both, or one of the words
for the values that are no numbers. -/
def isFloat (token : List Char) : Bool :=
  let (_, unsigned) := Decimal.splitSign token
  let isMark (c : Char) : Bool := c == 'e' || c == 'E'
  let mantissa := unsigned.takeWhile fun c => !isMark c
  let whole := mantissa.takeWhile (· != '.')
  let wholeOk := (digitRow? Char.isDigit whole).isSome && (decimal? whole).isSome
  let fractionOk := match mantissa.dropWhile (· != '.') with
    | [] => true
    | _ :: digits => (digitRow? Char.isDigit digits).isSome
  let exponentOk := match unsigned.dropWhile fun c => !isMark c with
    | [] => true
    | _ :: digits => (digitRow? Char.isDigit (Decimal.splitSign digits).2).isSome
  let marked := unsigned.any fun c => c == '.' || isMark c
  unsigned == "inf".toList || unsigned == "nan".toList ||
    (marked && wholeOk && fractionOk && exponentOk)

/-- Whether a float is a numeral that is too large for every finite double.  Numerals below all of
them stand for the negative infinity. -/
def isTooLarge (token : List Char) : Bool :=
  match Decimal.float? (token.filter (· != '_')) with
  | some x => x == 1.0 / 0.0
  | none => false

/-- Characters of numbers and truth values. -/
def isToken (c : Char) : Bool :=
  isBare c || c == '+' || c == '.'

/-- A number or truth value that makes up a whole token. -/
def scalarValue? (token : List Char) : Option Value :=
  if token == "true".toList then some (.boolean true)
  else if token == "false".toList then some (.boolean false)
  else
    match (decimal? token).orElse (fun _ => based? token) with
    | some n => (inRange? n).map .integer
    | none =>
      if isFloat token && !isTooLarge token then some (.float (String.ofList token)) else none

mutual

/-- A value at the front of a text, and the rest.  At most `room` arrays and inline tables may be
open at once. -/
def valueFrom (room : Nat) : Nat → List Char → Option (Value × List Char)
  | 0, _ => none
  | turns + 1, text =>
    match text with
    | '[' :: rest =>
      if room = 0 then none
      else (itemsFrom (room - 1) turns rest).map fun (items, rest) => (.array items, rest)
    | '\x7b' :: rest =>
      if room = 0 then none
      else
        match skipSpace rest with
        | '\x7d' :: rest => some (.table .inline [], rest)
        | rest =>
          (membersFrom (room - 1) turns [] rest).map fun (es, rest) => (.table .inline es, rest)
    | text =>
      match string? text with
      | some (s, rest) => some (.string s, rest)
      | none => (scalarValue? (text.takeWhile isToken)).map (·, text.dropWhile isToken)

/-- The elements of an array up to its closing bracket, which a comma may precede. -/
def itemsFrom (room : Nat) : Nat → List Char → Option (List Value × List Char)
  | 0, _ => none
  | turns + 1, text =>
    match skipLines (turns + 1) text with
    | ']' :: rest => some ([], rest)
    | text =>
      match valueFrom room turns text with
      | none => none
      | some (item, rest) =>
        match skipLines (turns + 1) rest with
        | ']' :: rest => some ([item], rest)
        | ',' :: rest =>
          (itemsFrom room turns rest).map fun (items, rest) => (item :: items, rest)
        | _ => none

/-- The entries of an inline table up to its closing brace, added to those before them. -/
def membersFrom (room : Nat) : Nat → Entries → List Char → Option (Entries × List Char)
  | 0, _, _ => none
  | turns + 1, entries, text =>
    match entryFrom room turns text with
    | none => none
    | some (line, rest) =>
      match entries.add? line with
      | none => none
      | some entries =>
        match skipSpace rest with
        | '\x7d' :: rest => some (entries, rest)
        | ',' :: rest => membersFrom room turns entries rest
        | _ => none

/-- A key, an equals sign and a value. -/
def entryFrom (room : Nat) : Nat → List Char → Option (Assignment × List Char)
  | 0, _ => none
  | turns + 1, text =>
    match key? text with
    | none => none
    | some (path, last, rest) =>
      match skipSpace rest with
      | '=' :: rest =>
        (valueFrom room turns (skipSpace rest)).map fun (value, rest) =>
          (⟨path, last, value⟩, rest)
      | _ => none

end

/-- What the lines from here up to the next header or the end assign, and the rest.  At most `turns`
lines are read. -/
def linesFrom : Nat → List Char → Option (List Assignment × List Char)
  | 0, _ => none
  | turns + 1, text =>
    match skipSpace text with
    | [] => some ([], [])
    | '[' :: rest => some ([], '[' :: rest)
    | rest =>
      match endLine? rest with
      | some rest => linesFrom turns rest
      | none => do
        let (line, rest) ← entryFrom nestingLimit (2 * rest.length + 2) rest
        let (lines, rest) ← linesFrom turns (← endLine? rest)
        return (line :: lines, rest)

/-- The tables from here to the end, added to the entries before them. -/
def tablesFrom : Nat → Entries → List Char → Option Entries
  | 0, _, _ => none
  | _ + 1, root, [] => some root
  | turns + 1, root, '[' :: rest => do
    let (path, last, rest) ← key? rest
    match skipSpace rest with
    | ']' :: rest =>
      let body ← endLine? rest
      let (lines, rest) ← linesFrom (body.length + 1) body
      tablesFrom turns (← root.addTable? lines last path) rest
    | _ => none
  | _ + 1, _, _ => none

/-- The entries of a document; a byte order mark may precede it. -/
def parse? (source : String) : Option Entries := do
  let text := match source.toList with
    | c :: rest => if c.toNat = 0xFEFF then rest else c :: rest
    | [] => []
  let bound := text.length + 1
  let (lines, rest) ← linesFrom bound text
  tablesFrom bound (← Entries.addAll? [] lines) rest

end Toml
end SchemeMachine
