import SchemeMachine.Datum.Basic
import SchemeMachine.Decimal.Real
import SchemeMachine.Text.Blank

/-!
# Reading data

A reader holds the text not yet read, the position it stands at and the last identity number given
out.  It yields one datum at a time.  When a datum is malformed the reader says what is wrong and
where, and stays where it noticed; asked again, it goes on from there.

Lists, vectors and quotations may be nested 256 deep.  The depth still allowed is what `readForm`
recurses on.
-/

namespace SchemeMachine

/-- A place in a text, with line and column counted from one. -/
structure Position where
  offset : Nat
  line : Nat
  column : Nat
  deriving Repr, DecidableEq

namespace Position

/-- The first position of a text. -/
def origin : Position := ⟨0, 1, 1⟩

/-- The position after a character. -/
def after (p : Position) (c : Char) : Position :=
  if c = '\n' then ⟨p.offset + 1, p.line + 1, 1⟩ else ⟨p.offset + 1, p.line, p.column + 1⟩

/-- The position after a row of characters. -/
def afterAll (p : Position) (text : List Char) : Position :=
  text.foldl after p

/-- The line and column as messages give them. -/
def text (p : Position) : String :=
  s!"line {p.line}, col {p.column}"

/-- The span from `p` up to `stop`. -/
def spanTo (p stop : Position) : Span :=
  ⟨p.offset, p.line, p.column, stop.offset - p.offset⟩

end Position

/-- What is wrong with a text, and where. -/
inductive SyntaxError where
  | unterminatedString (start : Position)
  | unterminatedList (start : Position)
  | unterminatedVector (start : Position)
  | unexpectedClose (place : Position)
  | unexpectedDot (place : Position)
  | expectedClose (place : Position)
  | unexpectedEnd (place : Position)
  | unsupportedRational (token : String) (start : Position)
  | invalidNumber (token : String) (start : Position)
  | illegalHash (token : String) (start : Position)
  | nestingTooDeep (limit : Nat) (start : Position)
  deriving DecidableEq

/-- The wording of a syntax error. -/
def SyntaxError.message : SyntaxError → String
  | unterminatedString p => s!"unterminated string starting at {p.text}"
  | unterminatedList p => s!"unmatched '(' at {p.text}: input ended before ')'"
  | unterminatedVector p => s!"unmatched '#(' at {p.text}: input ended before ')'"
  | unexpectedClose p => s!"unexpected ')' at {p.text}"
  | unexpectedDot p => s!"unexpected '.' at {p.text}"
  | expectedClose p => s!"expected ')' after dotted tail at {p.text}"
  | unexpectedEnd p => s!"unexpected end of input after quote at {p.text}"
  | unsupportedRational t p => s!"rational number '{t}' at {p.text} is not supported"
  | invalidNumber t p => s!"invalid number '{t}' at {p.text}"
  | illegalHash t p => s!"illegal syntax '{t}' at {p.text}"
  | nestingTooDeep limit p => s!"nesting deeper than {limit} at {p.text}"

/-- The deepest nesting of lists, vectors and quotations that is read. -/
def maxNesting : Nat := 256

/-- A text from some position on. -/
structure Cursor where
  rest : List Char
  position : Position
  deriving DecidableEq

namespace Cursor

/-- Moves over the next character, if there is one. -/
def advance (c : Cursor) : Cursor :=
  match c.rest with
  | [] => c
  | ch :: rest => ⟨rest, c.position.after ch⟩

/-- The longest run of characters that satisfy `p`, and the cursor behind it. -/
def spanWhile (p : Char → Bool) (c : Cursor) : List Char × Cursor :=
  let run := c.rest.takeWhile p
  (run, ⟨c.rest.dropWhile p, c.position.afterAll run⟩)

/-- Moves over blanks and comments.  A comment runs from a semicolon to the end of its line. -/
def skipFrom : Bool → List Char → Position → Cursor
  | _, [], p => ⟨[], p⟩
  | true, ch :: rest, p => skipFrom (ch != '\n') rest (p.after ch)
  | false, ch :: rest, p =>
    if Text.isBlank ch then skipFrom false rest (p.after ch)
    else if ch = ';' then skipFrom true rest (p.after ch)
    else ⟨ch :: rest, p⟩

/-- Moves to the next character that is neither blank nor commented out. -/
def skipAtmosphere (c : Cursor) : Cursor :=
  skipFrom false c.rest c.position

/-- The contents of a string literal whose opening quote has been passed, with the cursor behind
its closing quote.  A backslash lets the next character stand for itself.  Without a closing quote
there are no contents, and all of the text has been passed. -/
def stringFrom : List Char → Position → Option (List Char) × Cursor
  | [], p => (none, ⟨[], p⟩)
  | '\\' :: [], p => (none, ⟨[], p.after '\\'⟩)
  | '\\' :: ch :: rest, p =>
    let (body, stop) := stringFrom rest ((p.after '\\').after ch)
    (body.map (ch :: ·), stop)
  | ch :: rest, p =>
    if ch = '"' then (some [], ⟨rest, p.after ch⟩)
    else
      let (body, stop) := stringFrom rest (p.after ch)
      (body.map (ch :: ·), stop)

end Cursor

/-- Characters that end a symbol or a number; so does the end of the text. -/
def isDelimiter (c : Char) : Bool :=
  c == ')' || Text.isBlank c

/-- Whether a token would end before `next`. -/
def endsToken (next : Option Char) : Bool :=
  next.all isDelimiter

/-- Whether a dot followed by `next` separates the tail of a list. -/
def endsDot (next : Option Char) : Bool :=
  endsToken next || next == some '('

/-- The state of reading a text. -/
structure Reader where
  cursor : Cursor
  /-- The last identity number given out. -/
  lastId : Nat
  /-- Set once iteration has met an error, after which it yields nothing more. -/
  failed : Bool
  deriving DecidableEq

/-- A step of reading: it yields something or an error, and leaves a reader either way. -/
abbrev Read := EStateM SyntaxError Reader

namespace Reader

/-- A reader at the start of a text. -/
def ofText (source : String) : Reader :=
  ⟨⟨source.toList, Position.origin⟩, 0, false⟩

/-- The position the reader stands at. -/
def here : Read Position := do
  return (← get).cursor.position

/-- The next character. -/
def peek : Read (Option Char) := do
  return (← get).cursor.rest.head?

/-- The character after the next. -/
def peekSecond : Read (Option Char) := do
  return (← get).cursor.rest.tail.head?

/-- Replaces the cursor. -/
def moveTo (cursor : Cursor) : Read Unit :=
  modify fun r => { r with cursor }

/-- Passes the next character. -/
def advance : Read Unit :=
  modify fun r => { r with cursor := r.cursor.advance }

/-- Passes blanks and comments. -/
def skipAtmosphere : Read Unit :=
  modify fun r => { r with cursor := r.cursor.skipAtmosphere }

/-- Takes the characters up to the next delimiter. -/
def takeToken : Read (List Char) := do
  let (token, cursor) := (← get).cursor.spanWhile fun c => !isDelimiter c
  moveTo cursor
  return token

/-- Marks a datum that began at `start` and ends here with the next identity number. -/
def finish (start : Position) (make : Mark → Datum) : Read Datum := do
  let r ← get
  set { r with lastId := r.lastId + 1 }
  return make ⟨r.lastId + 1, some (start.spanTo r.cursor.position)⟩

/-- Gives a list that began at `start` and ends here its span, and keeps count of the numbers that
making its pairs took. -/
def finishList (start : Position) (build : Nat → Datum × Nat) : Read Datum := do
  let r ← get
  let (d, last) := build r.lastId
  set { r with lastId := last }
  return d.withSpan (some (start.spanTo r.cursor.position))

/-- The number a token stands for: an exact integer if it fits in 64 bits, otherwise a real, if the
token has no other characters than those of real numerals. -/
def number? (token : List Char) : Option Number :=
  match (Decimal.integer? token).bind Number.int64? with
  | some n => some (.int n)
  | none => (Decimal.float? token).map .real

/-- A number, from its first character on. -/
def readNumber (start : Position) : Read Datum := do
  let token ← takeToken
  if token.contains '/' then throw (.unsupportedRational (String.ofList token) start)
  match number? token with
  | some n => finish start (.literal · (.number n))
  | none => throw (.invalidNumber (String.ofList token) start)

/-- A symbol, from its first character on. -/
def readSymbol (start : Position) : Read Datum := do
  let token ← takeToken
  finish start (.symbol · (String.ofList token))

/-- A string, behind its opening quote. -/
def readString (start : Position) : Read Datum := do
  let cursor := (← get).cursor
  let (body, stop) := Cursor.stringFrom cursor.rest cursor.position
  moveTo stop
  match body with
  | some body => finish start (.literal · (.string (String.ofList body)))
  | none => throw (.unterminatedString start)

/-- The tail after a dot, and the parenthesis that must follow it. -/
def readTail (read : Read Datum) (start : Position) (items : List Datum) : Read Datum := do
  skipAtmosphere
  if (← peek).isNone then throw (.unterminatedList start)
  let tail ← read
  skipAtmosphere
  if (← peek) != some ')' then throw (.expectedClose (← here))
  advance
  finishList start (Datum.chain items.reverse tail)

/-- The rest of a list whose elements so far are `items`, latest first.  Every turn reads at least
one character, so the number of characters left bounds the turns. -/
def readListFrom (read : Read Datum) (start : Position) : Nat → List Datum → Read Datum
  | 0, _ => throw (.unterminatedList start)
  | turns + 1, items => do
    skipAtmosphere
    match ← peek with
    | none => throw (.unterminatedList start)
    | some ')' =>
      advance
      if items.isEmpty then finish start .empty
      else finishList start (Datum.properList items.reverse)
    | some c =>
      if c == '.' && endsDot (← peekSecond) then
        if items.isEmpty then throw (.unexpectedDot (← here))
        advance
        readTail read start items
      else
        let item ← read
        readListFrom read start turns (item :: items)

/-- A list, behind its opening parenthesis. -/
def readList (read : Read Datum) (start : Position) : Read Datum := do
  readListFrom read start ((← get).cursor.rest.length + 1) []

/-- The rest of a vector whose elements so far are `items`, latest first. -/
def readVectorFrom (read : Read Datum) (start : Position) : Nat → List Datum → Read Datum
  | 0, _ => throw (.unterminatedVector start)
  | turns + 1, items => do
    skipAtmosphere
    match ← peek with
    | none => throw (.unterminatedVector start)
    | some ')' =>
      advance
      finish start (.vector · items.reverse)
    | some _ =>
      let item ← read
      readVectorFrom read start turns (item :: items)

/-- A vector, behind its opening parenthesis. -/
def readVector (read : Read Datum) (start : Position) : Read Datum := do
  readVectorFrom read start ((← get).cursor.rest.length + 1) []

/-- A quotation, behind its mark: the list of the symbol `quote` and the datum that follows. -/
def readQuote (read : Read Datum) (start : Position) : Read Datum := do
  skipAtmosphere
  if (← peek).isNone then throw (.unexpectedEnd start)
  let quoted ← read
  finishList start fun last =>
    Datum.properList [.symbol ⟨last + 1, none⟩ "quote", quoted] (last + 1)

/-- Goes one level deeper, if a level is left. -/
def nested (inner : Option (Read Datum)) (start : Position)
    (body : Read Datum → Position → Read Datum) : Read Datum :=
  match inner with
  | none => throw (.nestingTooDeep maxNesting start)
  | some read => body read start

/-- What a hash sign begins. -/
def readHash (inner : Option (Read Datum)) (start : Position) : Read Datum := do
  match ← peek with
  | some 't' => advance; finish start (.literal · (.boolean true))
  | some 'f' => advance; finish start (.literal · (.boolean false))
  | some '(' => advance; nested inner start readVector
  | some c => throw (.illegalHash (String.ofList ['#', c]) start)
  | none => throw (.illegalHash "#" start)

/-- One datum; its first character decides what it is.  `inner` reads the data inside it. -/
def readFormWith (inner : Option (Read Datum)) : Read Datum := do
  let start ← here
  match ← peek with
  | none => throw (.unexpectedEnd start)
  | some '(' => advance; nested inner start readList
  | some ')' => throw (.unexpectedClose start)
  | some '\'' => advance; nested inner start readQuote
  | some '"' => advance; readString start
  | some '#' => advance; readHash inner start
  | some c =>
    if c == '-' && endsToken (← peekSecond) then
      advance
      finish start (.symbol · "-")
    else if c == '-' || c.isDigit then readNumber start
    else readSymbol start

/-- One datum, in which at most `room` levels may be nested. -/
def readForm : Nat → Read Datum
  | 0 => readFormWith none
  | room + 1 => readFormWith (some (readForm room))

/-- The next datum of the text, or nothing at its end. -/
def nextForm : Read (Option Datum) := do
  skipAtmosphere
  if (← peek).isNone then return none
  return some (← readForm maxNesting)

/-- Iteration: the next datum or the first error, and nothing after that error. -/
def next? (r : Reader) : Option (Except SyntaxError Datum) × Reader :=
  if r.failed then (none, r)
  else
    match nextForm r with
    | .ok none r => (none, r)
    | .ok (some d) r => (some (.ok d), r)
    | .error e r => (some (.error e), { r with failed := true })

/-- What iteration yields in at most `turns` turns: the data, and the error it ended with, if any.
-/
def takeForms : Nat → Reader → List Datum × Option SyntaxError
  | 0, _ => ([], none)
  | turns + 1, r =>
    match r.next? with
    | (none, _) => ([], none)
    | (some (.error e), _) => ([], some e)
    | (some (.ok d), r) =>
      let (ds, error) := takeForms turns r
      (d :: ds, error)

end Reader

namespace Datum

/-- The data of a text up to its end or its first error, and that error.  Every datum takes at
least one character, so the length of the text bounds their number. -/
def readAll (source : String) : List Datum × Option SyntaxError :=
  Reader.takeForms (source.toList.length + 1) (Reader.ofText source)

/-- All data of a text, or its first error. -/
def parse (source : String) : Except SyntaxError (List Datum) :=
  match readAll source with
  | (ds, none) => .ok ds
  | (_, some e) => .error e

/-- The first datum of a text, if it has one. -/
def parseOne (source : String) : Except SyntaxError (Option Datum) :=
  match Reader.nextForm (Reader.ofText source) with
  | .ok d _ => .ok d
  | .error e _ => .error e

end Datum
end SchemeMachine
