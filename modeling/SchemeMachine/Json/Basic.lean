/-!
# JSON

JSON values, and the layout in which they are written: two blanks of indentation per level and one
member or element per line.  A number keeps its numeral, because integers and reals are told apart
by whoever reads it.
-/

namespace SchemeMachine

/-- A JSON value. -/
inductive Json where
  | null
  | bool (value : Bool)
  | number (numeral : String)
  | string (text : String)
  | array (items : List Json)
  | object (members : List (String × Json))

namespace Json

/-- A lower-case hexadecimal digit. -/
def hexDigit (n : Nat) : Char :=
  Nat.digitChar n

/-- A character inside a string: quote, backslash and control characters are escaped, by a letter
where there is one. -/
def escapedChar (c : Char) : List Char :=
  match c with
  | '"' => ['\\', '"']
  | '\\' => ['\\', '\\']
  | '\x08' => ['\\', 'b']
  | '\x0c' => ['\\', 'f']
  | '\n' => ['\\', 'n']
  | '\r' => ['\\', 'r']
  | '\t' => ['\\', 't']
  | c =>
    if c.toNat < 0x20 then
      ['\\', 'u', '0', '0', hexDigit (c.toNat / 16), hexDigit (c.toNat % 16)]
    else [c]

/-- A string in quotes. -/
def quoted (text : String) : String :=
  String.ofList ('"' :: (text.toList.flatMap escapedChar ++ ['"']))

/-- The start of a new line at a depth. -/
def newline (depth : Nat) : String :=
  String.ofList ('\n' :: List.replicate (2 * depth) ' ')

mutual

/-- The text of a value inside `depth` open brackets. -/
def render (depth : Nat) : Json → String
  | null => "null"
  | bool b => if b then "true" else "false"
  | number numeral => numeral
  | string text => quoted text
  | array [] => "[]"
  | array (item :: rest) =>
    "[" ++ newline (depth + 1) ++ render (depth + 1) item ++ renderItems (depth + 1) rest ++
      newline depth ++ "]"
  | object [] => "\x7b\x7d"
  | object ((key, value) :: rest) =>
    "\x7b" ++ newline (depth + 1) ++ quoted key ++ ": " ++ render (depth + 1) value ++
      renderMembers (depth + 1) rest ++ newline depth ++ "\x7d"

/-- The elements after the first, each behind a comma. -/
def renderItems (depth : Nat) : List Json → String
  | [] => ""
  | item :: rest => "," ++ newline depth ++ render depth item ++ renderItems depth rest

/-- The members after the first, each behind a comma. -/
def renderMembers (depth : Nat) : List (String × Json) → String
  | [] => ""
  | (key, value) :: rest =>
    "," ++ newline depth ++ quoted key ++ ": " ++ render depth value ++ renderMembers depth rest

end

/-- The text of a value. -/
def pretty (value : Json) : String :=
  render 0 value

/-- The member of that name, if the value is an object that has one. -/
def member? (value : Json) (key : String) : Option Json :=
  match value with
  | object members => members.lookup key
  | _ => none

/-- The text of a string value. -/
def string? : Json → Option String
  | string text => some text
  | _ => none

/-- The elements of an array. -/
def array? : Json → Option (List Json)
  | array items => some items
  | _ => none

end Json
end SchemeMachine
