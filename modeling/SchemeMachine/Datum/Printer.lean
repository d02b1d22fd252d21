import SchemeMachine.Datum.Basic

/-!
# Text of data

The text of a datum reads back as the same datum, unless a symbol in it is spelled like something
else.  A pair whose tail is a pair goes on inside the same parentheses; a tail that is no list
follows a dot.
-/

namespace SchemeMachine

/-- The characters of a string literal between its quotes: a quote and a backslash are escaped. -/
def escapedChars : List Char → List Char
  | [] => []
  | c :: rest =>
    if c = '"' ∨ c = '\\' then '\\' :: c :: escapedChars rest else c :: escapedChars rest

/-- A string literal. -/
def quotedText (s : String) : String :=
  String.ofList ('"' :: (escapedChars s.toList ++ ['"']))

/-- The text of a truth value. -/
def booleanText (b : Bool) : String :=
  if b then "#t" else "#f"

/-- The text of a literal. -/
def Literal.text : Literal → String
  | number n => n.text
  | string s => quotedText s
  | boolean b => booleanText b

/-- Whether a text is written on its own or as the tail of a list that is still open. -/
inductive Standing where
  | alone
  | tail
  deriving DecidableEq

/-- A text that is no list: after a dot, and closing the list, where it is a tail. -/
def Standing.place (standing : Standing) (body : String) : String :=
  match standing with
  | .alone => body
  | .tail => " . " ++ body ++ ")"

namespace Datum

mutual

/-- The text of a datum in its standing; as a tail it closes the list it belongs to. -/
def textAs (standing : Standing) : Datum → String
  | pair _ a d =>
    (match standing with | .alone => "(" | .tail => " ") ++ textAs .alone a ++ textAs .tail d
  | empty _ => match standing with | .alone => "()" | .tail => ")"
  | symbol _ name => standing.place name
  | literal _ value => standing.place value.text
  | vector _ items => standing.place ("#(" ++ " ".intercalate (itemTexts items) ++ ")")

/-- The texts of the elements of a vector. -/
def itemTexts : List Datum → List String
  | [] => []
  | x :: xs => textAs .alone x :: itemTexts xs

end

/-- The text of a datum. -/
def text (d : Datum) : String :=
  textAs .alone d

end Datum
end SchemeMachine
