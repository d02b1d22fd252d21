/-!
# Styled text

Terminal styles are switched on before a text and off after it.
-/

namespace SchemeMachine
namespace Text

/-- A text in the style of that number. -/
def styled (style : String) (text : String) : String :=
  "\x1b[" ++ style ++ "m" ++ text ++ "\x1b[0m"

/-- Red text, for errors and warnings. -/
def red : String → String := styled "31"

/-- Yellow text, for labels of figures. -/
def yellow : String → String := styled "33"

/-- Cyan text, for titles and commands. -/
def cyan : String → String := styled "36"

/-- Bold text. -/
def bold : String → String := styled "1"

/-- Gray text, for remarks. -/
def gray : String → String := styled "90"

end Text
end SchemeMachine
