/-!
# Lines

How an input is cut into lines.
-/

namespace SchemeMachine
namespace Text

/-- The lines of an input.  A line ends with a line feed, before which a carriage return is dropped;
the last line may lack it, but is not empty then. -/
def lines (input : String) : List String :=
  (linesFrom [] input.toList).map String.ofList
where
  /-- A line without its carriage return, given its characters, latest first. -/
  trimReturn : List Char → List Char
    | '\r' :: rest => rest.reverse
    | done => done.reverse
  /-- The lines from here on, given what has been read of the first, latest first. -/
  linesFrom (done : List Char) : List Char → List (List Char)
    | [] => if done.isEmpty then [] else [done.reverse]
    | c :: rest =>
      if c = '\n' then trimReturn done :: linesFrom [] rest else linesFrom (c :: done) rest

example : lines "a\r\n\nb" = ["a", "", "b"] := by decide +kernel

end Text
end SchemeMachine
