/-!
# Blank characters

Which characters separate tokens, and how text is trimmed of them.  The set is the property
`White_Space` of the Unicode standard, which is wider than the four characters that
`Char.isWhitespace` knows.
-/

namespace SchemeMachine
namespace Text

/-- The closed ranges of code points that make up the property `White_Space`. -/
def blankRanges : List (Nat × Nat) :=
  [(0x9, 0xD), (0x20, 0x20), (0x85, 0x85), (0xA0, 0xA0), (0x1680, 0x1680), (0x2000, 0x200A),
    (0x2028, 0x2029), (0x202F, 0x202F), (0x205F, 0x205F), (0x3000, 0x3000)]

/-- A blank is a character with the property `White_Space`. -/
def isBlank (c : Char) : Bool :=
  blankRanges.any fun range => range.1 ≤ c.toNat && c.toNat ≤ range.2

/-- Text without the blanks at either end. -/
def trimBlank (text : String) : String :=
  let front := text.toList.dropWhile isBlank
  String.ofList (front.reverse.dropWhile isBlank).reverse

/-- Text that holds nothing but blanks. -/
def allBlank (text : String) : Bool :=
  text.toList.all isBlank

example : isBlank ' ' = true := by decide
example : isBlank (Char.ofNat 0x3000) = true := by decide
example : isBlank (Char.ofNat 0x200B) = false := by decide

end Text
end SchemeMachine
