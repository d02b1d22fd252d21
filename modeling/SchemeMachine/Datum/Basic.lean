import SchemeMachine.Number

/-!
# Data

A datum is what the reader makes of source text: pairs, the empty list, symbols, literals and
vectors.  Every datum carries a mark: an identity number that is unique within one reading, and,
if it was written in the text rather than supplied by the reader, the span it was written in.
Marks take no part in comparison or printing.
-/

namespace SchemeMachine

/-- Where a datum stands in its source text. -/
structure Span where
  /-- Offset of its first character. -/
  offset : Nat
  /-- Line of its first character, counted from one. -/
  line : Nat
  /-- Column of its first character, counted from one. -/
  column : Nat
  /-- How many characters it takes. -/
  length : Nat
  deriving Repr, DecidableEq

/-- The offset just past the last character. -/
def Span.stop (s : Span) : Nat :=
  s.offset + s.length

/-- The line and column as messages give them. -/
def Span.text (s : Span) : String :=
  s!"line {s.line}, col {s.column}"

/-- Identity and origin of a datum. -/
structure Mark where
  /-- Unique within one reading. -/
  id : Nat
  /-- Absent for the parts that the reader supplies itself. -/
  span : Option Span
  deriving Repr, DecidableEq

/-- A literal stands for itself. -/
inductive Literal where
  | number (value : Number)
  | string (text : String)
  | boolean (value : Bool)

/-- A datum with its marks. -/
inductive Datum where
  | pair (mark : Mark) (car cdr : Datum)
  | empty (mark : Mark)
  | symbol (mark : Mark) (name : String)
  | literal (mark : Mark) (value : Literal)
  | vector (mark : Mark) (items : List Datum)

namespace Literal

/-- Literals are the same when they have the same kind and value. -/
def same : Literal → Literal → Bool
  | number m, number n => m.same n
  | string s, string t => s == t
  | boolean a, boolean b => a == b
  | _, _ => false

end Literal

namespace Datum

/-- The mark of a datum. -/
def mark : Datum → Mark
  | pair m _ _ => m
  | empty m => m
  | symbol m _ => m
  | literal m _ => m
  | vector m _ => m

/-- The same datum under another mark. -/
def withMark (m : Mark) : Datum → Datum
  | pair _ a d => pair m a d
  | empty _ => empty m
  | symbol _ name => symbol m name
  | literal _ value => literal m value
  | vector _ items => vector m items

/-- The same datum with its own span replaced. -/
def withSpan (span : Option Span) (d : Datum) : Datum :=
  d.withMark ⟨d.mark.id, span⟩

/-- The name of a symbol. -/
def symbolName? : Datum → Option String
  | symbol _ name => some name
  | _ => none

/-- The elements of a proper list; nothing for any other datum. -/
def items? : Datum → Option (List Datum)
  | empty _ => some []
  | pair _ a d => (items? d).map (a :: ·)
  | _ => none

/-- Puts `items` in front of `tail`.  The pairs are made from the right, each with the number after
`lastId` that is still free; the last number used is returned too. -/
def chain (items : List Datum) (tail : Datum) (lastId : Nat) : Datum × Nat :=
  items.foldr (fun item (rest, last) => (pair ⟨last + 1, none⟩ item rest, last + 1)) (tail, lastId)

/-- A proper list of `items`: the empty list at its end is numbered first, then the pairs. -/
def properList (items : List Datum) (lastId : Nat) : Datum × Nat :=
  chain items (empty ⟨lastId + 1, none⟩) (lastId + 1)

mutual

/-- Structural equality, blind to marks. -/
def same : Datum → Datum → Bool
  | pair _ a d, pair _ a' d' => same a a' && same d d'
  | empty _, empty _ => true
  | symbol _ s, symbol _ t => s == t
  | literal _ l, literal _ m => l.same m
  | vector _ xs, vector _ ys => sameAll xs ys
  | _, _ => false

/-- Structural equality of rows of data. -/
def sameAll : List Datum → List Datum → Bool
  | [], [] => true
  | x :: xs, y :: ys => same x y && sameAll xs ys
  | _, _ => false

end

mutual

/-- Every datum within a datum, itself first, the head of a pair before its tail. -/
def preorder : Datum → List Datum
  | d@(pair _ a b) => d :: (preorder a ++ preorder b)
  | d@(vector _ items) => d :: preorderAll items
  | d => [d]

/-- The data within each of a row of data. -/
def preorderAll : List Datum → List Datum
  | [] => []
  | x :: xs => preorder x ++ preorderAll xs

end

end Datum
end SchemeMachine
