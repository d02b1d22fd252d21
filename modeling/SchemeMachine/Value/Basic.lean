import SchemeMachine.Datum.Printer
import SchemeMachine.Program.Basic

/-!
# Values

What registers, variables and data structures hold while a program runs.  Pairs, vectors, strings
and procedures carry a tag that is fresh when they are made, so that two of them are the same object
exactly when their tags agree; the predicate `eq?` of the language can tell.  Environments are
numbers of frames.

How a value refers to code is left open as a parameter.  On the machine, references to code are
blocks of programs and say which loading of a program they point into.
-/

namespace SchemeMachine

/-- The identity of an object made during a run. -/
abbrev Tag := Nat

/-- The number of a frame in the store. -/
abbrev FrameId := Nat

/-- A block of a loaded program.  Loading the same program again gives other code. -/
structure CodeRef where
  /-- The tag that the program got when it was loaded. -/
  load : Tag
  program : Program
  block : BlockId

namespace CodeRef

/-- References are the same when they point to the same block of the same loading. -/
def same (a b : CodeRef) : Bool :=
  a.load == b.load && a.block == b.block

/-- The name of the block. -/
def blockName (code : CodeRef) : String :=
  code.program.nameOf code.block

end CodeRef

instance : BEq CodeRef := ⟨CodeRef.same⟩

/-- How many arguments a procedure takes. -/
inductive Arity where
  | exactly (count : Nat)
  | atLeast (count : Nat)
  deriving Repr, DecidableEq

namespace Arity

/-- Whether that many arguments will do. -/
def accepts : Arity → Nat → Bool
  | exactly k, n => n == k
  | atLeast k, n => k ≤ n

/-- The wording of an arity in messages. -/
def text : Arity → String
  | exactly n => Decimal.naturalText n
  | atLeast n => s!"at least {Decimal.naturalText n}"

end Arity

/-- The procedures that are not compiled. -/
inductive Primitive where
  | add | subtract | multiply | divide
  | equal | less | greater | lessOrEqual | greaterOrEqual
  | cons | car | cdr | list
  | isNull | isPair | isEq | not
  deriving Repr, DecidableEq

namespace Primitive

/-- Every primitive, in the order in which they are installed. -/
def all : List Primitive :=
  [add, subtract, multiply, divide, equal, less, greater, lessOrEqual, greaterOrEqual,
    cons, car, cdr, list, isNull, isPair, isEq, not]

/-- The variable that a primitive is bound to. -/
def name : Primitive → String
  | add => "+"
  | subtract => "-"
  | multiply => "*"
  | divide => "/"
  | equal => "="
  | less => "<"
  | greater => ">"
  | lessOrEqual => "<="
  | greaterOrEqual => ">="
  | cons => "cons"
  | car => "car"
  | cdr => "cdr"
  | list => "list"
  | isNull => "null?"
  | isPair => "pair?"
  | isEq => "eq?"
  | not => "not"

/-- How many arguments a primitive takes. -/
def arity : Primitive → Arity
  | add | multiply | list => .atLeast 0
  | subtract | divide | equal | less | greater | lessOrEqual | greaterOrEqual => .atLeast 1
  | cons | isEq => .exactly 2
  | car | cdr | isNull | isPair | not => .exactly 1

end Primitive

/-- What a register or a variable holds. -/
inductive Value (C : Type := CodeRef) where
  /-- What registers hold before anything is assigned to them. -/
  | unspecified
  | empty
  | boolean (value : Bool)
  | number (value : Number)
  | string (tag : Tag) (text : String)
  | symbol (name : String)
  | pair (tag : Tag) (car cdr : Value C)
  | vector (tag : Tag) (items : List (Value C))
  | primitive (procedure : Primitive)
  /-- A compiled procedure: where it enters and the environment it was made in. -/
  | closure (tag : Tag) (entry : C) (env : FrameId)
  /-- A place in code. -/
  | label (code : C)
  | environment (frame : FrameId)

namespace Value

variable {C : Type}

instance : Inhabited (Value C) := ⟨.unspecified⟩

/-- Only the false truth value counts as false. -/
def isTrue : Value C → Bool
  | boolean false => false
  | _ => true

/-- The kind of a value as messages name it. -/
def typeName : Value C → String
  | unspecified => "unspecified"
  | empty => "empty list"
  | boolean _ => "boolean"
  | number _ => "number"
  | string _ _ => "string"
  | symbol _ => "symbol"
  | pair _ _ _ => "pair"
  | vector _ _ => "vector"
  | primitive _ | closure _ _ _ => "procedure"
  | label _ => "label"
  | environment _ => "environment"

/-- The elements of a proper list; nothing for any other value. -/
def items? : Value C → Option (List (Value C))
  | empty => some []
  | pair _ a d => (items? d).map (a :: ·)
  | _ => none

/-- A proper list, whose pairs take the tags from `tag` on; the next free tag is returned too. -/
def ofList (items : List (Value C)) (tag : Tag) : Value C × Tag :=
  items.foldr (fun item (rest, tag) => (pair tag item rest, tag + 1)) (empty, tag)

/-- The value of a literal, with the next free tag. -/
def ofLiteral (tag : Tag) : Literal → Value C × Tag
  | .number n => (number n, tag)
  | .string s => (string tag s, tag + 1)
  | .boolean b => (boolean b, tag)

mutual

/-- The value that a datum denotes, made of fresh objects, with the next free tag. -/
def ofDatum (tag : Tag) : Datum → Value C × Tag
  | .empty _ => (empty, tag)
  | .symbol _ name => (symbol name, tag)
  | .literal _ value => ofLiteral tag value
  | .pair _ a d =>
    let (a, tag) := ofDatum tag a
    let (d, tag) := ofDatum tag d
    (pair tag a d, tag + 1)
  | .vector _ items =>
    let (items, tag) := ofData tag items
    (vector tag items, tag + 1)

/-- The values that a row of data denotes. -/
def ofData (tag : Tag) : List Datum → List (Value C) × Tag
  | [] => ([], tag)
  | x :: xs =>
    let (x, tag) := ofDatum tag x
    let (xs, tag) := ofData tag xs
    (x :: xs, tag)

end

/-- The value of a constant, with the next free tag. -/
def ofConstant (tag : Tag) : Constant → Value C × Tag
  | .empty => (empty, tag)
  | .literal value => ofLiteral tag value
  | .symbol name => (symbol name, tag)
  | .datum d => ofDatum tag d

mutual

/-- Structural equality.  Procedures and environments are equal only to themselves. -/
def same [BEq C] : Value C → Value C → Bool
  | unspecified, unspecified => true
  | empty, empty => true
  | boolean a, boolean b => a == b
  | number m, number n => m.same n
  | string _ s, string _ t => s == t
  | symbol s, symbol t => s == t
  | pair _ a d, pair _ a' d' => same a a' && same d d'
  | vector _ xs, vector _ ys => sameAll xs ys
  | primitive p, primitive q => p == q
  | closure s _ _, closure t _ _ => s == t
  | label a, label b => a == b
  | environment f, environment g => f == g
  | _, _ => false

/-- Structural equality of rows of values. -/
def sameAll [BEq C] : List (Value C) → List (Value C) → Bool
  | [], [] => true
  | x :: xs, y :: ys => same x y && sameAll xs ys
  | _, _ => false

end

/-- Identity for pairs, vectors and strings, equality for everything else. -/
def identical [BEq C] : Value C → Value C → Bool
  | pair s _ _, pair t _ _ => s == t
  | vector s _, vector t _ => s == t
  | string s _, string t _ => s == t
  | v, w => same v w

mutual

/-- The text of a value in its standing; as a tail it closes the list it belongs to. -/
def textAs (standing : Standing) : Value → String
  | unspecified => standing.place "#<unspecified>"
  | empty => match standing with | .alone => "()" | .tail => ")"
  | boolean b => standing.place (booleanText b)
  | number n => standing.place n.text
  | string _ s => standing.place (quotedText s)
  | symbol name => standing.place name
  | pair _ a d =>
    (match standing with | .alone => "(" | .tail => " ") ++ textAs .alone a ++ textAs .tail d
  | vector _ items => standing.place ("#(" ++ " ".intercalate (itemTexts items) ++ ")")
  | primitive p => standing.place s!"#<primitive {p.name}>"
  | closure _ _ _ => standing.place "#<compiled-procedure>"
  | label code => standing.place s!"#<label {code.blockName}>"
  | environment _ => standing.place "#<environment>"

/-- The texts of the elements of a vector. -/
def itemTexts : List Value → List String
  | [] => []
  | x :: xs => textAs .alone x :: itemTexts xs

end

/-- The text of a value. -/
def text (v : Value) : String :=
  textAs .alone v

end Value
end SchemeMachine
