import SchemeMachine.Decimal.Numeral
import SchemeMachine.Decimal.Real
import SchemeMachine.Json.Parser
import SchemeMachine.Program.Basic

/-!
# Programs as JSON

Every part of a program has a JSON form.  A case without fields is a string with the name of the
case, a case with fields is an object whose only member has that name, and a record is an object
with its fields in order.  Each writer has a reader beside it that takes its output back.
-/

namespace SchemeMachine

namespace Json

/-- Reals in JSON are written positionally between `0.00001` and `10^16`; JSON has no values that
are no numbers, and `null` takes their place. -/
def realLayout : RealLayout where
  plainFrom := -5
  plainBelow := 16
  exponentPlus := true
  tie := .toEven
  nan := "null"
  posInfinity := "null"
  negInfinity := "null"

/-- A case with one field. -/
def tagged (tag : String) (value : Json) : Json :=
  object [(tag, value)]

/-- A natural number. -/
def ofNat (n : Nat) : Json :=
  number (Decimal.naturalText n)

/-- Reads back a natural number. -/
def nat? : Json → Option Nat
  | number numeral => Decimal.natural? numeral.toList
  | _ => none

/-- Reads back a truth value. -/
def bool? : Json → Option Bool
  | bool b => some b
  | _ => none

/-- The tag of a case and its field, if it has one. -/
def case? : Json → Option (String × Option Json)
  | string tag => some (tag, none)
  | object [(tag, value)] => some (tag, some value)
  | _ => none

/-- Reads every element of an array. -/
def arrayOf? {α : Type} (read : Json → Option α) (value : Json) : Option (List α) := do
  (← value.array?).mapM read

end Json

namespace Number

/-- The JSON form of a number. -/
def toJson : Number → Json
  | int n => .tagged "Int" (.number (Decimal.integerText n.toInt))
  | real x => .tagged "Real" (.number (Json.realLayout.render x))

/-- Reads a number back. -/
def ofJson? (value : Json) : Option Number := do
  match ← value.case? with
  | ("Int", some (.number numeral)) =>
    return int (← (Decimal.integer? numeral.toList).bind int64?)
  | ("Real", some (.number numeral)) => return real (← Decimal.float? numeral.toList)
  | _ => none

end Number

namespace Literal

/-- The JSON form of a literal. -/
def toJson : Literal → Json
  | number n => .tagged "Number" n.toJson
  | string s => .tagged "String" (.string s)
  | boolean b => .tagged "Boolean" (.bool b)

/-- Reads a literal back. -/
def ofJson? (value : Json) : Option Literal := do
  match ← value.case? with
  | ("Number", some n) => return number (← Number.ofJson? n)
  | ("String", some s) => return string (← s.string?)
  | ("Boolean", some b) => return boolean (← b.bool?)
  | _ => none

end Literal

namespace Span

/-- The JSON form of a span. -/
def toJson (s : Span) : Json :=
  .object [("offset", .ofNat s.offset), ("line", .ofNat s.line), ("column", .ofNat s.column),
    ("length", .ofNat s.length)]

/-- Reads a span back. -/
def ofJson? (value : Json) : Option Span := do
  let field (key : String) := (value.member? key).bind Json.nat?
  return ⟨← field "offset", ← field "line", ← field "column", ← field "length"⟩

/-- The JSON form of a span that may be missing. -/
def toJsonOrNull : Option Span → Json
  | none => .null
  | some s => s.toJson

/-- Reads a span back that may be missing. -/
def ofJsonOrNull? : Json → Option (Option Span)
  | .null => some none
  | value => (ofJson? value).map some

end Span

namespace Datum

/-- The JSON form of a datum around the JSON form of what it is. -/
def markedJson (m : Mark) (kind : Json) : Json :=
  .object [("id", .ofNat m.id), ("span", Span.toJsonOrNull m.span), ("kind", kind)]

mutual

/-- The JSON form of a datum, marks included. -/
def toJson : Datum → Json
  | pair m a d =>
    markedJson m (.tagged "Pair" (.object [("car", toJson a), ("cdr", toJson d)]))
  | empty m => markedJson m (.string "Empty")
  | symbol m name => markedJson m (.tagged "Symbol" (.string name))
  | literal m value => markedJson m (.tagged "Literal" value.toJson)
  | vector m items => markedJson m (.tagged "Vector" (.array (toJsonAll items)))

/-- The JSON forms of a row of data. -/
def toJsonAll : List Datum → List Json
  | [] => []
  | x :: xs => toJson x :: toJsonAll xs

end

/-- Reads back the mark of a datum. -/
def markOfJson? (value : Json) : Option Mark := do
  let id ← (← value.member? "id").nat?
  let span ← match value.member? "span" with
    | none => some none
    | some span => Span.ofJsonOrNull? span
  return ⟨id, span⟩

/-- Reads a datum back that is nested at most `depth` deep. -/
def ofJsonWithin? : Nat → Json → Option Datum
  | 0, _ => none
  | depth + 1, value => do
    let m ← markOfJson? value
    match ← (← value.member? "kind").case? with
    | ("Pair", some parts) =>
      let a ← ofJsonWithin? depth (← parts.member? "car")
      let d ← ofJsonWithin? depth (← parts.member? "cdr")
      return pair m a d
    | ("Empty", none) => return empty m
    | ("Symbol", some name) => return symbol m (← name.string?)
    | ("Literal", some l) => return literal m (← Literal.ofJson? l)
    | ("Vector", some items) => return vector m (← items.arrayOf? (ofJsonWithin? depth))
    | _ => none

end Datum

namespace Json

mutual

/-- How deep brackets are nested in a value. -/
def depth : Json → Nat
  | array items => depthItems items + 1
  | object members => depthMembers members + 1
  | _ => 0

/-- The greatest depth among elements. -/
def depthItems : List Json → Nat
  | [] => 0
  | item :: rest => max (depth item) (depthItems rest)

/-- The greatest depth among members. -/
def depthMembers : List (String × Json) → Nat
  | [] => 0
  | (_, value) :: rest => max (depth value) (depthMembers rest)

end

end Json

/-- Reads a datum back. -/
def Datum.ofJson? (value : Json) : Option Datum :=
  Datum.ofJsonWithin? (value.depth + 1) value

namespace Constant

/-- The JSON form of a constant. -/
def toJson : Constant → Json
  | empty => .string "Empty"
  | literal value => .tagged "Literal" value.toJson
  | symbol name => .tagged "Symbol" (.string name)
  | datum value => .tagged "Datum" value.toJson

/-- Reads a constant back. -/
def ofJson? (value : Json) : Option Constant := do
  match ← value.case? with
  | ("Empty", none) => return empty
  | ("Literal", some l) => return literal (← Literal.ofJson? l)
  | ("Symbol", some name) => return symbol (← name.string?)
  | ("Datum", some d) => return datum (← Datum.ofJson? d)
  | _ => none

end Constant

namespace Register

/-- The JSON form of a register is its name. -/
def toJson (r : Register) : Json :=
  .string r.name

/-- Reads a register back. -/
def ofJson? (value : Json) : Option Register := do
  ofName? (← value.string?)

end Register

namespace Operand

/-- The JSON form of an operand of a block. -/
def toJson : Operand BlockId → Json
  | const value => .tagged "Const" value.toJson
  | register r => .tagged "Register" r.toJson
  | label target => .tagged "Block" (.ofNat target)
  | lookup name => .tagged "Lookup" (.string name)
  | consArg => .string "ConsArg"
  | listArg => .string "ListArg"
  | makeClosure entry => .tagged "MakeClosure" (.ofNat entry)
  | closureEnv => .string "ClosureEnv"
  | closureEntry => .string "ClosureEntry"
  | extendEnv formals => .tagged "ExtendEnv" (.array (formals.map .string))
  | applyPrimitive => .string "ApplyPrimitive"

/-- Reads an operand of a block back. -/
def ofJson? (value : Json) : Option (Operand BlockId) := do
  match ← value.case? with
  | ("Const", some c) => return const (← Constant.ofJson? c)
  | ("Register", some r) => return register (← Register.ofJson? r)
  | ("Block", some target) => return label (← target.nat?)
  | ("Lookup", some name) => return lookup (← name.string?)
  | ("ConsArg", none) => return consArg
  | ("ListArg", none) => return listArg
  | ("MakeClosure", some entry) => return makeClosure (← entry.nat?)
  | ("ClosureEnv", none) => return closureEnv
  | ("ClosureEntry", none) => return closureEntry
  | ("ExtendEnv", some formals) => return extendEnv (← formals.arrayOf? Json.string?)
  | ("ApplyPrimitive", none) => return applyPrimitive
  | _ => none

end Operand

namespace Operation

/-- The JSON form of an operation of a block. -/
def toJson : Operation BlockId → Json
  | assign target source =>
    .tagged "Assign" (.object [("target", target.toJson), ("source", source.toJson)])
  | save r => .tagged "Save" r.toJson
  | restore r => .tagged "Restore" r.toJson
  | define name => .tagged "Define" (.string name)
  | set name => .tagged "Set" (.string name)
  | testFalse => .string "TestFalse"
  | testPrimitive => .string "TestPrimitive"
  | branch target => .tagged "Branch" (.ofNat target)

/-- Reads an operation of a block back. -/
def ofJson? (value : Json) : Option (Operation BlockId) := do
  match ← value.case? with
  | ("Assign", some parts) =>
    let target ← Register.ofJson? (← parts.member? "target")
    return assign target (← Operand.ofJson? (← parts.member? "source"))
  | ("Save", some r) => return save (← Register.ofJson? r)
  | ("Restore", some r) => return restore (← Register.ofJson? r)
  | ("Define", some name) => return define (← name.string?)
  | ("Set", some name) => return set (← name.string?)
  | ("TestFalse", none) => return testFalse
  | ("TestPrimitive", none) => return testPrimitive
  | ("Branch", some target) => return branch (← target.nat?)
  | _ => none

end Operation

namespace Exit

/-- The JSON form of an exit. -/
def toJson : Exit → Json
  | jump (.direct target) => .tagged "DirectJump" (.ofNat target)
  | jump (.indirect r) => .tagged "IndirectJump" r.toJson
  | halt => .string "Halt"

/-- Reads an exit back. -/
def ofJson? (value : Json) : Option Exit := do
  match ← value.case? with
  | ("DirectJump", some target) => return jump (.direct (← target.nat?))
  | ("IndirectJump", some r) => return jump (.indirect (← Register.ofJson? r))
  | ("Halt", none) => return halt
  | _ => none

end Exit

namespace Block

/-- The JSON form of a block. -/
def toJson (b : Block) : Json :=
  .object [("name", .string b.name), ("ops", .array (b.operations.map Operation.toJson)),
    ("exit", b.exit.toJson)]

/-- Reads a block back. -/
def ofJson? (value : Json) : Option Block := do
  let name ← (← value.member? "name").string?
  let operations ← (← value.member? "ops").arrayOf? Operation.ofJson?
  return ⟨name, operations, ← Exit.ofJson? (← value.member? "exit")⟩

end Block

namespace Program

/-- The JSON form of a program. -/
def toJson (p : Program) : Json :=
  .object [("blocks", .array (p.blocks.toList.map Block.toJson)), ("entry", .ofNat p.entry)]

/-- Reads a program back. -/
def ofJson? (value : Json) : Option Program := do
  let blocks ← (← value.member? "blocks").arrayOf? Block.ofJson?
  return ⟨blocks.toArray, ← (← value.member? "entry").nat?⟩

/-- The JSON text of a program. -/
def jsonText (p : Program) : String :=
  p.toJson.pretty

/-- The program that a JSON text stands for. -/
def ofJsonText? (text : String) : Option Program :=
  (Json.parse? text).bind ofJson?

end Program
end SchemeMachine
