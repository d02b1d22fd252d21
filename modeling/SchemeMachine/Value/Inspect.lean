import SchemeMachine.Text.Hidden
import SchemeMachine.Value.Store

/-!
# Inspecting values

The inspection of a value names its kind and shows its parts in full.  A frame is shown by the
names it binds itself, in order of their code points, and by its depth, so that inspection ends even
where procedures are bound in the frames they were made in.
-/

namespace SchemeMachine

namespace Text

/-- A character inside an inspected string: characters that have no glyph of their own are shown
by a letter where there is one, else by their number in hexadecimal. -/
def inspectChar (c : Char) : List Char :=
  if c = Char.ofNat 0 then ['\\', '0']
  else if c = '\t' then ['\\', 't']
  else if c = '\r' then ['\\', 'r']
  else if c = '\n' then ['\\', 'n']
  else if c = '"' || c = '\\' then ['\\', c]
  else if isHidden c then ['\\', 'u', '\x7b'] ++ Nat.toDigits 16 c.toNat ++ ['\x7d']
  else [c]

/-- A string in quotes with its hidden characters shown. -/
def inspect (s : String) : String :=
  String.ofList ('"' :: (s.toList.flatMap inspectChar ++ ['"']))

end Text

/-- Reals under inspection print as they are displayed, apart from the values that are no
numbers. -/
def Number.inspection : RealLayout :=
  { Number.display with nan := "NaN", posInfinity := "inf", negInfinity := "-inf" }

/-- The inspection of a number. -/
def Number.inspect : Number → String
  | int n => s!"Int({Decimal.integerText n.toInt})"
  | real x => s!"Real({Number.inspection.render x})"

/-- The inspection of an arity. -/
def Arity.inspect : Arity → String
  | exactly n => s!"Exact({Decimal.naturalText n})"
  | atLeast n => s!"AtLeast({Decimal.naturalText n})"

/-- Parts in braces after the name of what they are parts of. -/
def inspectRecord (name : String) (fields : List (String × String)) : String :=
  name ++ " \x7b " ++
    ", ".intercalate (fields.map fun (key, text) => key ++ ": " ++ text) ++ " \x7d"

/-- Parts in brackets. -/
def inspectRow (items : List String) : String :=
  "[" ++ ", ".intercalate items ++ "]"

/-- The inspection of a frame: the names it binds, and its depth. -/
def Store.inspect (s : Store) (f : FrameId) : String :=
  let names := ((s.bindingsOf f).map Prod.fst).mergeSort fun a b => decide (a ≤ b)
  inspectRecord "Environment"
    [("names", inspectRow (names.map Text.inspect)), ("depth", Decimal.naturalText (s.depth f))]

/-- The inspection of a reference to code. -/
def CodeRef.inspect (code : CodeRef) : String :=
  inspectRecord "CodeRef" [("block", Text.inspect code.blockName)]

/-- The inspection of a primitive. -/
def Primitive.inspect (p : Primitive) : String :=
  inspectRecord "Primitive" [("name", Text.inspect p.name), ("arity", p.arity.inspect)]

namespace Value

mutual

/-- The inspection of a value whose frames are in the store. -/
def inspect (s : Store) : Value → String
  | unspecified => "Unspecified"
  | empty => "Empty"
  | boolean b => if b then "Bool(true)" else "Bool(false)"
  | number n => n.inspect
  | string _ text => s!"Str({Text.inspect text})"
  | symbol name => s!"Symbol({Text.inspect name})"
  | pair _ a d =>
    "Pair(" ++ inspectRecord "Pair" [("car", inspect s a), ("cdr", inspect s d)] ++ ")"
  | vector _ items => "Vector(" ++ inspectRow (inspectAll s items) ++ ")"
  | primitive p => s!"Primitive({p.inspect})"
  | closure _ entry env =>
    "Closure(" ++ inspectRecord "Closure" [("entry", entry.inspect), ("env", s.inspect env)] ++ ")"
  | label code => s!"Label({code.inspect})"
  | environment f => s!"Env({s.inspect f})"

/-- The inspections of a row of values. -/
def inspectAll (s : Store) : List Value → List String
  | [] => []
  | x :: xs => inspect s x :: inspectAll s xs

end

end Value
end SchemeMachine
