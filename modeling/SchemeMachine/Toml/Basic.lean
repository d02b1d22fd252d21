/-!
# TOML tables

A table keeps its entries in the order in which they were written, and remembers how it came to be:
a table that a header names may not be named by a header again, and dotted keys may only go on with
tables that dotted keys have made.
-/

namespace SchemeMachine
namespace Toml

/-- How a table came to be. -/
inductive Origin where
  /-- By a header of its own. -/
  | header
  /-- As a table on the way to one that a header names. -/
  | implied
  /-- As a table on the way to the last part of a dotted key. -/
  | dotted
  /-- Between braces. -/
  | inline
  deriving Repr, DecidableEq

/-- A value.  Of a float the numeral is kept. -/
inductive Value where
  | boolean (value : Bool)
  | integer (value : Int)
  | float (numeral : String)
  | string (text : String)
  | array (items : List Value)
  | table (origin : Origin) (entries : List (String × Value))

/-- The entries of a table. -/
abbrev Entries := List (String × Value)

/-- A value under a key, which has a last part and, if it is dotted, parts before it. -/
structure Assignment where
  path : List String
  last : String
  value : Value

namespace Entries

/-- Adds an entry under a name that has none. -/
def insert? (entries : Entries) (key : String) (value : Value) : Option Entries :=
  if (entries.lookup key).isSome then none else some (entries ++ [(key, value)])

/-- Replaces the entry of a name, or adds one. -/
def put (key : String) (value : Value) : Entries → Entries
  | [] => [(key, value)]
  | (other, old) :: rest =>
    if other == key then (key, value) :: rest else (other, old) :: put key value rest

/-- Adds a value under a dotted key.  `extensible` says whether the table that the last part goes
into may be added to. -/
def addWithin? (extensible : Bool) (last : String) (value : Value) :
    List String → Entries → Option Entries
  | [], entries => if extensible then entries.insert? last value else none
  | key :: path, entries =>
    match entries.lookup key with
    | none => do
      let inner ← addWithin? true last value path []
      return entries ++ [(key, .table .dotted inner)]
    | some (.table .dotted old) => do
      let inner ← addWithin? true last value path old
      return entries.put key (.table .dotted inner)
    | some (.table .implied old) => do
      let inner ← addWithin? false last value path old
      return entries.put key (.table .implied inner)
    | some _ => none

/-- Adds what a line assigns. -/
def add? (entries : Entries) (line : Assignment) : Option Entries :=
  addWithin? true line.last line.value line.path entries

/-- Adds what several lines assign, one after the other. -/
def addAll? (entries : Entries) (lines : List Assignment) : Option Entries :=
  lines.foldlM add? entries

/-- The entries that a header may begin with: none, or those that were implied by other headers. -/
def beginning? : Option Value → Option Entries
  | none => some []
  | some (.table .implied entries) => some entries
  | some _ => none

/-- Gives the table that a header names its entries. -/
def addTable? (lines : List Assignment) (last : String) : List String → Entries → Option Entries
  | [], entries => do
    let filled ← (← beginning? (entries.lookup last)).addAll? lines
    return entries.put last (.table .header filled)
  | key :: path, entries =>
    match entries.lookup key with
    | none => do
      let inner ← addTable? lines last path []
      return entries ++ [(key, .table .implied inner)]
    | some (.table .inline _) => none
    | some (.table origin old) => do
      let inner ← addTable? lines last path old
      return entries.put key (.table origin inner)
    | some _ => none

end Entries
end Toml
end SchemeMachine
