import SchemeMachine.Text.Blank

/-!
# Lines of a session

A line of a session is either part of an expression or, if it begins with a colon, a command.  The
line `(exit)` is a command too.
-/

namespace SchemeMachine
namespace Repl

/-- What a session can be told to do. -/
inductive Command where
  | quit
  | help
  | reset
  | stats
  | compile (source : String)
  | emit (source : String)
  deriving Repr, DecidableEq

/-- What a line is. -/
inductive LineKind where
  /-- Part of an expression. -/
  | code
  | unknownCommand
  /-- A command that lacks its argument. -/
  | misuse (usage : String)
  | command (c : Command)
  deriving Repr, DecidableEq

/-- A command that takes an expression. -/
def withSource (make : String → Command) (usage : String) (argument : String) : LineKind :=
  if argument.isEmpty then .misuse usage else .command (make argument)

/-- What a line is, whatever blanks surround it.  The name of a command ends at the first blank. -/
def LineKind.ofLine (line : String) : LineKind :=
  let line := Text.trimBlank line
  if line == "(exit)" then .command .quit
  else if line.toList.head? != some ':' then .code
  else
    let name := String.ofList (line.toList.takeWhile fun c => !Text.isBlank c)
    let argument :=
      Text.trimBlank (String.ofList (line.toList.dropWhile fun c => !Text.isBlank c))
    match name with
    | ":quit" | ":q" => .command .quit
    | ":help" | ":h" => .command .help
    | ":reset" | ":r" => .command .reset
    | ":stats" => .command .stats
    | ":compile" | ":c" => withSource .compile "Usage: :compile <expr>" argument
    | ":emit" | ":e" => withSource .emit "Usage: :emit <expr>" argument
    | _ => .unknownCommand

/-- What is being scanned when it is decided whether an input is complete. -/
inductive Scan where
  | code
  | comment
  | string
  /-- Behind a backslash in a string. -/
  | escape
  deriving Repr, DecidableEq

/-- Whether an input goes on in the next line, given how many parentheses are open and what is being
scanned: it does if parentheses are open outside strings and comments, or a string is.  The count
has 32 bits and wraps around. -/
def unfinishedFrom (depth : Int32) : Scan → List Char → Bool
  | .code, [] | .comment, [] => 0 < depth
  | .string, [] | .escape, [] => true
  | .code, c :: rest =>
    if c = '(' then unfinishedFrom (depth + 1) .code rest
    else if c = ')' then unfinishedFrom (depth - 1) .code rest
    else if c = ';' then unfinishedFrom depth .comment rest
    else if c = '"' then unfinishedFrom depth .string rest
    else unfinishedFrom depth .code rest
  | .comment, c :: rest => unfinishedFrom depth (if c = '\n' then .code else .comment) rest
  | .string, c :: rest =>
    unfinishedFrom depth (if c = '\\' then .escape else if c = '"' then .code else .string) rest
  | .escape, _ :: rest => unfinishedFrom depth .string rest

/-- Whether an input goes on in the next line. -/
def unfinished (input : String) : Bool :=
  unfinishedFrom 0 .code input.toList

end Repl
end SchemeMachine
