import SchemeMachine.Code.Instruction

/-!
# Expressions

An expression is what a datum means as a program: a constant, a variable, one of the special
forms, or the application of a procedure.  Binding by `let` is the application of a procedure to
the values, and the definition of a procedure is the definition of a name as a procedure, so
neither is a case of its own.  A datum that has no meaning is kept as an expression that says why;
it is an error only once it is compiled.
-/

namespace SchemeMachine

/-- The forms that a malformed datum may have been meant as. -/
inductive Form where
  | combination
  | quote
  | lambda
  | define
  | set
  | cond
  | sequence
  | binding
  deriving Repr, DecidableEq

/-- The name of a form in messages; for all but combinations it is the keyword of the form. -/
def Form.name : Form → String
  | combination => "combination"
  | quote => "quote"
  | lambda => "lambda"
  | define => "define"
  | set => "set!"
  | cond => "if"
  | sequence => "begin"
  | binding => "let"

/-- What is wrong with a malformed datum. -/
inductive Fault where
  | emptyCombination
  | improperList
  | quoteShape
  | condShape
  | setShape
  | setTarget
  | noExpressions
  | defineShape
  | extraValue
  | headerNotList
  | headerEmpty
  | headerName
  | lambdaShape
  | formalsNotList
  | bindingShape
  | bindingsNotList
  | badBinding (binding : Datum)
  | formalNotSymbol (formal : Datum)
  | duplicateFormal (name : String)

/-- The wording of a fault. -/
def Fault.text : Fault → String
  | emptyCombination => "empty combination"
  | improperList => "improper list"
  | quoteShape => "expected exactly one datum"
  | condShape => "expected (if test consequent alternative)"
  | setShape => "expected (set! name expression)"
  | setTarget => "target is not a symbol"
  | noExpressions => "no expressions"
  | defineShape => "expected (define name expression)"
  | extraValue => "expected a single value expression"
  | headerNotList => "procedure header is not a list"
  | headerEmpty => "empty procedure header"
  | headerName => "procedure name is not a symbol"
  | lambdaShape => "expected (lambda (formals...) body...)"
  | formalsNotList => "formals must be a proper list"
  | bindingShape => "expected (let ((name value)...) body...)"
  | bindingsNotList => "bindings must be a proper list"
  | badBinding binding => s!"bad binding {binding.text}"
  | formalNotSymbol formal => s!"parameter {formal.text} is not a symbol"
  | duplicateFormal name => s!"duplicate parameter {name}"

/-- A datum without meaning: the form it was meant as, what is wrong with it, and where it
stands. -/
structure Malformed where
  form : Form
  fault : Fault
  span : Option Span

/-- The wording of the complaint about a malformed datum. -/
def Malformed.message (m : Malformed) : String :=
  let place := match m.span with
    | some span => s!"at {span.text}"
    | none => "in generated code"
  s!"malformed {m.form.name} {place}: {m.fault.text}"

/-- The meaning of a datum as a program. -/
inductive Expression where
  | constant (value : Constant)
  | reference (name : String)
  | assignment (name : String) (value : Expression)
  | definition (name : String) (value : Expression)
  | conditional (test consequent alternative : Expression)
  | lambda (formals : List String) (body : List Expression)
  | sequence (body : List Expression)
  | application (operator : Expression) (operands : List Expression)
  | malformed (why : Malformed)

end SchemeMachine
