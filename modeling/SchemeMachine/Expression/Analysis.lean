import SchemeMachine.Expression.Basic

/-!
# From data to expressions

The symbol at the head of a proper list decides which form the list is; a list with another head
is an application.  Each form checks its own shape before the meaning of its parts is asked for,
so a malformed form hides the faults of its parts.
-/

namespace SchemeMachine

/-- The constant that a quoted datum stands for. -/
def Constant.ofDatum : Datum → Constant
  | .empty _ => .empty
  | .literal _ value => .literal value
  | .symbol _ name => .symbol name
  | d => .datum d

/-- The names of formals: symbols, each different from those before it. -/
def formalNames (seen : List String) : List Datum → Except Fault (List String)
  | [] => .ok []
  | formal :: rest =>
    match formal.symbolName? with
    | none => .error (.formalNotSymbol formal)
    | some name =>
      if seen.contains name then .error (.duplicateFormal name)
      else (formalNames (name :: seen) rest).map (name :: ·)

/-- A binding is a list of a symbol and a value; its symbol is returned. -/
def bindingName? : Datum → Option Datum
  | .pair _ name@(.symbol _ _) (.pair _ _ (.empty _)) => some name
  | _ => none

/-- The symbols of a list of bindings, up to the first that is not a binding. -/
def bindingNames : List Datum → Except Fault (List Datum)
  | [] => .ok []
  | binding :: rest =>
    match bindingName? binding with
    | none => .error (.badBinding binding)
    | some name => (bindingNames rest).map (name :: ·)

/-- The names that a datum binds as the formals of a procedure. -/
def lambdaFormals (formals : Datum) : Except Fault (List String) :=
  match formals.items? with
  | none => .error .formalsNotList
  | some formals => formalNames [] formals

/-- The name and the formals of a procedure that is defined by a header. -/
def headerFormals (header : Datum) : Except Fault (String × List String) :=
  match header.items? with
  | none => .error .headerNotList
  | some [] => .error .headerEmpty
  | some (name :: formals) =>
    match name.symbolName? with
    | none => .error .headerName
    | some name => (formalNames [] formals).map (name, ·)

/-- The names that a datum binds as the bindings of a `let`. -/
def bindingFormals (bindings : Datum) : Except Fault (List String) :=
  match bindings.items? with
  | none => .error .bindingsNotList
  | some bindings => do formalNames [] (← bindingNames bindings)

namespace Expression

/-- The expression for a datum meant as `form` in which `fault` was found. -/
def fail (form : Form) (span : Option Span) (fault : Fault) : Expression :=
  malformed ⟨form, fault, span⟩

mutual

/-- The meaning of a datum. -/
def ofDatum : Datum → Expression
  | .literal _ value => constant (.literal value)
  | .vector m items => constant (.datum (.vector m items))
  | .symbol _ name => reference name
  | .empty m => fail .combination m.span .emptyCombination
  | .pair m head rest =>
    if rest.items?.isNone then fail .combination m.span .improperList
    else
      match head.symbolName? with
      | some "quote" => ofQuote m.span rest
      | some "lambda" => ofLambda m.span rest
      | some "define" => ofDefine m.span rest
      | some "set!" => ofSet m.span rest
      | some "if" => ofCond m.span rest
      | some "begin" => ofBegin m.span rest
      | some "let" => ofBinding m.span rest
      | _ => application (ofDatum head) (ofItems rest)

/-- The meanings of the elements of a proper list. -/
def ofItems : Datum → List Expression
  | .pair _ a d => ofDatum a :: ofItems d
  | _ => []

/-- What follows the keyword of a quotation is one datum. -/
def ofQuote (span : Option Span) : Datum → Expression
  | .pair _ d (.empty _) => constant (.ofDatum d)
  | _ => fail .quote span .quoteShape

/-- A procedure has formals and a body of at least one expression. -/
def ofLambda (span : Option Span) : Datum → Expression
  | .pair _ formals (.pair _ a d) =>
    match lambdaFormals formals with
    | .error fault => fail .lambda span fault
    | .ok names => lambda names (ofDatum a :: ofItems d)
  | _ => fail .lambda span .lambdaShape

/-- A definition has a name and one value, or a procedure header and a body. -/
def ofDefine (span : Option Span) : Datum → Expression
  | .pair _ (.symbol _ name) (.pair _ value (.empty _)) => definition name (ofDatum value)
  | .pair _ (.symbol _ _) (.pair _ _ _) => fail .define span .extraValue
  | .pair _ header (.pair _ a d) =>
    match headerFormals header with
    | .error fault => fail .define span fault
    | .ok (name, names) => definition name (lambda names (ofDatum a :: ofItems d))
  | _ => fail .define span .defineShape

/-- An assignment has a name and one value. -/
def ofSet (span : Option Span) : Datum → Expression
  | .pair _ (.symbol _ name) (.pair _ value (.empty _)) => assignment name (ofDatum value)
  | .pair _ _ (.pair _ _ (.empty _)) => fail .set span .setTarget
  | _ => fail .set span .setShape

/-- A conditional has exactly three parts. -/
def ofCond (span : Option Span) : Datum → Expression
  | .pair _ test (.pair _ consequent (.pair _ alternative (.empty _))) =>
    conditional (ofDatum test) (ofDatum consequent) (ofDatum alternative)
  | _ => fail .cond span .condShape

/-- A sequence has at least one expression. -/
def ofBegin (span : Option Span) : Datum → Expression
  | .pair _ a d => sequence (ofDatum a :: ofItems d)
  | _ => fail .sequence span .noExpressions

/-- A `let` applies the procedure made of its names and its body to its values. -/
def ofBinding (span : Option Span) : Datum → Expression
  | .pair _ bindings (.pair _ a d) =>
    match bindingFormals bindings with
    | .error fault => fail .binding span fault
    | .ok names => application (lambda names (ofDatum a :: ofItems d)) (ofValues bindings)
  | _ => fail .binding span .bindingShape

/-- The meanings of the values of a list of bindings. -/
def ofValues : Datum → List Expression
  | .pair _ (.pair _ _ (.pair _ value _)) rest => ofDatum value :: ofValues rest
  | _ => []

end

end Expression
end SchemeMachine
