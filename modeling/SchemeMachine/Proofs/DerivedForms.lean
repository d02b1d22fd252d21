import SchemeMachine.Proofs.TailPositions

/-!
# Derived forms and what they stand for

A `let` stands for the application of a procedure to the values that it binds, and a definition with
a header for the definition of a name as a procedure.  Both forms check their own shape, and both
are compiled to what the forms they stand for are compiled to: the same code from the same labels,
or the same error after as many of them, whatever is wrong inside.

The forms are told by their elements.  So the statements hold whatever marks the pairs, the keywords
and the symbols that are bound have on either side.  The values and the expressions of the body are
the same data on both sides, since errors say where they stand.
-/

namespace SchemeMachine

/-! ## How the forms are written -/

namespace Datum

/-- A symbol of that name. -/
def IsSymbol (name : String) (d : Datum) : Prop :=
  d.symbolName? = some name

/-- `(lambda (name ...) expression ...)` -/
structure IsLambda (names : List String) (body : List Datum) (d : Datum) : Prop where
  written : ∃ keyword formals symbols, d.items? = some (keyword :: formals :: body) ∧
    keyword.IsSymbol "lambda" ∧ formals.items? = some symbols ∧
    List.Forall₂ IsSymbol names symbols

/-- Bindings `(name value)`, one for each of some names and values. -/
inductive Bind : List String → List Datum → List Datum → Prop
  | nil : Bind [] [] []
  | cons {name : String} {symbol value binding : Datum} {names : List String}
      {values bindings : List Datum} (head : symbol.IsSymbol name)
      (items : binding.items? = some [symbol, value]) (rest : Bind names values bindings) :
      Bind (name :: names) (value :: values) (binding :: bindings)

/-- `(let ((name value) ...) expression ...)` -/
structure IsLet (names : List String) (values body : List Datum) (d : Datum) : Prop where
  written : ∃ keyword row bindings, d.items? = some (keyword :: row :: body) ∧
    keyword.IsSymbol "let" ∧ row.items? = some bindings ∧ Bind names values bindings

/-- `(define name value)` -/
structure IsDefinition (d : Datum) (name : String) (value : Datum) : Prop where
  written : ∃ keyword symbol, d.items? = some [keyword, symbol, value] ∧
    keyword.IsSymbol "define" ∧ symbol.IsSymbol name

/-- `(define (name formal ...) expression ...)` -/
structure IsProcedureDefinition (name : String) (names : List String) (body : List Datum)
    (d : Datum) : Prop where
  written : ∃ keyword header symbol symbols, d.items? = some (keyword :: header :: body) ∧
    keyword.IsSymbol "define" ∧ header.items? = some (symbol :: symbols) ∧ symbol.IsSymbol name ∧
    List.Forall₂ IsSymbol names symbols

end Datum

/-! ## Names that are bound -/

/-- Symbols whose names differ from each other, and from those seen, are formals. -/
theorem formalNames_of_nodup {names seen : List String} {symbols : List Datum}
    (hsymbols : List.Forall₂ Datum.IsSymbol names symbols) (hnames : names.Nodup)
    (hseen : ∀ name ∈ names, name ∉ seen) : formalNames seen symbols = .ok names := by
  induction hsymbols generalizing seen with
  | nil => rfl
  | @cons name symbol names symbols hsymbol _ ih =>
      obtain ⟨hname, hnodup⟩ := List.nodup_cons.mp hnames
      have hnew : seen.contains name = false := by
        simpa using hseen name List.mem_cons_self
      have hrest : ∀ other ∈ names, other ∉ name :: seen := by
        intro other hother hmem
        rcases List.mem_cons.mp hmem with rfl | hmem
        · exact hname hother
        · exact hseen other (List.mem_cons_of_mem _ hother) hmem
      have hhead : symbol.symbolName? = some name := hsymbol
      simp only [formalNames, hhead, hnew, Bool.false_eq_true, if_false, ih hnodup hrest]
      rfl

theorem lambdaFormals_of_nodup {names : List String} {formals : Datum} {symbols : List Datum}
    (hformals : formals.items? = some symbols)
    (hsymbols : List.Forall₂ Datum.IsSymbol names symbols) (hnames : names.Nodup) :
    lambdaFormals formals = .ok names := by
  simp only [lambdaFormals, hformals]
  exact formalNames_of_nodup hsymbols hnames fun _ _ => List.not_mem_nil

theorem headerFormals_of_nodup {name : String} {names : List String} {header symbol : Datum}
    {symbols : List Datum} (hheader : header.items? = some (symbol :: symbols))
    (hsymbol : symbol.IsSymbol name) (hsymbols : List.Forall₂ Datum.IsSymbol names symbols)
    (hnames : names.Nodup) : headerFormals header = .ok (name, names) := by
  have hname : symbol.symbolName? = some name := hsymbol
  simp only [headerFormals, hheader, hname,
    formalNames_of_nodup hsymbols hnames fun _ _ => List.not_mem_nil]
  rfl

/-- A binding is a pair of a symbol and a list of the value. -/
theorem bindingName?_of_items? {name : String} {symbol value binding : Datum}
    (hsymbol : symbol.IsSymbol name) (hitems : binding.items? = some [symbol, value]) :
    bindingName? binding = some symbol ∧
      ∃ m m' tail, binding = .pair m symbol (.pair m' value tail) := by
  obtain ⟨m, rest, rfl, hrest⟩ := Datum.pair_of_items? hitems
  obtain ⟨m', tail, rfl, htail⟩ := Datum.pair_of_items? hrest
  obtain ⟨m'', rfl⟩ := Datum.empty_of_items? htail
  refine ⟨?_, m, m', _, rfl⟩
  cases symbol with
  | symbol m₀ name => rfl
  | _ => cases hsymbol

theorem bindingNames_of_bind {names : List String} {values bindings : List Datum}
    (h : Datum.Bind names values bindings) :
    ∃ symbols, bindingNames bindings = .ok symbols ∧
      List.Forall₂ Datum.IsSymbol names symbols := by
  induction h with
  | nil => exact ⟨[], rfl, .nil⟩
  | @cons name symbol value binding names values bindings head items _ ih =>
      obtain ⟨symbols, hbindings, hsymbols⟩ := ih
      refine ⟨symbol :: symbols, ?_, .cons head hsymbols⟩
      simp only [bindingNames, (bindingName?_of_items? head items).1, hbindings]
      rfl

theorem bindingFormals_of_nodup {names : List String} {values bindings : List Datum} {row : Datum}
    (hrow : row.items? = some bindings) (h : Datum.Bind names values bindings)
    (hnames : names.Nodup) : bindingFormals row = .ok names := by
  obtain ⟨symbols, hbindings, hsymbols⟩ := bindingNames_of_bind h
  simp only [bindingFormals, hrow, hbindings]
  exact formalNames_of_nodup hsymbols hnames fun _ _ => List.not_mem_nil

/-! ## Meanings -/

namespace Expression

variable {names : List String} {values body : List Datum} {d procedure : Datum}

theorem ofValues_of_bind {bindings : List Datum} {row : Datum} (hrow : row.items? = some bindings)
    (h : Datum.Bind names values bindings) : ofValues row = values.map ofDatum := by
  induction h generalizing row with
  | nil =>
      obtain ⟨m, rfl⟩ := Datum.empty_of_items? hrow
      rfl
  | @cons name symbol value binding names values bindings head items _ ih =>
      obtain ⟨m, rest, rfl, hrest⟩ := Datum.pair_of_items? hrow
      obtain ⟨-, m₁, m₂, tail, rfl⟩ := bindingName?_of_items? head items
      rw [ofValues, ih hrest, List.map_cons]

/-- The expressions of a body that has some. -/
theorem ofItems_body {first rest : Datum} (hrest : rest.items? = some body) :
    ofDatum first :: ofItems rest = (first :: body).map ofDatum := by
  rw [ofItems_eq_map, Datum.elements_of_items? hrest, List.map_cons]

theorem ofDatum_isLambda (h : d.IsLambda names body) (hnames : names.Nodup) (hbody : body ≠ []) :
    ofDatum d = lambda names (body.map ofDatum) := by
  obtain ⟨keyword, formals, symbols, hitems, hkeyword, hformals, hsymbols⟩ := h.written
  obtain ⟨first, others, rfl⟩ := List.exists_cons_of_ne_nil hbody
  obtain ⟨m, rest, rfl, hrest⟩ := Datum.pair_of_items? hitems
  obtain ⟨m₁, rest₁, rfl, hrest₁⟩ := Datum.pair_of_items? hrest
  obtain ⟨m₂, rest₂, rfl, hrest₂⟩ := Datum.pair_of_items? hrest₁
  rw [ofDatum, hrest, hkeyword]
  show ofLambda m.span _ = _
  simp only [ofLambda, lambdaFormals_of_nodup hformals hsymbols hnames, ofItems_body hrest₂]

/-- A `let` means the application of a procedure. -/
theorem ofDatum_isLet (h : d.IsLet names values body) (hnames : names.Nodup) (hbody : body ≠ []) :
    ofDatum d = application (lambda names (body.map ofDatum)) (values.map ofDatum) := by
  obtain ⟨keyword, row, bindings, hitems, hkeyword, hrow, hbind⟩ := h.written
  obtain ⟨first, others, rfl⟩ := List.exists_cons_of_ne_nil hbody
  obtain ⟨m, rest, rfl, hrest⟩ := Datum.pair_of_items? hitems
  rw [ofDatum_binding hrest hkeyword]
  obtain ⟨m₁, rest₁, rfl, hrest₁⟩ := Datum.pair_of_items? hrest
  obtain ⟨m₂, rest₂, rfl, hrest₂⟩ := Datum.pair_of_items? hrest₁
  simp only [ofBinding, bindingFormals_of_nodup hrow hbind hnames, ofItems_body hrest₂,
    ofValues_of_bind hrow hbind]

/-- A list whose head is a list means an application. -/
theorem ofDatum_call (hcall : d.items? = some (procedure :: values))
    (hprocedure : procedure.IsLambda names body) :
    ofDatum d = application (ofDatum procedure) (values.map ofDatum) := by
  obtain ⟨m, rest, rfl, hrest⟩ := Datum.pair_of_items? hcall
  obtain ⟨keyword, formals, symbols, hitems, -⟩ := hprocedure.written
  obtain ⟨m', rest', rfl, -⟩ := Datum.pair_of_items? hitems
  have hplain : ∀ word ∈ keywords, (Datum.pair m' keyword rest').symbolName? ≠ some word := by
    simp [Datum.symbolName?]
  rw [ofDatum_application hrest hplain, ofItems_eq_map, Datum.elements_of_items? hrest]

theorem ofDatum_isDefinition {name : String} {value : Datum} (h : d.IsDefinition name value) :
    ofDatum d = definition name (ofDatum value) := by
  obtain ⟨keyword, symbol, hitems, hkeyword, hsymbol⟩ := h.written
  obtain ⟨m, rest, rfl, hrest⟩ := Datum.pair_of_items? hitems
  rw [ofDatum, hrest, hkeyword]
  obtain ⟨m₁, rest₁, rfl, hrest₁⟩ := Datum.pair_of_items? hrest
  obtain ⟨m₂, rest₂, rfl, hrest₂⟩ := Datum.pair_of_items? hrest₁
  obtain ⟨m₃, rfl⟩ := Datum.empty_of_items? hrest₂
  cases symbol with
  | symbol m₀ name' =>
      cases hsymbol
      rfl
  | _ => cases hsymbol

/-- A definition with a header means the definition of a procedure. -/
theorem ofDatum_isProcedureDefinition {name : String}
    (h : d.IsProcedureDefinition name names body) (hnames : names.Nodup) (hbody : body ≠ []) :
    ofDatum d = definition name (lambda names (body.map ofDatum)) := by
  obtain ⟨keyword, header, symbol, symbols, hitems, hkeyword, hheader, hsymbol, hsymbols⟩ :=
    h.written
  obtain ⟨first, others, rfl⟩ := List.exists_cons_of_ne_nil hbody
  obtain ⟨m, rest, rfl, hrest⟩ := Datum.pair_of_items? hitems
  rw [ofDatum, hrest, hkeyword]
  obtain ⟨m₁, rest₁, rfl, hrest₁⟩ := Datum.pair_of_items? hrest
  obtain ⟨m₂, rest₂, rfl, hrest₂⟩ := Datum.pair_of_items? hrest₁
  have hformals := headerFormals_of_nodup hheader hsymbol hsymbols hnames
  obtain ⟨m₃, symbols', rfl, -⟩ := Datum.pair_of_items? hheader
  show ofDefine m.span _ = _
  simp only [ofDefine, hformals, ofItems_body hrest₂]

/-! ## Compiling -/

/-- Derived forms compile to what they stand for: the same code and the same counter, or the same
error and the same counter. -/
theorem derived_forms_compile_alike (hnames : names.Nodup) (hbody : body ≠ []) (target : Register)
    (linkage : Linkage) (n : Nat) :
    (∀ (values : List Datum) (form procedure call : Datum), form.IsLet names values body →
      procedure.IsLambda names body → call.items? = some (procedure :: values) →
      compile target linkage (ofDatum form) n = compile target linkage (ofDatum call) n) ∧
    ∀ (name : String) (form procedure plain : Datum), form.IsProcedureDefinition name names body →
      procedure.IsLambda names body → plain.IsDefinition name procedure →
      compile target linkage (ofDatum form) n = compile target linkage (ofDatum plain) n := by
  constructor
  · intro values form procedure call hform hprocedure hcall
    rw [ofDatum_isLet hform hnames hbody, ofDatum_call hcall hprocedure,
      ofDatum_isLambda hprocedure hnames hbody]
  · intro name form procedure plain hform hprocedure hplain
    rw [ofDatum_isProcedureDefinition hform hnames hbody, ofDatum_isDefinition hplain,
      ofDatum_isLambda hprocedure hnames hbody]

/-- A `let` whose value is malformed, and a definition whose body is, each behind two labels. -/
theorem malformed_parts_compile_alike :
    let word (name : String) : Datum := .symbol ⟨1, none⟩ name
    let row (items : List Datum) : Datum := (Datum.properList items 1).1
    let binding := row [word "let", row [row [word "x", row [word "if"]]], word "x"]
    let call := row [row [word "lambda", row [word "x"], word "x"], row [word "if"]]
    let header := row [word "define", row [word "f", word "x"], row [word "if"]]
    let plain := row [word "define", word "f", row [word "lambda", row [word "x"], row [word "if"]]]
    (∃ e, compile .proc .caller (ofDatum binding) 3 = .error e 5 ∧
      compile .proc .caller (ofDatum call) 3 = .error e 5) ∧
    ∃ e, compile .argl .next (ofDatum header) 8 = .error e 10 ∧
      compile .argl .next (ofDatum plain) 8 = .error e 10 := by
  intro word row binding call header plain
  have hnames : ["x"].Nodup := List.nodup_singleton "x"
  have hformals : List.Forall₂ Datum.IsSymbol ["x"] [word "x"] := .cons rfl .nil
  have hlambda : ∀ body : Datum,
      (row [word "lambda", row [word "x"], body]).IsLambda ["x"] [body] :=
    fun body => ⟨word "lambda", row [word "x"], [word "x"], rfl, rfl, rfl, hformals⟩
  constructor
  · have hbinding : binding.IsLet ["x"] [row [word "if"]] [word "x"] :=
      ⟨word "let", row [row [word "x", row [word "if"]]], _, rfl, rfl, rfl,
        .cons (show (word "x").IsSymbol "x" from rfl) rfl .nil⟩
    have halike := (derived_forms_compile_alike hnames (List.cons_ne_nil (word "x") []) .proc
      .caller 3).1 _ binding _ call hbinding (hlambda (word "x")) rfl
    exact ⟨_, halike.trans rfl, rfl⟩
  · have hheader : header.IsProcedureDefinition "f" ["x"] [row [word "if"]] :=
      ⟨word "define", _, _, _, rfl, rfl, rfl, rfl, hformals⟩
    have hplain : plain.IsDefinition "f" (row [word "lambda", row [word "x"], row [word "if"]]) :=
      ⟨word "define", _, rfl, rfl, rfl⟩
    have halike := (derived_forms_compile_alike hnames (List.cons_ne_nil (row [word "if"]) [])
      .argl .next 8).2 "f" header _ plain hheader (hlambda (row [word "if"])) hplain
    exact ⟨_, halike.trans rfl, rfl⟩

end Expression
end SchemeMachine
