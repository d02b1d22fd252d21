import SchemeMachine.Proofs.Reading.Slices

/-!
# How reading fails

The readings that fail are told as a relation, as those that succeed are.  A datum without parts
fails by itself.  A list, a vector or a quotation fails behind the parts that were read: because the
text ends, because the part that the reader enters next fails, or, in a list, because of a dot or of
what stands behind its tail.  What is true of all errors is then shown by induction on this relation.

The text never ends where a datum is asked for, and the turns that the reader allows itself suffice.
So an error of a list or a vector is always one of its text.
-/

namespace SchemeMachine

open Text

namespace Reader

open Datum

/-! ## The relation -/

/-- What opens a row of elements. -/
inductive Bracket where
  | list
  | vector

namespace Bracket

/-- How a bracket is written. -/
def text : Bracket → List Char
  | list => ['(']
  | vector => ['#', '(']

/-- Whether a dot by itself is an element, as it is in a vector and outside of all brackets. -/
def dots : Bracket → Bool
  | list => false
  | vector => true

/-- The reader behind a bracket. -/
def passed (r : Reader) : Bracket → Reader
  | list => r.passed
  | vector => r.passed.passed

theorem passes {r : Reader} {rest : List Char} (b : Bracket) (h : r.cursor.rest = b.text ++ rest) :
    Passes b.text r (b.passed r) := by
  cases b with
  | list => exact passes_passed h
  | vector => exact (passes_passed h).trans (passes_passed (rest_passed h))

/-- The error of a text that ends before the bracket at `start` is closed. -/
def unterminated (start : Position) : Bracket → SyntaxError
  | list => .unterminatedList start
  | vector => .unterminatedVector start

end Bracket

/-- From `q` on these elements are read one after the other, latest first, in which at most `room`
levels are nested, and leave another reader. -/
inductive Elements (dots : Bool) (room : Nat) (q : Reader) : List Datum → Reader → Prop
  | none : Elements dots room q [] q
  | more {r r₁ : Reader} {items : List Datum} {x : Datum} {c : Char} {rest : List Char}
      (before : Elements dots room q items r) (next : r.skipped.cursor.rest = c :: rest)
      (dot : dots = false → (c == '.' && endsDot rest.head?) = false)
      (item : Yields room .form r.skipped x r₁) : Elements dots room q (x :: items) r₁

/-- While it reads a datum at `r`, the reader asks for one of the parts at another place, in which
`room` levels may be nested: for what is quoted, for an element, or for the tail of a list behind a
dot.  Everything in the datum before that has been read. -/
inductive Enters (room : Nat) (r : Reader) : Reader → Prop
  | quoted {rest : List Char} (opens : r.cursor.rest = '\'' :: rest)
      (more : r.passed.skipped.cursor.rest ≠ []) : Enters room r r.passed.skipped
  | element {r₁ : Reader} {items : List Datum} {b : Bracket} {c : Char} {text rest : List Char}
      (opens : r.cursor.rest = b.text ++ text) (row : Elements b.dots room (b.passed r) items r₁)
      (next : r₁.skipped.cursor.rest = c :: rest) (close : c ≠ ')')
      (dot : b.dots = false → (c == '.' && endsDot rest.head?) = false) :
      Enters room r r₁.skipped
  | tail {r₁ : Reader} {items : List Datum} {text rest : List Char}
      (opens : r.cursor.rest = '(' :: text) (row : Elements false room r.passed items r₁)
      (before : items ≠ []) (next : r₁.skipped.cursor.rest = '.' :: rest)
      (dot : endsDot rest.head? = true) (more : r₁.skipped.passed.skipped.cursor.rest ≠ []) :
      Enters room r r₁.skipped.passed.skipped

/-- How a datum that is asked for at a reader, and in which at most `room` levels may be nested, can
fail to be read, with its error. -/
inductive Fails : Nat → Reader → SyntaxError → Prop
  | string {room : Nat} {r : Reader} {rest : List Char} (first : r.cursor.rest = '"' :: rest)
      (contents : (Cursor.stringFrom rest (r.cursor.position.after '"')).1 = none) :
      Fails room r (.unterminatedString r.cursor.position)
  | close {room : Nat} {r : Reader} {rest : List Char} (first : r.cursor.rest = ')' :: rest) :
      Fails room r (.unexpectedClose r.cursor.position)
  | hash {room : Nat} {r : Reader} {rest : List Char} (first : r.cursor.rest = '#' :: rest) :
      Fails room r (.illegalHash (String.ofList ('#' :: rest.take 1)) r.cursor.position)
  | rational {room : Nat} {r : Reader} {c : Char} {rest : List Char}
      (first : r.cursor.rest = c :: rest) (starts : c = '-' ∨ c.isDigit = true) :
      Fails room r (.unsupportedRational (String.ofList r.token) r.cursor.position)
  | number {room : Nat} {r : Reader} {c : Char} {rest : List Char}
      (first : r.cursor.rest = c :: rest) (starts : c = '-' ∨ c.isDigit = true) :
      Fails room r (.invalidNumber (String.ofList r.token) r.cursor.position)
  | deep {r : Reader} {c : Char} {rest : List Char} (first : r.cursor.rest = c :: rest)
      (opens : c ∈ ['(', '\'', '#']) :
      Fails 0 r (.nestingTooDeep maxNesting r.cursor.position)
  | unquoted {room : Nat} {r : Reader} {rest : List Char} (opens : r.cursor.rest = '\'' :: rest)
      (ends : r.passed.skipped.cursor.rest = []) :
      Fails (room + 1) r (.unexpectedEnd r.cursor.position)
  | unterminated {room : Nat} {r r₁ : Reader} {items : List Datum} {b : Bracket}
      {text : List Char} (opens : r.cursor.rest = b.text ++ text)
      (row : Elements b.dots room (b.passed r) items r₁) (ends : r₁.skipped.cursor.rest = []) :
      Fails (room + 1) r (b.unterminated r.cursor.position)
  | leadingDot {room : Nat} {r : Reader} {text rest : List Char}
      (opens : r.cursor.rest = '(' :: text) (next : r.passed.skipped.cursor.rest = '.' :: rest) :
      Fails (room + 1) r (.unexpectedDot r.passed.skipped.cursor.position)
  | untailed {room : Nat} {r r₁ : Reader} {items : List Datum} {text rest : List Char}
      (opens : r.cursor.rest = '(' :: text) (row : Elements false room r.passed items r₁)
      (next : r₁.skipped.cursor.rest = '.' :: rest) (dot : endsDot rest.head? = true)
      (ends : r₁.skipped.passed.skipped.cursor.rest = []) :
      Fails (room + 1) r (.unterminatedList r.cursor.position)
  | unclosed {room : Nat} {r r₁ r₂ : Reader} {items : List Datum} {x : Datum}
      {text rest : List Char} (opens : r.cursor.rest = '(' :: text)
      (row : Elements false room r.passed items r₁) (before : items ≠ [])
      (next : r₁.skipped.cursor.rest = '.' :: rest) (dot : endsDot rest.head? = true)
      (tail : Yields room .form r₁.skipped.passed.skipped x r₂)
      (close : r₂.skipped.cursor.rest.head? ≠ some ')') :
      Fails (room + 1) r (.expectedClose r₂.skipped.cursor.position)
  | inside {room : Nat} {r r' : Reader} {e : SyntaxError} (enters : Enters room r r')
      (fails : Fails room r' e) : Fails (room + 1) r e

/-! ## Steps that fail -/

section Steps

variable {r r' : Reader} {e : SyntaxError} {inner : Option (Read Datum)} {start : Position}

theorem bind_eq_error {α β : Type} {x : Read α} {f : α → Read β} (h : (x >>= f) r = .error e r') :
    x r = .error e r' ∨ ∃ a r₁, x r = .ok a r₁ ∧ f a r₁ = .error e r' := by
  change EStateM.bind x f r = .error e r' at h
  rw [EStateM.bind] at h
  cases hx : x r with
  | ok a r₁ =>
      rw [hx] at h
      exact .inr ⟨a, r₁, rfl, h⟩
  | error e₁ r₁ =>
      rw [hx] at h
      cases h
      exact .inl rfl

theorem readString_eq_error (h : readString start r = .error e r') :
    e = .unterminatedString start ∧
      (Cursor.stringFrom r.cursor.rest r.cursor.position).1 = none := by
  cases hstring : Cursor.stringFrom r.cursor.rest r.cursor.position with
  | mk body stop =>
      cases body with
      | none =>
          rw [readString_open hstring] at h
          cases h
          exact ⟨rfl, rfl⟩
      | some body =>
          rw [readString_closed hstring] at h
          cases h

theorem readNumber_eq_error (h : readNumber start r = .error e r') :
    e = .unsupportedRational (String.ofList r.token) start ∨
      e = .invalidNumber (String.ofList r.token) start := by
  rw [readNumber, takeToken_bind] at h
  cases hslash : r.token.contains '/' with
  | true =>
      rw [hslash] at h
      cases h
      exact .inl rfl
  | false =>
      rw [hslash] at h
      cases hnumber : number? r.token with
      | none =>
          simp only [Bool.false_eq_true, if_false, hnumber] at h
          cases h
          exact .inr rfl
      | some n =>
          simp only [Bool.false_eq_true, if_false, hnumber] at h
          cases h

theorem readHash_eq_error (h : readHash inner start r = .error e r') :
    e = .illegalHash (String.ofList ('#' :: r.cursor.rest.take 1)) start ∨
      ∃ rest, r.cursor.rest = '(' :: rest ∧
        nested inner start readVector r.passed = .error e r' := by
  rw [readHash, peek_bind] at h
  cases hr : r.cursor.rest with
  | nil =>
      rw [hr] at h
      cases h
      exact .inl rfl
  | cons c rest =>
      rw [hr, List.head?_cons] at h
      by_cases htrue : c = 't'
      · subst htrue
        cases h
      by_cases hfalse : c = 'f'
      · subst hfalse
        cases h
      by_cases hopen : c = '('
      · subst hopen
        exact .inr ⟨rest, rfl, h⟩
      · simp only at h
        cases h
        exact .inl rfl

/-- What fails is a datum without parts, or one of the data that have others inside. -/
theorem readFormWith_eq_error (hmore : r.cursor.rest ≠ [])
    (h : readFormWith inner r = .error e r') :
    (∀ room, Fails room r e) ∨ ∃ rest,
      (r.cursor.rest = '(' :: rest ∧
          nested inner r.cursor.position readList r.passed = .error e r' ∨
        r.cursor.rest = '#' :: '(' :: rest ∧
          nested inner r.cursor.position readVector r.passed.passed = .error e r' ∨
        r.cursor.rest = '\'' :: rest ∧
          nested inner r.cursor.position readQuote r.passed = .error e r') := by
  obtain ⟨c, rest, hr⟩ := List.exists_cons_of_ne_nil hmore
  by_cases hspecial : c ∈ ['(', ')', '\'', '"', '#']
  · simp only [List.mem_cons, List.not_mem_nil, or_false] at hspecial
    rcases hspecial with rfl | rfl | rfl | rfl | rfl
    · rw [readFormWith_list hr] at h
      exact .inr ⟨rest, .inl ⟨hr, h⟩⟩
    · rw [readFormWith_close hr] at h
      cases h
      exact .inl fun _ => .close hr
    · rw [readFormWith_quote hr] at h
      exact .inr ⟨rest, .inr (.inr ⟨hr, h⟩)⟩
    · rw [readFormWith_string hr] at h
      obtain ⟨rfl, hstring⟩ := readString_eq_error h
      simp only [passed, Cursor.advance, hr] at hstring
      exact .inl fun _ => .string hr hstring
    · rw [readFormWith_hash hr] at h
      rcases readHash_eq_error h with rfl | ⟨rest', hopen, h⟩
      · rw [rest_passed hr]
        exact .inl fun _ => .hash hr
      · rw [rest_passed hr] at hopen
        exact .inr ⟨rest', .inr (.inl ⟨by rw [hr, hopen], h⟩)⟩
  · rw [readFormWith_plain inner hspecial hr] at h
    split at h
    next => cases h
    next =>
      split at h
      next hnumber =>
        rw [Bool.or_eq_true, beq_iff_eq] at hnumber
        rcases readNumber_eq_error h with rfl | rfl
        · exact .inl fun _ => .rational hr hnumber
        · exact .inl fun _ => .number hr hnumber
      next => cases h

end Steps

/-! ## Lists, vectors and quotations -/

section Inner

variable {room turns : Nat} {read : Read Datum} {items : List Datum} {r r₁ r' : Reader}
  {e : SyntaxError} {text rest : List Char}
  (hok : ∀ {r r' : Reader} {d : Datum}, r.Stands → read r = .ok d r' → Yields room .form r d r')
  (herror : ∀ {r r' : Reader} {e : SyntaxError}, r.cursor.rest ≠ [] → read r = .error e r' →
    Fails room r e)
include hok herror

theorem readTail_fails (opens : r.cursor.rest = '(' :: text)
    (row : Elements false room r.passed items r₁) (before : items ≠ [])
    (next : r₁.skipped.cursor.rest = '.' :: rest) (dot : endsDot rest.head? = true)
    (h : readTail read r.cursor.position items r₁.skipped.passed = .error e r') :
    Fails (room + 1) r e := by
  by_cases hend : r₁.skipped.passed.skipped.cursor.rest = []
  · rw [readTail_end hend] at h
    cases h
    exact .untailed opens row next dot hend
  · cases hx : read r₁.skipped.passed.skipped with
    | error e₂ r₂ =>
        rw [readTail_error hend hx] at h
        cases h
        exact .inside (.tail opens row before next dot hend) (herror hend hx)
    | ok x r₂ =>
        by_cases hclose : r₂.skipped.cursor.rest.head? = some ')'
        · obtain ⟨rest', hcloses⟩ := List.head?_eq_some_iff.mp hclose
          rw [readTail_close hend hx hcloses] at h
          cases h
        · rw [readTail_unclosed hend hx hclose] at h
          cases h
          exact .unclosed opens row before next dot (hok (skipped_stands _) hx) hclose

/-- The elements so far are what the reader has read behind the bracket. -/
theorem readListFrom_fails (opens : r.cursor.rest = '(' :: text)
    (row : Elements false room r.passed items r₁) (hturns : r₁.cursor.rest.length < turns)
    (h : readListFrom read r.cursor.position turns items r₁ = .error e r') :
    Fails (room + 1) r e := by
  induction turns generalizing items r₁ with
  | zero => omega
  | succ turns ih =>
      cases hnext : r₁.skipped.cursor.rest with
      | nil =>
          rw [readListFrom_end hnext] at h
          cases h
          exact .unterminated (b := .list) opens row hnext
      | cons c rest =>
          have hne : r₁.skipped.cursor.rest ≠ [] := by simp [hnext]
          by_cases hclose : c = ')'
          · subst hclose
            rw [readListFrom_close hnext] at h
            cases items <;> cases h
          · cases hdot : (c == '.' && endsDot rest.head?) with
            | true =>
                rw [Bool.and_eq_true, beq_iff_eq] at hdot
                obtain ⟨rfl, hdot⟩ := hdot
                rw [readListFrom_dot hnext hdot] at h
                cases row with
                | none =>
                    cases h
                    exact .leadingDot opens hnext
                | more before next dot item =>
                    exact readTail_fails hok herror opens (.more before next dot item)
                      (List.cons_ne_nil _ _) hnext hdot h
            | false =>
                rw [readListFrom_item hnext hclose hdot] at h
                rcases bind_eq_error h with hread | ⟨x, r₂, hx, h⟩
                · have henters : Enters room r r₁.skipped :=
                    .element (b := .list) opens row hnext hclose fun _ => hdot
                  exact .inside henters (herror hne hread)
                · have hitem := hok (skipped_stands r₁) hx
                  have hless := hitem.consumes
                  have hskip := length_skipped_le r₁
                  exact ih (row.more hnext (fun _ => hdot) hitem) (by omega) h

theorem readVectorFrom_fails (opens : r.cursor.rest = '#' :: '(' :: text)
    (row : Elements true room r.passed.passed items r₁) (hturns : r₁.cursor.rest.length < turns)
    (h : readVectorFrom read r.cursor.position turns items r₁ = .error e r') :
    Fails (room + 1) r e := by
  induction turns generalizing items r₁ with
  | zero => omega
  | succ turns ih =>
      cases hnext : r₁.skipped.cursor.rest with
      | nil =>
          rw [readVectorFrom_end hnext] at h
          cases h
          exact .unterminated (b := .vector) opens row hnext
      | cons c rest =>
          have hne : r₁.skipped.cursor.rest ≠ [] := by simp [hnext]
          by_cases hclose : c = ')'
          · subst hclose
            rw [readVectorFrom_close hnext] at h
            cases h
          · rw [readVectorFrom_item hnext hclose] at h
            rcases bind_eq_error h with hread | ⟨x, r₂, hx, h⟩
            · have henters : Enters room r r₁.skipped :=
                .element (b := .vector) opens row hnext hclose Bool.noConfusion
              exact .inside henters (herror hne hread)
            · have hitem := hok (skipped_stands r₁) hx
              have hless := hitem.consumes
              have hskip := length_skipped_le r₁
              exact ih (row.more hnext Bool.noConfusion hitem) (by omega) h

omit hok in
theorem readQuote_fails (opens : r.cursor.rest = '\'' :: rest)
    (h : readQuote read r.cursor.position r.passed = .error e r') : Fails (room + 1) r e := by
  by_cases hend : r.passed.skipped.cursor.rest = []
  · rw [readQuote_end hend] at h
    cases h
    exact .unquoted opens hend
  · rw [readQuote_more hend] at h
    rcases bind_eq_error h with hread | ⟨x, r₁, -, h⟩
    · exact .inside (.quoted opens hend) (herror hend hread)
    · cases h

end Inner

/-! ## Readings that fail -/

section Sound

variable {room : Nat} {r r' : Reader} {e : SyntaxError}

/-- Every reading that fails is one of the relation. -/
theorem readForm_fails (hmore : r.cursor.rest ≠ []) (h : readForm room r = .error e r') :
    Fails room r e := by
  induction room generalizing r r' e with
  | zero =>
      rcases readFormWith_eq_error hmore h with hfails | ⟨rest, hinside⟩
      · exact hfails 0
      · rcases hinside with ⟨hopens, h⟩ | ⟨hopens, h⟩ | ⟨hopens, h⟩ <;> cases h
        · exact .deep hopens (by decide)
        · exact .deep hopens (by decide)
        · exact .deep hopens (by decide)
  | succ room ih =>
      rcases readFormWith_eq_error hmore h with hfails | ⟨rest, hinside⟩
      · exact hfails (room + 1)
      · rcases hinside with ⟨hopens, h⟩ | ⟨hopens, h⟩ | ⟨hopens, h⟩
        · rw [nested, readList, get_bind] at h
          exact readListFrom_fails readForm_yields ih hopens .none
            (Nat.lt_succ_self _) h
        · rw [nested, readVector, get_bind] at h
          exact readVectorFrom_fails readForm_yields ih hopens .none (Nat.lt_succ_self _) h
        · exact readQuote_fails ih hopens h

/-- Iteration that meets an error has read some data before it. -/
theorem takeForms_fails {turns : Nat} {ds items : List Datum} {q : Reader}
    (hr : r.failed = false) (row : Elements true maxNesting q items r)
    (h : takeForms turns r = (ds, some e)) :
    ∃ items r₁, Elements true maxNesting q items r₁ ∧ r₁.skipped.cursor.rest ≠ [] ∧
      Fails maxNesting r₁.skipped e := by
  induction turns generalizing r ds items with
  | zero => cases h
  | succ turns ih =>
      by_cases hend : r.skipped.cursor.rest = []
      · rw [takeForms, next?_of_end hr hend] at h
        cases h
      · cases hread : readForm maxNesting r.skipped with
        | ok d r₁ =>
            have hfirst := readForm_yields (skipped_stands r) hread
            rw [takeForms, next?_of_yields hr hend hfirst] at h
            cases hothers : takeForms turns r₁ with
            | mk ds₁ error =>
                simp only [hothers] at h
                cases h
                obtain ⟨c, rest, hnext⟩ := List.exists_cons_of_ne_nil hend
                have hrow := row.more hnext Bool.noConfusion hfirst
                exact ih (hfirst.failed_eq.trans hr) hrow hothers
        | error e₁ r₁ =>
            rw [takeForms, next?_of_error hr hend hread] at h
            cases h
            exact ⟨items, r, row, hend, readForm_fails hend hread⟩

end Sound
end Reader

/-- A text that is not read has some data that are, and behind them one that fails. -/
theorem Datum.fails_of_parse_eq_error {source : String} {e : SyntaxError}
    (h : parse source = .error e) :
    ∃ items r, Reader.Elements true maxNesting (Reader.ofText source) items r ∧
      r.skipped.cursor.rest ≠ [] ∧ Reader.Fails maxNesting r.skipped e := by
  have hall : readAll source = ((readAll source).1, some e) := by rw [← parse_eq_error_iff.mp h]
  exact Reader.takeForms_fails rfl .none hall

end SchemeMachine
