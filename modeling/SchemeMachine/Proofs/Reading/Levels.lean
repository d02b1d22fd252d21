import SchemeMachine.Proofs.Reading.Yields

/-!
# Reading with a counter of levels

The reader recurses on the room that is left for nesting and bounds the turns of its loops.  Here is
the same reader with neither: it keeps the number of levels that it is in as part of its state, one
more on the way into a list, a vector or a quotation and one less on the way out, also when an error
takes it out; and its loops go on until they come upon an end.  What is bounded, from outside, is
how many of its calls may be inside one another; a reading that needs more has no outcome.

None needs more than two for every character that is left.  Within that bound, and so within every
greater one, the two readers come to the same, with the counter where it was.
-/

namespace SchemeMachine

open Reader

/-- A reader that counts the levels it is in. -/
structure LevelReader where
  reader : Reader
  level : Nat

namespace LevelReader

/-- What reading comes to, with the reader that it leaves. -/
abbrev Outcome (α : Type) := EStateM.Result SyntaxError LevelReader α

/-- The reader behind the next character. -/
def passed (s : LevelReader) : LevelReader :=
  { s with reader := s.reader.passed }

/-- The reader behind blanks and comments. -/
def skipped (s : LevelReader) : LevelReader :=
  { s with reader := s.reader.skipped }

/-- A step of reading, which stays in the levels it is in. -/
def run {α : Type} (x : Read α) (s : LevelReader) : Outcome α :=
  match x s.reader with
  | .ok a r => .ok a { s with reader := r }
  | .error e r => .error e { s with reader := r }

/-- Goes on from what reading has come to, unless that is an error. -/
def andThen {α β : Type} (x : Option (Outcome α)) (f : α → LevelReader → Option (Outcome β)) :
    Option (Outcome β) := do
  match ← x with
  | .ok a s => f a s
  | .error e s => return .error e s

/-- One level less deep, whatever reading has come to. -/
def leave {α : Type} : Outcome α → Outcome α
  | .ok a s => .ok a { s with level := s.level - 1 }
  | .error e s => .error e { s with level := s.level - 1 }

/-- Reading one level deeper, unless that is too deep. -/
def nested (start : Position) (body : LevelReader → Option (Outcome Datum)) (s : LevelReader) :
    Option (Outcome Datum) :=
  if s.level = maxNesting then some (.error (.nestingTooDeep maxNesting start) s)
  else (body { s with level := s.level + 1 }).map leave

mutual

/-- One datum, with at most `depth` calls inside one another. -/
def form : Nat → LevelReader → Option (Outcome Datum)
  | 0, _ => none
  | depth + 1, s =>
    let start := s.reader.cursor.position
    match s.reader.cursor.rest with
    | '(' :: _ => s.passed.nested start (list depth start [])
    | '#' :: '(' :: _ => s.passed.passed.nested start (vector depth start [])
    | '\'' :: _ => s.passed.nested start (quote depth start)
    | _ => some (s.run (readFormWith none))

/-- The rest of a list whose elements so far are `items`, latest first. -/
def list : Nat → Position → List Datum → LevelReader → Option (Outcome Datum)
  | 0, _, _, _ => none
  | depth + 1, start, items, s =>
    let s := s.skipped
    match s.reader.cursor.rest with
    | [] => some (.error (.unterminatedList start) s)
    | c :: rest =>
      if c = ')' then
        some (s.passed.run (if items.isEmpty then finish start .empty
          else finishList start (Datum.properList items.reverse)))
      else if c == '.' && endsDot rest.head? then
        if items.isEmpty then some (.error (.unexpectedDot s.reader.cursor.position) s)
        else tail depth start items s.passed
      else andThen (form depth s) fun item s => list depth start (item :: items) s

/-- The tail after a dot, and the parenthesis that must follow it. -/
def tail : Nat → Position → List Datum → LevelReader → Option (Outcome Datum)
  | 0, _, _, _ => none
  | depth + 1, start, items, s =>
    let s := s.skipped
    if s.reader.cursor.rest.head?.isNone then some (.error (.unterminatedList start) s)
    else andThen (form depth s) fun last s =>
      let s := s.skipped
      if s.reader.cursor.rest.head? != some ')' then
        some (.error (.expectedClose s.reader.cursor.position) s)
      else some (s.passed.run (finishList start (Datum.chain items.reverse last)))

/-- The rest of a vector whose elements so far are `items`, latest first. -/
def vector : Nat → Position → List Datum → LevelReader → Option (Outcome Datum)
  | 0, _, _, _ => none
  | depth + 1, start, items, s =>
    let s := s.skipped
    match s.reader.cursor.rest with
    | [] => some (.error (.unterminatedVector start) s)
    | c :: _ =>
      if c = ')' then some (s.passed.run (finish start (.vector · items.reverse)))
      else andThen (form depth s) fun item s => vector depth start (item :: items) s

/-- A quotation, behind its mark. -/
def quote : Nat → Position → LevelReader → Option (Outcome Datum)
  | 0, _, _ => none
  | depth + 1, start, s =>
    let s := s.skipped
    if s.reader.cursor.rest.head?.isNone then some (.error (.unexpectedEnd start) s)
    else andThen (form depth s) fun quoted s => some (s.run (finishList start quoted.quotation))

end

/-- The next datum of the text, or nothing at its end. -/
def nextForm (depth : Nat) (s : LevelReader) : Option (Outcome (Option Datum)) :=
  let s := s.skipped
  if s.reader.cursor.rest.head?.isNone then some (.ok none s)
  else andThen (form depth s) fun d s => some (.ok (some d) s)

/-! ## Steps -/

section Steps

variable {α β : Type} {s : LevelReader} {x : Read α} {r : Reader} {e : SyntaxError}

theorem run_of_ok {a : α} (h : x s.reader = .ok a r) : s.run x = .ok a { s with reader := r } := by
  rw [run, h]

theorem run_of_error (h : x s.reader = .error e r) :
    s.run x = .error e { s with reader := r } := by
  rw [run, h]

theorem run_eq_run (s' : LevelReader) {y : Read α} (h : x s.reader = y s'.reader)
    (hlevel : s.level = s'.level) : s.run x = s'.run y := by
  rw [run, run, h, hlevel]

theorem run_bind_ok {a : α} (h : x s.reader = .ok a r) (f : α → Read β) :
    s.run (x >>= f) = { s with reader := r }.run (f a) := by
  rw [run, bind_of_ok h, run]

theorem run_bind_error (h : x s.reader = .error e r) (f : α → Read β) :
    s.run (x >>= f) = .error e { s with reader := r } := by
  exact run_of_error (bind_of_error h)

theorem run_skipAtmosphere (f : Unit → Read α) :
    s.run (skipAtmosphere >>= f) = s.skipped.run (f ()) :=
  rfl

theorem run_peek (f : Option Char → Read α) :
    s.run (peek >>= f) = s.run (f s.reader.cursor.rest.head?) :=
  rfl

theorem run_peekSecond (f : Option Char → Read α) :
    s.run (peekSecond >>= f) = s.run (f s.reader.cursor.rest.tail.head?) :=
  rfl

/-- Going on after a step is going on after what the step returns. -/
theorem andThen_run {f : α → Read β} {g : α → LevelReader → Option (Outcome β)}
    (h : ∀ a r, x s.reader = .ok a r →
      g a { s with reader := r } = some ({ s with reader := r }.run (f a))) :
    andThen (some (s.run x)) g = some (s.run (x >>= f)) := by
  cases hx : x s.reader with
  | error e r =>
      rw [run_of_error hx, run_bind_error hx]
      rfl
  | ok a r =>
      rw [run_of_ok hx, run_bind_ok hx, ← h a r hx]
      rfl

theorem leave_run (s : LevelReader) (x : Read α) :
    leave ({ s with level := s.level + 1 }.run x) = s.run x := by
  unfold run
  simp only
  cases x s.reader <;> rfl

end Steps

/-! ## The same outcome -/

section Lengths

variable {s : LevelReader} {c : Char} {rest : List Char}

theorem length_rest_skipped_le (s : LevelReader) :
    s.skipped.reader.cursor.rest.length ≤ s.reader.cursor.rest.length :=
  length_skipped_le s.reader

theorem length_rest_passed (h : s.reader.cursor.rest = c :: rest) :
    s.passed.reader.cursor.rest.length + 1 = s.reader.cursor.rest.length := by
  rw [passed, rest_passed h, h, List.length_cons]

/-- A datum takes characters off the text that is left. -/
theorem length_lt_of_readForm {room : Nat} {d : Datum} {r : Reader}
    (hread : readForm room s.skipped.reader = .ok d r) :
    r.cursor.rest.length < s.reader.cursor.rest.length :=
  Nat.lt_of_lt_of_le (readForm_yields (skipped_stands s.reader) hread).consumes
    (length_rest_skipped_le s)

end Lengths

section Loops

variable {room level depth : Nat} {start : Position} {items : List Datum} {s : LevelReader}
  (hform : ∀ (depth : Nat) (s : LevelReader), s.level = level →
    2 * s.reader.cursor.rest.length < depth → s.form depth = some (s.run (readForm room)))
include hform

theorem form_skipped (hlevel : s.level = level)
    (hdepth : 2 * s.reader.cursor.rest.length + 1 < depth + 1) :
    s.skipped.form depth = some (s.skipped.run (readForm room)) := by
  have hskip := length_rest_skipped_le s
  exact hform depth s.skipped hlevel (by omega)

theorem tail_eq (hlevel : s.level = level)
    (hdepth : 2 * s.reader.cursor.rest.length + 1 < depth) :
    s.tail depth start items = some (s.run (readTail (readForm room) start items)) := by
  cases depth with
  | zero => omega
  | succ depth =>
      rw [tail, readTail, run_skipAtmosphere, run_peek]
      simp only
      split
      · rfl
      · rw [form_skipped hform hlevel hdepth]
        refine andThen_run fun last r _ => ?_
        rw [run_skipAtmosphere, run_peek]
        split <;> rfl

theorem list_eq {turns : Nat} (hlevel : s.level = level)
    (hdepth : 2 * s.reader.cursor.rest.length + 1 < depth)
    (hturns : s.reader.cursor.rest.length < turns) :
    s.list depth start items =
      some (s.run (readListFrom (readForm room) start turns items)) := by
  induction turns generalizing items s depth with
  | zero => omega
  | succ turns ih =>
      cases depth with
      | zero => omega
      | succ depth =>
          rw [list, readListFrom, run_skipAtmosphere, run_peek]
          cases hnext : s.skipped.reader.cursor.rest with
          | nil => rfl
          | cons c rest =>
              by_cases hclose : c = ')'
              · subst hclose
                simp only [if_true]
                rfl
              · simp only [hclose, if_false, List.head?_cons]
                rw [run_peekSecond, hnext, List.tail_cons]
                split
                · split
                  · rfl
                  · have hskip := length_rest_skipped_le s
                    have hpassed := length_rest_passed hnext
                    exact tail_eq hform hlevel (by omega)
                · rw [form_skipped hform hlevel hdepth]
                  refine andThen_run fun item r hread => ?_
                  have hless := length_lt_of_readForm hread
                  exact ih hlevel (by simp only; omega) (by simp only; omega)

theorem vector_eq {turns : Nat} (hlevel : s.level = level)
    (hdepth : 2 * s.reader.cursor.rest.length + 1 < depth)
    (hturns : s.reader.cursor.rest.length < turns) :
    s.vector depth start items =
      some (s.run (readVectorFrom (readForm room) start turns items)) := by
  induction turns generalizing items s depth with
  | zero => omega
  | succ turns ih =>
      cases depth with
      | zero => omega
      | succ depth =>
          rw [vector, readVectorFrom, run_skipAtmosphere, run_peek]
          cases hnext : s.skipped.reader.cursor.rest with
          | nil => rfl
          | cons c rest =>
              by_cases hclose : c = ')'
              · subst hclose
                simp only [if_true]
                rfl
              · simp only [hclose, if_false, List.head?_cons]
                rw [form_skipped hform hlevel hdepth]
                refine andThen_run fun item r hread => ?_
                have hless := length_lt_of_readForm hread
                exact ih hlevel (by simp only; omega) (by simp only; omega)

theorem quote_eq (hlevel : s.level = level)
    (hdepth : 2 * s.reader.cursor.rest.length + 1 < depth) :
    s.quote depth start = some (s.run (readQuote (readForm room) start)) := by
  cases depth with
  | zero => omega
  | succ depth =>
      rw [quote, readQuote, run_skipAtmosphere, run_peek]
      simp only
      split
      · rfl
      · rw [form_skipped hform hlevel hdepth]
        exact andThen_run fun quoted r _ => rfl

end Loops

/-- Unless a level is entered, it does not matter how many are left. -/
theorem readFormWith_none {inner : Option (Read Datum)} {r : Reader}
    (hlist : ∀ rest, r.cursor.rest ≠ '(' :: rest)
    (hvector : ∀ rest, r.cursor.rest ≠ '#' :: '(' :: rest)
    (hquote : ∀ rest, r.cursor.rest ≠ '\'' :: rest) :
    readFormWith none r = readFormWith inner r := by
  cases hr : r.cursor.rest with
  | nil => rw [readFormWith_end hr, readFormWith_end hr]
  | cons c rest =>
      by_cases hspecial : c ∈ ['(', ')', '\'', '"', '#']
      · simp only [List.mem_cons, List.not_mem_nil, or_false] at hspecial
        rcases hspecial with rfl | rfl | rfl | rfl | rfl
        · exact absurd hr (hlist rest)
        · rw [readFormWith_close hr, readFormWith_close hr]
        · exact absurd hr (hquote rest)
        · rw [readFormWith_string hr, readFormWith_string hr]
        · rw [readFormWith_hash hr, readFormWith_hash hr, readHash, readHash, peek_bind, peek_bind,
            rest_passed hr]
          refine congrFun ?_ r.passed
          split
          · rfl
          · rfl
          next hopen =>
            obtain ⟨rest', rfl⟩ := List.head?_eq_some_iff.mp hopen
            exact absurd hr (hvector rest')
          · rfl
          · rfl
      · rw [readFormWith_plain none hspecial hr, readFormWith_plain inner hspecial hr]

section Nested

variable {start : Position} {body : LevelReader → Option (Outcome Datum)} {x : Read Datum}
  {s : LevelReader}

theorem nested_of_eq (h : s.level = maxNesting) :
    s.nested start body = some (.error (.nestingTooDeep maxNesting start) s) :=
  if_pos h

theorem nested_of_ne (h : s.level ≠ maxNesting)
    (hbody : body { s with level := s.level + 1 } = some ({ s with level := s.level + 1 }.run x)) :
    s.nested start body = some (s.run x) := by
  rw [nested, if_neg h, hbody, Option.map_some, leave_run]

end Nested

/-- Counting its levels, reading ends; and it comes to the same as with room for those that are
left, with the counter where it was. -/
theorem form_eq {room depth : Nat} {s : LevelReader} (hlevel : s.level + room = maxNesting)
    (hdepth : 2 * s.reader.cursor.rest.length < depth) :
    s.form depth = some (s.run (readForm room)) := by
  induction room generalizing s depth with
  | zero =>
      cases depth with
      | zero => omega
      | succ depth =>
          rw [form, readForm]
          split
          next rest hr =>
            rw [run_eq_run s.passed (readFormWith_list hr) rfl]
            exact nested_of_eq hlevel
          next rest hr =>
            rw [run_eq_run s.passed.passed (readFormWith_vector hr) rfl]
            exact nested_of_eq hlevel
          next rest hr =>
            rw [run_eq_run s.passed (readFormWith_quote hr) rfl]
            exact nested_of_eq hlevel
          next => rfl
  | succ room ih =>
      have hne : s.level ≠ maxNesting := by omega
      -- The character that opens a level pays for two calls: that of the loop in it, and that of
      -- the datum which the loop asks for with as many characters left.
      have hform : ∀ (depth : Nat) (s' : LevelReader), s'.level = s.level + 1 →
          2 * s'.reader.cursor.rest.length < depth →
            s'.form depth = some (s'.run (readForm room)) :=
        fun depth s' hs' => ih (by omega)
      cases depth with
      | zero => omega
      | succ depth =>
          rw [form, readForm]
          split
          next rest hr =>
            have hpassed := length_rest_passed hr
            rw [run_eq_run s.passed (readFormWith_list hr) rfl]
            exact nested_of_ne hne
              (list_eq hform rfl (by simp only; omega) (Nat.lt_succ_self _))
          next rest hr =>
            have hpassed := length_rest_passed hr
            have hpassed' := length_rest_passed (s := s.passed) (rest_passed hr)
            rw [run_eq_run s.passed.passed (readFormWith_vector hr) rfl]
            exact nested_of_ne hne
              (vector_eq hform rfl (by simp only; omega) (Nat.lt_succ_self _))
          next rest hr =>
            have hpassed := length_rest_passed hr
            rw [run_eq_run s.passed (readFormWith_quote hr) rfl]
            exact nested_of_ne hne (quote_eq hform rfl (by simp only; omega))
          next hlist hvector hquote =>
            rw [run_eq_run s (readFormWith_none hlist hvector hquote) rfl]

/-- Between the data of a text, where no level has been entered, counting makes no difference. -/
theorem nextForm_eq {depth : Nat} {s : LevelReader} (h : s.level = 0)
    (hdepth : 2 * s.reader.cursor.rest.length < depth) :
    s.nextForm depth = some (s.run Reader.nextForm) := by
  have hlevel : s.skipped.level + maxNesting = maxNesting := by
    rw [skipped, h, Nat.zero_add]
  have hskip := length_rest_skipped_le s
  rw [nextForm, Reader.nextForm, run_skipAtmosphere, run_peek]
  split
  · rfl
  · rw [form_eq hlevel (by omega)]
    exact andThen_run fun d r _ => rfl

end LevelReader
end SchemeMachine
