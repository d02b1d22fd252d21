import SchemeMachine.Proofs.Reading.Yields

/-!
# Texts one below the other

A text that is read after another, from a line of its own, gives the same data as on its own.  Only
their marks move: they are further down, and numbered from where the first text has left off.  And
what comes behind a text, on a line of its own, does not change what is read from it.

Both are one statement about readings: they move with the reader, and go through unchanged when
something is put behind the text that no token can run into.
-/

namespace SchemeMachine

open Text

/-! ## Moving down -/

/-- How far data move: by characters, by whole lines, and in their numbering. -/
structure Shift where
  offset : Nat
  lines : Nat
  ids : Nat

namespace Shift

/-- Not at all. -/
def zero : Shift := ⟨0, 0, 0⟩

/-- The place that a place moves to; columns stay. -/
def position (s : Shift) (p : Position) : Position :=
  ⟨p.offset + s.offset, p.line + s.lines, p.column⟩

/-- The span that a span moves to. -/
def span (s : Shift) (x : Span) : Span :=
  ⟨x.offset + s.offset, x.line + s.lines, x.column, x.length⟩

/-- The mark that a mark moves to. -/
def mark (s : Shift) (m : Mark) : Mark :=
  ⟨m.id + s.ids, m.span.map s.span⟩

mutual

/-- The datum with its marks moved. -/
def datum (s : Shift) : Datum → Datum
  | .pair m a d => .pair (s.mark m) (datum s a) (datum s d)
  | .empty m => .empty (s.mark m)
  | .symbol m name => .symbol (s.mark m) name
  | .literal m value => .literal (s.mark m) value
  | .vector m items => .vector (s.mark m) (data s items)

/-- The data with their marks moved. -/
def data (s : Shift) : List Datum → List Datum
  | [] => []
  | d :: ds => datum s d :: data s ds

end

theorem data_eq_map (s : Shift) (ds : List Datum) : s.data ds = ds.map s.datum := by
  induction ds with
  | nil => rfl
  | cons d ds ih => rw [data, ih, List.map_cons]

mutual

theorem datum_zero : ∀ d : Datum, zero.datum d = d
  | .empty m => by rw [datum, mark_zero]
  | .literal m value => by rw [datum, mark_zero]
  | .symbol m name => by rw [datum, mark_zero]
  | .pair m a d => by rw [datum, datum_zero a, datum_zero d, mark_zero]
  | .vector m items => by rw [datum, data_zero items, mark_zero]

theorem data_zero : ∀ ds : List Datum, zero.data ds = ds
  | [] => by rw [data]
  | d :: ds => by rw [data, datum_zero d, data_zero ds]

theorem mark_zero (m : Mark) : zero.mark m = m := by
  obtain ⟨id, span⟩ := m
  cases span <;> rfl

end

mutual

/-- Marks are all that moves. -/
theorem unmarked_datum (s : Shift) : ∀ d : Datum, (s.datum d).unmarked = d.unmarked
  | .empty m => by rw [datum, Datum.unmarked, Datum.unmarked]
  | .literal m value => by rw [datum, Datum.unmarked, Datum.unmarked]
  | .symbol m name => by rw [datum, Datum.unmarked, Datum.unmarked]
  | .pair m a d => by
      rw [datum, Datum.unmarked, Datum.unmarked, unmarked_datum s a, unmarked_datum s d]
  | .vector m items => by
      rw [datum, Datum.unmarked, Datum.unmarked, unmarkedAll_data s items]

theorem unmarkedAll_data (s : Shift) :
    ∀ ds : List Datum, Datum.unmarkedAll (s.data ds) = Datum.unmarkedAll ds
  | [] => by rw [data]
  | d :: ds => by
      rw [data, Datum.unmarkedAll, Datum.unmarkedAll, unmarked_datum s d, unmarkedAll_data s ds]

end

variable (s : Shift)

theorem position_after (p : Position) (c : Char) :
    (s.position p).after c = s.position (p.after c) := by
  unfold Position.after
  split
  · simp only [position, Position.mk.injEq, and_true]
    omega
  · simp only [position, Position.mk.injEq, and_true]
    omega

theorem position_afterAll (p : Position) (text : List Char) :
    (s.position p).afterAll text = s.position (p.afterAll text) := by
  unfold Position.afterAll
  induction text generalizing p with
  | nil => rfl
  | cons c text ih => rw [List.foldl_cons, List.foldl_cons, position_after, ih]

theorem position_spanTo (p stop : Position) :
    (s.position p).spanTo (s.position stop) = s.span (p.spanTo stop) := by
  simp only [Position.spanTo, position, span, Nat.add_sub_add_right]

theorem datum_withSpan (d : Datum) (x : Option Span) :
    s.datum (d.withSpan x) = (s.datum d).withSpan (x.map s.span) := by
  cases d <;> simp only [Datum.withSpan, Datum.withMark, datum, mark, Datum.mark]

theorem chain_datum (items : List Datum) (tail : Datum) (last : Nat) :
    Datum.chain (items.map s.datum) (s.datum tail) (last + s.ids) =
      (s.datum (Datum.chain items tail last).1, (Datum.chain items tail last).2 + s.ids) := by
  unfold Datum.chain
  induction items with
  | nil => rfl
  | cons item items ih =>
      rw [List.map_cons, List.foldr_cons, List.foldr_cons, ih]
      simp only [datum, mark, Option.map_none, Nat.add_right_comm _ 1]

theorem properList_datum (items : List Datum) (last : Nat) :
    Datum.properList (items.map s.datum) (last + s.ids) =
      (s.datum (Datum.properList items last).1, (Datum.properList items last).2 + s.ids) := by
  have hempty : Datum.empty ⟨last + s.ids + 1, none⟩ = s.datum (.empty ⟨last + 1, none⟩) := by
    simp only [datum, mark, Option.map_none, Nat.add_right_comm _ 1]
  rw [Datum.properList, Datum.properList, hempty, Nat.add_right_comm, chain_datum]

theorem quotation_datum (d : Datum) (last : Nat) :
    (s.datum d).quotation (last + s.ids) =
      (s.datum (d.quotation last).1, (d.quotation last).2 + s.ids) := by
  have hsymbol : Datum.symbol ⟨last + s.ids + 1, none⟩ "quote" =
      s.datum (.symbol ⟨last + 1, none⟩ "quote") := by
    simp only [datum, mark, Option.map_none, Nat.add_right_comm _ 1]
  rw [Datum.quotation, Datum.quotation, hsymbol, Nat.add_right_comm]
  exact properList_datum s [.symbol ⟨last + 1, none⟩ "quote", d] (last + 1)

end Shift

/-! ## Cursors with something behind -/

namespace Cursor

variable (s : Shift) (k : List Char)

/-- The cursor moved, with more text behind. -/
def moved (c : Cursor) : Cursor :=
  ⟨c.rest ++ k, s.position c.position⟩

/-- What is skipped moves too, unless all of the text is skipped and there is more behind. -/
theorem skipFrom_moved {text : List Char} :
    ∀ {commented : Bool} {p : Position}, (skipFrom commented text p).rest ≠ [] ∨ k = [] →
      skipFrom commented (text ++ k) (s.position p) = (skipFrom commented text p).moved s k := by
  induction text with
  | nil =>
      intro commented p h
      rcases h with h | rfl
      · cases commented <;> exact absurd rfl h
      · cases commented <;> rfl
  | cons c text ih =>
      intro commented p h
      cases commented with
      | true =>
          rw [List.cons_append, skipFrom, skipFrom, s.position_after]
          exact ih h
      | false =>
          rw [skipFrom] at h
          rw [List.cons_append, skipFrom, skipFrom, s.position_after]
          by_cases hblank : isBlank c = true
          · rw [if_pos hblank] at h ⊢
            rw [if_pos hblank]
            exact ih h
          · rw [if_neg hblank] at h ⊢
            rw [if_neg hblank]
            by_cases hcomment : c = ';'
            · rw [if_pos hcomment] at h ⊢
              rw [if_pos hcomment]
              exact ih h
            · rw [if_neg hcomment, if_neg hcomment]
              rfl

/-- When only blanks and comments are left, a new line ends the last comment, and what is behind it
is skipped as well. -/
theorem skipFrom_newline {text : List Char} :
    ∀ {commented : Bool} {p : Position}, (skipFrom commented text p).rest = [] →
      skipFrom commented (text ++ '\n' :: k) p =
        skipFrom false k ((skipFrom commented text p).position.after '\n') := by
  induction text with
  | nil =>
      intro commented p _
      cases commented <;> rfl
  | cons c text ih =>
      intro commented p h
      cases commented with
      | true => exact ih h
      | false =>
          rw [skipFrom] at h
          rw [List.cons_append, skipFrom, skipFrom]
          by_cases hblank : isBlank c = true
          · rw [if_pos hblank] at h ⊢
            rw [if_pos hblank]
            exact ih h
          · rw [if_neg hblank] at h ⊢
            rw [if_neg hblank]
            by_cases hcomment : c = ';'
            · rw [if_pos hcomment] at h ⊢
              rw [if_pos hcomment]
              exact ih h
            · rw [if_neg hcomment] at h
              cases h

theorem stringFrom_moved {text body : List Char} {p : Position} {stop : Cursor}
    (h : Reader.Contents text p body stop) :
    stringFrom (text ++ k) (s.position p) = (some body, stop.moved s k) := by
  induction h with
  | escaped _ ih =>
      rw [List.cons_append, List.cons_append, stringFrom, s.position_after, s.position_after, ih]
      rfl
  | closed =>
      rw [List.cons_append, Reader.stringFrom_plain (by decide), if_pos rfl, s.position_after]
      rfl
  | plain hc hquote _ ih =>
      rw [List.cons_append, Reader.stringFrom_plain hc, if_neg hquote, s.position_after, ih]
      rfl

end Cursor

/-! ## Readings move with the reader -/

namespace Reader

/-- The reader moved, with more text behind. -/
def moved (s : Shift) (k : List Char) (r : Reader) : Reader :=
  ⟨r.cursor.moved s k, r.lastId + s.ids, r.failed⟩

/-- The task moved. -/
def Task.moved (s : Shift) : Task → Task
  | form => form
  | list start items => list (s.position start) (items.map s.datum)
  | vector start items => vector (s.position start) (items.map s.datum)

section Moved

variable (s : Shift) (k : List Char) {r r' : Reader} {d : Datum}

theorem rest_moved {c : Char} {rest : List Char} (h : r.cursor.rest = c :: rest) :
    (r.moved s k).cursor.rest = c :: (rest ++ k) := by
  show r.cursor.rest ++ k = c :: (rest ++ k)
  rw [h, List.cons_append]

theorem passed_moved {c : Char} {rest : List Char} (h : r.cursor.rest = c :: rest) :
    (r.moved s k).passed = r.passed.moved s k := by
  simp only [passed, moved, Cursor.advance, Cursor.moved, h, List.cons_append, s.position_after]

theorem skipped_moved (h : r.skipped.cursor.rest ≠ [] ∨ k = []) :
    (r.moved s k).skipped = r.skipped.moved s k := by
  have hskip := Cursor.skipFrom_moved s k h
  simp only [skipped, moved, Cursor.skipAtmosphere, Cursor.moved] at hskip ⊢
  rw [hskip]

/-- Where a character comes after blanks and comments, it does so in the moved text. -/
theorem next_moved {c : Char} {rest : List Char} (h : r.skipped.cursor.rest = c :: rest) :
    (r.moved s k).skipped.cursor.rest = c :: (rest ++ k) ∧
      (r.moved s k).skipped = r.skipped.moved s k ∧
      (r.moved s k).skipped.passed = r.skipped.passed.moved s k := by
  have hne : r.skipped.cursor.rest ≠ [] := by
    rw [h]
    exact List.cons_ne_nil c rest
  have hskipped := skipped_moved s k (.inl hne)
  rw [hskipped]
  exact ⟨rest_moved s k h, rfl, passed_moved s k h⟩

theorem more_moved (h : r.skipped.cursor.rest ≠ []) :
    (r.moved s k).skipped.cursor.rest ≠ [] := by
  rw [skipped_moved s k (.inl h)]
  exact List.append_ne_nil_of_left_ne_nil h k

/-- A dot before a tail is one whatever comes behind. -/
theorem endsDot_append (hk : endsToken k.head? = true) {rest : List Char}
    (h : endsDot rest.head? = true) : endsDot (rest ++ k).head? = true := by
  cases rest with
  | nil =>
      show (endsToken k.head? || _) = true
      rw [hk, Bool.true_or]
  | cons c rest => exact h

/-- What is no dot before a tail is none whatever comes behind. -/
theorem not_dot_append {c : Char} {rest : List Char}
    (h : (c == '.' && endsDot rest.head?) = false) :
    (c == '.' && endsDot (rest ++ k).head?) = false := by
  cases rest with
  | nil =>
      -- At the very end a dot would be one before a tail.
      simp only [List.head?_nil, endsDot, endsToken, Option.all_none, Bool.true_or,
        Bool.and_true] at h
      rw [h, Bool.false_and]
  | cons c rest => exact h

theorem markFrom_moved (start : Position) :
    (r.moved s k).markFrom (s.position start) = s.mark (r.markFrom start) := by
  simp only [markFrom, moved, Cursor.moved, s.position_spanTo, Shift.mark, Option.map_some,
    Nat.add_right_comm _ 1]

theorem counted_moved : (r.moved s k).counted = r.counted.moved s k := by
  simp only [counted, moved, Nat.add_right_comm _ 1]

/-- A list is made alike from numbers that have moved. -/
theorem listed_moved (start : Position) {build build' : Nat → Datum × Nat}
    (h : build' (r.lastId + s.ids) = (s.datum (build r.lastId).1, (build r.lastId).2 + s.ids)) :
    (r.moved s k).listed (s.position start) build' =
      (s.datum (r.listed start build).1, (r.listed start build).2.moved s k) := by
  simp only [listed, moved, Cursor.moved, h, s.position_spanTo, s.datum_withSpan, Option.map_some]

/-- No token runs on into what comes behind. -/
theorem spanWhile_append (hk : endsToken k.head? = true) (text : List Char) :
    (text ++ k).takeWhile (fun c => !isDelimiter c) = text.takeWhile (fun c => !isDelimiter c) ∧
    (text ++ k).dropWhile (fun c => !isDelimiter c) =
      text.dropWhile (fun c => !isDelimiter c) ++ k := by
  induction text with
  | nil =>
      cases k with
      | nil => exact ⟨rfl, rfl⟩
      | cons c rest =>
          have hc : isDelimiter c = true := by simpa [endsToken] using hk
          simp [hc]
  | cons c text ih =>
      rw [List.cons_append, List.takeWhile_cons, List.takeWhile_cons, List.dropWhile_cons,
        List.dropWhile_cons, ih.1, ih.2]
      by_cases hc : (!isDelimiter c) = true
      · simp only [hc, if_true, and_self]
      · simp only [hc, if_false, Bool.false_eq_true, List.cons_append, and_self]

theorem token_moved (hk : endsToken k.head? = true) : (r.moved s k).token = r.token :=
  (spanWhile_append k hk r.cursor.rest).1

theorem pastToken_moved (hk : endsToken k.head? = true) :
    (r.moved s k).pastToken = r.pastToken.moved s k := by
  simp only [pastToken, moved, Cursor.moved, Cursor.spanWhile, (spanWhile_append k hk _).1,
    (spanWhile_append k hk _).2, s.position_afterAll]

theorem Atom.moved (hk : endsToken k.head? = true) (h : Atom r d r') :
    Atom (r.moved s k) (s.datum d) (r'.moved s k) := by
  cases h with
  | @minus rest first alone =>
      have halone : endsToken (rest ++ k).head? = true := by
        cases rest with
        | nil => exact hk
        | cons c rest => exact alone
      have h := Atom.minus (rest_moved s k first) halone
      rw [passed_moved s k first, counted_moved] at h
      rw [Shift.datum, ← markFrom_moved s k]
      exact h
  | @number c rest n first starts whole value =>
      have hstarts : c = '-' ∧ endsToken (rest ++ k).head? = false ∨ c.isDigit = true := by
        rcases starts with ⟨hminus, hmore⟩ | hdigit
        · cases rest with
          | nil => cases hmore
          | cons c rest => exact Or.inl ⟨hminus, hmore⟩
        · exact Or.inr hdigit
      rw [← token_moved s k hk] at whole value
      have h := Atom.number (rest_moved s k first) hstarts whole value
      rw [pastToken_moved s k hk, counted_moved] at h
      rw [Shift.datum, ← markFrom_moved s k]
      exact h
  | symbol first starts =>
      have h := Atom.symbol (rest_moved s k first) starts
      rw [pastToken_moved s k hk, counted_moved, token_moved s k hk] at h
      rw [Shift.datum, ← markFrom_moved s k]
      exact h
  | @string rest body stop first contents =>
      have hcontents := Cursor.stringFrom_moved s k (contents_of_stringFrom contents)
      rw [← s.position_after] at hcontents
      have h := Atom.string (rest_moved s k first) hcontents
      have hmoved : ({ r.moved s k with cursor := stop.moved s k } : Reader) =
          Reader.moved s k { r with cursor := stop } := rfl
      rw [hmoved, counted_moved] at h
      rw [Shift.datum, ← markFrom_moved s k]
      exact h
  | boolean b first =>
      have h := Atom.boolean b (rest_moved s k first)
      rw [passed_moved s k first, passed_moved s k (rest_passed first), counted_moved] at h
      rw [Shift.datum, ← markFrom_moved s k]
      exact h

/-- Readings move with the reader, and what comes behind the text makes no difference unless a token
could run into it. -/
theorem Yields.moved (hk : endsToken k.head? = true) {room : Nat} {task : Task}
    (h : Yields room task r d r') :
    Yields room (task.moved s) (r.moved s k) (s.datum d) (r'.moved s k) := by
  induction h with
  | atom atom => exact .atom (atom.moved s k hk)
  | list opens _ ih =>
      rw [← passed_moved s k opens] at ih
      exact .list (rest_moved s k opens) ih
  | vector opens _ ih =>
      rw [← passed_moved s k (rest_passed opens), ← passed_moved s k opens] at ih
      exact .vector (rest_moved s k opens) ih
  | @quote room r r₁ d rest opens more _ ih =>
      have hpassed := passed_moved s k opens
      have hmore := more_moved s k more
      rw [← hpassed] at hmore
      rw [← skipped_moved s k (.inl more), ← hpassed] at ih
      have h := Yields.quote (rest_moved s k opens) hmore ih
      have hlisted := listed_moved s k (r := r₁) r.cursor.position
        (s.quotation_datum d r₁.lastId)
      have hposition : (r.moved s k).cursor.position = s.position r.cursor.position := rfl
      rw [hposition, hlisted] at h
      exact h
  | @nothing room r start rest closes =>
      obtain ⟨hcloses, -, hpassed⟩ := next_moved s k closes
      have h : Yields room (.list (s.position start) []) _ _ _ := .nothing hcloses
      rw [hpassed, counted_moved, markFrom_moved] at h
      rw [Shift.datum]
      exact h
  | @close room r start items rest some closes =>
      obtain ⟨hcloses, -, hpassed⟩ := next_moved s k closes
      have hsome : items.map s.datum ≠ [] := by simpa using some
      have h : Yields room (.list (s.position start) _) _ _ _ := .close hsome hcloses
      have hlisted := listed_moved s k (r := r.skipped.passed) start
        (s.properList_datum items.reverse r.skipped.passed.lastId)
      rw [hpassed, ← List.map_reverse, hlisted] at h
      exact h
  | @item room r r₁ r₂ start items x d c rest next close dot _ _ ih₁ ih₂ =>
      obtain ⟨hnext, hskipped, -⟩ := next_moved s k next
      rw [← hskipped] at ih₁
      exact .item hnext close (not_dot_append k dot) ih₁ ih₂
  | @dotted room r r₁ start items x rest rest' some next dot more _ closes ih =>
      obtain ⟨hnext, -, hpassed⟩ := next_moved s k next
      obtain ⟨hcloses, -, hpassed'⟩ := next_moved s k closes
      have hmore := more_moved s k more
      rw [← hpassed] at hmore
      rw [← skipped_moved s k (.inl more), ← hpassed] at ih
      have hsome : items.map s.datum ≠ [] := by simpa using some
      have h : Yields room (.list (s.position start) _) _ _ _ :=
        .dotted hsome hnext (endsDot_append k hk dot) hmore ih hcloses
      have hlisted := listed_moved s k (r := r₁.skipped.passed) start
        (s.chain_datum items.reverse x r₁.skipped.passed.lastId)
      rw [hpassed', ← List.map_reverse, hlisted] at h
      exact h
  | @closeVector room r start items rest closes =>
      obtain ⟨hcloses, -, hpassed⟩ := next_moved s k closes
      have h : Yields room (.vector (s.position start) (items.map s.datum)) _ _ _ :=
        .closeVector hcloses
      rw [hpassed, counted_moved, markFrom_moved, ← List.map_reverse] at h
      rw [Shift.datum, s.data_eq_map]
      exact h
  | @vectorItem room r r₁ r₂ start items x d c rest next close _ _ ih₁ ih₂ =>
      obtain ⟨hnext, hskipped, -⟩ := next_moved s k next
      rw [← hskipped] at ih₁
      exact .vectorItem hnext close ih₁ ih₂

end Moved

/-! ## Whole texts -/

section Texts

variable {r r₁ r₂ : Reader} {ds ds' : List Datum}

theorem YieldsAll.failed_eq (h : YieldsAll r ds r₁) : r₁.failed = r.failed := by
  induction h with
  | done _ => rfl
  | form _ first _ ih => exact ih.trans first.failed_eq

/-- Blanks and comments before the first datum do not count. -/
theorem YieldsAll.of_skipped_eq {r' : Reader} (h : YieldsAll r ds r₁)
    (hskip : r'.skipped = r.skipped) : YieldsAll r' ds r₁ := by
  cases h with
  | done ends =>
      rw [← hskip] at ends ⊢
      exact .done ends
  | form more first others =>
      rw [← hskip] at more first
      exact .form more first others

/-- A text gives the same data further down. -/
theorem YieldsAll.moved (s : Shift) (h : YieldsAll r ds r₁) :
    YieldsAll (r.moved s []) (ds.map s.datum) (r₁.moved s []) := by
  induction h with
  | @done r ends =>
      have hskip : (r.moved s []).skipped = r.skipped.moved s [] := skipped_moved s [] (.inr rfl)
      rw [← hskip]
      apply YieldsAll.done
      rw [hskip]
      show r.skipped.cursor.rest ++ [] = []
      rw [ends, List.append_nil]
  | @form r r₁ r₂ d ds more first _ ih =>
      have hskip : (r.moved s []).skipped = r.skipped.moved s [] := skipped_moved s [] (.inr rfl)
      have hfirst := first.moved s [] rfl
      rw [← hskip] at hfirst
      have hmore : (r.moved s []).skipped.cursor.rest ≠ [] := by
        rw [hskip]
        exact List.append_ne_nil_of_left_ne_nil more []
      exact .form hmore hfirst ih

/-- The reader on the line below its text, before another text. -/
def onNewLine (text : List Char) (r : Reader) : Reader :=
  { r with cursor := ⟨text, r.cursor.position.after '\n'⟩ }

theorem skipped_newline {text : List Char} (h : r.skipped.cursor.rest = []) :
    (r.moved .zero ('\n' :: text)).skipped = (r.skipped.onNewLine text).skipped := by
  have hskip := Cursor.skipFrom_newline text h
  simp only [skipped, moved, Cursor.moved, Cursor.skipAtmosphere, onNewLine, Shift.position,
    Shift.zero, Nat.add_zero]
  rw [← hskip]

/-- What is read from a text with another below it is what is read from the one and then, from a new
line on, from the other. -/
theorem YieldsAll.join {text : List Char} (h : YieldsAll r ds r₁)
    (h' : YieldsAll (r₁.onNewLine text) ds' r₂) :
    YieldsAll (r.moved .zero ('\n' :: text)) (ds ++ ds') r₂ := by
  induction h with
  | done ends => exact h'.of_skipped_eq (skipped_newline ends)
  | @form r r₁ r₂ d ds more first _ ih =>
      have hskip := skipped_moved .zero ('\n' :: text) (.inl more)
      have hfirst := first.moved .zero ('\n' :: text) rfl
      rw [← hskip, Shift.datum_zero] at hfirst
      have hmore : (r.moved .zero ('\n' :: text)).skipped.cursor.rest ≠ [] := by
        rw [hskip]
        exact List.append_ne_nil_of_left_ne_nil more _
      exact .form hmore hfirst (ih h')

/-- How far the data of a text move that begins on the line below what the reader has read. -/
def below (r : Reader) : Shift :=
  ⟨r.cursor.position.offset + 1, r.cursor.position.line, r.lastId⟩

theorem moved_below {b : String} (hr : r.failed = false) :
    (ofText b).moved r.below [] = r.onNewLine b.toList := by
  simp only [moved, Cursor.moved, ofText, onNewLine, below, Position.origin, Position.after,
    Shift.position, hr, List.append_nil, Nat.zero_add, if_true, Nat.add_comm 1]

/-- Two texts one below the other are read as the first, and then the second further down. -/
theorem YieldsAll.join_below {a b : String} (ha : YieldsAll (ofText a) ds r₁)
    (hb : YieldsAll (ofText b) ds' r₂) :
    YieldsAll (ofText (a ++ "\n" ++ b)) (ds ++ ds'.map r₁.below.datum)
      (r₂.moved r₁.below []) := by
  have hwhole : (ofText a).moved .zero ('\n' :: b.toList) = ofText (a ++ "\n" ++ b) := by
    simp [Reader.moved, Cursor.moved, ofText, Shift.position, Shift.zero, String.toList_append]
  have hmoved := hb.moved r₁.below
  rw [moved_below ha.failed_eq] at hmoved
  rw [← hwhole]
  exact ha.join hmoved

end Texts
end Reader

/-- Two texts one below the other give the data of the first, and then the data of the second with
their marks moved. -/
theorem Datum.parse_join {a b : String} {ds ds' : List Datum} (ha : parse a = .ok ds)
    (hb : parse b = .ok ds') :
    ∃ s : Shift, parse (a ++ "\n" ++ b) = .ok (ds ++ ds'.map s.datum) := by
  obtain ⟨r₁, ha⟩ := parse_eq_ok_iff.mp ha
  obtain ⟨r₂, hb⟩ := parse_eq_ok_iff.mp hb
  exact ⟨r₁.below, parse_eq_ok_iff.mpr ⟨_, ha.join_below hb⟩⟩

end SchemeMachine
