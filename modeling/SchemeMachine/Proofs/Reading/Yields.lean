import SchemeMachine.Proofs.Reading.RoundTrip

/-!
# What the reader yields

The reader is a program of steps that may fail.  Here the readings that succeed are told as a
relation with one case for each way a datum is read: an atom, a list, a vector or a quotation, and
inside a list or a vector one more element or the end.  Whatever is true of all readings is then
shown by induction on this relation, without going through the steps again.

The reader succeeds exactly where the relation says so, because every datum takes at least one
character and the turns that the reader allows itself always suffice.
-/

namespace SchemeMachine

open Text

/-- The list of the symbol `quote` and a datum, made with the numbers after `last`. -/
def Datum.quotation (quoted : Datum) (last : Nat) : Datum × Nat :=
  properList [.symbol ⟨last + 1, none⟩ "quote", quoted] (last + 1)

namespace Reader

/-! ## The relation -/

/-- The mark of a datum that began at `start` and ends where the reader stands. -/
def markFrom (r : Reader) (start : Position) : Mark :=
  ⟨r.lastId + 1, some (start.spanTo r.cursor.position)⟩

/-- The reader when one more number has been given out. -/
def counted (r : Reader) : Reader :=
  { r with lastId := r.lastId + 1 }

/-- A list that began at `start`, and the reader once the numbers for its pairs are given out. -/
def listed (r : Reader) (start : Position) (build : Nat → Datum × Nat) : Datum × Reader :=
  ((build r.lastId).1.withSpan (some (start.spanTo r.cursor.position)),
    { r with lastId := (build r.lastId).2 })

/-- The characters up to the next delimiter. -/
def token (r : Reader) : List Char :=
  r.cursor.rest.takeWhile fun c => !isDelimiter c

/-- The reader at the next delimiter. -/
def pastToken (r : Reader) : Reader :=
  { r with cursor := (r.cursor.spanWhile fun c => !isDelimiter c).2 }

/-- Whether a symbol may begin with a character. -/
def startsSymbol (c : Char) : Bool :=
  !(isDelimiter c || c.isDigit || c ∈ ['(', '\'', '"', '#', '-'])

/-- From one reader a datum without parts is read, which leaves another. -/
inductive Atom : Reader → Datum → Reader → Prop
  | minus {r : Reader} {rest : List Char} (first : r.cursor.rest = '-' :: rest)
      (alone : endsToken rest.head? = true) :
      Atom r (.symbol (r.passed.markFrom r.cursor.position) "-") r.passed.counted
  | number {r : Reader} {c : Char} {rest : List Char} {n : Number}
      (first : r.cursor.rest = c :: rest)
      (starts : c = '-' ∧ endsToken rest.head? = false ∨ c.isDigit = true)
      (whole : r.token.contains '/' = false) (value : number? r.token = some n) :
      Atom r (.literal (r.pastToken.markFrom r.cursor.position) (.number n)) r.pastToken.counted
  | symbol {r : Reader} {c : Char} {rest : List Char} (first : r.cursor.rest = c :: rest)
      (starts : startsSymbol c = true) :
      Atom r (.symbol (r.pastToken.markFrom r.cursor.position) (String.ofList r.token))
        r.pastToken.counted
  | string {r : Reader} {rest body : List Char} {stop : Cursor}
      (first : r.cursor.rest = '"' :: rest)
      (contents : Cursor.stringFrom rest (r.cursor.position.after '"') = (some body, stop)) :
      Atom r (.literal (markFrom { r with cursor := stop } r.cursor.position)
        (.string (String.ofList body))) (counted { r with cursor := stop })
  | boolean {r : Reader} {rest : List Char} (b : Bool)
      (first : r.cursor.rest = '#' :: (if b then 't' else 'f') :: rest) :
      Atom r (.literal (r.passed.passed.markFrom r.cursor.position) (.boolean b))
        r.passed.passed.counted

/-- What the reader is reading: a datum, or what is left of a list or a vector that began at `start`
and whose elements so far are `items`, latest first. -/
inductive Task where
  | form
  | list (start : Position) (items : List Datum)
  | vector (start : Position) (items : List Datum)

/-- From one reader a task ends with a datum, in which at most `room` levels are nested, and leaves
another reader. -/
inductive Yields : Nat → Task → Reader → Datum → Reader → Prop
  | atom {room : Nat} {r r' : Reader} {d : Datum} (atom : Atom r d r') : Yields room .form r d r'
  | list {room : Nat} {r r' : Reader} {d : Datum} {rest : List Char}
      (opens : r.cursor.rest = '(' :: rest)
      (inside : Yields room (.list r.cursor.position []) r.passed d r') :
      Yields (room + 1) .form r d r'
  | vector {room : Nat} {r r' : Reader} {d : Datum} {rest : List Char}
      (opens : r.cursor.rest = '#' :: '(' :: rest)
      (inside : Yields room (.vector r.cursor.position []) r.passed.passed d r') :
      Yields (room + 1) .form r d r'
  | quote {room : Nat} {r r₁ : Reader} {d : Datum} {rest : List Char}
      (opens : r.cursor.rest = '\'' :: rest) (more : r.passed.skipped.cursor.rest ≠ [])
      (quoted : Yields room .form r.passed.skipped d r₁) :
      Yields (room + 1) .form r (r₁.listed r.cursor.position d.quotation).1
        (r₁.listed r.cursor.position d.quotation).2
  | nothing {room : Nat} {r : Reader} {start : Position} {rest : List Char}
      (closes : r.skipped.cursor.rest = ')' :: rest) :
      Yields room (.list start []) r (.empty (r.skipped.passed.markFrom start))
        r.skipped.passed.counted
  | close {room : Nat} {r : Reader} {start : Position} {items : List Datum} {rest : List Char}
      (some : items ≠ []) (closes : r.skipped.cursor.rest = ')' :: rest) :
      Yields room (.list start items) r
        (r.skipped.passed.listed start (Datum.properList items.reverse)).1
        (r.skipped.passed.listed start (Datum.properList items.reverse)).2
  | item {room : Nat} {r r₁ r₂ : Reader} {start : Position} {items : List Datum} {x d : Datum}
      {c : Char} {rest : List Char} (next : r.skipped.cursor.rest = c :: rest) (close : c ≠ ')')
      (dot : (c == '.' && endsDot rest.head?) = false) (item : Yields room .form r.skipped x r₁)
      (others : Yields room (.list start (x :: items)) r₁ d r₂) :
      Yields room (.list start items) r d r₂
  | dotted {room : Nat} {r r₁ : Reader} {start : Position} {items : List Datum} {x : Datum}
      {rest rest' : List Char} (some : items ≠ []) (next : r.skipped.cursor.rest = '.' :: rest)
      (dot : endsDot rest.head? = true) (more : r.skipped.passed.skipped.cursor.rest ≠ [])
      (tail : Yields room .form r.skipped.passed.skipped x r₁)
      (closes : r₁.skipped.cursor.rest = ')' :: rest') :
      Yields room (.list start items) r
        (r₁.skipped.passed.listed start (Datum.chain items.reverse x)).1
        (r₁.skipped.passed.listed start (Datum.chain items.reverse x)).2
  | closeVector {room : Nat} {r : Reader} {start : Position} {items : List Datum}
      {rest : List Char} (closes : r.skipped.cursor.rest = ')' :: rest) :
      Yields room (.vector start items) r
        (.vector (r.skipped.passed.markFrom start) items.reverse) r.skipped.passed.counted
  | vectorItem {room : Nat} {r r₁ r₂ : Reader} {start : Position} {items : List Datum}
      {x d : Datum} {c : Char} {rest : List Char} (next : r.skipped.cursor.rest = c :: rest)
      (close : c ≠ ')') (item : Yields room .form r.skipped x r₁)
      (others : Yields room (.vector start (x :: items)) r₁ d r₂) :
      Yields room (.vector start items) r d r₂

/-! ## Steps backwards -/

section Steps

variable {α β : Type} {r r' : Reader}

theorem bind_eq_ok {x : Read α} {f : α → Read β} {b : β} (h : (x >>= f) r = .ok b r') :
    ∃ a r₁, x r = .ok a r₁ ∧ f a r₁ = .ok b r' := by
  change EStateM.bind x f r = .ok b r' at h
  rw [EStateM.bind] at h
  cases hx : x r with
  | ok a r₁ =>
      rw [hx] at h
      exact ⟨a, r₁, rfl, h⟩
  | error e r₁ =>
      rw [hx] at h
      cases h

theorem takeToken_bind (f : List Char → Read α) : (takeToken >>= f) r = f r.token r.pastToken :=
  rfl

end Steps

/-! ## What a first character begins -/

section First

variable {inner : Option (Read Datum)} {read : Read Datum} {r : Reader} {rest : List Char}

variable {r' : Reader} {d : Datum} {start : Position}

theorem nested_eq_ok {body : Read Datum → Position → Read Datum}
    (h : nested inner start body r = .ok d r') :
    ∃ read, inner = some read ∧ body read start r = .ok d r' := by
  cases inner with
  | none => cases h
  | some read => exact ⟨read, rfl, h⟩

theorem readNumber_eq_ok (h : readNumber start r = .ok d r') :
    r.token.contains '/' = false ∧ ∃ n, number? r.token = some n ∧
      d = .literal (r.pastToken.markFrom start) (.number n) ∧ r' = r.pastToken.counted := by
  rw [readNumber, takeToken_bind] at h
  cases hslash : r.token.contains '/' with
  | true =>
      rw [hslash] at h
      cases h
  | false =>
      rw [hslash] at h
      cases hnumber : number? r.token with
      | none =>
          simp only [Bool.false_eq_true, if_false, hnumber] at h
          cases h
      | some n =>
          simp only [Bool.false_eq_true, if_false, hnumber] at h
          cases h
          exact ⟨rfl, n, rfl, rfl, rfl⟩

theorem readString_eq_ok (h : readString start r = .ok d r') :
    ∃ body stop, Cursor.stringFrom r.cursor.rest r.cursor.position = (some body, stop) ∧
      d = .literal (markFrom { r with cursor := stop } start) (.string (String.ofList body)) ∧
      r' = counted { r with cursor := stop } := by
  cases hstring : Cursor.stringFrom r.cursor.rest r.cursor.position with
  | mk body stop =>
      cases body with
      | none =>
          rw [readString_open hstring] at h
          cases h
      | some body =>
          rw [readString_closed hstring] at h
          cases h
          exact ⟨body, stop, rfl, rfl, rfl⟩

/-- A hash sign begins a truth value or a vector. -/
theorem readHash_eq_ok (h : readHash inner start r = .ok d r') :
    (∃ b rest, r.cursor.rest = (if b then 't' else 'f') :: rest ∧
      d = .literal (r.passed.markFrom start) (.boolean b) ∧ r' = r.passed.counted) ∨
    ∃ rest, r.cursor.rest = '(' :: rest ∧ nested inner start readVector r.passed = .ok d r' := by
  rw [readHash, peek_bind] at h
  cases hrest : r.cursor.rest with
  | nil =>
      rw [hrest] at h
      cases h
  | cons c rest =>
      rw [hrest, List.head?_cons] at h
      by_cases htrue : c = 't'
      · subst htrue
        cases h
        exact Or.inl ⟨true, rest, rfl, rfl, rfl⟩
      by_cases hfalse : c = 'f'
      · subst hfalse
        cases h
        exact Or.inl ⟨false, rest, rfl, rfl, rfl⟩
      by_cases hopen : c = '('
      · subst hopen
        exact Or.inr ⟨rest, rfl, h⟩
      · simp only at h
        cases h

/-- Characters that begin no other datum begin a minus sign, a number or a symbol. -/
theorem atom_of_plain {c : Char} (hc : c ∉ ['(', ')', '\'', '"', '#']) (hblank : isBlank c = false)
    (hr : r.cursor.rest = c :: rest) (h : readFormWith inner r = .ok d r') : Atom r d r' := by
  rw [readFormWith_plain inner hc hr] at h
  by_cases hminus : (c == '-' && endsToken rest.head?) = true
  · rw [if_pos hminus] at h
    rw [Bool.and_eq_true, beq_iff_eq] at hminus
    obtain ⟨rfl, halone⟩ := hminus
    cases h
    exact .minus hr halone
  · rw [if_neg hminus] at h
    by_cases hnumber : (c == '-' || c.isDigit) = true
    · rw [if_pos hnumber] at h
      rw [Bool.or_eq_true, beq_iff_eq] at hnumber
      obtain ⟨hslash, n, hvalue, rfl, rfl⟩ := readNumber_eq_ok h
      apply Atom.number hr _ hslash hvalue
      rcases hnumber with rfl | hdigit
      · simp only [beq_self_eq_true, Bool.true_and, Bool.not_eq_true] at hminus
        exact Or.inl ⟨rfl, hminus⟩
      · exact Or.inr hdigit
    · rw [if_neg hnumber] at h
      rw [Bool.or_eq_true, beq_iff_eq, not_or, Bool.not_eq_true] at hnumber
      have hstarts : startsSymbol c = true := by
        simp only [List.mem_cons, List.not_mem_nil, or_false, not_or] at hc
        simp [startsSymbol, isDelimiter, hblank, hc, hnumber]
      cases h
      exact .symbol hr hstarts

/-- What a reading that succeeds is: an atom, or one of the data that have others inside. -/
theorem readFormWith_eq_ok (hblank : ∀ c rest, r.cursor.rest = c :: rest → isBlank c = false)
    (h : readFormWith inner r = .ok d r') :
    Atom r d r' ∨ ∃ read rest, inner = some read ∧
      (r.cursor.rest = '(' :: rest ∧ readList read r.cursor.position r.passed = .ok d r' ∨
        r.cursor.rest = '#' :: '(' :: rest ∧
          readVector read r.cursor.position r.passed.passed = .ok d r' ∨
        r.cursor.rest = '\'' :: rest ∧ readQuote read r.cursor.position r.passed = .ok d r') := by
  cases hr : r.cursor.rest with
  | nil =>
      rw [readFormWith_end hr] at h
      cases h
  | cons c rest =>
      by_cases hspecial : c ∈ ['(', ')', '\'', '"', '#']
      · simp only [List.mem_cons, List.not_mem_nil, or_false] at hspecial
        rcases hspecial with rfl | rfl | rfl | rfl | rfl
        · rw [readFormWith_list hr] at h
          obtain ⟨read, hinner, h⟩ := nested_eq_ok h
          exact Or.inr ⟨read, rest, hinner, Or.inl ⟨rfl, h⟩⟩
        · rw [readFormWith_close hr] at h
          cases h
        · rw [readFormWith_quote hr] at h
          obtain ⟨read, hinner, h⟩ := nested_eq_ok h
          exact Or.inr ⟨read, rest, hinner, Or.inr (Or.inr ⟨rfl, h⟩)⟩
        · rw [readFormWith_string hr] at h
          obtain ⟨body, stop, hstring, rfl, rfl⟩ := readString_eq_ok h
          have hpassed : r.passed.cursor = ⟨rest, r.cursor.position.after '"'⟩ := by
            simp only [passed, Cursor.advance, hr]
          rw [hpassed] at hstring
          exact Or.inl (.string hr hstring)
        · rw [readFormWith_hash hr] at h
          rcases readHash_eq_ok h with ⟨b, rest', hrest, rfl, rfl⟩ | ⟨rest', hrest, h⟩
          · rw [rest_passed hr] at hrest
            exact Or.inl (.boolean b (hr.trans (by rw [hrest])))
          · rw [rest_passed hr] at hrest
            obtain ⟨read, hinner, h⟩ := nested_eq_ok h
            exact Or.inr ⟨read, rest', hinner, Or.inr (Or.inl ⟨by rw [hrest], h⟩)⟩
      · exact Or.inl (atom_of_plain hspecial (hblank c rest hr) hr h)

end First

/-! ## Readings that succeed -/

/-- The reader does not stand at a blank. -/
def Stands (r : Reader) : Prop :=
  ∀ c rest, r.cursor.rest = c :: rest → isBlank c = false

/-- Behind blanks and comments there is neither a blank nor the beginning of a comment. -/
theorem skipFrom_stops {text rest : List Char} {c : Char} :
    ∀ {commented : Bool} {p : Position},
      (Cursor.skipFrom commented text p).rest = c :: rest → isBlank c = false ∧ c ≠ ';' := by
  induction text with
  | nil =>
      intro commented p h
      cases commented <;> cases h
  | cons ch text ih =>
      intro commented p h
      cases commented with
      | true => exact ih h
      | false =>
          rw [Cursor.skipFrom] at h
          by_cases hblank : isBlank ch = true
          · rw [if_pos hblank] at h
            exact ih h
          · rw [if_neg hblank] at h
            by_cases hcomment : ch = ';'
            · rw [if_pos hcomment] at h
              exact ih h
            · rw [if_neg hcomment] at h
              cases h
              exact ⟨by simpa using hblank, hcomment⟩

theorem skipped_stands (r : Reader) : r.skipped.Stands :=
  fun _ _ h => (skipFrom_stops h).1

section Sound

variable {room turns : Nat} {read : Read Datum} {start : Position} {items : List Datum}
  {r r' : Reader} {d : Datum}

theorem readTail_yields
    (hread : ∀ {r r' : Reader} {d : Datum}, r.Stands → read r = .ok d r' → Yields room .form r d r')
    (hsome : items ≠ []) {rest : List Char} (hnext : r.skipped.cursor.rest = '.' :: rest)
    (hdot : endsDot rest.head? = true) (h : readTail read start items r.skipped.passed = .ok d r') :
    Yields room (.list start items) r d r' := by
  by_cases hmore : r.skipped.passed.skipped.cursor.rest = []
  · rw [readTail_end hmore] at h
    cases h
  · cases hx : read r.skipped.passed.skipped with
    | error e r₁ =>
        rw [readTail_error hmore hx] at h
        cases h
    | ok x r₁ =>
        by_cases hclose : r₁.skipped.cursor.rest.head? = some ')'
        · obtain ⟨rest', hcloses⟩ := List.head?_eq_some_iff.mp hclose
          rw [readTail_close hmore hx hcloses] at h
          cases h
          exact .dotted hsome hnext hdot hmore (hread (skipped_stands _) hx) hcloses
        · rw [readTail_unclosed hmore hx hclose] at h
          cases h

theorem readListFrom_yields
    (hread : ∀ {r r' : Reader} {d : Datum}, r.Stands → read r = .ok d r' → Yields room .form r d r')
    (h : readListFrom read start turns items r = .ok d r') :
    Yields room (.list start items) r d r' := by
  induction turns generalizing items r with
  | zero => cases h
  | succ turns ih =>
      cases hnext : r.skipped.cursor.rest with
      | nil =>
          rw [readListFrom_end hnext] at h
          cases h
      | cons c rest =>
          by_cases hclose : c = ')'
          · subst hclose
            rw [readListFrom_close hnext] at h
            cases items with
            | nil =>
                cases h
                exact .nothing hnext
            | cons item items =>
                cases h
                exact .close (List.cons_ne_nil item items) hnext
          · cases hdot : (c == '.' && endsDot rest.head?) with
            | true =>
                rw [Bool.and_eq_true, beq_iff_eq] at hdot
                obtain ⟨rfl, hdot⟩ := hdot
                rw [readListFrom_dot hnext hdot] at h
                cases items with
                | nil => cases h
                | cons item items =>
                    exact readTail_yields hread (List.cons_ne_nil item items) hnext hdot h
            | false =>
                rw [readListFrom_item hnext hclose hdot] at h
                obtain ⟨x, r₁, hx, h⟩ := bind_eq_ok h
                exact .item hnext hclose hdot (hread (skipped_stands r) hx) (ih h)

theorem readVectorFrom_yields
    (hread : ∀ {r r' : Reader} {d : Datum}, r.Stands → read r = .ok d r' → Yields room .form r d r')
    (h : readVectorFrom read start turns items r = .ok d r') :
    Yields room (.vector start items) r d r' := by
  induction turns generalizing items r with
  | zero => cases h
  | succ turns ih =>
      cases hnext : r.skipped.cursor.rest with
      | nil =>
          rw [readVectorFrom_end hnext] at h
          cases h
      | cons c rest =>
          by_cases hclose : c = ')'
          · subst hclose
            rw [readVectorFrom_close hnext] at h
            cases h
            exact .closeVector hnext
          · rw [readVectorFrom_item hnext hclose] at h
            obtain ⟨x, r₁, hx, h⟩ := bind_eq_ok h
            exact .vectorItem hnext hclose (hread (skipped_stands r) hx) (ih h)

theorem readQuote_yields
    (hread : ∀ {r r' : Reader} {d : Datum}, r.Stands → read r = .ok d r' → Yields room .form r d r')
    {rest : List Char} (hopens : r.cursor.rest = '\'' :: rest)
    (h : readQuote read r.cursor.position r.passed = .ok d r') :
    Yields (room + 1) .form r d r' := by
  by_cases hmore : r.passed.skipped.cursor.rest = []
  · rw [readQuote_end hmore] at h
    cases h
  · rw [readQuote_more hmore] at h
    obtain ⟨x, r₁, hx, h⟩ := bind_eq_ok h
    cases h
    exact .quote hopens hmore (hread (skipped_stands _) hx)

/-- Every reading that succeeds is one of the relation. -/
theorem readForm_yields (hr : r.Stands) (h : readForm room r = .ok d r') :
    Yields room .form r d r' := by
  induction room generalizing r r' d with
  | zero =>
      rcases readFormWith_eq_ok hr h with hatom | ⟨read, rest, hinner, -⟩
      · exact .atom hatom
      · cases hinner
  | succ room ih =>
      rcases readFormWith_eq_ok hr h with hatom | ⟨read, rest, hinner, hbody⟩
      · exact .atom hatom
      · cases hinner
        rcases hbody with ⟨hopens, h⟩ | ⟨hopens, h⟩ | ⟨hopens, h⟩
        · rw [readList, get_bind] at h
          exact .list hopens (readListFrom_yields ih h)
        · rw [readVector, get_bind] at h
          exact .vector hopens (readVectorFrom_yields ih h)
        · exact readQuote_yields ih hopens h

end Sound

/-! ## Every datum takes characters -/

section Length

variable {r r' : Reader} {d : Datum}

theorem length_skipFrom_le (text : List Char) :
    ∀ (commented : Bool) (p : Position),
      (Cursor.skipFrom commented text p).rest.length ≤ text.length := by
  induction text with
  | nil =>
      intro commented p
      cases commented <;> exact Nat.le_refl 0
  | cons c text ih =>
      intro commented p
      cases commented with
      | true => exact Nat.le_succ_of_le (ih _ _)
      | false =>
          rw [Cursor.skipFrom]
          split
          · exact Nat.le_succ_of_le (ih _ _)
          · split
            · exact Nat.le_succ_of_le (ih _ _)
            · exact Nat.le_refl _

theorem length_skipped_le (r : Reader) :
    r.skipped.cursor.rest.length ≤ r.cursor.rest.length :=
  length_skipFrom_le r.cursor.rest false r.cursor.position

theorem length_passed {c : Char} {rest : List Char} (h : r.cursor.rest = c :: rest) :
    r.passed.cursor.rest.length + 1 = r.cursor.rest.length := by
  rw [rest_passed h, h, List.length_cons]

theorem stringFrom_plain {c : Char} (hc : c ≠ '\\') (rest : List Char) (p : Position) :
    Cursor.stringFrom (c :: rest) p =
      if c = '"' then (some [], ⟨rest, p.after c⟩)
      else ((Cursor.stringFrom rest (p.after c)).1.map (c :: ·),
        (Cursor.stringFrom rest (p.after c)).2) := by
  rw [Cursor.stringFrom]
  · exact fun h => absurd h hc
  · exact fun _ _ h => absurd h hc

/-- What a string literal consists of behind its opening quote: escaped characters, other characters
and the closing quote. -/
inductive Contents : List Char → Position → List Char → Cursor → Prop
  | escaped {c : Char} {rest body : List Char} {p : Position} {stop : Cursor}
      (others : Contents rest ((p.after '\\').after c) body stop) :
      Contents ('\\' :: c :: rest) p (c :: body) stop
  | closed {rest : List Char} {p : Position} : Contents ('"' :: rest) p [] ⟨rest, p.after '"'⟩
  | plain {c : Char} {rest body : List Char} {p : Position} {stop : Cursor} (escape : c ≠ '\\')
      (quote : c ≠ '"') (others : Contents rest (p.after c) body stop) :
      Contents (c :: rest) p (c :: body) stop

theorem contents_of_stringFrom {text body : List Char} {p : Position} {stop : Cursor}
    (h : Cursor.stringFrom text p = (some body, stop)) : Contents text p body stop := by
  induction text, p using Cursor.stringFrom.induct generalizing body with
  | case1 p => cases h
  | case2 p => cases h
  | case3 c rest p body' stop' hrest ih =>
      rw [Cursor.stringFrom, hrest] at h
      cases body' with
      | none => cases h
      | some body' =>
          cases h
          exact .escaped (ih hrest)
  | case4 rest p _ _ =>
      rw [stringFrom_plain (by decide), if_pos rfl] at h
      cases h
      exact .closed
  | case5 c rest p hlast hmore hquote body' stop' hrest ih =>
      have hc : c ≠ '\\' := by
        intro hc
        cases rest with
        | nil => exact hlast hc rfl
        | cons c' rest' => exact hmore c' rest' hc rfl
      rw [stringFrom_plain hc, if_neg hquote, hrest] at h
      cases body' with
      | none => cases h
      | some body' =>
          cases h
          exact .plain hc hquote (ih hrest)

theorem Contents.length_le {text body : List Char} {p : Position} {stop : Cursor}
    (h : Contents text p body stop) : stop.rest.length ≤ text.length := by
  induction h with
  | escaped _ ih => exact Nat.le_succ_of_le (Nat.le_succ_of_le ih)
  | closed => exact Nat.le_succ _
  | plain _ _ _ ih => exact Nat.le_succ_of_le ih

theorem length_pastToken_lt {c : Char} {rest : List Char} (h : r.cursor.rest = c :: rest)
    (hc : isDelimiter c = false) : r.pastToken.cursor.rest.length < r.cursor.rest.length := by
  have hdrop : r.pastToken.cursor.rest = rest.dropWhile fun c => !isDelimiter c := by
    show r.cursor.rest.dropWhile (fun c => !isDelimiter c) = _
    rw [h, List.dropWhile_cons, hc]
    rfl
  have hle := (List.dropWhile_suffix (l := rest) fun c => !isDelimiter c).length_le
  rw [hdrop, h, List.length_cons]
  omega

theorem Atom.consumes (h : Atom r d r') : r'.cursor.rest.length < r.cursor.rest.length := by
  cases h with
  | minus first alone =>
      have := length_passed first
      show r.passed.cursor.rest.length < r.cursor.rest.length
      omega
  | number first starts whole value =>
      apply length_pastToken_lt first
      rcases starts with ⟨rfl, -⟩ | hdigit
      · decide
      · exact (Decimal.not_isDelimiter_of_isNumeralChar
          (Decimal.isNumeralChar_of_isDigit hdigit)).1
  | symbol first starts =>
      apply length_pastToken_lt first
      simp only [startsSymbol, Bool.not_eq_true', Bool.or_eq_false_iff] at starts
      exact starts.1.1
  | string first contents =>
      have := (contents_of_stringFrom contents).length_le
      show Nat.lt _ _
      rw [first, List.length_cons]
      exact Nat.lt_succ_of_le this
  | boolean b first =>
      have h₁ := length_passed first
      have h₂ := length_passed (rest_passed first)
      show r.passed.passed.cursor.rest.length < r.cursor.rest.length
      omega

theorem Yields.consumes {room : Nat} {task : Task} (h : Yields room task r d r') :
    r'.cursor.rest.length < r.cursor.rest.length := by
  induction h with
  | atom atom => exact atom.consumes
  | list opens _ ih =>
      have := length_passed opens
      omega
  | vector opens _ ih =>
      have h₁ := length_passed opens
      have h₂ := length_passed (rest_passed opens)
      omega
  | @quote room r r₁ d rest opens _ _ ih =>
      have h₁ := length_passed opens
      have h₂ := length_skipped_le r.passed
      show r₁.cursor.rest.length < r.cursor.rest.length
      omega
  | @nothing room r start rest closes =>
      have h₁ := length_passed closes
      have h₂ := length_skipped_le r
      show r.skipped.passed.cursor.rest.length < r.cursor.rest.length
      omega
  | @close room r start items rest _ closes =>
      have h₁ := length_passed closes
      have h₂ := length_skipped_le r
      show r.skipped.passed.cursor.rest.length < r.cursor.rest.length
      omega
  | @item room r r₁ r₂ start items x d c rest _ _ _ _ _ ih₁ ih₂ =>
      have := length_skipped_le r
      omega
  | @dotted room r r₁ start items x rest rest' _ next _ _ _ closes ih =>
      have h₁ := length_skipped_le r
      have h₂ := length_passed next
      have h₃ := length_skipped_le r.skipped.passed
      have h₄ := length_skipped_le r₁
      have h₅ := length_passed closes
      show r₁.skipped.passed.cursor.rest.length < r.cursor.rest.length
      omega
  | @closeVector room r start items rest closes =>
      have h₁ := length_passed closes
      have h₂ := length_skipped_le r
      show r.skipped.passed.cursor.rest.length < r.cursor.rest.length
      omega
  | @vectorItem room r r₁ r₂ start items x d c rest _ _ _ _ ih₁ ih₂ =>
      have := length_skipped_le r
      omega

end Length

/-! ## Readings of the relation succeed -/

section Complete

variable {room : Nat} {r r' : Reader} {d : Datum}

theorem not_special_of_isDigit {c : Char} (h : c.isDigit = true) :
    c ∉ ['(', ')', '\'', '"', '#'] := by
  intro hmem
  simp only [List.mem_cons, List.not_mem_nil, or_false] at hmem
  rcases hmem with rfl | rfl | rfl | rfl | rfl <;> revert h <;> decide

theorem Atom.readFormWith_eq (h : Atom r d r') (inner : Option (Read Datum)) :
    readFormWith inner r = .ok d r' := by
  cases h with
  | minus first alone =>
      rw [readFormWith_plain inner (by decide) first, alone, beq_self_eq_true, Bool.and_self,
        if_pos rfl]
      rfl
  | @number c rest n first starts whole value =>
      have hnumber : readNumber r.cursor.position r =
          .ok (.literal (r.pastToken.markFrom r.cursor.position) (.number n))
            r.pastToken.counted := by
        rw [readNumber, takeToken_bind, whole]
        simp only [Bool.false_eq_true, if_false, value]
        rfl
      rcases starts with ⟨rfl, hmore⟩ | hdigit
      · rw [readFormWith_plain inner (by decide) first, hmore, Bool.and_false]
        exact hnumber
      · have hminus : (c == '-') = false := by
          rw [beq_eq_false_iff_ne]
          rintro rfl
          revert hdigit
          decide
        rw [readFormWith_plain inner (not_special_of_isDigit hdigit) first, hminus, hdigit]
        exact hnumber
  | @symbol c rest first starts =>
      simp only [startsSymbol, Bool.not_eq_true', Bool.or_eq_false_iff, decide_eq_false_iff_not,
        isDelimiter, beq_eq_false_iff_ne, List.mem_cons, List.not_mem_nil, or_false,
        not_or] at starts
      obtain ⟨⟨⟨hclose, -⟩, hdigit⟩, hopen, hquote, hstring, hhash, hminus⟩ := starts
      have hplain : c ∉ ['(', ')', '\'', '"', '#'] := by simp [*]
      rw [readFormWith_plain inner hplain first, beq_eq_false_iff_ne.mpr hminus, hdigit]
      rfl
  | @string rest body stop first contents =>
      have hcontents : Cursor.stringFrom r.passed.cursor.rest r.passed.cursor.position =
          (some body, stop) := by
        simpa only [passed, Cursor.advance, first] using contents
      rw [readFormWith_string first, readString_closed hcontents]
      rfl
  | boolean b first =>
      rw [readFormWith_boolean b first]
      rfl

/-- What the reader does with a task. -/
def Task.Reads (room : Nat) (r : Reader) (d : Datum) (r' : Reader) : Task → Prop
  | form => readForm room r = .ok d r'
  | list start items => ∀ turns, r.cursor.rest.length < turns →
      readListFrom (readForm room) start turns items r = .ok d r'
  | vector start items => ∀ turns, r.cursor.rest.length < turns →
      readVectorFrom (readForm room) start turns items r = .ok d r'

/-- The reader succeeds with every task as the relation says. -/
theorem Yields.reads {task : Task} (h : Yields room task r d r') : task.Reads room r d r' := by
  induction h with
  | @atom room r r' d atom =>
      show readForm room r = .ok d r'
      cases room <;> exact atom.readFormWith_eq _
  | @list room r r' d rest opens _ ih =>
      show readForm (room + 1) r = .ok d r'
      rw [readForm, readFormWith_list opens]
      exact ih _ (Nat.lt_succ_self _)
  | @vector room r r' d rest opens _ ih =>
      show readForm (room + 1) r = .ok d r'
      rw [readForm, readFormWith_vector opens]
      exact ih _ (Nat.lt_succ_self _)
  | @quote room r r₁ d rest opens more _ ih =>
      show readForm (room + 1) r = _
      rw [readForm, readFormWith_quote opens, nested, readQuote_more more, bind_of_ok ih]
      rfl
  | @nothing room r start rest closes =>
      intro turns hturns
      obtain ⟨turns, rfl⟩ := Nat.exists_eq_succ_of_ne_zero (Nat.ne_zero_of_lt hturns)
      rw [readListFrom_close closes]
      rfl
  | @close room r start items rest some closes =>
      intro turns hturns
      obtain ⟨turns, rfl⟩ := Nat.exists_eq_succ_of_ne_zero (Nat.ne_zero_of_lt hturns)
      rw [readListFrom_close closes, if_neg (by simpa using some)]
      rfl
  | @item room r r₁ r₂ start items x d c rest next close dot item _ ih₁ ih₂ =>
      intro turns hturns
      obtain ⟨turns, rfl⟩ := Nat.exists_eq_succ_of_ne_zero (Nat.ne_zero_of_lt hturns)
      rw [readListFrom_item next close dot, bind_of_ok ih₁]
      apply ih₂
      have h₁ := item.consumes
      have h₂ := length_skipped_le r
      omega
  | @dotted room r r₁ start items x rest rest' some next dot more _ closes ih =>
      intro turns hturns
      obtain ⟨turns, rfl⟩ := Nat.exists_eq_succ_of_ne_zero (Nat.ne_zero_of_lt hturns)
      rw [readListFrom_dot next dot, if_neg (by simpa using some), readTail_close more ih closes]
      rfl
  | @closeVector room r start items rest closes =>
      intro turns hturns
      obtain ⟨turns, rfl⟩ := Nat.exists_eq_succ_of_ne_zero (Nat.ne_zero_of_lt hturns)
      rw [readVectorFrom_close closes]
      rfl
  | @vectorItem room r r₁ r₂ start items x d c rest next close item _ ih₁ ih₂ =>
      intro turns hturns
      obtain ⟨turns, rfl⟩ := Nat.exists_eq_succ_of_ne_zero (Nat.ne_zero_of_lt hturns)
      rw [readVectorFrom_item next close, bind_of_ok ih₁]
      apply ih₂
      have h₁ := item.consumes
      have h₂ := length_skipped_le r
      omega

end Complete

/-! ## Texts -/

/-- From one reader these data are read up to the end of the text, which leaves another. -/
inductive YieldsAll : Reader → List Datum → Reader → Prop
  | done {r : Reader} (ends : r.skipped.cursor.rest = []) : YieldsAll r [] r.skipped
  | form {r r₁ r₂ : Reader} {d : Datum} {ds : List Datum} (more : r.skipped.cursor.rest ≠ [])
      (first : Yields maxNesting .form r.skipped d r₁) (others : YieldsAll r₁ ds r₂) :
      YieldsAll r (d :: ds) r₂

section Texts

variable {r r' : Reader} {d : Datum}

theorem Yields.failed_eq {room : Nat} {task : Task} (h : Yields room task r d r') :
    r'.failed = r.failed := by
  induction h with
  | atom atom => cases atom <;> rfl
  | list _ _ ih => exact ih
  | vector _ _ ih => exact ih
  | quote _ _ _ ih => exact ih
  | nothing _ => rfl
  | close _ _ => rfl
  | item _ _ _ _ _ ih₁ ih₂ => exact ih₂.trans ih₁
  | dotted _ _ _ _ _ _ ih => exact ih
  | closeVector _ => rfl
  | vectorItem _ _ _ _ ih₁ ih₂ => exact ih₂.trans ih₁

theorem next?_of_end (hr : r.failed = false) (h : r.skipped.cursor.rest = []) :
    r.next? = (none, r.skipped) := by
  have hnext : nextForm r = .ok none r.skipped := by
    rw [nextForm, skipAtmosphere_bind, peek_bind, h]
    rfl
  rw [next?, if_neg (by simp [hr]), hnext]

theorem next?_of_yields (hr : r.failed = false) (hmore : r.skipped.cursor.rest ≠ [])
    (h : Yields maxNesting .form r.skipped d r') : r.next? = (some (.ok d), r') := by
  have hnext : nextForm r = .ok (some d) r' := by
    rw [nextForm, skipAtmosphere_bind, peek_bind, if_neg (by simpa using hmore)]
    rw [bind_of_ok h.reads]
    rfl
  rw [next?, if_neg (by simp [hr]), hnext]

theorem next?_of_error {e : SyntaxError} (hr : r.failed = false)
    (hmore : r.skipped.cursor.rest ≠ []) (h : readForm maxNesting r.skipped = .error e r') :
    r.next? = (some (.error e), { r' with failed := true }) := by
  have hnext : nextForm r = .error e r' := by
    rw [nextForm, skipAtmosphere_bind, peek_bind, if_neg (by simpa using hmore)]
    change EStateM.bind _ _ _ = _
    rw [EStateM.bind, h]
  rw [next?, if_neg (by simp [hr]), hnext]

/-- Where there is more, iteration yields a datum or an error. -/
theorem next?_of_more (hr : r.failed = false) (hmore : r.skipped.cursor.rest ≠ []) :
    (∃ d r', r.next? = (some (.ok d), r') ∧ Yields maxNesting .form r.skipped d r') ∨
      ∃ e r', r.next? = (some (.error e), r') := by
  cases hread : readForm maxNesting r.skipped with
  | ok d r' =>
      have h := readForm_yields (skipped_stands r) hread
      exact Or.inl ⟨d, r', next?_of_yields hr hmore h, h⟩
  | error e r' => exact Or.inr ⟨e, _, next?_of_error hr hmore hread⟩

/-- Iteration that meets no error goes through the data of the text, if it is given turns enough. -/
theorem takeForms_eq_iff {turns : Nat} {ds : List Datum} (hr : r.failed = false)
    (hturns : r.cursor.rest.length < turns) :
    takeForms turns r = (ds, none) ↔ ∃ r', YieldsAll r ds r' := by
  induction turns generalizing r ds with
  | zero => omega
  | succ turns ih =>
      by_cases hend : r.skipped.cursor.rest = []
      · rw [takeForms, next?_of_end hr hend]
        constructor
        · intro h
          cases h
          exact ⟨_, .done hend⟩
        · rintro ⟨r', hall⟩
          cases hall with
          | done _ => rfl
          | form more _ _ => exact absurd hend more
      · rcases next?_of_more hr hend with ⟨d, r₁, hnext, hfirst⟩ | ⟨e, r₁, hnext⟩
        · have hless := hfirst.consumes
          have hskip := length_skipped_le r
          have hrest := @ih r₁
          rw [takeForms, hnext]
          constructor
          · intro h
            cases hothers : takeForms turns r₁ with
            | mk ds₁ error =>
                simp only [hothers] at h
                cases h
                obtain ⟨r₂, hall⟩ := (hrest (hfirst.failed_eq.trans hr) (by omega)).mp hothers
                exact ⟨r₂, .form hend hfirst hall⟩
          · rintro ⟨r₂, hall⟩
            cases hall with
            | done ends => exact absurd ends hend
            | form more first others =>
                have hsame := next?_of_yields hr more first
                rw [hnext] at hsame
                cases hsame
                have htake := (hrest (hfirst.failed_eq.trans hr) (by omega)).mpr ⟨_, others⟩
                simp only [htake]
        · rw [takeForms, hnext]
          constructor
          · intro h
            cases h
          · rintro ⟨r₂, hall⟩
            cases hall with
            | done ends => exact absurd ends hend
            | form more first others =>
                have hsame := next?_of_yields hr more first
                rw [hnext] at hsame
                cases hsame

end Texts
end Reader

/-- The data of a text are those that are read from its start to its end. -/
theorem Datum.parse_eq_ok_iff {source : String} {ds : List Datum} :
    Datum.parse source = .ok ds ↔ ∃ r, Reader.YieldsAll (Reader.ofText source) ds r := by
  have htake : Reader.takeForms (source.toList.length + 1) (Reader.ofText source) = (ds, none) ↔
      ∃ r, Reader.YieldsAll (Reader.ofText source) ds r :=
    Reader.takeForms_eq_iff rfl (Nat.lt_succ_self _)
  rw [← htake, parse, readAll]
  generalize Reader.takeForms (source.toList.length + 1) (Reader.ofText source) = x
  obtain ⟨ds', error⟩ := x
  cases error <;> simp

theorem Datum.parse_of_no_error {source : String} (h : (readAll source).2 = none) :
    parse source = .ok (readAll source).1 := by
  rw [parse]
  split
  next hall => rw [hall]
  next hall =>
    rw [hall] at h
    cases h

theorem Datum.parse_eq_error_iff {source : String} {e : SyntaxError} :
    parse source = .error e ↔ (readAll source).2 = some e := by
  rw [parse]
  split
  next hall => simp [hall]
  next hall => simp [hall]

end SchemeMachine
