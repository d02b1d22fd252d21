import SchemeMachine.Proofs.Doubles.Numerals
import SchemeMachine.Proofs.Reading.Layout

/-!
# Layouts read back

Reading any layout of a datum gives the datum, up to marks, and leaves what comes behind the layout.
The induction is on the way the datum is written: lists and vectors are read one element at a time,
and each turn of the reader takes one element of the layout.
-/

namespace SchemeMachine

open Text

namespace Datum

/-- A list in front of a tail, with the elements in reverse and all marks blank. -/
def unread (items : List Datum) (tail : Datum) : Datum :=
  items.foldl (fun rest item => pair ⟨0, none⟩ item.unmarked rest) tail

theorem unmarked_chain (items : List Datum) :
    ∀ (tail : Datum) (last : Nat),
      (chain items.reverse tail last).1.unmarked = unread items tail.unmarked := by
  unfold chain
  induction items with
  | nil => exact fun _ _ => rfl
  | cons item items ih =>
      intro tail last
      rw [List.reverse_cons, List.foldr_append]
      refine (ih _ _).trans ?_
      rw [unmarked]
      rfl

theorem unmarked_properList (items : List Datum) (last : Nat) :
    (properList items.reverse last).1.unmarked = unread items (empty ⟨0, none⟩) := by
  rw [properList, unmarked_chain, unmarked]

end Datum

namespace Reader

open Datum

/-! ## Steps of the reader -/

section Steps

variable {α : Type} {r : Reader}

theorem bind_of_ok {β : Type} {x : Read α} {f : α → Read β} {a : α} {r' : Reader}
    (h : x r = .ok a r') : (x >>= f) r = f a r' := by
  change EStateM.bind x f r = f a r'
  rw [EStateM.bind, h]

theorem bind_of_error {β : Type} {x : Read α} {f : α → Read β} {e : SyntaxError} {r' : Reader}
    (h : x r = .error e r') : (x >>= f) r = .error e r' := by
  change EStateM.bind x f r = .error e r'
  rw [EStateM.bind, h]

/-- The reader behind the next character. -/
def passed (r : Reader) : Reader :=
  { r with cursor := r.cursor.advance }

/-- The reader behind blanks and comments. -/
def skipped (r : Reader) : Reader :=
  { r with cursor := r.cursor.skipAtmosphere }

theorem rest_passed {c : Char} {rest : List Char} (h : r.cursor.rest = c :: rest) :
    r.passed.cursor.rest = rest := by
  simp [passed, Cursor.advance, h]

theorem rest_skipped {space rest : List Char} {c : Char} (hspace : isAtmosphere space = true)
    (hblank : isBlank c = false) (hcomment : c ≠ ';') (h : r.cursor.rest = space ++ c :: rest) :
    r.skipped.cursor.rest = c :: rest := by
  simp only [skipped, Cursor.skipAtmosphere]
  rw [h, Cursor.skipFrom_append _ _ hspace, Cursor.skipFrom_cons hblank hcomment]

theorem get_bind (f : Reader → Read α) : (get >>= f) r = f r r := rfl

theorem here_bind (f : Position → Read α) : (here >>= f) r = f r.cursor.position r := rfl

theorem peek_bind (f : Option Char → Read α) : (peek >>= f) r = f r.cursor.rest.head? r := rfl

theorem peekSecond_bind (f : Option Char → Read α) :
    (peekSecond >>= f) r = f r.cursor.rest.tail.head? r := rfl

theorem advance_bind (f : Unit → Read α) : (advance >>= f) r = f () r.passed := rfl

theorem skipAtmosphere_bind (f : Unit → Read α) : (skipAtmosphere >>= f) r = f () r.skipped := rfl

end Steps

/-! ## What the next character leads to -/

section Turns

variable {inner : Option (Read Datum)} {read : Read Datum} {r r₁ : Reader} {start : Position}
  {turns : Nat} {items : List Datum} {x : Datum} {c : Char} {rest : List Char}

theorem readFormWith_end (hr : r.cursor.rest = []) :
    readFormWith inner r = .error (.unexpectedEnd r.cursor.position) r := by
  rw [readFormWith, here_bind, peek_bind, hr]
  rfl

theorem readFormWith_close (hr : r.cursor.rest = ')' :: rest) :
    readFormWith inner r = .error (.unexpectedClose r.cursor.position) r := by
  rw [readFormWith, here_bind, peek_bind, hr]
  rfl

theorem readFormWith_list (hr : r.cursor.rest = '(' :: rest) :
    readFormWith inner r = nested inner r.cursor.position readList r.passed := by
  rw [readFormWith, here_bind, peek_bind, hr]
  rfl

theorem readFormWith_quote (hr : r.cursor.rest = '\'' :: rest) :
    readFormWith inner r = nested inner r.cursor.position readQuote r.passed := by
  rw [readFormWith, here_bind, peek_bind, hr]
  rfl

theorem readFormWith_string (hr : r.cursor.rest = '"' :: rest) :
    readFormWith inner r = readString r.cursor.position r.passed := by
  rw [readFormWith, here_bind, peek_bind, hr]
  rfl

theorem readFormWith_hash (hr : r.cursor.rest = '#' :: rest) :
    readFormWith inner r = readHash inner r.cursor.position r.passed := by
  rw [readFormWith, here_bind, peek_bind, hr]
  rfl

theorem readFormWith_boolean (b : Bool)
    (hr : r.cursor.rest = '#' :: (if b then 't' else 'f') :: rest) :
    readFormWith inner r =
      finish r.cursor.position (.literal · (.boolean b)) r.passed.passed := by
  rw [readFormWith_hash hr, readHash, peek_bind, rest_passed hr]
  cases b <;> rfl

theorem readFormWith_vector (hr : r.cursor.rest = '#' :: '(' :: rest) :
    readFormWith inner r = nested inner r.cursor.position readVector r.passed.passed := by
  rw [readFormWith_hash hr, readHash, peek_bind, rest_passed hr]
  rfl

/-- Which characters begin neither a list, a quotation, a string nor what a hash sign begins. -/
theorem readFormWith_plain (inner : Option (Read Datum))
    (hc : c ∉ ['(', ')', '\'', '"', '#']) (hr : r.cursor.rest = c :: rest) :
    readFormWith inner r =
      if c == '-' && endsToken rest.head? then
        finish r.cursor.position (.symbol · "-") r.passed
      else if c == '-' || c.isDigit then readNumber r.cursor.position r
      else readSymbol r.cursor.position r := by
  simp only [List.mem_cons, List.not_mem_nil, or_false, not_or] at hc
  rw [readFormWith, here_bind, peek_bind, hr, List.head?_cons]
  simp only [hc, imp_self]
  rw [peekSecond_bind, hr, List.tail_cons]
  split
  · rfl
  · split <;> rfl

theorem readString_closed {body : List Char} {stop : Cursor}
    (h : Cursor.stringFrom r.cursor.rest r.cursor.position = (some body, stop)) :
    readString start r =
      finish start (.literal · (.string (String.ofList body))) { r with cursor := stop } := by
  rw [readString, get_bind]
  simp only [h]
  rfl

theorem readString_open {stop : Cursor}
    (h : Cursor.stringFrom r.cursor.rest r.cursor.position = (none, stop)) :
    readString start r = .error (.unterminatedString start) { r with cursor := stop } := by
  rw [readString, get_bind]
  simp only [h]
  rfl

theorem readListFrom_end (hnext : r.skipped.cursor.rest = []) :
    readListFrom read start (turns + 1) items r = .error (.unterminatedList start) r.skipped := by
  rw [readListFrom, skipAtmosphere_bind, peek_bind, hnext]
  rfl

theorem readListFrom_close (hnext : r.skipped.cursor.rest = ')' :: rest) :
    readListFrom read start (turns + 1) items r =
      if items.isEmpty then finish start .empty r.skipped.passed
      else finishList start (Datum.properList items.reverse) r.skipped.passed := by
  rw [readListFrom, skipAtmosphere_bind, peek_bind, hnext, List.head?_cons]
  simp only
  rw [advance_bind]
  split <;> rfl

theorem readListFrom_dot (hnext : r.skipped.cursor.rest = '.' :: rest)
    (hdot : endsDot rest.head? = true) :
    readListFrom read start (turns + 1) items r =
      if items.isEmpty then .error (.unexpectedDot r.skipped.cursor.position) r.skipped
      else readTail read start items r.skipped.passed := by
  have hclose : ('.' : Char) ≠ ')' := by decide
  rw [readListFrom, skipAtmosphere_bind, peek_bind, hnext, List.head?_cons]
  simp only
  rw [peekSecond_bind, hnext, List.tail_cons, hdot, beq_self_eq_true, Bool.and_self, if_pos rfl]
  split <;> rfl

theorem readListFrom_item (hnext : r.skipped.cursor.rest = c :: rest) (hclose : c ≠ ')')
    (hdot : (c == '.' && endsDot rest.head?) = false) :
    readListFrom read start (turns + 1) items r =
      (read >>= fun x => readListFrom read start turns (x :: items)) r.skipped := by
  rw [readListFrom, skipAtmosphere_bind, peek_bind, hnext, List.head?_cons]
  simp only
  rw [peekSecond_bind, hnext, List.tail_cons, hdot]
  rfl

theorem readTail_end (hnext : r.skipped.cursor.rest = []) :
    readTail read start items r = .error (.unterminatedList start) r.skipped := by
  rw [readTail, skipAtmosphere_bind, peek_bind, hnext]
  rfl

theorem readTail_error {e : SyntaxError} (hmore : r.skipped.cursor.rest ≠ [])
    (hread : read r.skipped = .error e r₁) : readTail read start items r = .error e r₁ := by
  rw [readTail, skipAtmosphere_bind, peek_bind, if_neg (by simpa using hmore)]
  exact bind_of_error hread

theorem readTail_unclosed (hmore : r.skipped.cursor.rest ≠ []) (hread : read r.skipped = .ok x r₁)
    (hclose : r₁.skipped.cursor.rest.head? ≠ some ')') :
    readTail read start items r =
      .error (.expectedClose r₁.skipped.cursor.position) r₁.skipped := by
  rw [readTail, skipAtmosphere_bind, peek_bind, if_neg (by simpa using hmore)]
  beta_reduce
  rw [bind_of_ok hread, skipAtmosphere_bind, peek_bind, if_pos (by simpa using hclose)]
  rfl

theorem readTail_close (hmore : r.skipped.cursor.rest ≠ []) (hread : read r.skipped = .ok x r₁)
    (hclose : r₁.skipped.cursor.rest = ')' :: rest) :
    readTail read start items r =
      finishList start (Datum.chain items.reverse x) r₁.skipped.passed := by
  rw [readTail, skipAtmosphere_bind, peek_bind, if_neg (by simpa using hmore)]
  beta_reduce
  rw [bind_of_ok hread, skipAtmosphere_bind, peek_bind, hclose, if_neg (by simp)]
  rfl

theorem readVectorFrom_end (hnext : r.skipped.cursor.rest = []) :
    readVectorFrom read start (turns + 1) items r =
      .error (.unterminatedVector start) r.skipped := by
  rw [readVectorFrom, skipAtmosphere_bind, peek_bind, hnext]
  rfl

theorem readVectorFrom_close (hnext : r.skipped.cursor.rest = ')' :: rest) :
    readVectorFrom read start (turns + 1) items r =
      finish start (.vector · items.reverse) r.skipped.passed := by
  rw [readVectorFrom, skipAtmosphere_bind, peek_bind, hnext]
  rfl

theorem readVectorFrom_item (hnext : r.skipped.cursor.rest = c :: rest) (hclose : c ≠ ')') :
    readVectorFrom read start (turns + 1) items r =
      (read >>= fun x => readVectorFrom read start turns (x :: items)) r.skipped := by
  rw [readVectorFrom, skipAtmosphere_bind, peek_bind, hnext, List.head?_cons]
  simp only

theorem readQuote_end (hnext : r.skipped.cursor.rest = []) :
    readQuote read start r = .error (.unexpectedEnd start) r.skipped := by
  rw [readQuote, skipAtmosphere_bind, peek_bind, hnext]
  rfl

theorem readQuote_more (hmore : r.skipped.cursor.rest ≠ []) :
    readQuote read start r = (read >>= fun quoted => finishList start fun last =>
      Datum.properList [.symbol ⟨last + 1, none⟩ "quote", quoted] (last + 1)) r.skipped := by
  rw [readQuote, skipAtmosphere_bind, peek_bind, if_neg (by simpa using hmore)]

end Turns

/-! ## Tokens -/

/-- Reading succeeds with that datum, up to marks, and leaves these characters. -/
def Reads (read : Read Datum) (r : Reader) (t : Datum) (k : List Char) : Prop :=
  ∃ d r', read r = .ok d r' ∧ d.unmarked = t ∧ r'.cursor.rest = k

section Tokens

variable {r : Reader} {k : List Char}

theorem reads_finish (start : Position) {make : Mark → Datum} {t : Datum}
    (ht : ∀ m, (make m).unmarked = t) (hr : r.cursor.rest = k) :
    Reads (finish start make) r t k :=
  ⟨_, _, rfl, ht _, hr⟩

theorem reads_finishList (start : Position) {build : Nat → Datum × Nat} {t : Datum}
    (ht : ∀ last, (build last).1.unmarked = t) (hr : r.cursor.rest = k) :
    Reads (finishList start build) r t k :=
  ⟨_, _, rfl, (unmarked_withSpan _ _).trans (ht _), hr⟩

theorem takeToken_eq {token : List Char} (htoken : ∀ c ∈ token, isDelimiter c = false)
    (hk : endsToken k.head? = true) (hr : r.cursor.rest = token ++ k) :
    ∃ r', takeToken r = .ok token r' ∧ r'.cursor.rest = k := by
  have hspan := Cursor.spanWhile_token htoken hk r.cursor.position
  rw [← hr] at hspan
  have htake : takeToken r = .ok (r.cursor.spanWhile fun c => !isDelimiter c).1
      { r with cursor := (r.cursor.spanWhile fun c => !isDelimiter c).2 } := rfl
  rw [hspan] at htake
  exact ⟨_, htake, rfl⟩

theorem reads_symbol (inner : Option (Read Datum)) (m : Mark) {name : String}
    (hname : (symbol m name).Legible) (hk : endsToken k.head? = true)
    (hr : r.cursor.rest = name.toList ++ k) :
    Reads (readFormWith inner) r (symbol m name).unmarked k := by
  have hback := @String.ofList_toList name
  rw [Legible] at hname
  rw [unmarked]
  cases htoken : name.toList with
  | nil => simp [htoken, isSymbolName] at hname
  | cons c rest =>
      rw [htoken] at hname hr hback
      obtain ⟨hchars, hspecial, hdigit, hminus⟩ := isSymbolName_cons.mp hname
      have hc : c ∉ ['(', ')', '\'', '"', '#'] := by
        have hclose := hchars c List.mem_cons_self
        rw [isDelimiter, Bool.or_eq_false_iff, beq_eq_false_iff_ne] at hclose
        simp only [List.mem_cons, List.not_mem_nil, or_false, not_or] at hspecial ⊢
        exact ⟨hspecial.1, hclose.1, hspecial.2.1, hspecial.2.2.1, hspecial.2.2.2.1⟩
      have hcons : r.cursor.rest = c :: (rest ++ k) := hr
      unfold Reads
      rw [readFormWith_plain inner hc hcons]
      by_cases hsign : c = '-'
      · rw [hsign, hminus hsign] at hr hback
        rw [hsign, hminus hsign, List.nil_append, hk, ← hback, beq_self_eq_true, Bool.and_self,
          if_pos rfl]
        exact reads_finish r.cursor.position (fun m => by rw [unmarked]) (rest_passed hr)
      · have hsign' : (c == '-') = false := beq_eq_false_iff_ne.mpr hsign
        simp only [hsign', hdigit, Bool.false_and, Bool.or_self, Bool.false_eq_true, if_false]
        obtain ⟨r', htake, hr'⟩ := takeToken_eq hchars hk hr
        rw [readSymbol, bind_of_ok htake, hback]
        exact reads_finish _ (fun m => by rw [unmarked]) hr'

theorem reads_number (inner : Option (Read Datum)) {token : List Char} {n : Number}
    (h : Numeral token n) (hk : endsToken k.head? = true) (hr : r.cursor.rest = token ++ k) :
    Reads (readFormWith inner) r (literal ⟨0, none⟩ (.number n)) k := by
  have hchars : ∀ c ∈ token, isDelimiter c = false :=
    fun c hc => (Decimal.not_isDelimiter_of_isNumeralChar (h.chars c hc)).1
  have hslash : token.contains '/' = false := by
    rw [List.contains_eq_mem, decide_eq_false_iff_not]
    exact fun hc => (Decimal.not_isDelimiter_of_isNumeralChar (h.chars _ hc)).2 rfl
  obtain ⟨r', htake, hr'⟩ := takeToken_eq hchars hk hr
  obtain ⟨c, rest, htoken, hfirst⟩ := h.begins
  have hspecial : c ∉ ['(', ')', '\'', '"', '#'] := by
    rcases hfirst with hdigit | ⟨rfl, -⟩
    · intro hmem
      simp only [List.mem_cons, List.not_mem_nil, or_false] at hmem
      rcases hmem with rfl | rfl | rfl | rfl | rfl <;> revert hdigit <;> decide
    · decide
  -- A sign is followed by more of the numeral, so that it is not the symbol.
  have hsign : (c == '-' && endsToken (rest ++ k).head?) = false := by
    rcases hfirst with hdigit | ⟨rfl, hne⟩
    · have hminus : c ≠ '-' := by
        rintro rfl
        revert hdigit
        decide
      rw [beq_eq_false_iff_ne.mpr hminus, Bool.false_and]
    · obtain ⟨c, rest, rfl⟩ := List.exists_cons_of_ne_nil hne
      have hc := hchars c (by simp [htoken])
      simp [endsToken, hc]
  have hnumber : (c == '-' || c.isDigit) = true := by
    rcases hfirst with hdigit | ⟨rfl, -⟩
    · rw [hdigit, Bool.or_true]
    · rfl
  unfold Reads
  rw [readFormWith_plain inner hspecial (hr.trans (by rw [htoken, List.cons_append])), hsign,
    hnumber]
  simp only [Bool.false_eq_true, if_false, if_true]
  rw [readNumber, bind_of_ok htake, hslash]
  simp only [Bool.false_eq_true, if_false, h.value]
  exact reads_finish _ (fun m => by rw [unmarked]) hr'

theorem reads_string (inner : Option (Read Datum)) (s : String)
    (hr : r.cursor.rest = (quotedText s).toList ++ k) :
    Reads (readFormWith inner) r (literal ⟨0, none⟩ (.string s)) k := by
  rw [quotedText, String.toList_ofList, List.cons_append, List.append_assoc, List.cons_append,
    List.nil_append] at hr
  have hrest := rest_passed hr
  obtain ⟨q, hq⟩ := Cursor.stringFrom_escaped s.toList k r.passed.cursor.position
  rw [← hrest] at hq
  unfold Reads
  rw [readFormWith_string hr, readString_closed hq, String.ofList_toList]
  exact reads_finish _ (fun m => by rw [unmarked]) rfl

theorem reads_boolean (inner : Option (Read Datum)) (b : Bool)
    (hr : r.cursor.rest = (booleanText b).toList ++ k) :
    Reads (readFormWith inner) r (literal ⟨0, none⟩ (.boolean b)) k := by
  have hfirst : r.cursor.rest = '#' :: (if b then 't' else 'f') :: k := by
    rw [hr]
    cases b <;> rfl
  unfold Reads
  rw [readFormWith_boolean b hfirst]
  exact reads_finish _ (fun m => by rw [unmarked]) (rest_passed (rest_passed hfirst))

end Tokens

/-! ## Lists and vectors -/

section Lists

variable {read : Read Datum} {r : Reader} {start : Position} {turns : Nat} {items : List Datum}
  {t u : Datum} {space x y k : List Char}

/-- A turn that reads one element of a list. -/
theorem reads_element (hspace : isAtmosphere space = true)
    (hbegins : ∃ c rest, x = c :: rest ∧ Begins c (rest ++ y).head?)
    (hr : r.cursor.rest = space ++ (x ++ y))
    (hread : ∀ r₁, r₁.cursor.rest = x ++ y → Reads read r₁ t y)
    (hrest : ∀ r₂ item, r₂.cursor.rest = y → item.unmarked = t →
      Reads (readListFrom read start turns (item :: items)) r₂ u k) :
    Reads (readListFrom read start (turns + 1) items) r u k := by
  obtain ⟨c, rest, rfl, hblank, hcomment, hclose, hdot⟩ := hbegins
  have hskip : r.skipped.cursor.rest = c :: (rest ++ y) := rest_skipped hspace hblank hcomment hr
  obtain ⟨item, r₂, hitem, ht, hr₂⟩ := hread r.skipped hskip
  unfold Reads
  rw [readListFrom_item hskip hclose hdot, bind_of_ok hitem]
  exact hrest r₂ item hr₂ ht

/-- The turn that ends a list. -/
theorem reads_close (hspace : isAtmosphere space = true)
    (hr : r.cursor.rest = space ++ ([')'] ++ k)) :
    Reads (readListFrom read start (turns + 1) items) r (unread items (empty ⟨0, none⟩)) k := by
  have hskip : r.skipped.cursor.rest = ')' :: k := rest_skipped hspace rfl (by decide) hr
  unfold Reads
  rw [readListFrom_close hskip]
  split
  next hempty =>
    rw [List.isEmpty_iff] at hempty
    subst hempty
    exact reads_finish _ (fun m => by rw [unmarked]; rfl) (rest_passed hskip)
  next => exact reads_finishList _ (unmarked_properList items) (rest_passed hskip)

/-- What stands behind a dot is the tail, and ends the list. -/
theorem reads_tail {last : List Char} (hspace : isAtmosphere space = true)
    (hlast : isAtmosphere last = true)
    (hopens : ∃ c rest, x = c :: rest ∧ Opens c)
    (hr : r.cursor.rest = space ++ (x ++ (last ++ ([')'] ++ k))))
    (hread : ∀ r₁, r₁.cursor.rest = x ++ (last ++ ([')'] ++ k)) →
      Reads read r₁ t (last ++ ([')'] ++ k))) :
    Reads (readTail read start items) r (unread items t) k := by
  obtain ⟨c, rest, rfl, hblank, hcomment, -⟩ := hopens
  have hskip : r.skipped.cursor.rest = c :: (rest ++ (last ++ ([')'] ++ k))) :=
    rest_skipped hspace hblank hcomment hr
  obtain ⟨tail, r₂, hitem, ht, hr₂⟩ := hread _ hskip
  have hend : r₂.skipped.cursor.rest = ')' :: k := rest_skipped hlast rfl (by decide) hr₂
  unfold Reads
  rw [readTail_close (by rw [hskip]; exact List.cons_ne_nil _ _) hitem hend]
  refine reads_finishList _ (fun last => ?_) (rest_passed hend)
  rw [unmarked_chain, ht]

/-- A turn that reads one element of a vector. -/
theorem reads_vectorElement (hspace : isAtmosphere space = true)
    (hopens : ∃ c rest, x = c :: rest ∧ Opens c)
    (hr : r.cursor.rest = space ++ (x ++ y))
    (hread : ∀ r₁, r₁.cursor.rest = x ++ y → Reads read r₁ t y)
    (hrest : ∀ r₂ item, r₂.cursor.rest = y → item.unmarked = t →
      Reads (readVectorFrom read start turns (item :: items)) r₂ u k) :
    Reads (readVectorFrom read start (turns + 1) items) r u k := by
  obtain ⟨c, rest, rfl, hblank, hcomment, hclose⟩ := hopens
  have hskip : r.skipped.cursor.rest = c :: (rest ++ y) := rest_skipped hspace hblank hcomment hr
  obtain ⟨item, r₂, hitem, ht, hr₂⟩ := hread r.skipped hskip
  unfold Reads
  rw [readVectorFrom_item hskip hclose, bind_of_ok hitem]
  exact hrest r₂ item hr₂ ht

/-- The turn that ends a vector. -/
theorem reads_vectorClose (hspace : isAtmosphere space = true)
    (hr : r.cursor.rest = space ++ ([')'] ++ k)) :
    Reads (readVectorFrom read start (turns + 1) items) r
      (vector ⟨0, none⟩ (items.reverse.map unmarked)) k := by
  have hskip : r.skipped.cursor.rest = ')' :: k := rest_skipped hspace rfl (by decide) hr
  unfold Reads
  rw [readVectorFrom_close hskip]
  exact reads_finish _ (fun m => by rw [unmarked, unmarkedAll_eq_map]) (rest_passed hskip)

end Lists

/-! ## Data -/

section Forms

variable {read : Read Datum} {r : Reader} {t : Datum} {rest k : List Char}

theorem reads_list (hr : r.cursor.rest = '(' :: rest)
    (h : Reads (readListFrom read r.cursor.position (rest.length + 1) []) r.passed t k) :
    Reads (readFormWith (some read)) r t k := by
  unfold Reads
  rw [readFormWith_list hr, nested, readList, get_bind, rest_passed hr]
  exact h

theorem reads_vector (hr : r.cursor.rest = '#' :: '(' :: rest)
    (h : Reads (readVectorFrom read r.cursor.position (rest.length + 1) []) r.passed.passed t k) :
    Reads (readFormWith (some read)) r t k := by
  unfold Reads
  rw [readFormWith_vector hr, nested, readVector, get_bind, rest_passed (rest_passed hr)]
  exact h

/-- A quotation is a list of two elements. -/
theorem reads_quote {x : List Char} (hopens : ∃ c rest, x = c :: rest ∧ Opens c)
    (hr : r.cursor.rest = '\'' :: (x ++ k))
    (hread : ∀ r₁, r₁.cursor.rest = x ++ k → Reads read r₁ t k) :
    Reads (readFormWith (some read)) r
      (pair ⟨0, none⟩ (symbol ⟨0, none⟩ "quote") (pair ⟨0, none⟩ t (empty ⟨0, none⟩))) k := by
  obtain ⟨c, rest, rfl, hblank, hcomment, -⟩ := hopens
  have hpassed : r.passed.cursor.rest = [] ++ c :: (rest ++ k) := rest_passed hr
  have hskip := rest_skipped rfl hblank hcomment hpassed
  obtain ⟨quoted, r₂, hquoted, rfl, hr₂⟩ := hread _ hskip
  have hmore : r.passed.skipped.cursor.rest ≠ [] := by simp [hskip]
  unfold Reads
  rw [readFormWith_quote hr, nested, readQuote_more hmore, bind_of_ok hquoted]
  refine reads_finishList _ (fun last => ?_) hr₂
  refine (unmarked_properList [quoted, .symbol ⟨last + 1, none⟩ "quote"] _).trans ?_
  simp [unread, unmarked]

end Forms

mutual

/-- A datum on its own reads back. -/
theorem readForm_legible : ∀ {d : Datum} {x : List Char}, d.Layout x →
    ∀ {room : Nat} {k : List Char} {r : Reader}, (∀ s ∈ d.preorder, s.Legible ∧ s.Dotless) →
      d.nestingAs .alone ≤ room → endsToken k.head? = true → r.cursor.rest = x ++ k →
      Reads (readForm room) r d.unmarked k
  | _, _, .symbol m name, room, k, r, hleaves, _, hk, hr => by
      have hname := (hleaves _ (mem_preorder_self _)).1
      cases room <;> exact reads_symbol _ m hname hk hr
  | _, _, .literal m value, room, k, r, hleaves, _, hk, hr => by
      have hleaf := (hleaves _ (mem_preorder_self _)).1
      have hread : ∀ inner, Reads (readFormWith inner) r (literal ⟨0, none⟩ value) k := by
        intro inner
        cases value with
        | number n => exact reads_number inner (numeral_of_legible hleaf) hk hr
        | string s => exact reads_string inner s hr
        | boolean b => exact reads_boolean inner b hr
      rw [unmarked]
      cases room <;> exact hread _
  | _, _, .empty m gap hgap, room, k, r, _, hroom, _, hr => by
      rw [nestingAs] at hroom
      obtain ⟨room, rfl⟩ := Nat.exists_eq_add_of_le' hroom
      rw [unmarked]
      exact reads_list hr (reads_close hgap ((rest_passed hr).trans (List.append_assoc _ _ _)))
  | _, _, @Layout.pair m gap a d x y hgap ha hd, room, k, r, hleaves, hroom, _, hr => by
      obtain ⟨hleavesa, hleavesd⟩ := forall_preorder_pair hleaves
      have hdot : ∀ name, a.symbolName? = some name → isDotName name.toList = false :=
        (hleaves _ (mem_preorder_self _)).2
      have hpos := ha.length_pos (hleavesa _ (mem_preorder_self _)).1
      rw [nestingAs] at hroom
      obtain ⟨room, rfl⟩ := Nat.exists_eq_add_of_le' (Nat.le_of_add_right_le hroom)
      have hrest : r.cursor.rest = '(' :: (gap ++ (x ++ (y ++ k))) := by simpa using hr
      have hread : ∀ r₁ : Reader, r₁.cursor.rest = x ++ (y ++ k) →
          Reads (readForm room) r₁ a.unmarked (y ++ k) :=
        fun r₁ hr₁ => readForm_legible ha hleavesa (by omega) (hd.endsToken k) hr₁
      refine reads_list hrest (reads_element hgap
        (ha.begins_of_legible (hleavesa _ (mem_preorder_self _)).1 hdot _) (rest_passed hrest) hread ?_)
      intro r₂ item hr₂ hitem
      rw [unmarked, ← hitem]
      refine readListFrom_legible hd _ (List.cons_ne_nil item []) hleavesd (by omega) hr₂ ?_
      simp only [List.length_append]
      omega
  | _, _, @Layout.quote m m₁ m₂ m₃ d x hd, room, k, r, hleaves, hroom, hk, hr => by
      obtain ⟨-, hrest⟩ := forall_preorder_pair hleaves
      obtain ⟨hleavesd, -⟩ := forall_preorder_pair hrest
      simp only [nestingAs] at hroom
      obtain ⟨room, rfl⟩ := Nat.exists_eq_add_of_le' (Nat.le_of_add_right_le hroom)
      simp only [unmarked]
      refine reads_quote (hd.opens (hleavesd _ (mem_preorder_self _)).1) hr ?_
      intro r₁ hr₁
      exact readForm_legible hd hleavesd (by omega) hk hr₁
  | _, _, .emptyVector m gap hgap, room, k, r, _, hroom, _, hr => by
      rw [nestingAs] at hroom
      obtain ⟨room, rfl⟩ := Nat.exists_eq_add_of_le' (Nat.le_of_add_right_le hroom)
      rw [unmarked, unmarkedAll]
      exact reads_vector hr (reads_vectorClose hgap
        ((rest_passed (rest_passed hr)).trans (List.append_assoc _ _ _)))
  | _, _, @Layout.vector m gap item items x y hgap hitem hitems, room, k, r, hleaves, hroom, _,
      hr => by
      obtain ⟨hleavesx, hleavesy⟩ := forall_preorderAll_cons (forall_preorder_vector hleaves)
      have hpos := hitem.length_pos (hleavesx _ (mem_preorder_self _)).1
      rw [nestingAs, nestingAll] at hroom
      obtain ⟨room, rfl⟩ := Nat.exists_eq_add_of_le' (Nat.le_of_add_right_le hroom)
      have hrest : r.cursor.rest = '#' :: '(' :: (gap ++ (x ++ (y ++ k))) := by simpa using hr
      have hread : ∀ r₁ : Reader, r₁.cursor.rest = x ++ (y ++ k) →
          Reads (readForm room) r₁ item.unmarked (y ++ k) :=
        fun r₁ hr₁ => readForm_legible hitem hleavesx (by omega) (hitems.endsToken k) hr₁
      refine reads_vector hrest (reads_vectorElement hgap
        (hitem.opens (hleavesx _ (mem_preorder_self _)).1) (rest_passed (rest_passed hrest))
        hread ?_)
      intro r₂ first hr₂ hfirst
      rw [unmarked, unmarkedAll, ← hfirst]
      refine readVectorFrom_legible hitems _ hleavesy (by omega) hr₂ ?_
      simp only [List.length_append]
      omega

/-- The tail of a list reads back behind the elements that are there. -/
theorem readListFrom_legible : ∀ {d : Datum} {y : List Char}, d.TailLayout y →
    ∀ {room turns : Nat} {k : List Char} {r : Reader} (start : Position) {items : List Datum},
      items ≠ [] → (∀ s ∈ d.preorder, s.Legible ∧ s.Dotless) → d.nestingAs .tail ≤ room →
      r.cursor.rest = y ++ k → (y ++ k).length < turns →
      Reads (readListFrom (readForm room) start turns items) r (unread items d.unmarked) k
  | _, _, .empty m space hspace, room, turns, k, r, start, items, _, _, _, hr, hturns => by
      obtain ⟨turns, rfl⟩ := Nat.exists_eq_add_of_le' (Nat.zero_lt_of_lt hturns)
      rw [unmarked]
      exact reads_close (isAtmosphere_of_space hspace) (hr.trans (List.append_assoc _ _ _))
  | _, _, @TailLayout.pair m space a d x y hspace ha hd, room, turns, k, r, start, items, _,
      hleaves, hroom, hr, hturns => by
      obtain ⟨hleavesa, hleavesd⟩ := forall_preorder_pair hleaves
      have hdot : ∀ name, a.symbolName? = some name → isDotName name.toList = false :=
        (hleaves _ (mem_preorder_self _)).2
      have hpos := ha.length_pos (hleavesa _ (mem_preorder_self _)).1
      rw [nestingAs] at hroom
      obtain ⟨turns, rfl⟩ := Nat.exists_eq_add_of_le' (Nat.zero_lt_of_lt hturns)
      have hrest : r.cursor.rest = space ++ (x ++ (y ++ k)) := by simpa using hr
      have hread : ∀ r₁ : Reader, r₁.cursor.rest = x ++ (y ++ k) →
          Reads (readForm room) r₁ a.unmarked (y ++ k) :=
        fun r₁ hr₁ => readForm_legible ha hleavesa (by omega) (hd.endsToken k) hr₁
      refine reads_element (isAtmosphere_of_isSeparator hspace)
        (ha.begins_of_legible (hleavesa _ (mem_preorder_self _)).1 hdot _) hrest hread ?_
      intro r₂ item hr₂ hitem
      rw [unmarked, ← hitem]
      refine readListFrom_legible hd _ (List.cons_ne_nil item items) hleavesd (by omega) hr₂ ?_
      simp only [List.length_append] at hturns ⊢
      omega
  | _, _, @TailLayout.dotted d hatom before after last x hbefore hafter hlast hd, room, turns, k, r,
      start, items, hne, hleaves, hroom, hr, hturns => by
      obtain ⟨turns, rfl⟩ := Nat.exists_eq_add_of_le' (Nat.zero_lt_of_lt hturns)
      have hrest : r.cursor.rest = before ++ '.' :: (after ++ (x ++ (last ++ ([')'] ++ k)))) := by
        simpa using hr
      have hdot : endsDot (after ++ (x ++ (last ++ ([')'] ++ k)))).head? = true := by
        obtain ⟨c, rest, rfl, hc, -⟩ := isSeparator_iff.mp hafter
        simp [endsDot, endsToken, isDelimiter, hc]
      have hskip := rest_skipped (isAtmosphere_of_isSeparator hbefore) rfl (by decide) hrest
      rw [nestingAs_atom hatom] at hroom
      unfold Reads
      rw [readListFrom_dot hskip hdot, if_neg (by simpa using hne)]
      refine reads_tail (isAtmosphere_of_isSeparator hafter) (isAtmosphere_of_space hlast)
        (hd.opens (hleaves _ (mem_preorder_self _)).1) (rest_passed hskip) ?_
      intro r₁ hr₁
      refine readForm_legible hd hleaves hroom ?_ hr₁
      rw [← List.append_assoc]
      exact endsToken_space hlast k

/-- The elements of a vector read back behind those that are there. -/
theorem readVectorFrom_legible : ∀ {ds : List Datum} {y : List Char}, ItemsLayout ds y →
    ∀ {room turns : Nat} {k : List Char} {r : Reader} (start : Position) {items : List Datum},
      (∀ s ∈ preorderAll ds, s.Legible ∧ s.Dotless) → nestingAll ds ≤ room →
      r.cursor.rest = y ++ k → (y ++ k).length < turns →
      Reads (readVectorFrom (readForm room) start turns items) r
        (vector ⟨0, none⟩ (items.reverse.map unmarked ++ unmarkedAll ds)) k
  | _, _, .nil space hspace, room, turns, k, r, start, items, _, _, hr, hturns => by
      obtain ⟨turns, rfl⟩ := Nat.exists_eq_add_of_le' (Nat.zero_lt_of_lt hturns)
      rw [unmarkedAll, List.append_nil]
      exact reads_vectorClose (isAtmosphere_of_space hspace) (hr.trans (List.append_assoc _ _ _))
  | _, _, @ItemsLayout.cons space item ds x y hspace hitem hitems, room, turns, k, r, start, items,
      hleaves, hroom, hr, hturns => by
      obtain ⟨hleavesx, hleavesy⟩ := forall_preorderAll_cons hleaves
      have hpos := hitem.length_pos (hleavesx _ (mem_preorder_self _)).1
      rw [nestingAll] at hroom
      obtain ⟨turns, rfl⟩ := Nat.exists_eq_add_of_le' (Nat.zero_lt_of_lt hturns)
      have hrest : r.cursor.rest = space ++ (x ++ (y ++ k)) := by simpa using hr
      have hread : ∀ r₁ : Reader, r₁.cursor.rest = x ++ (y ++ k) →
          Reads (readForm room) r₁ item.unmarked (y ++ k) :=
        fun r₁ hr₁ => readForm_legible hitem hleavesx (by omega) (hitems.endsToken k) hr₁
      refine reads_vectorElement (isAtmosphere_of_isSeparator hspace)
        (hitem.opens (hleavesx _ (mem_preorder_self _)).1) hrest hread ?_
      intro r₂ first hr₂ hfirst
      have hitems' : items.reverse.map unmarked ++ unmarkedAll (item :: ds) =
          (first :: items).reverse.map unmarked ++ unmarkedAll ds := by
        simp [unmarkedAll, hfirst]
      rw [hitems']
      refine readVectorFrom_legible hitems start hleavesy (by omega) hr₂ ?_
      simp only [List.length_append] at hturns ⊢
      omega

end

/-- A datum whose names are all readable reads back. -/
theorem readForm_layout {d : Datum} {x : List Char} (h : d.Layout x) {room : Nat} {k : List Char}
    {r : Reader} (hleaves : ∀ s ∈ d.preorder, s.Readable) (hroom : d.nestingAs .alone ≤ room)
    (hk : endsToken k.head? = true) (hr : r.cursor.rest = x ++ k) :
    Reads (readForm room) r d.unmarked k := by
  refine readForm_legible h (fun s hs => ⟨(hleaves s hs).legible, ?_⟩) hroom hk hr
  cases s with
  | pair m a b =>
      intro name hname
      exact (hleaves a (mem_preorder_trans d _ hs a (mem_preorder_car m a b))).not_dot hname
  | _ => trivial

/-! ## Texts -/

theorem nextForm_of_reads {r : Reader} {c : Char} {rest k : List Char} {t : Datum}
    (hskip : r.skipped.cursor.rest = c :: rest) (h : Reads (readForm maxNesting) r.skipped t k) :
    ∃ d r', nextForm r = .ok (some d) r' ∧ d.unmarked = t ∧ r'.cursor.rest = k := by
  obtain ⟨d, r', hd, ht, hr'⟩ := h
  refine ⟨d, r', ?_, ht, hr'⟩
  rw [nextForm, skipAtmosphere_bind, peek_bind, hskip, if_neg (by simp), bind_of_ok hd]
  rfl

theorem takeForms_end {r : Reader} (hr : r.cursor.rest = []) (turns : Nat) :
    takeForms turns r = ([], none) := by
  have hskip : r.skipped.cursor.rest = [] := by
    simp only [skipped, Cursor.skipAtmosphere, hr]
    rfl
  have hnext : nextForm r = .ok none r.skipped := by
    rw [nextForm, skipAtmosphere_bind, peek_bind, hskip]
    rfl
  have hnext? : (r.next?).1 = none := by
    unfold next?
    split
    · rfl
    · rw [hnext]
  cases turns with
  | zero => rfl
  | succ turns =>
      unfold takeForms
      cases hr? : r.next? with
      | mk next r' =>
          rw [hr?] at hnext?
          cases hnext?
          rfl

end Reader

namespace Datum

open Reader

/-- A text of one datum that reads back. -/
theorem parse_of_opens {text : List Char} {t : Datum}
    (hopens : ∃ c rest, text = c :: rest ∧ Opens c)
    (h : ∀ r : Reader, r.cursor.rest = text → Reads (readForm maxNesting) r t []) :
    ∃ d, parse (String.ofList text) = .ok [d] ∧ d.unmarked = t := by
  obtain ⟨c, rest, rfl, hblank, hcomment, -⟩ := hopens
  have htext : (Reader.ofText (String.ofList (c :: rest))).cursor.rest = [] ++ c :: rest :=
    String.toList_ofList
  have hskip := rest_skipped rfl hblank hcomment htext
  obtain ⟨d, r', hnext, ht, hr'⟩ := nextForm_of_reads hskip (h _ hskip)
  have hnext? : (Reader.ofText (String.ofList (c :: rest))).next? = (some (.ok d), r') := by
    rw [Reader.next?, if_neg (by simp [Reader.ofText]), hnext]
  refine ⟨d, ?_, ht⟩
  rw [parse, readAll, takeForms, hnext?]
  simp only [takeForms_end hr']

theorem parse_of_reads {text : List Char} {t : Datum}
    (hbegins : ∃ c rest, text = c :: rest ∧ Begins c (rest ++ []).head?)
    (h : ∀ r : Reader, r.cursor.rest = text → Reads (readForm maxNesting) r t []) :
    ∃ d, parse (String.ofList text) = .ok [d] ∧ d.unmarked = t := by
  obtain ⟨c, rest, htext, hblank, hcomment, hclose, -⟩ := hbegins
  exact parse_of_opens ⟨c, rest, htext, hblank, hcomment, hclose⟩ h

/-- Every layout of a datum, its text among them, reads back as one datum, which is the same up to
marks.  The names of symbols must be readable, the reals finite, and the nesting not too deep for the
reader. -/
theorem layouts_read_back {t : Datum}
    (hnames : ∀ s ∈ t.preorder, ∀ name, s.symbolName? = some name →
      isReadableName name.toList = true)
    (hfinite : ∀ s ∈ t.preorder, ∀ x, s.real? = some x → x.isFinite = true)
    (hnesting : t.nesting ≤ maxNesting) :
    t.Layout t.text.toList ∧ ∀ text, t.Layout text →
      ∃ d, parse (String.ofList text) = .ok [d] ∧ d.unmarked = t.unmarked ∧ t.same d = true := by
  have hleaves : ∀ s ∈ t.preorder, s.Readable := by
    intro s hs
    cases s with
    | symbol m name => exact hnames _ hs name rfl
    | literal m value =>
        cases value with
        | number n =>
            cases n with
            | int n => trivial
            | real x =>
                have hx := hfinite _ hs x rfl
                exact ⟨hx, Number.display.float?_render hx⟩
        | string s => trivial
        | boolean b => trivial
    | _ => trivial
  refine ⟨layout_text t, ?_⟩
  intro text htext
  have hread : ∀ r : Reader, r.cursor.rest = text →
      Reads (readForm maxNesting) r t.unmarked [] := by
    intro r hr
    exact readForm_layout htext hleaves hnesting rfl (hr.trans (List.append_nil text).symm)
  obtain ⟨d, hparse, hd⟩ :=
    parse_of_reads (htext.begins (hleaves _ (mem_preorder_self t)) []) hread
  exact ⟨d, hparse, hd, same_of_unmarked_eq t d hd hfinite⟩

/-- A vector behind the dot of a list, with a comment before the dot, a real and a quotation. -/
theorem commented_list_reads_back :
    ∃ d, parse "( a ; note\n . #( 0.5\t'b ) )" = .ok [d] ∧
      (pair ⟨0, none⟩ (symbol ⟨0, none⟩ "a") (vector ⟨0, none⟩
        [literal ⟨0, none⟩ (.number (.real 0.5)),
          pair ⟨0, none⟩ (symbol ⟨0, none⟩ "quote")
            (pair ⟨0, none⟩ (symbol ⟨0, none⟩ "b") (empty ⟨0, none⟩))])).same d = true := by
  generalize ht : pair ⟨0, none⟩ (symbol ⟨0, none⟩ "a") (vector ⟨0, none⟩
    [literal ⟨0, none⟩ (.number (.real 0.5)),
      pair ⟨0, none⟩ (symbol ⟨0, none⟩ "quote")
        (pair ⟨0, none⟩ (symbol ⟨0, none⟩ "b") (empty ⟨0, none⟩))]) = t
  have hnames : (t.preorder.all fun s =>
      s.symbolName?.all fun name => isReadableName name.toList) = true := by
    subst ht
    decide +kernel
  have hfinite : (t.preorder.all fun s => s.real?.all Float.isFinite) = true := by
    subst ht
    decide +kernel
  have hlayout : t.Layout "( a ; note\n . #( 0.5\t'b ) )".toList := by
    have hitems := ItemsLayout.cons ['\t'] rfl (.quote ⟨0, none⟩ ⟨0, none⟩ ⟨0, none⟩ ⟨0, none⟩
      (.symbol ⟨0, none⟩ "b")) (.nil [' '] (Or.inr rfl))
    have hvector := Layout.vector ⟨0, none⟩ [' '] rfl
      (.literal ⟨0, none⟩ (.number (.real 0.5))) hitems
    have hlist := Layout.pair ⟨0, none⟩ [' '] rfl (.symbol ⟨0, none⟩ "a")
      (.dotted rfl " ; note\n ".toList [' '] [' '] (by decide) rfl (Or.inr rfl) hvector)
    have hhalf : (Literal.number (.real 0.5)).text.toList = ['0', '.', '5'] := by decide +kernel
    rw [hhalf, ht] at hlist
    exact hlist
  obtain ⟨-, hreads⟩ := layouts_read_back (t := t)
    (fun s hs name hname => by
      have hreadable := List.all_eq_true.mp hnames s hs
      rw [hname] at hreadable
      exact hreadable)
    (fun s hs x hx => by
      have hreal := List.all_eq_true.mp hfinite s hs
      rw [hx] at hreal
      exact hreal)
    (by subst ht; decide +kernel)
  obtain ⟨d, hparse, -, hsame⟩ := hreads _ hlayout
  rw [String.ofList_toList] at hparse
  exact ⟨d, hparse, hsame⟩

end Datum
end SchemeMachine
