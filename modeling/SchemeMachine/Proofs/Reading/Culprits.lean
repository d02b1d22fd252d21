import SchemeMachine.Proofs.Reading.Failures
import SchemeMachine.Proofs.Reading.Spans

/-!
# Errors point at the culprit

Every error names the place of a character that explains it: the quotation mark of a string that
does not end, the bracket of a list or a vector that does not, the parenthesis or the dot that has no
business there, the first character of a token that is no number.  Where a bracket is blamed, what
stands behind it is read without an error, so it is the innermost one that is left open.  Where a
closing parenthesis is missed, it is missed behind the tail of a list that the reader has read on its
way, and behind all blanks and comments that follow the tail; with it the list would have been whole.
A text has one such place at most.

What is read inside a bracket is read alike outside of it, with two differences.  There is more room
for nesting, and a dot is a symbol.  Neither makes a row of elements fail.
-/

namespace SchemeMachine

open Text

/-- The place that an error names. -/
def SyntaxError.place : SyntaxError → Position
  | unterminatedString p | unterminatedList p | unterminatedVector p => p
  | unexpectedClose p | unexpectedDot p | expectedClose p | unexpectedEnd p => p
  | unsupportedRational _ p | invalidNumber _ p | illegalHash _ p | nestingTooDeep _ p => p

/-! ## The way through a text -/

namespace Reader

/-- On its way through a text the reader asks there for a datum, in which `room` levels may be
nested: for one of the text, or for a part of one that it reads. -/
inductive Asks (source : String) : Nat → Reader → Prop
  | form {r : Reader} {items : List Datum}
      (row : Elements true maxNesting (ofText source) items r)
      (more : r.skipped.cursor.rest ≠ []) : Asks source maxNesting r.skipped
  | part {room : Nat} {r r' : Reader} (asked : Asks source (room + 1) r)
      (enters : Enters room r r') : Asks source room r'

/-- On its way through a text the reader has read a list up to the end of the tail behind the dot.
The characters of the text are those before the list, those between its parenthesis and the dot,
those between the dot and the tail, those of the tail, the blanks and comments behind it, and what
comes after these. -/
inductive TailRead (source : String) (outer elements gap tail space after : List Char) : Prop
  | intro {room : Nat} {r r₁ r₂ : Reader} {items : List Datum} {x : Datum} {text rest : List Char}
      (asked : Asks source (room + 1) r) (ahead : Passes outer (ofText source) r)
      (opens : r.cursor.rest = '(' :: text) (row : Elements false room r.passed items r₁)
      (some : items ≠ []) (toDot : Passes elements r.passed r₁.skipped)
      (next : r₁.skipped.cursor.rest = '.' :: rest) (dot : endsDot rest.head? = true)
      (toTail : Passes gap r₁.skipped.passed r₁.skipped.passed.skipped)
      (read : readForm room r₁.skipped.passed.skipped = .ok x r₂)
      (pastTail : Passes tail r₁.skipped.passed.skipped r₂)
      (blank : Passes space r₂ r₂.skipped) (follows : r₂.skipped.cursor.rest = after)

end Reader

/-! ## Culprits -/

namespace Datum

/-- The text begins with that token, up to the next delimiter, and the token with a digit or a minus
sign. -/
def BeginsNumeral (token : String) (text : List Char) : Prop :=
  ∃ c more rest, text = c :: (more ++ rest) ∧ token = String.ofList (c :: more) ∧
    (c = '-' ∨ c.isDigit = true) ∧ (∀ ch ∈ more, isDelimiter ch = false) ∧
    endsToken rest.head? = true

/-- Elements, a dot with a gap behind it and a tail, which make a list between parentheses. -/
def MakesDotted (elements gap tail : List Char) : Prop :=
  ∃ items t d, parse (String.ofList elements) = .ok items ∧ items ≠ [] ∧
    parse (String.ofList gap) = .ok [] ∧ parse (String.ofList tail) = .ok [t] ∧
    parse (String.ofList ('(' :: (elements ++ '.' :: (gap ++ (tail ++ [')']))))) = .ok [d] ∧
    d.unmarked = (chain items t 0).1.unmarked

/-- What an error blames, by the text before the place that it names and the text from there on. -/
inductive Culprit : List Char → List Char → SyntaxError → Prop
  | string {before rest : List Char} {p : Position} :
      Culprit before ('"' :: rest) (.unterminatedString p)
  | list {before rest : List Char} {ds : List Datum} {p : Position}
      (behind : parse (String.ofList rest) = .ok ds) :
      Culprit before ('(' :: rest) (.unterminatedList p)
  | vector {before rest : List Char} {ds : List Datum} {p : Position}
      (behind : parse (String.ofList rest) = .ok ds) :
      Culprit before ('#' :: '(' :: rest) (.unterminatedVector p)
  | close {before rest : List Char} {p : Position} :
      Culprit before (')' :: rest) (.unexpectedClose p)
  | dot {before rest : List Char} {p : Position} : Culprit before ('.' :: rest) (.unexpectedDot p)
  | quote {before rest : List Char} {p : Position} :
      Culprit before ('\'' :: rest) (.unexpectedEnd p)
  | hash {before rest : List Char} {p : Position} :
      Culprit before ('#' :: rest) (.illegalHash (String.ofList ('#' :: rest.take 1)) p)
  | deep {before rest : List Char} {c : Char} {p : Position} (opens : c ∈ ['(', '\'', '#']) :
      Culprit before (c :: rest) (.nestingTooDeep maxNesting p)
  | rational {before after : List Char} {token : String} {p : Position}
      (begins : BeginsNumeral token after) : Culprit before after (.unsupportedRational token p)
  | number {before after : List Char} {token : String} {p : Position}
      (begins : BeginsNumeral token after) : Culprit before after (.invalidNumber token p)
  | tail {before after outer elements gap tail space : List Char} {p : Position}
      (texts : before = outer ++ '(' :: (elements ++ '.' :: (gap ++ (tail ++ space))))
      (read : Reader.TailRead (String.ofList (before ++ after)) outer elements gap tail space after)
      (list : MakesDotted elements gap tail) (blank : parse (String.ofList space) = .ok [])
      (next : ∀ c rest, after = c :: rest → c ≠ ')' ∧ isBlank c = false ∧ c ≠ ';') :
      Culprit before after (.expectedClose p)

end Datum

namespace Reader

open Datum

/-! ## Blanks -/

section Blanks

variable {r q : Reader} {space k : List Char}

/-- What is skipped is skipped to its end when it stands alone, even if a comment in it is left
open. -/
theorem skipFrom_alone {commented : Bool} {p : Position}
    (h : (Cursor.skipFrom commented (space ++ k) p).rest = k) (p' : Position) :
    (Cursor.skipFrom commented space p').rest = [] := by
  induction space generalizing commented p p' with
  | nil => cases commented <;> rfl
  | cons c space ih =>
      cases commented with
      | true => exact ih h _
      | false =>
          rw [List.cons_append, Cursor.skipFrom] at h
          rw [Cursor.skipFrom]
          by_cases hblank : isBlank c = true
          · rw [if_pos hblank] at h ⊢
            exact ih h _
          · rw [if_neg hblank] at h ⊢
            by_cases hcomment : c = ';'
            · rw [if_pos hcomment] at h ⊢
              exact ih h _
            · rw [if_neg hcomment] at h
              have hlength := congrArg List.length h
              simp only [List.length_cons, List.length_append] at hlength
              omega

theorem Passes.skipped_alone (h : Passes space r r.skipped) (hq : q.cursor.rest = space) :
    q.skipped.cursor.rest = [] := by
  have hskip : (Cursor.skipFrom false r.cursor.rest r.cursor.position).rest =
      r.skipped.cursor.rest := rfl
  rw [h.rest] at hskip
  show (Cursor.skipFrom false q.cursor.rest q.cursor.position).rest = []
  rw [hq]
  exact skipFrom_alone hskip _

/-- The blanks and comments before a character are passed wherever they stand before it. -/
theorem Passes.skipped_before {c : Char} {rest : List Char} (h : Passes space r r.skipped)
    (hnext : r.skipped.cursor.rest = c :: rest) (hq : q.cursor.rest = space ++ c :: k) :
    q.skipped.cursor.rest = c :: k := by
  obtain ⟨space', hspace', hskip⟩ := skipped_elsewhere hnext
  have hsame : space' = space := List.append_cancel_right (hspace'.rest.symm.trans h.rest)
  subst hsame
  exact hskip q k hq

theorem skipped_end_elsewhere (hq : q.cursor.rest = r.cursor.rest)
    (hend : r.skipped.cursor.rest = []) : q.skipped.cursor.rest = [] := by
  obtain ⟨space, hpasses⟩ := passes_skipped r
  have hrest := hpasses.rest
  rw [hend, List.append_nil] at hrest
  exact hpasses.skipped_alone (hq.trans hrest)

theorem Passes.parse_skipped (h : Passes space r r.skipped) :
    parse (String.ofList space) = .ok [] := by
  have hend := h.skipped_alone (q := ofText (String.ofList space)) String.toList_ofList
  exact parse_eq_ok_iff.mpr ⟨_, .done hend⟩

end Blanks

/-! ## Rows of elements -/

theorem Yields.ne_close {room : Nat} {r r' : Reader} {d : Datum} {c : Char} {rest : List Char}
    (h : Yields room .form r d r') (hr : r.cursor.rest = c :: rest) : c ≠ ')' := by
  rintro rfl
  have hread : readForm room r = .ok d r' := h.reads
  cases room with
  | zero =>
      rw [readForm, readFormWith_close hr] at hread
      cases hread
  | succ room =>
      rw [readForm, readFormWith_close hr] at hread
      cases hread

/-- From every reader that has these characters before it, a row of elements like `items` is read,
if what comes behind begins like what comes behind `r`.  Where a dot is an element, it is enough that
what comes behind ends every token. -/
def RowAlike (dots : Bool) (room : Nat) (text : List Char) (items : List Datum) (r : Reader) :
    Prop :=
  ∀ (dots' : Bool) (room' : Nat) (q : Reader) (k : List Char), (dots' = false → dots = false) →
    room ≤ room' → q.cursor.rest = text ++ k →
    (k.head? = r.cursor.rest.head? ∨ dots' = true ∧ endsToken k.head? = true) →
    ∃ items' r', Elements dots' room' q items' r' ∧ items'.map unmarked = items.map unmarked ∧
      r'.cursor.rest = k

namespace Elements

variable {dots : Bool} {room : Nat} {q r r' : Reader} {items : List Datum} {d : Datum}

theorem onward (h : Elements dots room q items r) : q.Onward r := by
  induction h with
  | none => exact .refl q
  | more _ _ _ item ih => exact ih.trans ((onward_skipped _).trans item.onward)

/-- Where a dot is an element, other elements may stand too. -/
theorem withDots (h : Elements dots room q items r) : Elements true room q items r := by
  induction h with
  | none => exact .none
  | more _ next _ item ih => exact .more ih next Bool.noConfusion item

/-- A row of elements is read alike wherever it stands. -/
theorem elsewhere (h : Elements dots room q items r) :
    ∃ text, Passes text q r ∧ RowAlike dots room text items r := by
  induction h with
  | none => exact ⟨[], .refl q, fun dots' room' q' k _ _ hq' _ => ⟨[], q', .none, rfl, hq'⟩⟩
  | @more r r₁ items x c rest _ next dot item ih =>
      obtain ⟨text, hpasses, halike⟩ := ih
      obtain ⟨text₁, hpasses₁, halike₁⟩ := element_elsewhere next item item.elsewhere
      have hlt : r₁.cursor.rest.length < r.cursor.rest.length :=
        Nat.lt_of_lt_of_le item.consumes (length_skipped_le r)
      refine ⟨_, hpasses.trans hpasses₁, fun dots' room' q' k hdots hroom hq' hk => ?_⟩
      rw [List.append_assoc] at hq'
      obtain ⟨items', r', hrow, hitems, hr'⟩ := halike dots' room' q' (text₁ ++ k) hdots hroom hq'
        (.inl (hpasses₁.head?_elsewhere hlt k))
      obtain ⟨rest', x', r₁', hnext, hfirst, hx, hx', hr₁'⟩ := halike₁ room' r' k hroom hr'
        (hk.imp_right And.right)
      refine ⟨x' :: items', r₁', hrow.more hnext ?_ hx, ?_, hr₁'⟩
      · -- In a list, what comes behind begins as it does here.
        intro hlist
        have hbehind : k.head? = r₁.cursor.rest.head? := by
          rcases hk with hk | ⟨hk, -⟩
          · exact hk
          · rw [hlist] at hk
            cases hk
        rw [hfirst hbehind]
        exact dot (hdots hlist)
      · rw [List.map_cons, List.map_cons, hx', hitems]

theorem yieldsAll {ds : List Datum} (h : Elements true maxNesting q items r)
    (h' : YieldsAll r ds r') : YieldsAll q (items.reverse ++ ds) r' := by
  induction h generalizing ds with
  | none => exact h'
  | more _ next _ item ih =>
      rw [List.reverse_cons, List.append_assoc]
      exact ih (.form (by simp [next]) item h')

/-- What a list goes on with behind some elements is what it goes on with behind its bracket. -/
theorem yields {start : Position} (h : Elements false room q items r)
    (h' : Yields room (.list start items) r d r') : Yields room (.list start []) q d r' := by
  induction h with
  | none => exact h'
  | more _ next dot item ih => exact ih (.item next (item.ne_close next) (dot rfl) item h')

end Elements

section Rows

variable {dots : Bool} {room : Nat} {q r : Reader} {items : List Datum} {text space : List Char}

/-- A row of elements with blanks behind it is read outside of all brackets. -/
theorem RowAlike.parse_eq (h : RowAlike dots room text items r) (hroom : room ≤ maxNesting)
    (hspace : Passes space r r.skipped) :
    ∃ ds, parse (String.ofList (text ++ space)) = .ok ds ∧
      ds.map unmarked = items.reverse.map unmarked := by
  have hbehind :
      space.head? = r.cursor.rest.head? ∨ true = true ∧ endsToken space.head? = true := by
    cases space with
    | nil => exact .inr ⟨rfl, rfl⟩
    | cons c space =>
        rw [hspace.rest]
        exact .inl rfl
  obtain ⟨items', r', hrow, hitems, hr'⟩ := h true maxNesting
    (ofText (String.ofList (text ++ space))) space Bool.noConfusion hroom String.toList_ofList
    hbehind
  have hall := hrow.yieldsAll (.done (hspace.skipped_alone hr'))
  refine ⟨_, parse_eq_ok_iff.mpr ⟨_, hall⟩, ?_⟩
  rw [List.append_nil, List.map_reverse, List.map_reverse, hitems]

/-- If the text ends behind a row of elements, all of it is read outside of all brackets. -/
theorem Elements.parse_rest (h : Elements dots room q items r) (hroom : room ≤ maxNesting)
    (hend : r.skipped.cursor.rest = []) : ∃ ds, parse (String.ofList q.cursor.rest) = .ok ds := by
  obtain ⟨space, hspace⟩ := passes_skipped r
  obtain ⟨text, hpasses, halike⟩ := h.elsewhere
  obtain ⟨ds, hparse, -⟩ := halike.parse_eq hroom hspace
  have hrest := (hpasses.trans hspace).rest
  rw [hend, List.append_nil] at hrest
  exact ⟨ds, by rw [hrest, hparse]⟩

end Rows

/-! ## Lists with a tail -/

section Dotted

variable {room : Nat} {q r₁ r₂ : Reader} {items : List Datum} {x : Datum}
  {text space gap tail : List Char}

/-- The characters of a list with a tail, from behind its bracket up to the end of the tail: a row
of elements, blanks, the dot, more blanks and the tail. -/
structure DottedTexts (room : Nat) (q r₁ r₂ : Reader) (items : List Datum) (x : Datum)
    (text space gap tail : List Char) : Prop where
  row : Passes text q r₁
  rowAlike : RowAlike false room text items r₁
  toDot : Passes space r₁ r₁.skipped
  toTail : Passes gap r₁.skipped.passed r₁.skipped.passed.skipped
  pastTail : Passes tail r₁.skipped.passed.skipped r₂
  tailAlike : Alike room .form tail x r₂

/-- From before the list to behind the blanks and comments that follow the tail. -/
theorem Passes.past_tail {r : Reader} {outer elements rest rest' : List Char}
    (ahead : Passes outer q r) (opens : r.cursor.rest = '(' :: rest)
    (toDot : Passes elements r.passed r₁) (next : r₁.cursor.rest = '.' :: rest')
    (toTail : Passes gap r₁.passed r₁.passed.skipped)
    (pastTail : Passes tail r₁.passed.skipped r₂) (blank : Passes space r₂ r₂.skipped) :
    Passes (outer ++ '(' :: (elements ++ '.' :: (gap ++ (tail ++ space)))) q r₂.skipped :=
  ahead.trans ((passes_passed opens).trans (toDot.trans ((passes_passed next).trans
    (toTail.trans (pastTail.trans blank)))))

theorem exists_dottedTexts (row : Elements false room q items r₁)
    (htail : Yields room .form r₁.skipped.passed.skipped x r₂) :
    ∃ text space gap tail, DottedTexts room q r₁ r₂ items x text space gap tail := by
  obtain ⟨text, hrow, hrowAlike⟩ := row.elsewhere
  obtain ⟨space, hspace⟩ := passes_skipped r₁
  obtain ⟨gap, hgap⟩ := passes_skipped r₁.skipped.passed
  obtain ⟨tail, hpasses, halike⟩ := htail.elsewhere
  exact ⟨text, space, gap, tail, hrow, hrowAlike, hspace, hgap, hpasses, halike⟩

namespace DottedTexts

variable {rest : List Char} (h : DottedTexts room q r₁ r₂ items x text space gap tail)
  (before : items ≠ []) (next : r₁.skipped.cursor.rest = '.' :: rest)
  (dot : endsDot rest.head? = true) (htail : Yields room .form r₁.skipped.passed.skipped x r₂)
include h before next dot htail

/-- They make a list wherever a parenthesis follows. -/
theorem yields {room' : Nat} {q' : Reader} {k : List Char} (start : Position)
    (hroom : room ≤ room')
    (hq' : q'.cursor.rest = text ++ (space ++ '.' :: (gap ++ (tail ++ ')' :: k)))) :
    ∃ d r', Yields room' (.list start []) q' d r' ∧ d.unmarked = unread items x.unmarked ∧
      r'.cursor.rest = k := by
  obtain ⟨c, rest₁, hfirst⟩ := List.exists_cons_of_ne_nil
    (List.ne_nil_of_length_pos (Nat.zero_lt_of_lt htail.consumes))
  obtain ⟨more, hmore, -⟩ := h.pastTail.exists_cons htail.consumes hfirst
  -- The elements, up to the blanks before the dot.
  have hbehind : (space ++ '.' :: (gap ++ (tail ++ ')' :: k))).head? = r₁.cursor.rest.head? := by
    rw [h.toDot.rest, next]
    exact head?_append_of_head?_eq space rfl
  obtain ⟨items', q₁, hrow, hitems, hq₁⟩ := h.rowAlike false room' q' _ id hroom hq' (.inl hbehind)
  -- The dot, which ends before the same character.
  have hnext := h.toDot.skipped_before next hq₁
  have hdot : (gap ++ (tail ++ ')' :: k)).head? = rest.head? := by
    rw [← rest_passed next, h.toTail.rest, h.pastTail.rest, hmore]
    exact head?_append_of_head?_eq gap rfl
  -- The tail, up to the parenthesis.
  have hfirst' : q₁.skipped.passed.skipped.cursor.rest = tail ++ ')' :: k := by
    have hgap := rest_passed hnext
    rw [hmore] at hgap ⊢
    exact h.toTail.skipped_before hfirst hgap
  obtain ⟨x', q₂, hx, hx', hq₂⟩ := h.tailAlike room' .form q₁.skipped.passed.skipped (')' :: k)
    hroom .form hfirst' (.inr rfl)
  have hclose := @rest_skipped q₂ [] k ')' rfl rfl (by decide) hq₂
  have hlist : Yields room' (.list start items') q₁ _ _ :=
    .dotted (ne_nil_of_map_eq hitems before) hnext ((congrArg endsDot hdot).trans dot)
      (by simp [hfirst']) hx hclose
  refine ⟨_, _, hrow.yields hlist, ?_, rest_passed hclose⟩
  rw [unmarked_listed, unmarked_chain, hx']
  exact unread_congr hitems _

/-- Between parentheses they are read as a list. -/
theorem parse_list (hroom : room + 1 ≤ maxNesting) :
    ∃ d, parse (String.ofList ('(' :: (text ++ (space ++ '.' :: (gap ++ (tail ++ [')'])))))) =
      .ok [d] ∧ d.unmarked = unread items x.unmarked := by
  obtain ⟨m, hm⟩ := Nat.exists_eq_add_of_le' (Nat.one_le_of_lt hroom)
  let whole := '(' :: (text ++ (space ++ '.' :: (gap ++ (tail ++ [')']))))
  let q' := ofText (String.ofList whole)
  have hq' : q'.cursor.rest = whole := String.toList_ofList
  have hopens : q'.skipped.cursor.rest = whole :=
    @rest_skipped q' [] _ '(' rfl rfl (by decide) hq'
  obtain ⟨d, r', hyields, hd, hr'⟩ := h.yields before next dot htail
    q'.skipped.cursor.position (by omega : room ≤ m) (rest_passed hopens)
  have hform : Yields maxNesting .form q'.skipped d r' := by
    rw [hm]
    exact .list hopens hyields
  have hend : r'.skipped.cursor.rest = [] := by
    have hle := length_skipped_le r'
    rw [hr'] at hle
    exact List.eq_nil_of_length_eq_zero (Nat.le_zero.mp hle)
  have hmore : q'.skipped.cursor.rest ≠ [] := hopens.trans_ne (List.cons_ne_nil _ _)
  exact ⟨d, parse_eq_ok_iff.mpr ⟨_, .form hmore hform (.done hend)⟩, hd⟩

theorem makesDotted (hroom : room + 1 ≤ maxNesting) : MakesDotted (text ++ space) gap tail := by
  have hroom' : room ≤ maxNesting := by omega
  obtain ⟨ds, helements, hds⟩ := h.rowAlike.parse_eq hroom' h.toDot
  obtain ⟨t, ht, hunmarked⟩ := h.tailAlike.parse_alone h.pastTail htail.consumes hroom'
    (skipped_atDatum _)
  obtain ⟨d, hlist, hd⟩ := h.parse_list before next dot htail hroom
  rw [List.map_reverse] at hds
  have hreverse : ds.reverse.map unmarked = items.map unmarked := by
    rw [List.map_reverse, hds, List.reverse_reverse]
  refine ⟨ds, t, d, helements, ?_, h.toTail.parse_skipped, ht, ?_, ?_⟩
  · have hne := ne_nil_of_map_eq hreverse before
    simpa using hne
  · rw [List.append_assoc]
    exact hlist
  · rw [hd, ← ds.reverse_reverse, unmarked_chain, hunmarked]
    exact (unread_congr hreverse _).symm

end DottedTexts
end Dotted

/-! ## What errors blame -/

/-- In a text an error names the place of its culprit. -/
def Blamed (source : String) (e : SyntaxError) : Prop :=
  ∃ before after, source.toList = before ++ after ∧
    e.place = Position.origin.afterAll before ∧ Culprit before after e

section Blamed

variable {source : String} {room : Nat} {r r' : Reader} {e : SyntaxError} {rest : List Char}

theorem Enters.onward (h : Enters room r r') : r.Onward r' := by
  cases h with
  | quoted _ _ => exact (onward_passed r).trans (onward_skipped _)
  | @element r₁ items b c text rest opens row _ _ _ =>
      exact Onward.trans ⟨_, b.passes opens⟩ (row.onward.trans (onward_skipped _))
  | tail _ row _ _ _ _ =>
      have hdot := (onward_passed r).trans (row.onward.trans (onward_skipped _))
      exact hdot.trans ((onward_passed _).trans (onward_skipped _))

theorem Asks.onward (h : Asks source room r) : (ofText source).Onward r := by
  induction h with
  | form row _ => exact row.onward.trans (onward_skipped _)
  | part _ enters ih => exact ih.trans enters.onward

theorem Asks.room_le (h : Asks source room r) : room ≤ maxNesting := by
  induction h with
  | form _ _ => exact Nat.le_refl _
  | part _ _ ih => exact Nat.le_of_succ_le ih

/-- The culprit stands where the reader does, whatever stands ahead of it. -/
theorem Onward.blamed (h : (ofText source).Onward r) (hplace : e.place = r.cursor.position)
    (hculprit : ∀ before, Culprit before r.cursor.rest e) : Blamed source e := by
  obtain ⟨before, hpasses⟩ := h
  exact ⟨before, _, hpasses.rest, hplace.trans hpasses.position, hculprit before⟩

theorem beginsNumeral_token {c : Char} (hr : r.cursor.rest = c :: rest)
    (hstarts : c = '-' ∨ c.isDigit = true) :
    BeginsNumeral (String.ofList r.token) r.cursor.rest := by
  have hc : isDelimiter c = false := by
    rcases hstarts with rfl | hdigit
    · decide
    · exact (Decimal.not_isDelimiter_of_isNumeralChar
        (Decimal.isNumeralChar_of_isDigit hdigit)).1
  have hpasses := passes_pastToken r
  obtain ⟨more, htoken, hrest⟩ := hpasses.exists_cons (length_pastToken_lt hr hc) hr
  refine ⟨c, more, r.pastToken.cursor.rest, ?_, by rw [htoken], hstarts, ?_,
    endsToken_pastToken r⟩
  · rw [hr, hrest]
  · intro ch hch
    refine not_isDelimiter_of_mem_token r ch ?_
    rw [htoken]
    exact List.mem_cons_of_mem c hch

/-- A dot that separates no tail, because the text ends behind it, is a symbol outside of lists. -/
theorem yields_dot (hr : r.cursor.rest = '.' :: rest) (hdot : endsDot rest.head? = true)
    (hend : r.passed.skipped.cursor.rest = []) (room : Nat) :
    ∃ d r', Yields room .form r d r' ∧ r'.cursor.rest = r.passed.cursor.rest := by
  have hpassed := rest_passed hr
  have hends : endsToken rest.head? = true := by
    rw [endsDot, Bool.or_eq_true, beq_iff_eq] at hdot
    rcases hdot with hends | hopen
    · exact hends
    · -- A parenthesis would not have been skipped.
      obtain ⟨more, rfl⟩ := List.head?_eq_some_iff.mp hopen
      have hskip := @rest_skipped r.passed [] more '(' rfl rfl (by decide) hpassed
      rw [hend] at hskip
      cases hskip
  have hdelimiter : ∀ c ∈ ['.'], isDelimiter c = false := List.forall_mem_singleton.mpr rfl
  have hspan := Cursor.spanWhile_token hdelimiter hends r.cursor.position
  have hcursor : r.cursor = ⟨['.'] ++ rest, r.cursor.position⟩ := by
    rw [List.singleton_append, ← hr]
  rw [← hcursor] at hspan
  refine ⟨_, _, .atom (.symbol hr (by decide)), ?_⟩
  rw [hpassed]
  exact congrArg (·.2.rest) hspan

/-- Behind the tail of a list, what stands in the place of the parenthesis is to blame. -/
theorem Asks.blamed_behind_tail {r₁ r₂ : Reader} {items : List Datum} {x : Datum}
    {text : List Char} (h : Asks source (room + 1) r) (opens : r.cursor.rest = '(' :: text)
    (row : Elements false room r.passed items r₁) (before : items ≠ [])
    (next : r₁.skipped.cursor.rest = '.' :: rest) (dot : endsDot rest.head? = true)
    (htail : Yields room .form r₁.skipped.passed.skipped x r₂)
    (close : r₂.skipped.cursor.rest.head? ≠ some ')') :
    Blamed source (.expectedClose r₂.skipped.cursor.position) := by
  obtain ⟨outer, houter⟩ := h.onward
  obtain ⟨elements, space, gap, tail, htexts⟩ := exists_dottedTexts row htail
  obtain ⟨space', hspace'⟩ := passes_skipped r₂
  have hlist := htexts.makesDotted before next dot htail h.room_le
  have htoDot := htexts.row.trans htexts.toDot
  have hpasses := houter.past_tail opens htoDot next htexts.toTail htexts.pastTail hspace'
  -- The list is read where the reader meets it, and not anywhere in the text where it might be read.
  have hread : TailRead source outer (elements ++ space) gap tail space' r₂.skipped.cursor.rest :=
    .intro h houter opens row before htoDot next dot htexts.toTail htail.reads htexts.pastTail
      hspace' rfl
  rw [← @String.ofList_toList source, show source.toList = _ from hpasses.rest] at hread
  refine ⟨_, _, hpasses.rest, hpasses.position, .tail rfl hread hlist hspace'.parse_skipped ?_⟩
  intro c rest' hnext
  refine ⟨?_, skipped_atDatum r₂ c rest' hnext⟩
  rintro rfl
  exact close (by rw [hnext]; rfl)

/-- The culprit of a reading that fails stands where its error says. -/
theorem Fails.blamed (h : Fails room r e) (hasks : Asks source room r) : Blamed source e := by
  have hroom := hasks.room_le
  have honward := hasks.onward
  induction h with
  | string first _ =>
      refine honward.blamed rfl fun before => ?_
      rw [first]
      exact .string
  | close first =>
      refine honward.blamed rfl fun before => ?_
      rw [first]
      exact .close
  | hash first =>
      refine honward.blamed rfl fun before => ?_
      rw [first]
      exact .hash
  | rational first starts =>
      exact honward.blamed rfl fun before => .rational (beginsNumeral_token first starts)
  | number first starts =>
      exact honward.blamed rfl fun before => .number (beginsNumeral_token first starts)
  | deep first opens =>
      refine honward.blamed rfl fun before => ?_
      rw [first]
      exact .deep opens
  | unquoted opens _ =>
      refine honward.blamed rfl fun before => ?_
      rw [opens]
      exact .quote
  | @unterminated room r r₁ items b text opens row ends =>
      obtain ⟨ds, hparse⟩ := row.parse_rest (by omega) ends
      have hrest := (b.passes opens).rest
      cases b with
      | list =>
          refine honward.blamed rfl fun before => ?_
          rw [hrest]
          exact .list hparse
      | vector =>
          refine honward.blamed rfl fun before => ?_
          rw [hrest]
          exact .vector hparse
  | @leadingDot room r text rest opens next =>
      have hdot := honward.trans ((onward_passed r).trans (onward_skipped _))
      refine hdot.blamed rfl fun before => ?_
      rw [next]
      exact .dot
  | @untailed room r r₁ items text rest opens row next dot ends =>
      -- Outside of the list its dot is one more element, so what stands behind the bracket is read.
      obtain ⟨d, r₂, hsymbol, hrest⟩ := yields_dot next dot ends room
      have hrow := row.withDots.more next Bool.noConfusion hsymbol
      obtain ⟨ds, hparse⟩ := hrow.parse_rest (by omega) (skipped_end_elsewhere hrest ends)
      rw [rest_passed opens] at hparse
      refine honward.blamed rfl fun before => ?_
      rw [opens]
      exact .list hparse
  | unclosed opens row before next dot tail close =>
      exact hasks.blamed_behind_tail opens row before next dot tail close
  | inside enters _ ih =>
      have hpart := hasks.part enters
      exact ih hpart hpart.room_le hpart.onward

end Blamed

/-! ## Errors of parts -/

section Parts

variable {source : String} {dots : Bool} {room : Nat} {q r r' r'' : Reader} {items : List Datum}
  {e : SyntaxError}

theorem Elements.failed_eq (h : Elements dots room q items r) : r.failed = q.failed := by
  induction h with
  | none => rfl
  | more _ _ _ item ih => exact item.failed_eq.trans ih

/-- A loop that takes one element in each turn comes to what it does behind all of them. -/
theorem Elements.loop_eq {β : Type} {f : Nat → List Datum → Reader → β} {b : β}
    (h : Elements dots room q items r)
    (hstep : ∀ {turns items r r₁ x c rest}, r.failed = q.failed →
      r.skipped.cursor.rest = c :: rest → c ≠ ')' →
      (dots = false → (c == '.' && endsDot rest.head?) = false) →
      Yields room .form r.skipped x r₁ → f (turns + 1) items r = f turns (x :: items) r₁)
    (hlast : ∀ turns, f (turns + 1) items r = b) :
    ∀ turns, q.cursor.rest.length < turns → f turns [] q = b := by
  have hturns : ∀ turns, r.cursor.rest.length < turns → f turns items r = b := by
    intro turns hlength
    cases turns with
    | zero => omega
    | succ turns => exact hlast turns
  clear hlast
  -- There are turns left behind every element, because the element takes a character at least.
  induction h with
  | none => exact hturns
  | @more r r₁ items x c rest row next dot item ih =>
      refine ih fun turns hlength => ?_
      have hless := item.consumes
      have hskip := length_skipped_le r
      cases turns with
      | zero => omega
      | succ turns =>
          rw [hstep row.failed_eq next (item.ne_close next) dot item]
          exact hturns turns (by omega)

/-- What comes of a list is what comes of it behind some elements. -/
theorem Elements.readForm_list {text : List Char} {out : EStateM.Result SyntaxError Reader Datum}
    (h : Elements false room r.passed items r') (opens : r.cursor.rest = '(' :: text)
    (hlast : ∀ turns, readListFrom (readForm room) r.cursor.position (turns + 1) items r' = out) :
    readForm (room + 1) r = out := by
  rw [readForm, readFormWith_list opens, nested, readList, get_bind]
  refine h.loop_eq (f := readListFrom (readForm room) r.cursor.position) ?_ hlast _
    (Nat.lt_succ_self _)
  intro turns items r r₁ x c rest _ next close dot item
  rw [readListFrom_item next close (dot rfl), bind_of_ok item.reads]

theorem Elements.readForm_vector {text : List Char} {out : EStateM.Result SyntaxError Reader Datum}
    (h : Elements true room r.passed.passed items r')
    (opens : r.cursor.rest = '#' :: '(' :: text)
    (hlast : ∀ turns, readVectorFrom (readForm room) r.cursor.position (turns + 1) items r' = out) :
    readForm (room + 1) r = out := by
  rw [readForm, readFormWith_vector opens, nested, readVector, get_bind]
  refine h.loop_eq (f := readVectorFrom (readForm room) r.cursor.position) ?_ hlast _
    (Nat.lt_succ_self _)
  intro turns items r r₁ x c rest _ next close _ item
  rw [readVectorFrom_item next close, bind_of_ok item.reads]

/-- A datum of which a part fails fails with the same error. -/
theorem Enters.readForm_eq_error (h : Enters room r r') (hread : readForm room r' = .error e r'') :
    readForm (room + 1) r = .error e r'' := by
  cases h with
  | quoted opens more =>
      rw [readForm, readFormWith_quote opens, nested, readQuote_more more]
      exact bind_of_error hread
  | @element r₁ items b c text rest opens row next close dot =>
      cases b with
      | list =>
          refine row.readForm_list opens fun turns => ?_
          rw [readListFrom_item next close (dot rfl)]
          exact bind_of_error hread
      | vector =>
          refine row.readForm_vector opens fun turns => ?_
          rw [readVectorFrom_item next close]
          exact bind_of_error hread
  | tail opens row before next dot more =>
      refine row.readForm_list opens fun turns => ?_
      rw [readListFrom_dot next dot, if_neg (by simpa using before)]
      exact readTail_error more hread

/-- An error that the reader meets on its way is that of the text. -/
theorem Asks.parse_eq_error (h : Asks source room r) (hread : readForm room r = .error e r') :
    parse source = .error e := by
  induction h generalizing r' with
  | @form r items row more =>
      -- Iteration yields the data before, and comes to the one that fails.
      rw [parse_eq_error_iff]
      refine row.loop_eq (f := fun turns _ r => (takeForms turns r).2) ?_ ?_ _ (Nat.lt_succ_self _)
      · intro turns items r r₁ x c rest hfailed next _ _ item
        have hmore : r.skipped.cursor.rest ≠ [] := by simp [next]
        simp only [takeForms, next?_of_yields hfailed hmore item]
      · intro turns
        simp only [takeForms, next?_of_error row.failed_eq more hread]
  | part _ enters ih => exact ih (enters.readForm_eq_error hread)

/-- What stands behind the tail of a list, and is no parenthesis, is the culprit of the text. -/
theorem TailRead.parse_eq_error {outer elements gap tail space after : List Char}
    (h : TailRead source outer elements gap tail space after) (hafter : after.head? ≠ some ')') :
    parse source = .error (.expectedClose (Position.origin.afterAll
      (outer ++ '(' :: (elements ++ '.' :: (gap ++ (tail ++ space)))))) := by
  cases h with
  | @intro room r r₁ r₂ items x text rest asked ahead opens row some toDot next dot toTail read
      pastTail blank follows =>
      have hpasses := ahead.past_tail opens toDot next toTail pastTail blank
      have hmore : r₁.skipped.passed.skipped.cursor.rest ≠ [] :=
        List.ne_nil_of_length_pos
          (Nat.zero_lt_of_lt (readForm_yields (skipped_stands _) read).consumes)
      have hlist : readForm (room + 1) r =
          .error (.expectedClose r₂.skipped.cursor.position) r₂.skipped := by
        refine row.readForm_list opens fun turns => ?_
        rw [readListFrom_dot next dot, if_neg (by simpa using some)]
        exact readTail_unclosed hmore read (by rwa [follows])
      have hplace : r₂.skipped.cursor.position = Position.origin.afterAll _ := hpasses.position
      rw [asked.parse_eq_error hlist, hplace]

end Parts
end Reader

/-- In a text there is one place at most where a parenthesis is missed behind a tail. -/
theorem Datum.Culprit.parse_eq_error {before after : List Char} {p : Position}
    (h : Culprit before after (.expectedClose p)) :
    parse (String.ofList (before ++ after)) =
      .error (.expectedClose (Position.origin.afterAll before)) := by
  cases h with
  | tail texts read _ _ next =>
      rw [texts] at read ⊢
      refine read.parse_eq_error fun hclose => ?_
      obtain ⟨rest, hafter⟩ := List.head?_eq_some_iff.mp hclose
      exact (next ')' rest hafter).1 rfl

/-! ## Errors of a text -/

/-- If a text is not read, the line and the column of the error are those of its culprit, or of the
end of the text where a closing parenthesis is missed there.  Nowhere else in the text is a closing
parenthesis missed behind a tail. -/
theorem Datum.syntax_error_at_culprit {source : String} {e : SyntaxError}
    (h : parse source = .error e) :
    ∃ before after, source.toList = before ++ after ∧ e.place.offset = before.length ∧
      e.place.line = 1 + before.count '\n' ∧
      e.place.column = 1 + (before.reverse.takeWhile (· != '\n')).length ∧
      Culprit before after e ∧
      ∀ before' after' p, source.toList = before' ++ after' →
        Culprit before' after' (.expectedClose p) → before' = before := by
  obtain ⟨items, r, hrow, hmore, hfails⟩ := fails_of_parse_eq_error h
  obtain ⟨before, after, hsource, hplace, hculprit⟩ := hfails.blamed (.form hrow hmore)
  rw [Position.afterAll_origin] at hplace
  refine ⟨before, after, hsource, by rw [hplace], by rw [hplace], by rw [hplace], hculprit, ?_⟩
  intro before' after' p hsource' hculprit'
  -- The text has one error, and it names both places.
  have hparse := hculprit'.parse_eq_error
  rw [← hsource', String.ofList_toList, h] at hparse
  cases hparse
  have hlength : before'.length = before.length := by
    rw [SyntaxError.place, Position.afterAll_origin] at hplace
    exact congrArg Position.offset hplace
  exact (List.append_inj (hsource'.symm.trans hsource) hlength).1

/-- In a list of two lines the vector that is left open is blamed, and in a quotation what stands
behind the tail and a comment, but neither the rest of the tail nor that of the comment. -/
theorem Datum.open_vector_and_second_tail_blamed :
    (parse "(a\n #(b (c) 'd" = .error (.unterminatedVector ⟨4, 2, 2⟩) ∧
      ∃ before after, "(a\n #(b (c) 'd".toList = before ++ after ∧ before.length = 4 ∧
        Culprit before after (.unterminatedVector ⟨4, 2, 2⟩)) ∧
    parse "(x\n '(y . zz ;;\n w))" = .error (.expectedClose ⟨17, 3, 2⟩) ∧
      (∃ before after, "(x\n '(y . zz ;;\n w))".toList = before ++ after ∧ before.length = 17 ∧
        Culprit before after (.expectedClose ⟨17, 3, 2⟩)) ∧
      ∀ p, ¬ Culprit "(x\n '(y . z".toList "z ;;\n w))".toList (.expectedClose p) ∧
        ¬ Culprit "(x\n '(y . zz ;".toList ";\n w))".toList (.expectedClose p) := by
  have hvector := parse_eq_error_iff.mpr (by decide +kernel :
    (readAll "(a\n #(b (c) 'd").2 = some (.unterminatedVector ⟨4, 2, 2⟩))
  have htail := parse_eq_error_iff.mpr (by decide +kernel :
    (readAll "(x\n '(y . zz ;;\n w))").2 = some (.expectedClose ⟨17, 3, 2⟩))
  obtain ⟨before, after, hsource, hoffset, -, -, hculprit, -⟩ := syntax_error_at_culprit hvector
  obtain ⟨before', after', hsource', hoffset', -, -, hculprit', honly⟩ :=
    syntax_error_at_culprit htail
  refine ⟨⟨hvector, before, after, hsource, hoffset.symm, hculprit⟩, htail,
    ⟨before', after', hsource', hoffset'.symm, hculprit'⟩, fun p => ⟨fun hcut => ?_, fun hcut => ?_⟩⟩
  · rw [← honly _ _ p (by decide) hcut] at hoffset'
    exact absurd hoffset' (by decide)
  · rw [← honly _ _ p (by decide) hcut] at hoffset'
    exact absurd hoffset' (by decide)

end SchemeMachine
