import SchemeMachine.Proofs.Reading.Failures
import SchemeMachine.Repl.Command

/-!
# Inputs that go on in the next line

A session decides by a scan of its own whether an input goes on in the next line.  The scan knows
strings, comments and parentheses, but not tokens: in a symbol it takes a quotation mark, a
semicolon or a parenthesis for what it would be outside.  Where no symbol or number has such a
character, and no dot touches one, the scan agrees with the reader.  An input that the reader reads
is finished, and one that ends inside a list, a vector or a string is not.

The reader and the scan are compared step by step: whatever the reader passes changes the number of
open parentheses by what the scan counts.  The count does not wrap around, because the reader opens
no more parentheses at a time than it allows levels.
-/

namespace SchemeMachine

open Text Repl

/-! ## Plain texts -/

namespace Repl

/-- What a character of a text belongs to. -/
inductive Stage where
  | between
  /-- Behind a hash sign. -/
  | hash
  /-- In a symbol or a number. -/
  | token
  | comment
  | string
  /-- Behind a backslash in a string. -/
  | escape
  deriving Repr, DecidableEq

/-- Whether every symbol, number and dot ends before a blank, a closing parenthesis or the end of
the text, without a parenthesis, a quotation mark or a semicolon in it.  So a dot that touches an
opening parenthesis is not plain, even in a list, where it ends there: outside of lists it begins a
symbol. -/
def isPlainFrom : Stage → List Char → Bool
  | _, [] => true
  | .between, c :: rest =>
    if c = '"' then isPlainFrom .string rest
    else if c = ';' then isPlainFrom .comment rest
    else if c = '#' then isPlainFrom .hash rest
    else if isDelimiter c || c == '(' || c == '\'' then isPlainFrom .between rest
    else isPlainFrom .token rest
  | .hash, _ :: rest => isPlainFrom .between rest
  | .token, c :: rest =>
    if isDelimiter c then isPlainFrom .between rest
    else decide (c ∉ ['(', '"', ';']) && isPlainFrom .token rest
  | .comment, c :: rest => isPlainFrom (if c = '\n' then .between else .comment) rest
  | .string, c :: rest =>
    isPlainFrom (if c = '\\' then .escape else if c = '"' then .between else .string) rest
  | .escape, _ :: rest => isPlainFrom .string rest

/-- Whether no symbol or number of a text has a character in it that the scan would take for
something else, and no dot touches one. -/
def isPlain (input : String) : Bool :=
  isPlainFrom .between input.toList

end Repl

/-- Errors of a text that ends inside a string, a list or a vector. -/
def SyntaxError.isUnterminated : SyntaxError → Bool
  | unterminatedString _ => true
  | unterminatedList _ => true
  | unterminatedVector _ => true
  | _ => false

namespace Reader

open Datum

/-! ## What the reader passes is scanned -/

/-- From one reader to the other, `n` more parentheses are opened than closed. -/
def Scans (n : Int) (r r' : Reader) : Prop :=
  isPlainFrom .between r.cursor.rest = true →
    isPlainFrom .between r'.cursor.rest = true ∧
      ∀ depth, unfinishedFrom depth .code r.cursor.rest =
        unfinishedFrom (depth + Int32.ofInt n) .code r'.cursor.rest

section Scans

variable {m n : Int} {r r₁ r' : Reader} {d : Datum} {c : Char} {rest : List Char}

theorem Scans.trans (h₁ : Scans m r r₁) (h₂ : Scans n r₁ r') : Scans (m + n) r r' := by
  intro hplain
  obtain ⟨hplain₁, hscan₁⟩ := h₁ hplain
  obtain ⟨hplain₂, hscan₂⟩ := h₂ hplain₁
  refine ⟨hplain₂, fun depth => ?_⟩
  rw [hscan₁, hscan₂, Int32.add_assoc, Int32.ofInt_add]

theorem Scans.zero_trans (h₁ : Scans 0 r r₁) (h₂ : Scans n r₁ r') : Scans n r r' := by
  have h := h₁.trans h₂
  rwa [Int.zero_add] at h

theorem Scans.trans_zero (h₁ : Scans n r r₁) (h₂ : Scans 0 r₁ r') : Scans n r r' := by
  have h := h₁.trans h₂
  rwa [Int.add_zero] at h

/-- A parenthesis is closed that was opened before. -/
theorem Scans.closed (h₁ : Scans 1 r r₁) (h₂ : Scans (-1) r₁ r') : Scans 0 r r' := by
  have h := h₁.trans h₂
  rwa [Int.add_right_neg] at h

/-- Only the characters that are left matter. -/
theorem Scans.of_rest (h : Scans n r r₁) (hrest : r'.cursor.rest = r₁.cursor.rest) :
    Scans n r r' := by
  intro hplain
  rw [hrest]
  exact h hplain

/-- What opens no parenthesis that it does not close leaves the count as it is. -/
theorem scans_zero
    (h : isPlainFrom .between r.cursor.rest = true → isPlainFrom .between r'.cursor.rest = true ∧
      ∀ depth, unfinishedFrom depth .code r.cursor.rest =
        unfinishedFrom depth .code r'.cursor.rest) : Scans 0 r r' := by
  intro hplain
  obtain ⟨hplain', hscan⟩ := h hplain
  refine ⟨hplain', fun depth => ?_⟩
  rw [show depth + Int32.ofInt 0 = depth from Int32.add_zero depth]
  exact hscan depth

theorem unfinishedFrom_other (hc : c ∉ ['(', ')', ';', '"']) (depth : Int32) (rest : List Char) :
    unfinishedFrom depth .code (c :: rest) = unfinishedFrom depth .code rest := by
  simp only [List.mem_cons, List.not_mem_nil, or_false, not_or] at hc
  rw [unfinishedFrom, if_neg hc.1, if_neg hc.2.1, if_neg hc.2.2.1, if_neg hc.2.2.2]

theorem not_mem_of_isBlank (h : isBlank c = true) : c ∉ ['(', ')', ';', '"', '#'] := by
  intro hc
  simp only [List.mem_cons, List.not_mem_nil, or_false] at hc
  rcases hc with rfl | rfl | rfl | rfl | rfl <;> revert h <;> decide

theorem isPlainFrom_delimiter (h : isDelimiter c = true) (rest : List Char) :
    isPlainFrom .between (c :: rest) = isPlainFrom .between rest := by
  have hc : c ∉ ['"', ';', '#'] := by
    intro hc
    simp only [List.mem_cons, List.not_mem_nil, or_false] at hc
    rcases hc with rfl | rfl | rfl <;> revert h <;> decide
  simp only [List.mem_cons, List.not_mem_nil, or_false, not_or] at hc
  rw [isPlainFrom, if_neg hc.1, if_neg hc.2.1, if_neg hc.2.2, if_pos (by simp [h])]

theorem skipFrom_scanned (text : List Char) :
    ∀ (commented : Bool) (p : Position),
      isPlainFrom (if commented then .comment else .between) text = true →
      isPlainFrom .between (Cursor.skipFrom commented text p).rest = true ∧
      ∀ depth, unfinishedFrom depth (if commented then .comment else .code) text =
        unfinishedFrom depth .code (Cursor.skipFrom commented text p).rest := by
  induction text with
  | nil =>
      intro commented p _
      cases commented <;> exact ⟨rfl, fun _ => rfl⟩
  | cons c text ih =>
      intro commented p h
      cases commented with
      | true =>
          have hstage : (if c = '\n' then Stage.between else .comment) =
              if (c != '\n') = true then .comment else .between := by
            by_cases hc : c = '\n' <;> simp [hc]
          have hscan : (if c = '\n' then Scan.code else .comment) =
              if (c != '\n') = true then .comment else .code := by
            by_cases hc : c = '\n' <;> simp [hc]
          rw [if_pos rfl, isPlainFrom, hstage] at h
          obtain ⟨hplain, hrest⟩ := ih (c != '\n') (p.after c) h
          refine ⟨hplain, fun depth => ?_⟩
          rw [if_pos rfl, unfinishedFrom, hscan]
          exact hrest depth
      | false =>
          rw [Cursor.skipFrom]
          rw [if_neg Bool.false_ne_true] at h
          by_cases hblank : isBlank c = true
          · have hother := not_mem_of_isBlank hblank
            simp only [List.mem_cons, List.not_mem_nil, or_false, not_or] at hother
            rw [isPlainFrom_delimiter (by rw [isDelimiter, hblank, Bool.or_true])] at h
            obtain ⟨hplain, hrest⟩ := ih false (p.after c) h
            rw [if_pos hblank]
            refine ⟨hplain, fun depth => ?_⟩
            rw [if_neg Bool.false_ne_true, unfinishedFrom_other (by simp [hother])]
            exact hrest depth
          · rw [if_neg hblank]
            by_cases hcomment : c = ';'
            · subst hcomment
              obtain ⟨hplain, hrest⟩ := ih true (p.after ';') h
              exact ⟨hplain, hrest⟩
            · rw [if_neg hcomment]
              exact ⟨h, fun _ => rfl⟩

theorem scans_skipped (r : Reader) : Scans 0 r r.skipped :=
  scans_zero (skipFrom_scanned r.cursor.rest false r.cursor.position)

theorem scans_bracket (b : Bracket) (h : r.cursor.rest = b.text ++ rest) :
    Scans 1 r (b.passed r) := by
  intro hplain
  rw [(b.passes h).rest] at hplain ⊢
  cases b with
  | list => exact ⟨hplain, fun _ => rfl⟩
  | vector => exact ⟨hplain, fun _ => rfl⟩

theorem scans_close (h : r.cursor.rest = ')' :: rest) : Scans (-1) r r.passed := by
  intro hplain
  rw [h] at hplain
  rw [rest_passed h, h]
  refine ⟨hplain, fun depth => ?_⟩
  show unfinishedFrom (depth - 1) .code rest = _
  rw [Int32.sub_eq_add_neg]
  rfl

theorem scans_quote (h : r.cursor.rest = '\'' :: rest) : Scans 0 r r.passed := by
  refine scans_zero fun hplain => ?_
  rw [h] at hplain
  rw [rest_passed h, h]
  exact ⟨hplain, fun depth => unfinishedFrom_other (by decide) depth rest⟩

/-! ### Tokens -/

/-- In front of something that ends a token, there is nothing more of the token. -/
theorem isPlainFrom_token (h : endsToken rest.head? = true) :
    isPlainFrom .token rest = isPlainFrom .between rest := by
  cases rest with
  | nil => rfl
  | cons c rest =>
      have hc : isDelimiter c = true := h
      rw [isPlainFrom_delimiter hc, isPlainFrom, if_pos hc]

theorem token_scanned {token k : List Char} (htoken : ∀ c ∈ token, isDelimiter c = false)
    (hk : endsToken k.head? = true) (hplain : isPlainFrom .token (token ++ k) = true) :
    isPlainFrom .between k = true ∧
      ∀ depth, unfinishedFrom depth .code (token ++ k) = unfinishedFrom depth .code k := by
  induction token with
  | nil =>
      rw [List.nil_append, isPlainFrom_token hk] at hplain
      exact ⟨hplain, fun _ => rfl⟩
  | cons c token ih =>
      have hc := htoken c List.mem_cons_self
      rw [List.cons_append, isPlainFrom, hc, if_neg Bool.false_ne_true, Bool.and_eq_true,
        decide_eq_true_eq] at hplain
      obtain ⟨hplain', hscan⟩ := ih (fun x hx => htoken x (List.mem_cons_of_mem c hx)) hplain.2
      have hclose : c ≠ ')' := by
        rintro rfl
        cases hc
      refine ⟨hplain', fun depth => ?_⟩
      rw [List.cons_append, unfinishedFrom_other (by simp_all), hscan]

/-- A token is plain from its first character on. -/
theorem isPlainFrom_first (hc : c ∉ ['"', ';', '#', '(', '\'']) (hdelimiter : isDelimiter c = false)
    (rest : List Char) : isPlainFrom .between (c :: rest) = isPlainFrom .token (c :: rest) := by
  simp only [List.mem_cons, List.not_mem_nil, or_false, not_or] at hc
  obtain ⟨hstring, hcomment, hhash, hopen, hquote⟩ := hc
  rw [isPlainFrom, isPlainFrom]
  simp [hstring, hcomment, hhash, hopen, hquote, hdelimiter]

theorem scans_token (token : List Char) (hr : r.cursor.rest = token ++ r'.cursor.rest)
    (hfirst : token.head? = some c) (hc : c ∉ ['"', ';', '#', '(', '\''])
    (htoken : ∀ c ∈ token, isDelimiter c = false)
    (hends : endsToken r'.cursor.rest.head? = true) : Scans 0 r r' := by
  refine scans_zero fun hplain => ?_
  obtain ⟨more, rfl⟩ := List.head?_eq_some_iff.mp hfirst
  rw [hr, List.cons_append, isPlainFrom_first hc (htoken c List.mem_cons_self),
    ← List.cons_append] at hplain
  obtain ⟨hplain', hscan⟩ := token_scanned htoken hends hplain
  refine ⟨hplain', fun depth => ?_⟩
  rw [hr, hscan]

theorem scans_pastToken (hr : r.cursor.rest = c :: rest) (hc : c ∉ ['"', ';', '#', '(', '\''])
    (hdelimiter : isDelimiter c = false) : Scans 0 r r.pastToken.counted := by
  have hfirst : r.token.head? = some c := by
    rw [token, hr, List.takeWhile_cons, hdelimiter]
    rfl
  exact scans_token r.token (passes_pastToken r).counted.rest hfirst hc
    (not_isDelimiter_of_mem_token r) (endsToken_pastToken r)

theorem scans_dot (hr : r.cursor.rest = '.' :: rest) (hdot : endsDot rest.head? = true) :
    Scans 0 r r.passed := by
  intro hplain
  have hends : endsToken rest.head? = true := by
    rw [endsDot, Bool.or_eq_true, beq_iff_eq] at hdot
    rcases hdot with hends | hopen
    · exact hends
    · obtain ⟨more, rfl⟩ := List.head?_eq_some_iff.mp hopen
      rw [hr] at hplain
      cases hplain
  have hscans : Scans 0 r r.passed := by
    refine scans_token ['.'] ?_ rfl (by decide) (List.forall_mem_singleton.mpr rfl) ?_
    · rw [rest_passed hr, hr]
      rfl
    · rw [rest_passed hr]
      exact hends
  exact hscans hplain

/-! ### Strings -/

theorem Contents.scanned {text body : List Char} {p : Position} {stop : Cursor}
    (h : Contents text p body stop) :
    isPlainFrom .string text = isPlainFrom .between stop.rest ∧
      ∀ depth, unfinishedFrom depth .string text = unfinishedFrom depth .code stop.rest := by
  induction h with
  | escaped _ ih => exact ih
  | closed => exact ⟨rfl, fun _ => rfl⟩
  | @plain c rest body p stop hescape hquote _ ih =>
      refine ⟨?_, fun depth => ?_⟩
      · rw [isPlainFrom, if_neg hescape, if_neg hquote]
        exact ih.1
      · rw [unfinishedFrom, if_neg hescape, if_neg hquote]
        exact ih.2 depth

theorem Atom.scans (h : Atom r d r') (hr : r.AtDatum) : Scans 0 r r' := by
  cases h with
  | @minus rest first alone =>
      refine scans_token ['-'] ?_ rfl (by decide) (List.forall_mem_singleton.mpr rfl) ?_
      · show r.cursor.rest = _ ++ r.passed.cursor.rest
        rw [rest_passed first, first]
        rfl
      · show endsToken r.passed.cursor.rest.head? = true
        rw [rest_passed first]
        exact alone
  | @number c rest n first starts whole value =>
      rcases starts with ⟨rfl, -⟩ | hdigit
      · exact scans_pastToken first (by decide) (by decide)
      · have hspecial := not_special_of_isDigit hdigit
        have hcomment : c ≠ ';' := by
          rintro rfl
          cases hdigit
        refine scans_pastToken first ?_ (Decimal.not_isDelimiter_of_isNumeralChar
          (Decimal.isNumeralChar_of_isDigit hdigit)).1
        simp_all
  | @symbol c rest first starts =>
      have hcomment := (hr c rest first).2
      simp only [startsSymbol, Bool.not_eq_true', Bool.or_eq_false_iff, decide_eq_false_iff_not,
        List.mem_cons, List.not_mem_nil, or_false, not_or] at starts
      obtain ⟨⟨hdelimiter, -⟩, hopen, hquote, hstring, hhash, -⟩ := starts
      exact scans_pastToken first (by simp [*]) hdelimiter
  | @string rest body stop first contents =>
      refine scans_zero fun hplain => ?_
      rw [first] at hplain
      obtain ⟨hplain', hscan⟩ := (contents_of_stringFrom contents).scanned
      refine ⟨hplain'.symm.trans hplain, fun depth => ?_⟩
      rw [first]
      exact hscan depth
  | @boolean rest b first =>
      refine scans_zero fun hplain => ?_
      rw [first] at hplain
      have hrest : r.passed.passed.counted.cursor.rest = rest := rest_passed (rest_passed first)
      rw [hrest, first]
      cases b
      · exact ⟨hplain, fun _ => rfl⟩
      · exact ⟨hplain, fun _ => rfl⟩

/-- How many parentheses are closed by what ends a task. -/
def Task.closes : Task → Int
  | form => 0
  | list .. => -1
  | vector .. => -1

/-- What is read closes every parenthesis that it opens. -/
theorem Yields.scans {room : Nat} {task : Task} (h : Yields room task r d r') :
    (task = .form → r.AtDatum) → Scans task.closes r r' := by
  induction h with
  | atom atom => exact fun hr => atom.scans (hr rfl)
  | list opens _ ih => exact fun _ => (scans_bracket .list opens).closed (ih (by simp))
  | vector opens _ ih => exact fun _ => (scans_bracket .vector opens).closed (ih (by simp))
  | quote opens _ _ ih =>
      intro _
      have hquoted := (scans_skipped _).zero_trans (ih fun _ => skipped_atDatum _)
      exact ((scans_quote opens).zero_trans hquoted).of_rest rfl
  | nothing closes => exact fun _ => ((scans_skipped _).zero_trans (scans_close closes)).of_rest rfl
  | close _ closes => exact fun _ => ((scans_skipped _).zero_trans (scans_close closes)).of_rest rfl
  | item _ _ _ _ _ ih₁ ih₂ =>
      exact fun _ => (scans_skipped _).zero_trans
        (Scans.zero_trans (ih₁ fun _ => skipped_atDatum _) (ih₂ (by simp)))
  | dotted _ next dot _ _ closes ih =>
      intro _
      have hdot := (scans_skipped _).zero_trans (scans_dot next dot)
      have htail := (scans_skipped _).zero_trans (ih fun _ => skipped_atDatum _)
      have hclose := (scans_skipped _).zero_trans (scans_close closes)
      exact (hdot.zero_trans (Scans.zero_trans htail hclose)).of_rest rfl
  | closeVector closes =>
      exact fun _ => ((scans_skipped _).zero_trans (scans_close closes)).of_rest rfl
  | vectorItem _ _ _ _ ih₁ ih₂ =>
      exact fun _ => (scans_skipped _).zero_trans
        (Scans.zero_trans (ih₁ fun _ => skipped_atDatum _) (ih₂ (by simp)))

end Scans

/-! ## What the end of the text breaks off is left open -/

/-- With at least `low` parentheses open, but no more than leave `room` for others, what is left of
the text does not finish the input. -/
def LeavesOpen (room : Nat) (low : Int) (r : Reader) : Prop :=
  isPlainFrom .between r.cursor.rest = true → ∀ depth : Int, low ≤ depth →
    depth + room ≤ maxNesting → unfinishedFrom (Int32.ofInt depth) .code r.cursor.rest = true

section Open

variable {room : Nat} {low n : Int} {r r' : Reader} {e : SyntaxError} {rest : List Char}

theorem Scans.leavesOpen {room' : Nat} (h : Scans n r r') (hroom : n + room' ≤ room)
    (h' : LeavesOpen room' (low + n) r') : LeavesOpen room low r := by
  intro hplain depth hlow hhigh
  obtain ⟨hplain', hscan⟩ := h hplain
  rw [hscan, ← Int32.ofInt_add]
  exact h' hplain' _ (by omega) (by omega)

theorem LeavesOpen.mono {high : Int} (h : LeavesOpen room low r) (hle : low ≤ high) :
    LeavesOpen room high r :=
  fun hplain depth hdepth => h hplain depth (hle.trans hdepth)

theorem leavesOpen_of_end (h : r.skipped.cursor.rest = []) : LeavesOpen room 1 r := by
  refine (scans_skipped r).leavesOpen (Int.zero_add _).le fun _ depth hlow hhigh => ?_
  rw [h]
  show decide (0 < Int32.ofInt depth) = true
  -- The count is small enough for its 32 bits.
  have hmax : maxNesting = 256 := rfl
  rw [decide_eq_true_eq, Int32.lt_iff_toInt_lt, Int32.toInt_ofInt_of_le (by omega) (by omega)]
  exact hlow

theorem stringFrom_leavesOpen {text : List Char} {p : Position}
    (h : (Cursor.stringFrom text p).1 = none) (depth : Int32) :
    unfinishedFrom depth .string text = true := by
  induction text, p using Cursor.stringFrom.induct with
  | case1 p => rfl
  | case2 p => rfl
  | case3 c rest p body stop hrest ih =>
      rw [Cursor.stringFrom] at h
      exact ih (Option.map_eq_none_iff.mp h)
  | case4 rest p _ _ =>
      rw [stringFrom_plain (by decide), if_pos rfl] at h
      cases h
  | case5 c rest p hlast hmore hquote body stop hrest ih =>
      have hc : c ≠ '\\' := by
        intro hc
        cases rest with
        | nil => exact hlast hc rfl
        | cons c' rest' => exact hmore c' rest' hc rfl
      rw [stringFrom_plain hc, if_neg hquote] at h
      rw [unfinishedFrom, if_neg hc, if_neg hquote]
      exact ih (Option.map_eq_none_iff.mp h)

theorem leavesOpen_of_string (hr : r.cursor.rest = '"' :: rest)
    (h : (Cursor.stringFrom rest (r.cursor.position.after '"')).1 = none) :
    LeavesOpen room low r := by
  intro _ depth _ _
  rw [hr]
  exact stringFrom_leavesOpen h _

theorem Elements.scans {dots : Bool} {q : Reader} {items : List Datum}
    (h : Elements dots room q items r) : Scans 0 q r := by
  induction h with
  | none => exact scans_zero fun hplain => ⟨hplain, fun _ => rfl⟩
  | more _ _ _ item ih =>
      exact ih.zero_trans ((scans_skipped _).zero_trans (item.scans fun _ => skipped_atDatum _))

/-- Before a part of a datum, a parenthesis is opened at most. -/
theorem Enters.scans (h : Enters room r r') : Scans 0 r r' ∨ Scans 1 r r' := by
  cases h with
  | quoted opens _ => exact .inl ((scans_quote opens).zero_trans (scans_skipped _))
  | @element r₁ items b c text rest opens row _ _ _ =>
      exact .inr (((scans_bracket b opens).trans_zero row.scans).trans_zero (scans_skipped _))
  | tail opens row _ next dot _ =>
      have hpath := ((scans_bracket .list opens).trans_zero row.scans).trans_zero (scans_skipped _)
      exact .inr ((hpath.trans_zero (scans_dot next dot)).trans_zero (scans_skipped _))

/-- A datum that is broken off by the end of the text leaves the input open. -/
theorem Fails.leavesOpen (h : Fails room r e) (he : e.isUnterminated = true) :
    LeavesOpen room 0 r := by
  induction h with
  | string first contents => exact leavesOpen_of_string first contents
  | @unterminated room r r₁ items b text opens row ends =>
      exact ((scans_bracket b opens).trans_zero row.scans).leavesOpen (Int.add_comm _ _).le
        (leavesOpen_of_end ends)
  | untailed opens row next dot ends =>
      have hpath := (scans_bracket .list opens).trans_zero row.scans
      exact ((hpath.trans_zero (scans_skipped _)).trans_zero (scans_dot next dot)).leavesOpen
        (Int.add_comm _ _).le (leavesOpen_of_end ends)
  | inside enters _ ih =>
      rcases enters.scans with hscans | hscans
      · exact hscans.leavesOpen (by omega) (ih he)
      · exact hscans.leavesOpen (by omega) ((ih he).mono (by decide))
  -- The other errors are not about the end of the text.
  | close | hash | rational | number | deep | unquoted | leadingDot | unclosed => cases he

end Open
end Reader

/-! ## The scan agrees with the reader -/

namespace Reader

section Texts

variable {r r' : Reader} {ds : List Datum} {e : SyntaxError}

theorem YieldsAll.scans (h : YieldsAll r ds r') : Scans 0 r r' ∧ r'.cursor.rest = [] := by
  induction h with
  | done ends => exact ⟨scans_skipped _, ends⟩
  | form _ first _ ih =>
      have hfirst := (scans_skipped _).zero_trans (first.scans fun _ => skipped_atDatum _)
      exact ⟨Scans.zero_trans hfirst ih.1, ih.2⟩

theorem takeForms_leavesOpen {turns : Nat} (he : e.isUnterminated = true) (hr : r.failed = false)
    (h : takeForms turns r = (ds, some e)) : LeavesOpen maxNesting 0 r := by
  obtain ⟨items, r₁, hrow, -, hfails⟩ := takeForms_fails hr .none h
  exact (hrow.scans.zero_trans (scans_skipped r₁)).leavesOpen (Int.zero_add _).le
    (hfails.leavesOpen he)

end Texts
end Reader

namespace Repl

open Datum Reader

/-- If no symbol or number of an input has a parenthesis, a quotation mark or a semicolon in it, and
no dot touches one of these, the input is finished when it is read without an error, and goes on when
its end breaks off a list, a vector or a string. -/
theorem unfinished_agrees_with_reader {input : String} (hplain : isPlain input = true) :
    (∀ forms, parse input = .ok forms → unfinished input = false) ∧
      ∀ e, parse input = .error e → e.isUnterminated = true → unfinished input = true := by
  refine ⟨fun forms h => ?_, fun e h he => ?_⟩
  · obtain ⟨r', hall⟩ := parse_eq_ok_iff.mp h
    obtain ⟨hscans, hend⟩ := hall.scans
    have hscan := (hscans hplain).2 0
    rw [hend] at hscan
    exact hscan
  · have hall : readAll input = ((readAll input).1, some e) := by rw [← parse_eq_error_iff.mp h]
    exact takeForms_leavesOpen he rfl hall hplain 0 (Int.le_refl 0) (Int.zero_add _).le

/-- A list with a string and a comment, whole and broken off. -/
theorem commented_list_scanned :
    (∃ forms, parse "(a . #(\"(\")) ; (" = .ok forms ∧ unfinished "(a . #(\"(\")) ; (" = false) ∧
      ∃ e, parse "(a #(\")\") ; )" = .error e ∧ unfinished "(a #(\")\") ; )" = true := by
  have hwhole := parse_of_no_error
    (by decide +kernel : (readAll "(a . #(\"(\")) ; (").2 = none)
  have hbroken := parse_eq_error_iff.mpr
    (by decide +kernel : (readAll "(a #(\")\") ; )").2 = some (.unterminatedList ⟨0, 1, 1⟩))
  exact ⟨⟨_, hwhole, (unfinished_agrees_with_reader (by decide)).1 _ hwhole⟩,
    ⟨_, hbroken, (unfinished_agrees_with_reader (by decide)).2 _ hbroken rfl⟩⟩

/-- A semicolon in a symbol keeps a whole input waiting, and quotation marks in symbols let a list
that is broken off pass for finished. -/
theorem symbols_mislead_scan :
    (∃ forms, parse "'(a;b)" = .ok forms ∧ unfinished "'(a;b)" = true) ∧
      ∃ e, parse "(a\" \")\" b\"" = .error e ∧ e.isUnterminated = true ∧
        unfinished "(a\" \")\" b\"" = false := by
  have hbroken := parse_eq_error_iff.mpr
    (by decide +kernel : (readAll "(a\" \")\" b\"").2 = some (.unterminatedList ⟨0, 1, 1⟩))
  exact ⟨⟨_, rfl, by decide⟩, ⟨_, hbroken, rfl, by decide⟩⟩

end Repl
end SchemeMachine
