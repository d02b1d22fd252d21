import Mathlib.Data.List.Basic
import SchemeMachine.Datum.Printer
import SchemeMachine.Datum.Reader

/-!
# Tokens read back

What the reader makes of the characters of one token: blanks and comments are passed, a string
literal gives its contents, and the text of a number stands for that number.  That the decimal text
of a real stands for the same double is an assumption wherever it is needed; that it is a numeral at
all, and never that of an integer, is shown here.
-/

namespace SchemeMachine

/-! ## Blanks and comments -/

namespace Text

/-- Whether characters are blanks and comments only; `commented` tells whether they begin inside a
comment.  Every comment ends with its line. -/
def isAtmosphereFrom : Bool → List Char → Bool
  | commented, [] => !commented
  | true, c :: rest => isAtmosphereFrom (c != '\n') rest
  | false, c :: rest =>
    if isBlank c then isAtmosphereFrom false rest else c == ';' && isAtmosphereFrom true rest

/-- Blanks and comments only. -/
def isAtmosphere (text : List Char) : Bool :=
  isAtmosphereFrom false text

/-- Blanks and comments, a blank first. -/
def isSeparator (text : List Char) : Bool :=
  text.head?.any isBlank && isAtmosphere text

theorem isSeparator_iff {text : List Char} :
    isSeparator text = true ↔
      ∃ c rest, text = c :: rest ∧ isBlank c = true ∧ isAtmosphere text = true := by
  cases text with
  | nil => simp [isSeparator]
  | cons c rest => simp [isSeparator]

theorem isAtmosphere_of_isSeparator {text : List Char} (h : isSeparator text = true) :
    isAtmosphere text = true := by
  obtain ⟨-, -, -, -, hatmosphere⟩ := isSeparator_iff.mp h
  exact hatmosphere

theorem isAtmosphere_of_space {text : List Char} (h : text = [] ∨ isSeparator text = true) :
    isAtmosphere text = true := by
  rcases h with rfl | h
  · rfl
  · exact isAtmosphere_of_isSeparator h

end Text

open Text

/-- Blanks and comments are passed, whatever comes then. -/
theorem Cursor.skipFrom_append {text : List Char} (k : List Char) :
    ∀ {commented : Bool} (p : Position), isAtmosphereFrom commented text = true →
      Cursor.skipFrom commented (text ++ k) p = Cursor.skipFrom false k (p.afterAll text) := by
  induction text with
  | nil =>
      intro commented p h
      cases commented with
      | false => rfl
      | true => cases h
  | cons c rest ih =>
      intro commented p h
      cases commented with
      | true => exact ih (p.after c) h
      | false =>
          rw [List.cons_append, Cursor.skipFrom]
          rw [isAtmosphereFrom] at h
          by_cases hblank : isBlank c = true
          · rw [if_pos hblank] at h ⊢
            exact ih (p.after c) h
          · rw [if_neg hblank, Bool.and_eq_true, beq_iff_eq] at h
            rw [if_neg hblank, if_pos h.1]
            exact ih (p.after c) h.2

/-- Nothing is passed where something else stands. -/
theorem Cursor.skipFrom_cons {c : Char} (hblank : isBlank c = false) (hcomment : c ≠ ';')
    (rest : List Char) (p : Position) :
    Cursor.skipFrom false (c :: rest) p = ⟨c :: rest, p⟩ := by
  rw [Cursor.skipFrom, if_neg (by simp [hblank]), if_neg hcomment]

/-! ## Strings -/

/-- The contents of a string literal read back. -/
theorem Cursor.stringFrom_escaped (s k : List Char) :
    ∀ p, ∃ q, Cursor.stringFrom (escapedChars s ++ '"' :: k) p = (some s, ⟨k, q⟩) := by
  induction s with
  | nil => exact fun p => ⟨p.after '"', rfl⟩
  | cons c rest ih =>
      intro p
      rw [escapedChars]
      split
      next hescaped =>
        obtain ⟨q, hq⟩ := ih ((p.after '\\').after c)
        exact ⟨q, by simp [Cursor.stringFrom, hq]⟩
      next hplain =>
        rw [not_or] at hplain
        obtain ⟨q, hq⟩ := ih (p.after c)
        refine ⟨q, ?_⟩
        rw [List.cons_append, Cursor.stringFrom, if_neg hplain.1, hq]
        · rfl
        · exact fun h => absurd h hplain.2
        · exact fun _ _ h => absurd h hplain.2

/-! ## Tokens -/

/-- Characters that no delimiter is among are taken up to the next delimiter. -/
theorem Cursor.spanWhile_token {token k : List Char} (htoken : ∀ c ∈ token, isDelimiter c = false)
    (hk : endsToken k.head? = true) (p : Position) :
    Cursor.spanWhile (fun c => !isDelimiter c) ⟨token ++ k, p⟩ =
      (token, ⟨k, p.afterAll token⟩) := by
  have hall : ∀ c ∈ token, (!isDelimiter c) = true := by
    intro c hc
    rw [htoken c hc]
    rfl
  have hstop : k.takeWhile (fun c => !isDelimiter c) = [] ∧
      k.dropWhile (fun c => !isDelimiter c) = k := by
    cases k with
    | nil => exact ⟨rfl, rfl⟩
    | cons c rest =>
        have hc : isDelimiter c = true := by simpa [endsToken] using hk
        simp [hc]
  rw [Cursor.spanWhile, List.takeWhile_append_of_pos hall, List.dropWhile_append_of_pos hall,
    hstop.1, hstop.2, List.append_nil]

/-! ## Numerals -/

namespace Decimal

/-- The characters that numbers are written with. -/
def isNumeralChar (c : Char) : Bool :=
  c.isDigit || c == '.' || c == 'e' || c == '-'

theorem isNumeralChar_of_isDigit {c : Char} (h : c.isDigit = true) : isNumeralChar c = true := by
  simp [isNumeralChar, h]

theorem isNumeralChar_toDigits (n : Nat) : ∀ c ∈ Nat.toDigits 10 n, isNumeralChar c = true :=
  fun _ hc => isNumeralChar_of_isDigit (Nat.isDigit_of_mem_toDigits (by decide) (by decide) hc)

theorem isDigit_iff {c : Char} : c.isDigit = true ↔ 48 ≤ c.toNat ∧ c.toNat ≤ 57 := by
  simp only [Char.isDigit, Bool.and_eq_true, decide_eq_true_eq, ge_iff_le, UInt32.le_iff_toNat_le]
  rfl

theorem not_isBlank_of_isDigit {c : Char} (h : c.isDigit = true) : isBlank c = false := by
  obtain ⟨hlow, hhigh⟩ := isDigit_iff.mp h
  rw [← Bool.not_eq_true, isBlank, List.any_eq_true]
  rintro ⟨range, hrange, hin⟩
  simp only [blankRanges, List.mem_cons, List.not_mem_nil, or_false] at hrange
  rw [Bool.and_eq_true, decide_eq_true_eq, decide_eq_true_eq] at hin
  rcases hrange with rfl | rfl | rfl | rfl | rfl | rfl | rfl | rfl | rfl | rfl <;>
    simp only at hin <;> omega

theorem not_isDelimiter_of_isNumeralChar {c : Char} (h : isNumeralChar c = true) :
    isDelimiter c = false ∧ c ≠ '/' := by
  simp only [isNumeralChar, Bool.or_eq_true, beq_iff_eq] at h
  rcases h with ((h | rfl) | rfl) | rfl
  · refine ⟨?_, ?_⟩
    · have hclose : c ≠ ')' := by
        rintro rfl
        revert h
        decide
      simp [isDelimiter, hclose, not_isBlank_of_isDigit h]
    · rintro rfl
      revert h
      decide
  · decide
  · decide
  · decide

theorem natural?_toDigits (n : Nat) : natural? (Nat.toDigits 10 n) = some n := by
  have hdigits : (Nat.toDigits 10 n).all Char.isDigit = true :=
    List.all_eq_true.mpr fun _ hc => Nat.isDigit_of_mem_toDigits (by decide) (by decide) hc
  have hne : (Nat.toDigits 10 n).isEmpty = false := by
    rw [List.isEmpty_eq_false_iff]
    exact Nat.toDigits_ne_nil
  rw [natural?, hdigits, hne]
  exact congrArg some Nat.ofDigitChars_ten_toDigits

/-- Digits carry no sign. -/
theorem splitSign_of_isDigit {c : Char} (h : c.isDigit = true) (rest : List Char) :
    splitSign (c :: rest) = (false, c :: rest) := by
  have hminus : c ≠ '-' := by
    rintro rfl
    revert h
    decide
  have hplus : c ≠ '+' := by
    rintro rfl
    revert h
    decide
  unfold splitSign
  split
  · rename_i heq
    exact absurd (List.cons.inj heq).1 hminus
  · rename_i heq
    exact absurd (List.cons.inj heq).1 hplus
  · rfl

theorem exists_toDigits_cons (n : Nat) :
    ∃ c rest, Nat.toDigits 10 n = c :: rest ∧ c.isDigit = true := by
  cases h : Nat.toDigits 10 n with
  | nil => exact absurd h Nat.toDigits_ne_nil
  | cons c rest =>
      refine ⟨c, rest, rfl, ?_⟩
      have hmem : c ∈ Nat.toDigits 10 n := by
        rw [h]
        exact List.mem_cons_self
      exact Nat.isDigit_of_mem_toDigits (by decide) (by decide) hmem

/-- The numeral of an integer stands for it. -/
theorem integer?_integerText (n : Int) : integer? (integerText n).toList = some n := by
  rw [integerText, String.toList_ofList]
  split
  next hneg =>
    simp only [integer?, splitSign, natural?_toDigits, Option.bind_some, Option.map_some, pure,
      if_true, bind]
    congr 1
    omega
  next hneg =>
    obtain ⟨c, rest, hdigits, hc⟩ := exists_toDigits_cons n.natAbs
    have hvalue := natural?_toDigits n.natAbs
    rw [hdigits] at hvalue ⊢
    simp only [integer?, splitSign_of_isDigit hc, hvalue, Option.bind_some, Option.map_some, pure,
      Bool.false_eq_true, if_false, bind]
    congr 1
    omega

/-- A text with another character than a digit behind its sign is no numeral of an integer. -/
theorem integer?_eq_none {text : List Char} {c : Char} (hc : c ∈ text) (hdigit : c.isDigit = false)
    (hminus : c ≠ '-') (hplus : c ≠ '+') : integer? text = none := by
  have hnatural : ∀ digits : List Char, c ∈ digits → natural? digits = none := by
    intro digits hmem
    rw [natural?, if_neg]
    rw [Bool.and_eq_true, List.all_eq_true]
    rintro ⟨-, hall⟩
    rw [hall c hmem] at hdigit
    cases hdigit
  unfold integer? splitSign
  split
  · rename_i heq
    split at heq
    · cases heq
      rw [hnatural _ ((List.mem_cons.mp hc).resolve_left hminus)]
      rfl
    · cases heq
      rw [hnatural _ ((List.mem_cons.mp hc).resolve_left hplus)]
      rfl
    · cases heq
      rw [hnatural _ hc]
      rfl

end Decimal

/-! ## Texts of numbers -/

namespace RealLayout

open Decimal

theorem isDigit_of_mem_significant {digits : List Char} (h : ∀ c ∈ digits, c.isDigit = true) :
    ∀ c ∈ significant digits, c.isDigit = true := by
  intro c hc
  rw [significant, List.mem_reverse] at hc
  exact h c (List.mem_reverse.mp ((List.dropWhile_suffix _).subset hc))

/-- The magnitude of a real as it is written: numeral characters, with a point or an exponent among
them, and first a digit, or no digit at all. -/
structure IsMagnitude (text : List Char) : Prop where
  chars : ∀ c ∈ text, isNumeralChar c = true
  marked : '.' ∈ text ∨ 'e' ∈ text
  begins : text.head?.any Char.isDigit = true ∨ text.head? = some 'e'

theorem isMagnitude_positional {digits : List Char} (h : ∀ c ∈ digits, c.isDigit = true)
    (lead : Int) : IsMagnitude (positional digits lead) := by
  have hdigits : ∀ c ∈ digits, isNumeralChar c = true :=
    fun c hc => isNumeralChar_of_isDigit (h c hc)
  rw [positional]
  split
  · refine ⟨?_, Or.inl (by simp), Or.inl rfl⟩
    intro c hc
    simp only [List.mem_cons, List.mem_append, List.mem_replicate] at hc
    rcases hc with rfl | rfl | ⟨-, rfl⟩ | hc
    · rfl
    · rfl
    · rfl
    · exact hdigits c hc
  · refine ⟨?_, Or.inl (by simp), Or.inl ?_⟩
    · intro c hc
      simp only [List.mem_append, List.mem_cons, List.mem_replicate] at hc
      rcases hc with (hc | ⟨-, rfl⟩) | rfl | hc
      · exact hdigits c (List.mem_of_mem_take hc)
      · rfl
      · rfl
      · split at hc
        · rw [List.mem_singleton.mp hc]
          rfl
        · exact hdigits c (List.mem_of_mem_drop hc)
    · -- There is a digit before the point, a zero if no other.
      cases digits with
      | nil => simp [List.replicate_succ]
      | cons c rest => simp [h c List.mem_cons_self]

theorem isMagnitude_scientific {layout : RealLayout} (hplus : layout.exponentPlus = false)
    {digits : List Char} (h : ∀ c ∈ digits, c.isDigit = true) (lead : Int) :
    IsMagnitude (layout.scientific digits lead) := by
  have hdigits : ∀ c ∈ digits, isNumeralChar c = true :=
    fun c hc => isNumeralChar_of_isDigit (h c hc)
  rw [scientific, hplus]
  refine ⟨?_, Or.inr (by simp), ?_⟩
  · intro c hc
    simp only [List.mem_append, List.mem_cons] at hc
    rcases hc with ((hc | hc) | rfl | hc) | hc
    · exact hdigits c (List.mem_of_mem_take hc)
    · split at hc
      · cases hc
      · rcases List.mem_cons.mp hc with rfl | hc
        · rfl
        · exact hdigits c (List.mem_of_mem_drop hc)
    · rfl
    · split at hc
      · rw [List.mem_singleton.mp hc]
        rfl
      · cases hc
    · exact isNumeralChar_toDigits _ c hc
  · cases digits with
    | nil => exact Or.inr rfl
    | cons c rest => exact Or.inl (by simp [h c List.mem_cons_self])

theorem isMagnitude_magnitude {layout : RealLayout} (hplus : layout.exponentPlus = false)
    (d : Decimal) : IsMagnitude (layout.magnitude d) := by
  have hdigits : ∀ c ∈ significant (Nat.toDigits 10 d.coefficient), c.isDigit = true :=
    isDigit_of_mem_significant fun _ hc => Nat.isDigit_of_mem_toDigits (by decide) (by decide) hc
  rw [magnitude]
  split
  · exact isMagnitude_positional hdigits _
  · exact isMagnitude_scientific hplus hdigits _

end RealLayout

theorem not_isNaN_of_isFinite {x : Float} (h : x.isFinite = true) :
    x.isNaN = false ∧ x.isInf = false := by
  change x.toModel.unpack.isFinite = true at h
  change x.toModel.unpack.isNaN = false ∧ x.toModel.unpack.isInf = false
  cases hunpack : x.toModel.unpack with
  | infinity sign =>
      rw [hunpack] at h
      cases h
  | notANumber =>
      rw [hunpack] at h
      cases h
  | zero sign => exact ⟨rfl, rfl⟩
  | finite sign mantissa exponent mantissa_pos => exact ⟨rfl, rfl⟩

/-- A finite double equals itself. -/
theorem beq_self_of_isFinite {x : Float} (h : x.isFinite = true) : (x == x) = true := by
  change x.toModel.unpack.isFinite = true at h
  change (x.toModel.unpack.compare x.toModel.unpack == some .eq) = true
  cases hunpack : x.toModel.unpack with
  | infinity sign =>
      rw [hunpack] at h
      cases h
  | notANumber =>
      rw [hunpack] at h
      cases h
  | zero sign => rfl
  | finite sign mantissa exponent mantissa_pos =>
      unfold Float.Model.UnpackedFloat.compare
      cases sign <;> simp

theorem Number.text_real {x : Float} (h : x.isFinite = true) :
    ∃ body, RealLayout.IsMagnitude body ∧
      ((Number.real x).text.toList = body ∨ (Number.real x).text.toList = '-' :: body) := by
  obtain ⟨hnan, hinf⟩ := not_isNaN_of_isFinite h
  have hbody : RealLayout.IsMagnitude
      (if (Binary.ofBits x.toBits).mantissa = 0 then ['0', '.', '0']
        else display.magnitude ((Binary.ofBits x.toBits).shortest display.tie)) := by
    split
    · exact ⟨List.all_eq_true.mp (by decide), Or.inl (by decide), Or.inl rfl⟩
    · exact RealLayout.isMagnitude_magnitude rfl _
  refine ⟨_, hbody, ?_⟩
  simp only [Number.text, RealLayout.render, hnan, hinf, Bool.false_eq_true, if_false,
    String.toList_ofList]
  by_cases hnegative : (x.toBits.toNat / Nat.pow 2 63 == 1) = true
  · exact Or.inr (if_pos hnegative)
  · exact Or.inl (if_neg hnegative)

namespace Reader

open Decimal

/-- A token that is read as a number. -/
structure Numeral (token : List Char) (n : Number) : Prop where
  chars : ∀ c ∈ token, isNumeralChar c = true
  begins : ∃ c rest, token = c :: rest ∧ (c.isDigit = true ∨ c = '-' ∧ rest ≠ [])
  value : number? token = some n

theorem numeral_int (n : Int64) : Numeral (Number.int n).text.toList (.int n) := by
  have hfits : Number.int64? n.toInt = some n := (Number.int64?_eq_some_iff _ _).mpr rfl
  refine ⟨?_, ?_, ?_⟩
  · intro c hc
    rw [Number.text, integerText, String.toList_ofList] at hc
    split at hc
    · rcases List.mem_cons.mp hc with rfl | hc
      · rfl
      · exact isNumeralChar_toDigits _ c hc
    · exact isNumeralChar_toDigits _ c hc
  · rw [Number.text, integerText, String.toList_ofList]
    split
    · exact ⟨'-', _, rfl, Or.inr ⟨rfl, Nat.toDigits_ne_nil⟩⟩
    · obtain ⟨c, rest, hdigits, hc⟩ := exists_toDigits_cons n.toInt.natAbs
      exact ⟨c, rest, hdigits, Or.inl hc⟩
  · rw [number?, Number.text, integer?_integerText, Option.bind_some, hfits]

/-- The text of a finite real is a numeral, as soon as it stands for the same double. -/
theorem numeral_real {x : Float} (hfinite : x.isFinite = true)
    (hvalue : float? (Number.real x).text.toList = some x) :
    Numeral (Number.real x).text.toList (.real x) := by
  obtain ⟨body, hbody, htext⟩ := Number.text_real hfinite
  have hmarked : ∃ c ∈ (Number.real x).text.toList, c.isDigit = false ∧ c ≠ '-' ∧ c ≠ '+' := by
    have hmem : ∀ c ∈ body, c ∈ (Number.real x).text.toList := by
      intro c hc
      rcases htext with htext | htext
      · rwa [htext]
      · rw [htext]
        exact List.mem_cons_of_mem _ hc
    rcases hbody.marked with hpoint | hexponent
    · exact ⟨'.', hmem _ hpoint, by decide⟩
    · exact ⟨'e', hmem _ hexponent, by decide⟩
  refine ⟨?_, ?_, ?_⟩
  · intro c hc
    rcases htext with htext | htext
    · rw [htext] at hc
      exact hbody.chars c hc
    · rw [htext] at hc
      rcases List.mem_cons.mp hc with rfl | hc
      · rfl
      · exact hbody.chars c hc
  · rcases htext with htext | htext
    · -- A text that begins with its exponent stands for nothing.
      cases body with
      | nil => exact absurd hbody.begins (by simp)
      | cons c rest =>
          refine ⟨c, rest, htext, Or.inl ?_⟩
          rcases hbody.begins with hdigit | hexponent
          · exact hdigit
          · rw [htext, Option.some.inj hexponent] at hvalue
            cases hvalue
    · refine ⟨'-', body, htext, Or.inr ⟨rfl, ?_⟩⟩
      rintro rfl
      exact absurd hbody.begins (by simp)
  · obtain ⟨c, hc, hdigit, hminus, hplus⟩ := hmarked
    rw [number?, integer?_eq_none hc hdigit hminus hplus, Option.bind_none, hvalue]
    rfl

end Reader
end SchemeMachine
