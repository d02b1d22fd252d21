import SchemeMachine.Proofs.Doubles.Numerals
import SchemeMachine.Proofs.Json.Texts

/-!
# JSON numerals

The texts of integers and of finite reals are JSON numbers.  A JSON number has no zero before other
digits and digits on both sides of its point, which the layouts of reals see to.
-/

namespace SchemeMachine

namespace Json

/-! ## The parts of a numeral -/

theorem digitsFront?_digits {digits rest : List Char} (h : Digits digits)
    (hrest : rest.head?.any Char.isDigit = false) : digitsFront? (digits ++ rest) = some rest := by
  obtain ⟨htake, hdrop⟩ := h.span hrest
  have hnonempty : digits.isEmpty = false := List.isEmpty_eq_false_iff.mpr h.nonempty
  rw [digitsFront?, htake, hdrop, hnonempty, if_neg Bool.false_ne_true]

/-- A numeral without its sign. -/
def unsigned : List Char → List Char
  | '-' :: rest => rest
  | rest => rest

/-- What follows the digits before the point. -/
def pastWhole? : List Char → Option (List Char)
  | '0' :: rest => some rest
  | rest => digitsFront? rest

/-- What follows the point and the digits behind it, if there is a point. -/
def pastFraction? : List Char → Option (List Char)
  | '.' :: rest => digitsFront? rest
  | rest => some rest

/-- What follows the sign of an exponent, if it has one. -/
def pastSign : List Char → List Char
  | '+' :: rest => rest
  | '-' :: rest => rest
  | rest => rest

/-- What follows the exponent, if there is one. -/
def pastExponent? : List Char → Option (List Char)
  | c :: rest => if c = 'e' ∨ c = 'E' then digitsFront? (pastSign rest) else some (c :: rest)
  | [] => some []

/-- A numeral is checked part by part. -/
theorem isNumeral_eq (text : List Char) :
    isNumeral text =
      (((pastWhole? (unsigned text)).bind pastFraction?).bind pastExponent? == some []) :=
  rfl

theorem not_minus_of_isDigit {c : Char} (h : c.isDigit = true) : c ≠ '-' ∧ c ≠ '+' := by
  constructor <;> rintro rfl <;> revert h <;> decide

theorem unsigned_of_isDigit {c : Char} (h : c.isDigit = true) (rest : List Char) :
    unsigned (c :: rest) = c :: rest := by
  rw [unsigned]
  exact fun _ heq => (not_minus_of_isDigit h).1 (List.cons.inj heq).1

theorem pastSign_digits {digits : List Char} (h : Digits digits) : pastSign digits = digits := by
  rw [pastSign]
  · rintro rest rfl
    exact (not_minus_of_isDigit (h.digit '+' List.mem_cons_self)).2 rfl
  · rintro rest rfl
    exact (not_minus_of_isDigit (h.digit '-' List.mem_cons_self)).1 rfl

theorem pastWhole?_digits {whole rest : List Char} (h : Digits whole)
    (hlead : whole = ['0'] ∨ whole.head? ≠ some '0')
    (hrest : rest.head?.any Char.isDigit = false) : pastWhole? (whole ++ rest) = some rest := by
  rcases hlead with rfl | hlead
  · rfl
  · rw [pastWhole?, digitsFront?_digits h hrest]
    intro rest' heq
    have hfirst := List.head?_append_of_ne_nil whole h.nonempty ▸ congrArg List.head? heq
    exact hlead hfirst

theorem pastExponent?_text {tail : List Char} {k : ℤ} (h : ExponentText tail k) :
    pastExponent? tail = some [] := by
  have hdigits : ∀ n, digitsFront? (Nat.toDigits 10 n) = some [] := by
    intro n
    have hfront := @digitsFront?_digits _ [] (digits_toDigits n) rfl
    rwa [List.append_nil] at hfront
  cases h with
  | absent => rfl
  | minus n => exact hdigits n
  | plus n => exact hdigits n
  | plain n =>
      rw [pastExponent?, if_pos (.inl rfl), pastSign_digits (digits_toDigits n)]
      exact hdigits n

/-- What spells a number is a numeral, also with a minus sign before it. -/
theorem isNumeral_spelled {text body : List Char} {v : ℚ} (h : Spelled body v)
    (htext : text = body ∨ text = '-' :: body) : isNumeral text = true := by
  have hunsigned : unsigned text = body := by
    rcases htext with rfl | rfl
    · obtain ⟨c, hhead, hc⟩ := h.head
      obtain ⟨rest, rfl⟩ := List.head?_eq_some_iff.mp hhead
      exact unsigned_of_isDigit hc rest
    · rfl
  rw [isNumeral_eq, hunsigned]
  cases h with
  | @point whole fraction tail k hwhole hfraction hlead htail =>
      have hpoint : pastFraction? ('.' :: (fraction ++ tail)) = some tail :=
        digitsFront?_digits hfraction htail.head.1
      rw [pastWhole?_digits hwhole hlead rfl, Option.bind_some, hpoint, Option.bind_some,
        pastExponent?_text htail]
      rfl
  | @whole whole tail k hwhole hlead htail =>
      have hnone : pastFraction? tail = some tail := by
        rw [pastFraction?]
        rintro rest rfl
        exact htail.head.2 rfl
      rw [pastWhole?_digits hwhole hlead htail.head.1, Option.bind_some, hnone, Option.bind_some,
        pastExponent?_text htail]
      rfl

theorem isNumeralChar_digits {digits : List Char} (h : Digits digits) :
    ∀ c ∈ digits, isNumeralChar c = true := by
  intro c hc
  rw [isNumeralChar, h.digit c hc]
  rfl

theorem isNumeralChar_exponent {tail : List Char} {k : ℤ} (h : ExponentText tail k) :
    ∀ c ∈ tail, isNumeralChar c = true := by
  have hdigits := fun n => isNumeralChar_digits (digits_toDigits n)
  cases h with
  | absent => exact fun c hc => absurd hc List.not_mem_nil
  | minus n => exact List.forall_mem_cons.mpr ⟨rfl, List.forall_mem_cons.mpr ⟨rfl, hdigits n⟩⟩
  | plus n => exact List.forall_mem_cons.mpr ⟨rfl, List.forall_mem_cons.mpr ⟨rfl, hdigits n⟩⟩
  | plain n => exact List.forall_mem_cons.mpr ⟨rfl, hdigits n⟩

theorem isNumeralChar_spelled {body : List Char} {v : ℚ} (h : Spelled body v) :
    ∀ c ∈ body, isNumeralChar c = true := by
  cases h with
  | point hwhole hfraction hlead htail =>
      refine List.forall_mem_append.mpr ⟨isNumeralChar_digits hwhole,
        List.forall_mem_cons.mpr ⟨rfl, ?_⟩⟩
      exact List.forall_mem_append.mpr
        ⟨isNumeralChar_digits hfraction, isNumeralChar_exponent htail⟩
  | whole hwhole hlead htail =>
      exact List.forall_mem_append.mpr ⟨isNumeralChar_digits hwhole, isNumeralChar_exponent htail⟩

/-- What spells a number is the text of a JSON number. -/
theorem isNumeral_of_spelled {numeral : String} {body : List Char} {v : ℚ} (h : Spelled body v)
    (htext : numeral.toList = body ∨ numeral.toList = '-' :: body) : IsNumeral numeral := by
  refine ⟨fun c hc => ?_, isNumeral_spelled h htext⟩
  rcases htext with htext | htext
  · rw [htext] at hc
    exact isNumeralChar_spelled h c hc
  · rw [htext] at hc
    rcases List.mem_cons.mp hc with rfl | hc
    · rfl
    · exact isNumeralChar_spelled h c hc

/-! ## The numerals of a program -/

theorem isNumeral_toDigits {numeral : String} {n : ℕ}
    (htext : numeral.toList = Nat.toDigits 10 n ∨ numeral.toList = '-' :: Nat.toDigits 10 n) :
    IsNumeral numeral := by
  have hlead : Nat.toDigits 10 n = ['0'] ∨ (Nat.toDigits 10 n).head? ≠ some '0' := by
    rcases Nat.eq_zero_or_pos n with rfl | hpos
    · exact .inl rfl
    · exact .inr (RealLayout.head?_toDigits hpos)
  have hspelled := Spelled.whole (digits_toDigits n) hlead .absent
  rw [List.append_nil] at hspelled
  exact isNumeral_of_spelled hspelled htext

theorem isNumeral_naturalText (n : ℕ) : IsNumeral (Decimal.naturalText n) :=
  isNumeral_toDigits (.inl String.toList_ofList)

theorem isNumeral_integerText (n : ℤ) : IsNumeral (Decimal.integerText n) := by
  have htext : (Decimal.integerText n).toList =
      if n < 0 then '-' :: Nat.toDigits 10 n.natAbs else Nat.toDigits 10 n.natAbs :=
    String.toList_ofList
  split at htext
  next => exact isNumeral_toDigits (.inr htext)
  next => exact isNumeral_toDigits (.inl htext)

theorem isNumeral_render (layout : RealLayout) {x : Float} (h : x.isFinite = true) :
    IsNumeral (layout.render x) := by
  obtain ⟨body, v, hspelled, htext⟩ := layout.spelled_render h
  exact isNumeral_of_spelled hspelled (htext.imp And.left And.left)

end Json
end SchemeMachine
