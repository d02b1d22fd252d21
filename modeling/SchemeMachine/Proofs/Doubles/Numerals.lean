import SchemeMachine.Proofs.Doubles.Shortest
import SchemeMachine.Proofs.Reading.Tokens

/-!
# Texts of doubles read back

The text of a decimal is a numeral that stands for the same number, however its digits and its
exponent are laid out.  So the text of a finite double, in every layout, is read as that double.
-/

namespace SchemeMachine

open Decimal Double

namespace Decimal

/-! ## The value of digits -/

theorem foldl_digits (digits : List Char) (n : ℕ) :
    digits.foldl (fun n c => 10 * n + digitValue c) n =
      n * 10 ^ digits.length + ofDigits digits := by
  induction digits generalizing n with
  | nil => simp [ofDigits]
  | cons c rest ih =>
      rw [ofDigits, List.foldl_cons, List.foldl_cons, ih, ih (10 * 0 + digitValue c),
        List.length_cons]
      ring

theorem ofDigits_append (front back : List Char) :
    ofDigits (front ++ back) = ofDigits front * 10 ^ back.length + ofDigits back := by
  rw [ofDigits, List.foldl_append, foldl_digits back]
  rfl

theorem ofDigits_replicate (n : ℕ) : ofDigits (List.replicate n '0') = 0 := by
  induction n with
  | zero => rfl
  | succ n ih =>
      rw [List.replicate_succ']
      rw [ofDigits_append, ih]
      rfl

theorem ofDigits_toDigits (n : ℕ) : ofDigits (Nat.toDigits 10 n) = n :=
  Nat.ofDigitChars_ten_toDigits

theorem ofDigits_lt {digits : List Char} (h : ∀ c ∈ digits, c.isDigit = true) :
    ofDigits digits < 10 ^ digits.length := by
  induction digits with
  | nil => decide
  | cons c rest ih =>
      have hc : digitValue c ≤ 9 := by
        obtain ⟨-, hhigh⟩ := isDigit_iff.mp (h c List.mem_cons_self)
        show c.toNat - 48 ≤ 9
        omega
      have hrest := ih fun c hc => h c (List.mem_cons_of_mem _ hc)
      have hfirst : ofDigits [c] = digitValue c := by simp [ofDigits]
      rw [← List.singleton_append, ofDigits_append, hfirst, List.length_append,
        List.length_singleton, pow_add, pow_one]
      calc digitValue c * 10 ^ rest.length + ofDigits rest
          < digitValue c * 10 ^ rest.length + 10 ^ rest.length := Nat.add_lt_add_left hrest _
        _ = (digitValue c + 1) * 10 ^ rest.length := by ring
        _ ≤ 10 * 10 ^ rest.length := Nat.mul_le_mul_right _ (by omega)

/-- The zeros at the end are those that were not significant. -/
theorem exists_significant (digits : List Char) :
    ∃ zeros, digits = RealLayout.significant digits ++ List.replicate zeros '0' := by
  have hzeros : digits.reverse.takeWhile (· == '0') =
      List.replicate (digits.reverse.takeWhile (· == '0')).length '0' := by
    refine List.eq_replicate_of_mem fun c hc => ?_
    exact beq_iff_eq.mp (List.all_eq_true.mp List.all_takeWhile c hc)
  refine ⟨(digits.reverse.takeWhile (· == '0')).length, ?_⟩
  calc digits = digits.reverse.reverse := digits.reverse_reverse.symm
    _ = (digits.reverse.takeWhile (· == '0') ++ digits.reverse.dropWhile (· == '0')).reverse := by
        rw [List.takeWhile_append_dropWhile]
    _ = RealLayout.significant digits ++ (digits.reverse.takeWhile (· == '0')).reverse :=
        List.reverse_append
    _ = _ := by rw [hzeros, List.reverse_replicate, List.length_replicate]

end Decimal

/-! ## Numerals taken apart -/

/-- The text of an exponent with its mark, or no text. -/
inductive ExponentText : List Char → ℤ → Prop where
  | absent : ExponentText [] 0
  | minus (n : ℕ) : ExponentText ('e' :: '-' :: Nat.toDigits 10 n) (-n)
  | plus (n : ℕ) : ExponentText ('e' :: '+' :: Nat.toDigits 10 n) n
  | plain (n : ℕ) : ExponentText ('e' :: Nat.toDigits 10 n) n

/-- A nonempty row of digits. -/
structure Digits (text : List Char) : Prop where
  digit : ∀ c ∈ text, c.isDigit = true
  nonempty : text ≠ []

/-- An unsigned numeral with digits on both sides of a point or without a point, and the number that
it stands for.  More than one digit before the point do not begin with a zero. -/
inductive Spelled : List Char → ℚ → Prop where
  | point {whole fraction tail : List Char} {k : ℤ} (hwhole : Digits whole)
      (hfraction : Digits fraction) (hlead : whole = ['0'] ∨ whole.head? ≠ some '0')
      (htail : ExponentText tail k) :
      Spelled (whole ++ '.' :: (fraction ++ tail))
        (Decimal.value ⟨ofDigits (whole ++ fraction), k - fraction.length⟩)
  | whole {whole tail : List Char} {k : ℤ} (hwhole : Digits whole)
      (hlead : whole = ['0'] ∨ whole.head? ≠ some '0') (htail : ExponentText tail k) :
      Spelled (whole ++ tail) (Decimal.value ⟨ofDigits whole, k⟩)

variable {text : List Char}

theorem Digits.head (h : Digits text) (rest : List Char) :
    ∃ c, (text ++ rest).head? = some c ∧ c.isDigit = true := by
  cases text with
  | nil => exact absurd rfl h.nonempty
  | cons c digits => exact ⟨c, rfl, h.digit c List.mem_cons_self⟩

theorem Digits.append {front back : List Char} (h : Digits front)
    (hback : ∀ c ∈ back, c.isDigit = true) : Digits (front ++ back) where
  digit c hc := (List.mem_append.mp hc).elim (h.digit c) (hback c)
  nonempty := List.append_ne_nil_of_left_ne_nil h.nonempty back

theorem digits_toDigits (n : ℕ) : Digits (Nat.toDigits 10 n) where
  digit _ hc := Nat.isDigit_of_mem_toDigits (by decide) (by decide) hc
  nonempty := Nat.toDigits_ne_nil

/-- Digits end where something else begins. -/
theorem Digits.span {rest : List Char} (h : Digits text)
    (hrest : rest.head?.any Char.isDigit = false) :
    (text ++ rest).takeWhile Char.isDigit = text ∧
      (text ++ rest).dropWhile Char.isDigit = rest := by
  have hstop : rest.takeWhile Char.isDigit = [] ∧ rest.dropWhile Char.isDigit = rest := by
    cases rest with
    | nil => exact ⟨rfl, rfl⟩
    | cons c rest =>
        have hc : c.isDigit = false := by simpa using hrest
        simp [hc]
  rw [List.takeWhile_append_of_pos h.digit, List.dropWhile_append_of_pos h.digit, hstop.1, hstop.2,
    List.append_nil]
  exact ⟨rfl, rfl⟩

theorem splitSign_of_head {text : List Char} {c : Char} (h : text.head? = some c)
    (hc : c.isDigit = true) : splitSign text = (false, text) := by
  cases text with
  | nil => cases h
  | cons c' rest =>
      cases h
      exact splitSign_of_isDigit hc rest

theorem integer?_of_splitSign {text : List Char} {negative : Bool} {n : ℕ}
    (h : splitSign text = (negative, Nat.toDigits 10 n)) :
    integer? text = some (if negative then -(n : ℤ) else n) := by
  simp [integer?, h, natural?_toDigits]

theorem ExponentText.exponent? {tail : List Char} {k : ℤ} (h : ExponentText tail k) :
    Decimal.exponent? tail = some k := by
  cases h with
  | absent => rfl
  | minus n =>
      rw [Decimal.exponent?, if_pos (.inl rfl)]
      exact @integer?_of_splitSign ('-' :: Nat.toDigits 10 n) true n rfl
  | plus n =>
      rw [Decimal.exponent?, if_pos (.inl rfl)]
      exact @integer?_of_splitSign ('+' :: Nat.toDigits 10 n) false n rfl
  | plain n =>
      obtain ⟨c, hhead, hc⟩ := (digits_toDigits n).head []
      rw [List.append_nil] at hhead
      rw [Decimal.exponent?, if_pos (.inl rfl)]
      exact integer?_of_splitSign (splitSign_of_head hhead hc)

theorem ExponentText.head {tail : List Char} {k : ℤ} (h : ExponentText tail k) :
    tail.head?.any Char.isDigit = false ∧ tail.head? ≠ some '.' := by
  cases h <;> exact ⟨rfl, by simp⟩

namespace Spelled

variable {text : List Char} {v : ℚ}

theorem head (h : Spelled text v) : ∃ c, text.head? = some c ∧ c.isDigit = true := by
  cases h with
  | point hwhole => exact hwhole.head _
  | whole hwhole => exact hwhole.head _

/-- A numeral is read as the number that it stands for, and with the sign before it. -/
theorem real? (h : Spelled text v) {signed : List Char} {negative : Bool}
    (hsign : splitSign signed = (negative, text)) :
    ∃ d : Decimal, Decimal.real? signed = some (negative, d) ∧ d.value = v := by
  cases h with
  | @point whole fraction tail k hwhole hfraction hlead htail =>
      obtain ⟨htake, hdrop⟩ := @Digits.span whole ('.' :: (fraction ++ tail)) hwhole rfl
      obtain ⟨htake', hdrop'⟩ := hfraction.span htail.head.1
      have hnonempty : whole.isEmpty = false := List.isEmpty_eq_false_iff.mpr hwhole.nonempty
      refine ⟨_, ?_, rfl⟩
      rw [Decimal.real?, hsign]
      simp [htake, hdrop, htake', hdrop', hnonempty, htail.exponent?]
  | @whole whole tail k hwhole hlead htail =>
      obtain ⟨htake, hdrop⟩ := hwhole.span htail.head.1
      have hnonempty : whole.isEmpty = false := List.isEmpty_eq_false_iff.mpr hwhole.nonempty
      refine ⟨_, ?_, rfl⟩
      rw [Decimal.real?, hsign]
      simp only [htake, hdrop]
      split
      · exact absurd rfl htail.head.2
      · simp [hnonempty, htail.exponent?]

end Spelled

namespace RealLayout

/-! ## The value of a text -/

section Values

variable {digits : List Char}

/-- Digits whose first one has the place `lead`. -/
def placed (digits : List Char) (lead : ℤ) : ℚ :=
  ofDigits digits * 10 ^ (lead + 1 - digits.length)

theorem digits_replicate {n : ℕ} : ∀ c ∈ List.replicate n '0', c.isDigit = true := by
  intro c hc
  rw [List.eq_of_mem_replicate hc]
  rfl

theorem digits_zero : Digits ['0'] := ⟨List.all_eq_true.mp (by decide), List.cons_ne_nil _ _⟩

/-- A zero before the point, and zeros behind it up to the first digit. -/
theorem spelled_below_one (h : Digits digits) {lead : ℤ} (hlead : lead < 0) :
    Spelled ('0' :: '.' :: (List.replicate (-lead - 1).toNat '0' ++ digits))
      (placed digits lead) := by
  have hfraction : Digits (List.replicate (-lead - 1).toNat '0' ++ digits) :=
    ⟨fun c hc => (List.mem_append.mp hc).elim (digits_replicate c) (h.digit c),
      List.append_ne_nil_of_right_ne_nil _ h.nonempty⟩
  have hspelled := Spelled.point digits_zero hfraction (.inl rfl) .absent
  have hvalue : Decimal.value
      ⟨ofDigits (['0'] ++ (List.replicate (-lead - 1).toNat '0' ++ digits)),
      0 - (List.replicate (-lead - 1).toNat '0' ++ digits).length⟩ = placed digits lead := by
    rw [Decimal.value, placed, ofDigits_append, ofDigits_append, ofDigits_replicate,
      show ofDigits ['0'] = 0 from rfl, List.length_append, List.length_replicate, zero_mul,
      zero_mul, zero_add, zero_add]
    congr 2
    push_cast
    omega
  rwa [List.append_nil, hvalue] at hspelled

/-- Digits that end before the point, with zeros in the places up to it. -/
theorem spelled_whole (h : Digits digits) (hfirst : digits.head? ≠ some '0') {lead : ℤ}
    (hlead : 0 ≤ lead) (hshort : digits.length ≤ lead.toNat + 1) :
    Spelled (digits ++ List.replicate (lead.toNat + 1 - digits.length) '0' ++ '.' :: ['0'])
      (placed digits lead) := by
  have hwhole := h.append (@digits_replicate (lead.toNat + 1 - digits.length))
  have hhead :
      (digits ++ List.replicate (lead.toNat + 1 - digits.length) '0').head? ≠ some '0' := by
    rw [List.head?_append_of_ne_nil _ h.nonempty]
    exact hfirst
  have hspelled := Spelled.point hwhole digits_zero (.inr hhead) .absent
  have hvalue : Decimal.value ⟨ofDigits (digits ++
      List.replicate (lead.toNat + 1 - digits.length) '0' ++ ['0']), 0 - (['0'].length : ℤ)⟩ =
      placed digits lead := by
    have hplaces : lead + 1 - digits.length = ((lead.toNat + 1 - digits.length : ℕ) : ℤ) := by
      omega
    rw [Decimal.value, placed, ofDigits_append, ofDigits_append, ofDigits_replicate,
      show ofDigits ['0'] = 0 from rfl, List.length_replicate, hplaces, zpow_natCast]
    push_cast
    norm_num
    ring
  rwa [hvalue] at hspelled

/-- A point among the digits. -/
theorem spelled_between (h : Digits digits) (hfirst : digits.head? ≠ some '0') {lead : ℤ}
    (hlead : 0 ≤ lead) (hlong : lead.toNat + 1 < digits.length) :
    Spelled (digits.take (lead.toNat + 1) ++ '.' :: digits.drop (lead.toNat + 1))
      (placed digits lead) := by
  have hwhole : Digits (digits.take (lead.toNat + 1)) := by
    refine ⟨fun c hc => h.digit c (List.mem_of_mem_take hc), List.ne_nil_of_length_pos ?_⟩
    rw [List.length_take]
    omega
  have hfraction : Digits (digits.drop (lead.toNat + 1)) := by
    refine ⟨fun c hc => h.digit c (List.mem_of_mem_drop hc), ?_⟩
    rw [Ne, List.drop_eq_nil_iff]
    omega
  have hhead : (digits.take (lead.toNat + 1)).head? ≠ some '0' := by
    rw [List.head?_take, if_neg (by omega)]
    exact hfirst
  have hspelled := Spelled.point hwhole hfraction (.inr hhead) .absent
  have hvalue : Decimal.value ⟨ofDigits digits,
      0 - ((digits.drop (lead.toNat + 1)).length : ℤ)⟩ = placed digits lead := by
    rw [Decimal.value, placed, List.length_drop]
    congr 2
    show 0 - ((digits.length - (lead.toNat + 1) : ℕ) : ℤ) = lead + 1 - digits.length
    omega
  rwa [List.append_nil, List.take_append_drop, hvalue] at hspelled

theorem spelled_positional (h : Digits digits) (hfirst : digits.head? ≠ some '0') (lead : ℤ) :
    Spelled (positional digits lead) (placed digits lead) := by
  rw [positional]
  split
  next hneg => exact spelled_below_one h hneg
  next hnonneg =>
    simp only
    by_cases hshort : digits.length ≤ lead.toNat + 1
    · rw [List.take_of_length_le hshort, List.drop_of_length_le hshort]
      exact spelled_whole h hfirst (by omega) hshort
    · have hfront : (digits.take (lead.toNat + 1)).length = lead.toNat + 1 := by
        rw [List.length_take]
        omega
      have hback : (digits.drop (lead.toNat + 1)).isEmpty = false := by
        rw [List.isEmpty_eq_false_iff, Ne, List.drop_eq_nil_iff]
        exact hshort
      rw [hback, hfront, Nat.sub_self, List.replicate_zero, List.append_nil,
        if_neg Bool.false_ne_true]
      exact spelled_between h hfirst (by omega) (by omega)

/-- The exponent as it is written. -/
theorem exponentText_mark (layout : RealLayout) (lead : ℤ) :
    ExponentText ('e' :: ((if lead < 0 then ['-'] else if layout.exponentPlus then ['+'] else []) ++
      Nat.toDigits 10 lead.natAbs)) lead := by
  split
  next hneg =>
    have h := ExponentText.minus lead.natAbs
    rwa [show -(lead.natAbs : ℤ) = lead by omega] at h
  next hnonneg =>
    have hlead : (lead.natAbs : ℤ) = lead := by omega
    split
    next =>
      have h := ExponentText.plus lead.natAbs
      rwa [hlead] at h
    next =>
      have h := ExponentText.plain lead.natAbs
      rwa [hlead] at h

theorem spelled_scientific (layout : RealLayout) (h : Digits digits)
    (hfirst : digits.head? ≠ some '0') (lead : ℤ) :
    Spelled (layout.scientific digits lead) (placed digits lead) := by
  have htail := exponentText_mark layout lead
  cases digits with
  | nil => exact absurd rfl h.nonempty
  | cons c rest =>
      have hwhole : Digits [c] :=
        ⟨fun x hx => h.digit x (List.mem_of_mem_head? (by simp_all)), List.cons_ne_nil c []⟩
      cases rest with
      | nil =>
          have hspelled := Spelled.whole hwhole (.inr hfirst) htail
          have hvalue : Decimal.value ⟨ofDigits [c], lead⟩ = placed [c] lead := by
            rw [Decimal.value, placed]
            congr 2
            simp
          rw [hvalue] at hspelled
          simpa [scientific] using hspelled
      | cons c' rest =>
          have hfraction : Digits (c' :: rest) :=
            ⟨fun x hx => h.digit x (List.mem_cons_of_mem c hx), List.cons_ne_nil c' rest⟩
          have hspelled := Spelled.point hwhole hfraction (.inr hfirst) htail
          have hvalue : Decimal.value ⟨ofDigits ([c] ++ c' :: rest),
              lead - ((c' :: rest).length : ℤ)⟩ = placed (c :: c' :: rest) lead := by
            rw [Decimal.value, placed]
            congr 2
            show lead - ((rest.length + 1 : ℕ) : ℤ) = lead + 1 - ((rest.length + 1 + 1 : ℕ) : ℤ)
            omega
          rw [hvalue] at hspelled
          simpa [scientific] using hspelled

end Values

/-- The digits of a number do not begin with a zero. -/
theorem head?_toDigits {n : ℕ} (hpos : 0 < n) : (Nat.toDigits 10 n).head? ≠ some '0' := by
  intro hzero
  cases hdigits : Nat.toDigits 10 n with
  | nil => exact Nat.toDigits_ne_nil hdigits
  | cons c rest =>
      rw [hdigits] at hzero
      cases hzero
      have hvalue := ofDigits_toDigits n
      rw [hdigits, ← List.singleton_append, ofDigits_append, show ofDigits ['0'] = 0 from rfl,
        zero_mul, zero_add] at hvalue
      have hrest : ∀ c ∈ rest, c.isDigit = true := by
        intro c hc
        refine (digits_toDigits n).digit c ?_
        rw [hdigits]
        exact List.mem_cons_of_mem _ hc
      -- Without the zero the digits would still suffice for the number.
      have hlt := ofDigits_lt hrest
      rw [hvalue] at hlt
      cases rest with
      | nil => exact absurd hvalue hpos.ne
      | cons c rest =>
          have hfits := (Nat.length_toDigits_le_iff (by omega) (Nat.succ_pos _)).mpr hlt
          simp only [hdigits, List.length_cons] at hfits
          omega

/-- The text of a decimal stands for it. -/
theorem spelled_magnitude (layout : RealLayout) {d : Decimal} (hpos : 0 < d.coefficient) :
    Spelled (layout.magnitude d) d.value := by
  obtain ⟨zeros, hzeros⟩ := exists_significant (Nat.toDigits 10 d.coefficient)
  have hlength := congrArg List.length hzeros
  have hvalue := congrArg ofDigits hzeros
  rw [List.length_append, List.length_replicate] at hlength
  rw [ofDigits_toDigits, ofDigits_append, ofDigits_replicate, List.length_replicate,
    Nat.add_zero] at hvalue
  have hdigits : Digits (significant (Nat.toDigits 10 d.coefficient)) := by
    refine ⟨isDigit_of_mem_significant (digits_toDigits d.coefficient).digit, fun hnil => ?_⟩
    rw [hnil, show ofDigits [] = 0 from rfl] at hvalue
    omega
  have hfirst : (significant (Nat.toDigits 10 d.coefficient)).head? ≠ some '0' := by
    have hhead := head?_toDigits hpos
    rwa [hzeros, List.head?_append_of_ne_nil _ hdigits.nonempty] at hhead
  have hplaced : placed (significant (Nat.toDigits 10 d.coefficient))
      (d.exponent + ((Nat.toDigits 10 d.coefficient).length : ℤ) - 1) = d.value := by
    have hexponent : d.exponent + ((Nat.toDigits 10 d.coefficient).length : ℤ) - 1 + 1 -
        (significant (Nat.toDigits 10 d.coefficient)).length = zeros + d.exponent := by
      omega
    rw [placed, hexponent, Decimal.value, zpow_add₀ (by norm_num), zpow_natCast, ← mul_assoc]
    congr 1
    exact_mod_cast hvalue.symm
  rw [magnitude, ← hplaced]
  split
  · exact spelled_positional hdigits hfirst _
  · exact spelled_scientific layout hdigits hfirst _

end RealLayout

/-! ## Doubles read back -/

open Float.Model Float.Model.UnpackedFloat

theorem Binary.neg_toFloat {x : Binary} (hx : x.IsDouble) :
    -(x.toFloat hx .positive) = x.toFloat hx .negative := by
  show Float.ofModel (.pack (Float.Model.unpack _).neg) = _
  rw [Binary.unpack_toFloat]
  rfl

/-- Every decimal of a value that rounds to a double is read as that double. -/
theorem Binary.nearestFloat_shortest {x : Binary} (hx : x.IsDouble) (tie : Tie) {d : Decimal}
    (hd : d.value = (x.shortest tie).value) : nearestFloat d = x.toFloat hx .positive :=
  nearestFloat_eq hx (hd ▸ Binary.attracts_shortest hx tie)

theorem Decimal.nearestFloat_of_value_eq_zero {d : Decimal} (hd : d.value = 0) :
    nearestFloat d = 0.0 := by
  have hzero : d.coefficient = 0 := by
    rcases mul_eq_zero.mp hd with h | h
    · exact_mod_cast h
    · exact absurd h (ten_zpow_pos d.exponent).ne'
  rw [nearestFloat, if_pos]
  simp [hzero]

/-- The text of a finite double is a numeral, with a minus sign before it for a negative one, and
every decimal of its value is read as the double's magnitude. -/
theorem RealLayout.spelled_render (layout : RealLayout) {x : Float} (h : x.isFinite = true) :
    ∃ body v, Spelled body v ∧
      ((layout.render x).toList = body ∧ (∀ d : Decimal, d.value = v → nearestFloat d = x) ∨
        (layout.render x).toList = '-' :: body ∧
          ∀ d : Decimal, d.value = v → -(nearestFloat d) = x) := by
  obtain ⟨hnan, hinf⟩ := not_isNaN_of_isFinite h
  rw [render, hnan, hinf, if_neg Bool.false_ne_true, if_neg Bool.false_ne_true,
    String.toList_ofList]
  rcases eq_pack_of_isFinite h with ⟨hzero, hx⟩ | ⟨hdouble, hx⟩
  · have hspelled := Spelled.point digits_zero digits_zero (.inl rfl) .absent
    refine ⟨['0', '.', '0'], _, hspelled, ?_⟩
    have hvalue : Decimal.value ⟨ofDigits (['0'] ++ ['0']), 0 - (['0'].length : ℤ)⟩ = 0 := by
      rw [Decimal.value, show ofDigits (['0'] ++ ['0']) = 0 from rfl, Nat.cast_zero, zero_mul]
    rw [if_pos hzero, hvalue]
    rw [signOf] at hx
    cases hsign : x.toBits.toNat / Nat.pow 2 63 == 1 with
    | false =>
        rw [hsign] at hx
        refine .inl ⟨rfl, fun d hd => ?_⟩
        rw [nearestFloat_of_value_eq_zero hd, hx]
        decide +kernel
    | true =>
        rw [hsign] at hx
        refine .inr ⟨rfl, fun d hd => ?_⟩
        rw [nearestFloat_of_value_eq_zero hd, hx]
        decide +kernel
  · have hpos := (lead_of_attracts hdouble (Binary.attracts_shortest hdouble layout.tie)).1
    refine ⟨_, _, layout.spelled_magnitude hpos, ?_⟩
    rw [if_neg hdouble.pos.ne']
    rw [signOf] at hx
    cases hsign : x.toBits.toNat / Nat.pow 2 63 == 1 with
    | false =>
        rw [hsign] at hx
        refine .inl ⟨rfl, fun d hd => ?_⟩
        rw [Binary.nearestFloat_shortest hdouble layout.tie hd]
        exact hx.symm
    | true =>
        rw [hsign] at hx
        refine .inr ⟨rfl, fun d hd => ?_⟩
        rw [Binary.nearestFloat_shortest hdouble layout.tie hd, Binary.neg_toFloat]
        exact hx.symm

/-- The text of a finite double stands for it. -/
theorem RealLayout.float?_render (layout : RealLayout) {x : Float} (h : x.isFinite = true) :
    float? (layout.render x).toList = some x := by
  obtain ⟨body, v, hspelled, ⟨htext, hread⟩ | ⟨htext, hread⟩⟩ := layout.spelled_render h
  · obtain ⟨c, hhead, hc⟩ := hspelled.head
    obtain ⟨d, hd, hvalue⟩ := hspelled.real? (splitSign_of_head hhead hc)
    rw [htext, float?, hd]
    exact congrArg some (hread d hvalue)
  · obtain ⟨d, hd, hvalue⟩ := @Spelled.real? body v hspelled ('-' :: body) true rfl
    rw [htext, float?, hd]
    exact congrArg some (hread d hvalue)

end SchemeMachine
