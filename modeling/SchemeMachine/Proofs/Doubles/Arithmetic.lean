import SchemeMachine.Proofs.Doubles.Words

/-!
# Products, quotients and decimals of doubles

A product or a quotient is rounded once, from its exact value.  A natural number below `2 ^ 53` and
the tabled powers of ten are doubles themselves, so that a decimal with a small coefficient is read
by one operation on them, and every other decimal from its exact value: either way the result is
the double that attracts the decimal.
-/

namespace SchemeMachine

open Float.Model Float.Model.UnpackedFloat Double

/-- A double is unpacked as it was packed. -/
theorem Double.unpack_pack {x : Binary} (hx : x.IsDouble) (s : Sign) :
    (Float.Model.pack (.finite s x.mantissa x.exponent hx.pos)).unpack =
      .finite s x.mantissa x.exponent hx.pos := by
  obtain ⟨m, e⟩ := x
  show UnpackedFloat.unpack Format.binary64 (UnpackedFloat.pack Format.binary64 _) = _
  by_cases hfull : 2 ^ 52 ≤ m
  · rw [pack_normal s hx.pos hfull hx.lt hx.least hx.most,
      unpack_normal s hx.pos hfull hx.lt hx.least hx.most]
  · obtain rfl : e = -1074 := hx.full.resolve_right hfull
    rw [pack_subnormal s hx.pos (not_le.mp hfull), unpack_subnormal s hx.pos (not_le.mp hfull)]

/-- A double rounds to itself. -/
theorem Binary.attracts_self (x : Binary) : x.Attracts (x.mantissa * 2 ^ x.exponent) := by
  have hunits : (x.mantissa * 2 ^ x.exponent : ℚ) / 2 ^ x.exponent = x.mantissa :=
    mul_div_cancel_right₀ _ (two_zpow_pos x.exponent).ne'
  have hbelow := x.below_pos
  refine Binary.attracts_of_lt ?_ ?_ <;> rw [hunits] <;> linarith

section Operations

variable {x : Binary} {m₁ m₂ : ℕ} {e₁ e₂ : ℤ}

/-- A product is rounded once. -/
theorem Double.mul_eq (hx : x.IsDouble) (hv : x.Attracts ((m₁ * 2 ^ e₁) * (m₂ * 2 ^ e₂)))
    (h₁ : 0 < m₁) (h₂ : 0 < m₂)
    (he : e₁ + e₂ ≤ Format.binary64.targetExponent (totalExponent (m₁ * m₂) (e₁ + e₂))) :
    mul Format.binary64 (.finite .positive m₁ e₁ h₁) (.finite .positive m₂ e₂ h₂) =
      .finite .positive x.mantissa x.exponent hx.pos := by
  refine roundWithAccuracy_eq hx hv ?_ he .positive
  have hunits : ((m₁ * 2 ^ e₁) * (m₂ * 2 ^ e₂) : ℚ) / 2 ^ (e₁ + e₂) = ((m₁ * m₂ : ℕ) : ℚ) := by
    rw [div_eq_iff (two_zpow_pos _).ne', zpow_add₀ (by norm_num)]
    push_cast
    ring
  rw [hunits]
  exact Tells.exact _

/-- Division tells where the quotient lies between two whole numbers. -/
theorem Tells.quotient (n : ℕ) {d : ℕ} (hd : 0 < d) :
    Tells (.ofMantissaAndAccuracy (n / d) (accuracyOfFraction (n % d) d)) (n / d : ℚ) := by
  have hd' : (0 : ℚ) < d := by exact_mod_cast hd
  have hsplit : (n : ℚ) / d = (n / d : ℕ) + (n % d : ℕ) / (d : ℚ) := by
    have : (n : ℚ) = d * (n / d : ℕ) + (n % d : ℕ) := by exact_mod_cast (Nat.div_add_mod n d).symm
    field_simp
    linarith
  have hlt : n % d < d := Nat.mod_lt n hd
  rw [hsplit]
  generalize n / d = whole
  generalize n % d = part at hlt
  have hpart : (0 : ℚ) ≤ part / d := div_nonneg (Nat.cast_nonneg part) hd'.le
  have hlt' : (part : ℚ) / d < 1 := (div_lt_one hd').mpr (by exact_mod_cast hlt)
  rw [accuracyOfFraction]
  split
  next hzero =>
    rw [hzero, Nat.cast_zero, zero_div, add_zero]
    exact Tells.exact whole
  next hpos =>
    have hpart' : (0 : ℚ) < part / d := div_pos (by exact_mod_cast Nat.pos_of_ne_zero hpos) hd'
    -- Twice the remainder against the divisor is the part against a half.
    cases horder : compare (2 * part) d with
    | lt =>
        have hhalf : 2 * ((part : ℚ) / d) < 1 := by
          rw [← mul_div_assoc, div_lt_one hd']
          exact_mod_cast compare_lt_iff_lt.mp horder
        refine ⟨?_, ?_, ?_⟩
        · simp [ExtendedMantissa.ofMantissaAndAccuracy]
          linarith
        · simp [ExtendedMantissa.ofMantissaAndAccuracy]
          linarith
        · simp [ExtendedMantissa.ofMantissaAndAccuracy, hpos, hd.ne']
    | eq =>
        have hhalf : 2 * ((part : ℚ) / d) = 1 := by
          rw [← mul_div_assoc, div_eq_one_iff_eq hd'.ne']
          exact_mod_cast compare_eq_iff_eq.mp horder
        constructor <;> simp [ExtendedMantissa.ofMantissaAndAccuracy] <;> linarith
    | gt =>
        have hhalf : 1 < 2 * ((part : ℚ) / d) := by
          rw [← mul_div_assoc, one_lt_div hd']
          exact_mod_cast compare_gt_iff_gt.mp horder
        constructor <;> simp [ExtendedMantissa.ofMantissaAndAccuracy] <;> linarith

/-- The quotient that is rounded has bits enough. -/
theorem Double.le_targetExponent_div (h₁ : 0 < m₁) (h₂ : 0 < m₂) {e : ℤ} (he : e ≤ e₁ - e₂)
    (ht : e ≤ Format.binary64.targetExponent (totalExponent m₁ e₁ - totalExponent m₂ e₂)) :
    e ≤ Format.binary64.targetExponent
      (totalExponent ((m₁ <<< (e₁ - e₂ - e).toNat) / m₂) e) := by
  rw [targetExponent_eq] at ht ⊢
  simp only [totalExponent] at ht ⊢
  by_cases hlow : e ≤ -1074
  · omega
  -- The dividend has at least as many bits as the divisor, and as many more as are asked for.
  have hmore : m₂.log2 + 52 ≤ m₁.log2 + (e₁ - e₂ - e).toNat := by omega
  generalize hshift : (e₁ - e₂ - e).toNat = shift at *
  have hdividend : 2 ^ (m₁.log2 + shift) ≤ m₁ <<< shift := by
    rw [Nat.shiftLeft_eq, pow_add]
    exact Nat.mul_le_mul_right _ (Nat.log2_self_le (by omega))
  have hdivisor : m₂ ≤ 2 ^ (m₂.log2 + 1) := Nat.lt_log2_self.le
  have hquotient : 2 ^ (m₁.log2 + shift - m₂.log2 - 1) ≤ (m₁ <<< shift) / m₂ := by
    rw [Nat.le_div_iff_mul_le h₂]
    calc 2 ^ (m₁.log2 + shift - m₂.log2 - 1) * m₂
        ≤ 2 ^ (m₁.log2 + shift - m₂.log2 - 1) * 2 ^ (m₂.log2 + 1) :=
          Nat.mul_le_mul_left _ hdivisor
      _ = 2 ^ (m₁.log2 + shift) := by
          rw [← pow_add]
          congr 1
          omega
      _ ≤ m₁ <<< shift := hdividend
  have hpos := (Nat.two_pow_pos (m₁.log2 + shift - m₂.log2 - 1)).trans_le hquotient
  have hlog := (Nat.le_log2 hpos.ne').mpr hquotient
  omega

/-- A quotient is rounded once. -/
theorem Double.div_eq (hx : x.IsDouble) (hv : x.Attracts ((m₁ * 2 ^ e₁) / (m₂ * 2 ^ e₂)))
    (h₁ : 0 < m₁) (h₂ : 0 < m₂) :
    div Format.binary64 (.finite .positive m₁ e₁ h₁) (.finite .positive m₂ e₂ h₂) =
      .finite .positive x.mantissa x.exponent hx.pos := by
  rw [UnpackedFloat.div, divCore]
  generalize htarget : min (e₁ - e₂) (Format.binary64.targetExponent
    (totalExponent m₁ e₁ - totalExponent m₂ e₂)) = e
  refine roundWithAccuracy_eq hx hv ?_ (le_targetExponent_div h₁ h₂ (by omega) (by omega)) .positive
  have hunits : ((m₁ * 2 ^ e₁) / (m₂ * 2 ^ e₂) : ℚ) / 2 ^ e =
      ((m₁ <<< (e₁ - e₂ - e).toNat : ℕ) : ℚ) / m₂ := by
    have hm₂ : (m₂ : ℚ) ≠ 0 := by exact_mod_cast h₂.ne'
    have hshift : (2 : ℚ) ^ (e₁ - e₂ - e).toNat = 2 ^ e₁ / 2 ^ e₂ / 2 ^ e := by
      rw [← zpow_natCast, Int.toNat_of_nonneg (by omega), zpow_sub₀ (by norm_num),
        zpow_sub₀ (by norm_num)]
    have hne := (two_zpow_pos e).ne'
    have hne₂ := (two_zpow_pos e₂).ne'
    rw [Nat.shiftLeft_eq]
    push_cast
    rw [hshift]
    field_simp
  rw [hunits]
  exact Tells.quotient _ h₂

end Operations

/-- The double of a magnitude. -/
def Binary.toFloat (x : Binary) (hx : x.IsDouble) (s : Sign) : Float :=
  .ofModel (.pack (.finite s x.mantissa x.exponent hx.pos))

theorem Binary.unpack_toFloat {x : Binary} (hx : x.IsDouble) (s : Sign) :
    (x.toFloat hx s).toModel.unpack = .finite s x.mantissa x.exponent hx.pos :=
  unpack_pack hx s

theorem Binary.toFloat_mul {x y z : Binary} (hx : x.IsDouble) (hy : y.IsDouble) (hz : z.IsDouble)
    (hv : z.Attracts ((x.mantissa * 2 ^ x.exponent) * (y.mantissa * 2 ^ y.exponent)))
    (hfull : 2 ^ 52 ≤ x.mantissa) (hfull' : 2 ^ 52 ≤ y.mantissa) :
    x.toFloat hx .positive * y.toFloat hy .positive = z.toFloat hz .positive := by
  have hproduct : 2 ^ 52 * 2 ^ 52 ≤ x.mantissa * y.mantissa := Nat.mul_le_mul hfull hfull'
  have hlog : 104 ≤ (x.mantissa * y.mantissa).log2 := (Nat.le_log2 (by omega)).mpr hproduct
  have hround := mul_eq hz hv hx.pos hy.pos (by
    rw [targetExponent_eq, totalExponent]
    omega)
  show Float.ofModel (.pack (UnpackedFloat.mul Format.binary64 (Float.Model.unpack _)
    (Float.Model.unpack _))) = _
  rw [unpack_toFloat, unpack_toFloat, hround]
  rfl

theorem Binary.toFloat_div {x y z : Binary} (hx : x.IsDouble) (hy : y.IsDouble) (hz : z.IsDouble)
    (hv : z.Attracts ((x.mantissa * 2 ^ x.exponent) / (y.mantissa * 2 ^ y.exponent))) :
    x.toFloat hx .positive / y.toFloat hy .positive = z.toFloat hz .positive := by
  show Float.ofModel (.pack (UnpackedFloat.div Format.binary64 (Float.Model.unpack _)
    (Float.Model.unpack _))) = _
  rw [unpack_toFloat, unpack_toFloat, div_eq hz hv hx.pos hy.pos]
  rfl

/-- The magnitude of a natural number with all the bits of a mantissa. -/
def Binary.ofNat (m : ℕ) : Binary :=
  ⟨m * 2 ^ (52 - m.log2), -((52 - m.log2 : ℕ) : ℤ)⟩

section

variable {m : ℕ}

theorem Binary.ofNat_full (hpos : 0 < m) : 2 ^ 52 ≤ (Binary.ofNat m).mantissa := by
  have hlow : 2 ^ m.log2 ≤ m := Nat.log2_self_le hpos.ne'
  calc 2 ^ 52 ≤ 2 ^ (m.log2 + (52 - m.log2)) := Nat.pow_le_pow_right (by omega) (by omega)
    _ = 2 ^ m.log2 * 2 ^ (52 - m.log2) := pow_add 2 _ _
    _ ≤ m * 2 ^ (52 - m.log2) := Nat.mul_le_mul_right _ hlow

theorem Binary.ofNat_isDouble (hpos : 0 < m) (hm : m < 2 ^ 53) : (Binary.ofNat m).IsDouble := by
  have hlog := log2_le_of_lt hm
  have hhigh : m < 2 ^ (m.log2 + 1) := Nat.lt_log2_self
  have hlt : m * 2 ^ (52 - m.log2) < 2 ^ 53 := by
    calc m * 2 ^ (52 - m.log2) < 2 ^ (m.log2 + 1) * 2 ^ (52 - m.log2) :=
          Nat.mul_lt_mul_of_pos_right hhigh (Nat.two_pow_pos _)
      _ = 2 ^ 53 := by
          rw [← pow_add]
          congr 1
          omega
  exact isDouble_normal (Binary.ofNat_full hpos) hlt (by omega) (by omega)

theorem Binary.ofNat_value (m : ℕ) :
    ((Binary.ofNat m).mantissa : ℚ) * 2 ^ (Binary.ofNat m).exponent = m := by
  have hne : (2 : ℚ) ^ (52 - m.log2) ≠ 0 := pow_ne_zero _ (by norm_num)
  rw [Binary.ofNat, zpow_neg, zpow_natCast]
  push_cast
  rw [mul_assoc, mul_inv_cancel₀ hne, mul_one]

/-- A natural number below `2 ^ 53` is a double. -/
theorem Double.toFloat_toUInt64 (hpos : 0 < m) (hm : m < 2 ^ 53) :
    m.toUInt64.toFloat = (Binary.ofNat m).toFloat (Binary.ofNat_isDouble hpos hm) .positive := by
  have hword : m.toUInt64.toNat = m := Nat.mod_eq_of_lt (by omega)
  have hcompare : compare (m : ℤ) 0 = .gt := compare_gt_iff_gt.mpr (by omega)
  have hlog := log2_le_of_lt hm
  have htarget : Format.binary64.targetExponent (totalExponent m 0) = -((52 - m.log2 : ℕ) : ℤ) := by
    rw [targetExponent_eq, totalExponent]
    omega
  have hround : UnpackedFloat.ofNat Format.binary64 m = .finite .positive (Binary.ofNat m).mantissa
      (Binary.ofNat m).exponent (Binary.ofNat_isDouble hpos hm).pos := by
    rw [UnpackedFloat.ofNat, UnpackedFloat.ofInt, UnpackedFloat.normalize, hcompare]
    show UnpackedFloat.round Format.binary64 .positive m 0 = _
    have hshift : (0 - -((52 - m.log2 : ℕ) : ℤ)).toNat = 52 - m.log2 := by omega
    rw [UnpackedFloat.round, htarget, decreaseExponent, hshift]
    show roundWithAccuracy Format.binary64 .positive (m <<< (52 - m.log2))
      (0 - ((52 - m.log2 : ℕ) : ℤ)) .exact = _
    rw [Nat.shiftLeft_eq, zero_sub]
    refine roundWithAccuracy_eq (Binary.ofNat_isDouble hpos hm) (Binary.attracts_self _) ?_ ?_
      .positive
    · rw [Binary.ofNat, mul_div_cancel_right₀ _ (two_zpow_pos _).ne']
      exact Tells.exact _
    · have hbits : 52 ≤ (m * 2 ^ (52 - m.log2)).log2 :=
        (Nat.le_log2 (Binary.ofNat_isDouble hpos hm).pos.ne').mpr (Binary.ofNat_full hpos)
      rw [targetExponent_eq, totalExponent]
      omega
  show Float.ofModel (.pack (UnpackedFloat.ofNat Format.binary64 m.toUInt64.toNat)) = _
  rw [hword, hround]
  rfl

end

/-- A power of ten with all the bits of a mantissa. -/
def Binary.powerOfTen (e : ℕ) : Binary :=
  ⟨(Binary.ofNat (5 ^ e)).mantissa, (Binary.ofNat (5 ^ e)).exponent + e⟩

theorem Double.five_pow_lt {e : ℕ} (he : e ≤ 22) : 5 ^ e < 2 ^ 53 :=
  calc 5 ^ e ≤ 5 ^ 22 := Nat.pow_le_pow_right (by omega) he
    _ < 2 ^ 53 := by norm_num

theorem Binary.powerOfTen_full (e : ℕ) : 2 ^ 52 ≤ (Binary.powerOfTen e).mantissa :=
  Binary.ofNat_full (Nat.pow_pos (by omega))

theorem Binary.powerOfTen_isDouble {e : ℕ} (he : e ≤ 22) : (Binary.powerOfTen e).IsDouble := by
  have h := Binary.ofNat_isDouble (Nat.pow_pos (by omega)) (five_pow_lt he)
  refine isDouble_normal (Binary.powerOfTen_full e) h.lt ?_ ?_
  · exact h.least.trans (by omega)
  · have : (Binary.ofNat (5 ^ e)).exponent ≤ 0 := by
      rw [Binary.ofNat]
      exact Int.neg_nonpos_of_nonneg (Int.natCast_nonneg _)
    omega

theorem Binary.powerOfTen_value (e : ℕ) :
    ((Binary.powerOfTen e).mantissa : ℚ) * 2 ^ (Binary.powerOfTen e).exponent = 10 ^ e := by
  rw [Binary.powerOfTen, zpow_add₀ (by norm_num), ← mul_assoc, Binary.ofNat_value, zpow_natCast]
  push_cast
  rw [← mul_pow]
  norm_num

/-- The table of powers of ten is exact. -/
theorem Double.exactlyRepresentablePowersOfTen_eq {e : ℕ} (he : e ≤ 22)
    (h : e < Float.exactlyRepresentablePowersOfTen.size) :
    Float.exactlyRepresentablePowersOfTen[e] =
      (Binary.powerOfTen e).toFloat (Binary.powerOfTen_isDouble he) .positive := by
  have hall : ∀ e : Fin 23, Float.exactlyRepresentablePowersOfTen[e.val]? =
      some ((Binary.powerOfTen e).toFloat
        (Binary.powerOfTen_isDouble (Nat.le_of_lt_succ e.isLt)) .positive) := by
    decide +kernel
  have hentry := hall ⟨e, Nat.lt_succ_of_le he⟩
  rw [Array.getElem?_eq_getElem h] at hentry
  exact Option.some.inj hentry

/-! ## Numbers in scientific notation -/

section OfScientific

variable {x : Binary} {m e : ℕ}

/-- A number is given more bits before it is multiplied. -/
theorem Double.mul_widened (hx : x.IsDouble) (hpos : 0 < m) (hv : x.Attracts (m * 10 ^ e))
    {bits : ℕ} (hbits : bits = 53) (h₁ : 0 < m <<< bits) (h₂ : 0 < 10 ^ e) :
    UnpackedFloat.mul Format.binary64 (.finite .positive (m <<< bits) (-bits) h₁)
      (.finite .positive (10 ^ e) 0 h₂) = .finite .positive x.mantissa x.exponent hx.pos := by
  have hbig : 2 ^ bits ≤ m <<< bits * 10 ^ e := by
    rw [Nat.shiftLeft_eq]
    calc 2 ^ bits = 1 * 2 ^ bits * 1 := by omega
      _ ≤ m * 2 ^ bits * 10 ^ e := Nat.mul_le_mul (Nat.mul_le_mul_right _ hpos) h₂
  have hlog : bits ≤ (m <<< bits * 10 ^ e).log2 :=
    (Nat.le_log2 (Nat.mul_pos h₁ h₂).ne').mpr hbig
  have hvalue : ((m <<< bits : ℕ) * 2 ^ (-(bits : ℤ)) * ((10 ^ e : ℕ) * 2 ^ (0 : ℤ)) : ℚ) =
      m * 10 ^ e := by
    have hne : (2 : ℚ) ^ bits ≠ 0 := pow_ne_zero _ (by norm_num)
    rw [Nat.shiftLeft_eq, zpow_zero, zpow_neg, zpow_natCast]
    push_cast
    field_simp
  rw [← hvalue] at hv
  refine mul_eq hx hv h₁ h₂ ?_
  rw [targetExponent_eq, totalExponent]
  omega

theorem Double.ofScientific_mul (hx : x.IsDouble) (hpos : 0 < m) (hv : x.Attracts (m * 10 ^ e))
    (he : e ≤ 2 ^ 11) :
    UnpackedFloat.ofScientific Format.binary64 m e =
      .finite .positive x.mantissa x.exponent hx.pos := by
  have hmore : ¬ ((e : ℤ) > 2 ^ Format.binary64.exponentBits) := by
    show ¬ ((e : ℤ) > 2 ^ 11)
    omega
  have hless : ¬ ((e : ℤ) < -((2 ^ Format.binary64.exponentBits : ℤ) + m.log2)) := by
    show ¬ ((e : ℤ) < -(2 ^ 11 + m.log2))
    omega
  rw [UnpackedFloat.ofScientific, dif_neg hpos.ne', if_neg hmore, if_neg hless,
    if_pos (Int.natCast_nonneg e)]
  exact mul_widened hx hpos hv rfl _ _

theorem Double.ofScientific_div (hx : x.IsDouble) (hpos : 0 < m) (hv : x.Attracts (m / 10 ^ e))
    (hzero : 0 < e) (he : e ≤ 2 ^ 11 + m.log2) :
    UnpackedFloat.ofScientific Format.binary64 m (-e) =
      .finite .positive x.mantissa x.exponent hx.pos := by
  have hmore : ¬ (-(e : ℤ) > 2 ^ Format.binary64.exponentBits) := by
    show ¬ (-(e : ℤ) > 2 ^ 11)
    omega
  have hless : ¬ (-(e : ℤ) < -((2 ^ Format.binary64.exponentBits : ℤ) + m.log2)) := by
    show ¬ (-(e : ℤ) < -(2 ^ 11 + m.log2))
    omega
  have hten : (10 : ℕ) ^ (- -(e : ℤ)).toNat = 10 ^ e := by
    rw [neg_neg]
    rfl
  have hvalue : ((m * 2 ^ (0 : ℤ)) / ((10 ^ (- -(e : ℤ)).toNat : ℕ) * 2 ^ (0 : ℤ)) : ℚ) =
      m / 10 ^ e := by
    rw [hten, zpow_zero]
    push_cast
    rw [mul_one, mul_one]
  rw [UnpackedFloat.ofScientific, dif_neg hpos.ne', if_neg hmore, if_neg hless,
    if_neg (by omega)]
  rw [← hvalue] at hv
  exact div_eq hx hv _ _

/-- A decimal is read as the double that its value rounds to. -/
theorem Double.ofScientific_eq (hx : x.IsDouble) (hpos : 0 < m) {e : ℤ}
    (hv : x.Attracts (m * 10 ^ e)) (hlow : -e ≤ 2 ^ 11 + m.log2) (hhigh : e ≤ 2 ^ 11) :
    Float.ofScientific m (decide (e < 0)) e.natAbs = x.toFloat hx .positive := by
  by_cases hneg : e < 0
  · obtain ⟨n, rfl⟩ : ∃ n : ℕ, e = -n := ⟨e.natAbs, by omega⟩
    have hdiv : x.Attracts (m / 10 ^ n) := by
      rw [zpow_neg, zpow_natCast, ← div_eq_mul_inv] at hv
      exact hv
    rw [Int.natAbs_neg, Int.natAbs_natCast, decide_eq_true hneg, Float.ofScientific]
    split
    next hfast =>
      rw [if_pos rfl, exactlyRepresentablePowersOfTen_eq hfast.2, toFloat_toUInt64 hpos hfast.1]
      refine Binary.toFloat_div _ _ hx ?_
      rw [Binary.ofNat_value, Binary.powerOfTen_value]
      exact hdiv
    next =>
      show Float.ofModel (.pack (UnpackedFloat.ofScientific Format.binary64 m (Int.negOfNat n))) = _
      rw [Int.negOfNat_eq, Int.ofNat_eq_natCast,
        ofScientific_div hx hpos hdiv (by omega) (by omega)]
      rfl
  · obtain ⟨n, rfl⟩ : ∃ n : ℕ, e = n := ⟨e.natAbs, by omega⟩
    have hmul : x.Attracts (m * 10 ^ n) := by
      rw [zpow_natCast] at hv
      exact hv
    rw [Int.natAbs_natCast, decide_eq_false hneg, Float.ofScientific]
    split
    next hfast =>
      rw [if_neg (by decide), exactlyRepresentablePowersOfTen_eq hfast.2,
        toFloat_toUInt64 hpos hfast.1]
      refine Binary.toFloat_mul _ _ hx ?_ (Binary.ofNat_full hpos) (Binary.powerOfTen_full n)
      rw [Binary.ofNat_value, Binary.powerOfTen_value]
      exact hmul
    next =>
      show Float.ofModel (.pack (UnpackedFloat.ofScientific Format.binary64 m n)) = _
      rw [ofScientific_mul hx hpos hmul (by omega)]
      rfl

end OfScientific

end SchemeMachine
