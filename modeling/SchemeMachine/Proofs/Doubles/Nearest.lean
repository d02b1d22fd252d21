import SchemeMachine.Decimal.Real
import SchemeMachine.Proofs.Doubles.Arithmetic

/-!
# The nearest double of a decimal

A decimal is read as the double that attracts its value, and what a numeral is read as is always a
number, if only an infinite one.
-/

namespace SchemeMachine

open Float.Model Float.Model.UnpackedFloat Double

namespace Decimal

/-- The number a decimal stands for. -/
def value (d : Decimal) : ℚ :=
  d.coefficient * 10 ^ d.exponent

theorem ten_zpow_pos (e : ℤ) : (0 : ℚ) < 10 ^ e := zpow_pos (by norm_num) e

section

variable {n : ℕ}

theorem digitCount_pos (h : 0 < n) : 0 < digitCount n := by
  rw [digitCount, if_neg h.ne']
  exact Nat.length_toDigits_pos

theorem lt_ten_pow_digitCount (n : ℕ) : n < 10 ^ digitCount n := by
  rcases Nat.eq_zero_or_pos n with rfl | hpos
  · decide
  · have hlength := (Nat.length_toDigits_le_iff (b := 10) (by omega)
      (Nat.length_toDigits_pos (b := 10) (n := n))).mp le_rfl
    rw [digitCount, if_neg hpos.ne']
    exact hlength

theorem ten_pow_digitCount_le (h : 0 < n) : 10 ^ (digitCount n - 1) ≤ n := by
  by_contra! hlt
  have hpos := digitCount_pos h
  rcases Nat.eq_zero_or_pos (digitCount n - 1) with hzero | hmore
  · rw [hzero] at hlt
    omega
  · have hlength := (Nat.length_toDigits_le_iff (by omega) hmore).mpr hlt
    rw [digitCount, if_neg h.ne'] at hlength hpos
    omega

theorem digitCount_le_log2 (h : 0 < n) : digitCount n ≤ n.log2 + 1 := by
  rw [digitCount, if_neg h.ne', Nat.length_toDigits_le_iff (by omega) (by omega)]
  calc n < 2 ^ (n.log2 + 1) := Nat.lt_log2_self
    _ ≤ 10 ^ (n.log2 + 1) := Nat.pow_le_pow_left (by omega) _

end

end Decimal

open Decimal

section Nearest

variable {x : Binary} {d : Decimal}

theorem Double.two_zpow_le_ten_zpow {n : ℤ} (h : n ≤ 1200) : (2 : ℚ) ^ n ≤ 10 ^ (400 : ℤ) :=
  calc (2 : ℚ) ^ n ≤ 2 ^ (3 * 400 : ℤ) := zpow_le_zpow_right₀ (by norm_num) h
    _ = (2 ^ (3 : ℤ)) ^ (400 : ℤ) := zpow_mul 2 3 400
    _ ≤ 10 ^ (400 : ℤ) := zpow_le_zpow_left₀ (by omega) (by norm_num) (by norm_num)

theorem Binary.Attracts.two_zpow_le (hx : x.IsDouble) {v : ℚ} (hv : x.Attracts v) :
    (2 : ℚ) ^ (-1075 : ℤ) ≤ v := by
  have hlow := hv.low
  have hm : (1 : ℚ) ≤ x.mantissa := by exact_mod_cast hx.pos
  have hbelow : (x.below : ℚ) ≤ 2 := by exact_mod_cast x.below_le_two
  have hunits : (1 / 2 : ℚ) ≤ v / 2 ^ x.exponent := by linarith
  rw [le_div_iff₀ (two_zpow_pos _)] at hunits
  calc (2 : ℚ) ^ (-1075 : ℤ) = 2 ^ (-1 : ℤ) * 2 ^ (-1074 : ℤ) := by
        rw [← zpow_add₀ (by norm_num)]
        rfl
    _ = 1 / 2 * 2 ^ (-1074 : ℤ) := by rw [zpow_neg_one, one_div]
    _ ≤ 1 / 2 * 2 ^ x.exponent := by
        have := zpow_le_zpow_right₀ (by norm_num : (1 : ℚ) ≤ 2) hx.least
        linarith
    _ ≤ v := hunits

/-- A number that rounds to a double has a leading digit in the range of the doubles. -/
theorem Double.lead_of_attracts (hx : x.IsDouble) (hv : x.Attracts d.value) :
    0 < d.coefficient ∧ -leadBound ≤ d.exponent + (digitCount d.coefficient : ℤ) - 1 ∧
      d.exponent + (digitCount d.coefficient : ℤ) - 1 ≤ leadBound := by
  have hpos : 0 < d.coefficient := by
    have := (two_zpow_pos (-1075)).trans_le (hv.two_zpow_le hx)
    rw [Decimal.value] at this
    exact_mod_cast (pos_iff_pos_of_mul_pos this).mpr (ten_zpow_pos _)
  have hcount := digitCount_pos hpos
  refine ⟨hpos, ?_, ?_⟩
  · have hhigh : d.value < 10 ^ (d.exponent + (digitCount d.coefficient : ℤ)) := by
      rw [Decimal.value, zpow_add₀ (by norm_num), zpow_natCast, mul_comm]
      exact mul_lt_mul_of_pos_left (by exact_mod_cast lt_ten_pow_digitCount _) (ten_zpow_pos _)
    have hlow : (10 : ℚ) ^ (-400 : ℤ) ≤ d.value := by
      refine le_trans ?_ (hv.two_zpow_le hx)
      rw [zpow_neg, zpow_neg]
      exact inv_anti₀ (two_zpow_pos _) (two_zpow_le_ten_zpow (by omega))
    have := (zpow_lt_zpow_iff_right₀ (by norm_num)).mp (hlow.trans_lt hhigh)
    rw [leadBound]
    omega
  · have hlow : (10 : ℚ) ^ (d.exponent + (digitCount d.coefficient : ℤ) - 1) ≤ d.value := by
      have hsplit : d.exponent + (digitCount d.coefficient : ℤ) - 1 =
          d.exponent + ((digitCount d.coefficient - 1 : ℕ) : ℤ) := by omega
      rw [hsplit, Decimal.value, zpow_add₀ (by norm_num), zpow_natCast, mul_comm]
      refine mul_le_mul_of_nonneg_right ?_ (ten_zpow_pos _).le
      exact_mod_cast ten_pow_digitCount_le hpos
    have hhigh : d.value < (10 : ℚ) ^ (400 : ℤ) :=
      (hv.lt_top hx).trans_le ((zpow_le_zpow_right₀ (by norm_num)
        (Int.add_le_add_right hx.most 53)).trans (two_zpow_le_ten_zpow (by omega)))
    have := (zpow_lt_zpow_iff_right₀ (by norm_num)).mp (hlow.trans_lt hhigh)
    rw [leadBound]
    omega

/-- The nearest double of a decimal is the one its value rounds to. -/
theorem Decimal.nearestFloat_eq (hx : x.IsDouble) (hv : x.Attracts d.value) :
    nearestFloat d = x.toFloat hx .positive := by
  obtain ⟨hpos, hlow, hhigh⟩ := lead_of_attracts hx hv
  have hcount := digitCount_pos hpos
  have hlog := digitCount_le_log2 hpos
  rw [nearestFloat, if_neg, if_neg]
  · refine ofScientific_eq hx hpos hv ?_ ?_ <;> rw [leadBound] at * <;> omega
  · omega
  · rw [Bool.or_eq_true, decide_eq_true_eq, decide_eq_true_eq]
    omega

end Nearest

/-! ## What is read is a number -/

theorem Double.isNaN_pack {f : UnpackedFloat} (h : f.isNaN = false) :
    (Float.ofModel (.pack f)).isNaN = false := by
  rw [← Bool.not_eq_true]
  intro hnan
  have hpacked : UnpackedFloat.pack Format.binary64 f = packedNaN Format.binary64 :=
    (isNaN_unpack_iff_of_valid (Float.Model.pack f).valid).mp hnan
  have hbits := @isNaNBits_packedNaN Format.binary64
  rw [← hpacked, isNaNBits, decide_eq_true_eq] at hbits
  obtain ⟨hones, hne⟩ := hbits
  cases f with
  | infinity s => exact hne unpackMantissa_packComponents
  | notANumber => cases h
  | zero s => exact hne unpackMantissa_packComponents
  | finite s m e hpos =>
      rw [UnpackedFloat.pack] at hones hne
      simp only at hones hne
      split at hones
      next hlarge =>
        rw [if_pos hlarge] at hne
        exact hne unpackMantissa_packComponents
      next hfits =>
        split at hones
        next =>
          -- The exponent with all bits set is kept for what is not finite.
          rw [unpackExponent_packComponents, BitVec.toNat_eq, BitVec.toNat_ofNat] at hones
          generalize (e + Format.binary64.exponentBias +
            Format.binary64.mantissaBitsWithoutImplicit).toNat = biased at hones hfits
          have hlt : ¬ 2 ^ 11 ≤ biased + 1 := hfits
          have hmax : biased % 2 ^ 11 = 2047 := hones
          omega
        next =>
          rw [unpackExponent_packComponents] at hones
          exact absurd hones (by decide)

theorem Double.isNaN_roundWithAccuracy (s : Sign) (m : ℕ) (e : ℤ) (accuracy : Accuracy) :
    (roundWithAccuracy Format.binary64 s m e accuracy).isNaN = false := by
  rw [roundWithAccuracy]
  simp only
  split <;> rfl

theorem Double.isNaN_ofScientific {m : ℕ} (hpos : 0 < m) (e : ℤ) :
    (UnpackedFloat.ofScientific Format.binary64 m e).isNaN = false := by
  rw [UnpackedFloat.ofScientific, dif_neg hpos.ne']
  split
  · rfl
  split
  · rfl
  split
  · exact isNaN_roundWithAccuracy _ _ _ _
  · exact isNaN_roundWithAccuracy _ _ _ _

theorem Decimal.isNaN_nearestFloat (d : Decimal) : (nearestFloat d).isNaN = false := by
  rw [nearestFloat]
  split
  · decide +kernel
  next hzero =>
    have hpos : 0 < d.coefficient := by
      rw [Bool.or_eq_true, decide_eq_true_eq] at hzero
      omega
    split
    · decide +kernel
    rw [Float.ofScientific]
    split
    next hfast =>
      simp only [exactlyRepresentablePowersOfTen_eq hfast.2, toFloat_toUInt64 hpos hfast.1]
      split
      · refine @isNaN_pack (UnpackedFloat.div Format.binary64 (Float.Model.unpack _)
          (Float.Model.unpack _)) ?_
        rw [Binary.unpack_toFloat, Binary.unpack_toFloat]
        exact isNaN_roundWithAccuracy _ _ _ _
      · refine @isNaN_pack (UnpackedFloat.mul Format.binary64 (Float.Model.unpack _)
          (Float.Model.unpack _)) ?_
        rw [Binary.unpack_toFloat, Binary.unpack_toFloat]
        exact isNaN_roundWithAccuracy _ _ _ _
    next => exact isNaN_pack (isNaN_ofScientific hpos _)

theorem Double.isNaN_neg {x : Float} (h : x.isNaN = false) : (-x).isNaN = false := by
  refine @isNaN_pack x.toModel.unpack.neg ?_
  have hx : x.toModel.unpack.isNaN = false := h
  cases hf : x.toModel.unpack with
  | notANumber =>
      rw [hf] at hx
      cases hx
  | infinity => rfl
  | zero => rfl
  | finite => rfl

theorem Decimal.isNaN_of_float? {text : List Char} {x : Float} (h : float? text = some x) :
    x.isNaN = false := by
  rw [float?, Option.map_eq_some_iff] at h
  obtain ⟨⟨negative, d⟩, -, rfl⟩ := h
  cases negative with
  | false => exact isNaN_nearestFloat d
  | true => exact isNaN_neg (isNaN_nearestFloat d)

theorem Double.beq_self_of_not_isNaN {x : Float} (h : x.isNaN = false) : (x == x) = true := by
  rw [Float.isNaN_eq_decide_eq_nan, decide_eq_false_iff_not] at h
  exact Float.beq_self_iff.mpr h

end SchemeMachine
