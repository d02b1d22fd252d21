import Mathlib
import SchemeMachine.Decimal.Shortest

/-!
# Rounding to a double

A positive double attracts the rational numbers of an interval around it, whose ends belong to it if
its mantissa is even.  The main statement is `Double.roundWithAccuracy_eq`: whatever mantissa and
residual bits tell about a number, rounding them gives the double that attracts the number.  The
bits may be told at any place that is fine enough; the one case in which rounding carries into a new
place is that of a number just below a power of two.
-/

namespace SchemeMachine

open Float.Model Float.Model.UnpackedFloat

/-- What a mantissa with its residual bits tells about a number that is counted in units of the
mantissa's last place: how many whole halves it holds, and whether it holds more than these. -/
structure Tells (em : ExtendedMantissa) (u : ℚ) : Prop where
  low : ((2 * em.mantissa + em.roundBit.toNat : ℕ) : ℚ) ≤ 2 * u
  high : 2 * u < (2 * em.mantissa + em.roundBit.toNat + 1 : ℕ)
  whole : em.stickyBit = false ↔ 2 * u = (2 * em.mantissa + em.roundBit.toNat : ℕ)

namespace Tells

variable {em : ExtendedMantissa} {u : ℚ}

theorem exact (m : ℕ) : Tells (.ofMantissaAndAccuracy m .exact) m := by
  refine ⟨?_, ?_, ?_⟩
  · simp [ExtendedMantissa.ofMantissaAndAccuracy]
  · simp [ExtendedMantissa.ofMantissaAndAccuracy]
  · simp [ExtendedMantissa.ofMantissaAndAccuracy]

/-- The mantissa is the whole part of the number. -/
theorem mantissa_le (h : Tells em u) : (em.mantissa : ℚ) ≤ u := by
  have hlow := h.low
  push_cast at hlow
  have hbit : (0 : ℚ) ≤ em.roundBit.toNat := by positivity
  linarith

theorem lt_mantissa (h : Tells em u) : u < em.mantissa + 1 := by
  have hhigh := h.high
  have hbit : (em.roundBit.toNat : ℚ) ≤ 1 := by exact_mod_cast Bool.toNat_le em.roundBit
  push_cast at hhigh
  linarith

theorem shiftRightOne (h : Tells em u) : Tells em.shiftRightOne (u / 2) := by
  have hhalves : 2 * em.shiftRightOne.mantissa + em.shiftRightOne.roundBit.toNat = em.mantissa := by
    show 2 * (em.mantissa / 2) + (em.mantissa % 2 != 0).toNat = em.mantissa
    rcases Nat.mod_two_eq_zero_or_one em.mantissa with hbit | hbit
    · rw [hbit]
      show 2 * (em.mantissa / 2) + 0 = em.mantissa
      omega
    · rw [hbit]
      show 2 * (em.mantissa / 2) + 1 = em.mantissa
      omega
  have htwice : 2 * (u / 2) = u := by ring
  refine ⟨?_, ?_, ?_⟩
  · rw [hhalves, htwice]
    exact h.mantissa_le
  · rw [hhalves, htwice]
    push_cast
    exact h.lt_mantissa
  · rw [hhalves, htwice]
    show (em.roundBit || em.stickyBit) = false ↔ u = em.mantissa
    have hwhole := h.whole
    rw [Bool.or_eq_false_iff]
    constructor
    · rintro ⟨hround, hsticky⟩
      have := hwhole.mp hsticky
      rw [hround] at this
      push_cast at this
      simp only [Bool.toNat_false, Nat.cast_zero, add_zero] at this
      linarith
    · intro hu
      have hlow := h.low
      rw [hu] at hlow
      have hround : em.roundBit = false := by
        have hnat : 2 * em.mantissa + em.roundBit.toNat ≤ 2 * em.mantissa := by exact_mod_cast hlow
        cases hbit : em.roundBit with
        | false => rfl
        | true =>
            rw [hbit, Bool.toNat_true] at hnat
            omega
      refine ⟨hround, hwhole.mpr ?_⟩
      rw [hround, hu]
      push_cast
      simp

theorem shiftRight (h : Tells em u) (n : ℕ) : Tells (em >>> n) (u / 2 ^ n) := by
  show Tells (n.repeat ExtendedMantissa.shiftRightOne em) (u / 2 ^ n)
  induction n with
  | zero => simpa [Nat.repeat] using h
  | succ n ih =>
      have hstep := ih.shiftRightOne
      rw [div_div, ← pow_succ] at hstep
      exact hstep

/-- The mantissa is rounded to the nearest number, and to the even one of two that are equally
near. -/
theorem roundedMantissa_eq (h : Tells em u) {n : ℕ} (hlow : 2 * (n : ℚ) - 1 ≤ 2 * u)
    (hhigh : 2 * u ≤ 2 * n + 1) (hbelow : 2 * u = 2 * n - 1 → n % 2 = 0)
    (habove : 2 * u = 2 * n + 1 → n % 2 = 0) : em.roundedMantissa = n := by
  obtain ⟨m, roundBit, stickyBit⟩ := em
  have h₁ := h.low
  have h₂ := h.high
  have h₃ := h.whole
  simp only at h₁ h₂ h₃
  have hle : 2 * n ≤ 2 * m + roundBit.toNat + 1 := by
    have : 2 * (n : ℚ) < 2 * m + roundBit.toNat + 2 := by
      push_cast at h₂
      linarith
    have : 2 * n < 2 * m + roundBit.toNat + 2 := by exact_mod_cast this
    omega
  have hge : 2 * m + roundBit.toNat ≤ 2 * n + 1 := by
    have : (2 * m + roundBit.toNat : ℚ) ≤ 2 * n + 1 := by
      push_cast at h₁
      linarith
    exact_mod_cast this
  cases roundBit with
  | false =>
      -- Less than a half is dropped.
      simp only [Bool.toNat_false] at hle hge
      have hm : m = n := by omega
      cases stickyBit with
      | false => exact hm
      | true => exact hm
  | true =>
      simp only [Bool.toNat_true] at hle hge h₁ h₂ h₃
      cases stickyBit with
      | false =>
          have htie : 2 * u = 2 * m + 1 := by exact_mod_cast h₃.mp rfl
          show m + m % 2 = n
          rcases Nat.lt_or_ge m n with hlt | hge'
          · obtain rfl : n = m + 1 := by omega
            have := hbelow (by rw [htie]; push_cast; ring)
            omega
          · obtain rfl : n = m := by omega
            have := habove htie
            omega
      | true =>
          show m + 1 = n
          have hne : 2 * u ≠ (2 * m + 1 : ℕ) := fun heq => by simpa using h₃.mpr heq
          have hlt : ((2 * m + 1 : ℕ) : ℚ) < 2 * n + 1 :=
            lt_of_lt_of_le (lt_of_le_of_ne h₁ (Ne.symm hne)) hhigh
          have : 2 * m + 1 < 2 * n + 1 := by exact_mod_cast hlt
          omega

end Tells

namespace Binary

/-- The magnitude of a double other than zero. -/
structure IsDouble (x : Binary) : Prop where
  pos : 0 < x.mantissa
  lt : x.mantissa < 2 ^ 53
  least : -1074 ≤ x.exponent
  most : x.exponent ≤ 971
  full : x.exponent = -1074 ∨ 2 ^ 52 ≤ x.mantissa

/-- How many quarters of the last place below a double still round to it. -/
def below (x : Binary) : ℕ := if x.narrowBelow then 1 else 2

/-- The rational numbers that round to a double, counted in quarters of its last place.  The ends
belong to it if the mantissa is even. -/
structure Attracts (x : Binary) (v : ℚ) : Prop where
  low : (4 * x.mantissa : ℚ) - x.below ≤ 4 * (v / 2 ^ x.exponent)
  high : 4 * (v / 2 ^ x.exponent) ≤ 4 * x.mantissa + 2
  even : 4 * (v / 2 ^ x.exponent) = 4 * x.mantissa - x.below ∨
    4 * (v / 2 ^ x.exponent) = 4 * x.mantissa + 2 → x.mantissa % 2 = 0

theorem below_eq_one {x : Binary} (hm : x.mantissa = 2 ^ 52) (he : x.exponent ≠ -1074) :
    x.below = 1 := by
  have hnarrow : x.narrowBelow = true := by
    rw [narrowBelow, hm, Bool.and_eq_true]
    exact ⟨by decide, by simpa using he⟩
  rw [below, hnarrow, if_pos rfl]

/-- What lies nearer to a double than its ends is attracted whatever the mantissa is. -/
theorem attracts_of_lt {x : Binary} {v : ℚ}
    (hlow : (4 * x.mantissa : ℚ) - x.below < 4 * (v / 2 ^ x.exponent))
    (hhigh : 4 * (v / 2 ^ x.exponent) < 4 * x.mantissa + 2) : x.Attracts v := by
  refine ⟨hlow.le, hhigh.le, ?_⟩
  rintro (hend | hend)
  · exact absurd hend hlow.ne'
  · exact absurd hend hhigh.ne

theorem below_pos (x : Binary) : (0 : ℚ) < x.below := by
  rw [below]
  split <;> norm_num

theorem below_le_two (x : Binary) : x.below ≤ 2 := by
  rw [below]
  split <;> omega

end Binary

/-- The exponent at which a number of that leading place is rounded. -/
theorem Double.targetExponent_eq (t : ℤ) :
    Format.binary64.targetExponent t = max (t - 53) (-1074) := by
  rfl

theorem Double.log2_le_of_lt {m : ℕ} (h : m < 2 ^ 53) : m.log2 ≤ 52 := by
  rcases Nat.eq_zero_or_pos m with rfl | hpos
  · decide
  · have := (Nat.log2_lt (by omega)).mpr h
    omega

/-- A mantissa that fits stays as it is. -/
theorem Double.shiftToTargetExponent_fits {m : ℕ} {e : ℤ} (hm : m < 2 ^ 53) (he : -1074 ≤ e) :
    shiftToTargetExponent Format.binary64 m e .exact = (⟨m, false, false⟩, e) := by
  have hlog := log2_le_of_lt hm
  have htarget : (Format.binary64.targetExponent (totalExponent m e) - e).toNat = 0 := by
    rw [targetExponent_eq, totalExponent]
    omega
  rw [shiftToTargetExponent, shiftToExponent, htarget]
  simp [ExtendedMantissa.ofMantissaAndAccuracy, HShiftRight.hShiftRight, Nat.repeat]

/-- A mantissa that was rounded up to one bit more loses that bit. -/
theorem Double.shiftToTargetExponent_carry {e : ℤ} (he : -1074 ≤ e) :
    shiftToTargetExponent Format.binary64 (2 ^ 53) e .exact = (⟨2 ^ 52, false, false⟩, e + 1) := by
  have htarget : (Format.binary64.targetExponent (totalExponent (2 ^ 53) e) - e).toNat = 1 := by
    rw [targetExponent_eq, totalExponent, Nat.log2_two_pow]
    omega
  rw [shiftToTargetExponent, shiftToExponent, htarget]
  simp [ExtendedMantissa.ofMantissaAndAccuracy, ExtendedMantissa.shiftRightOne,
    HShiftRight.hShiftRight, Nat.repeat]

open Double

section Rounding

variable {x : Binary} {v : ℚ} {m : ℕ} {e : ℤ} {accuracy : Accuracy}

theorem Double.ofMantissaAndAccuracy_mantissa (m : ℕ) (accuracy : Accuracy) :
    (ExtendedMantissa.ofMantissaAndAccuracy m accuracy).mantissa = m := by
  cases accuracy with
  | exact => rfl
  | inexact order => cases order <;> rfl

theorem Double.two_zpow_pos (e : ℤ) : (0 : ℚ) < 2 ^ e := zpow_pos (by norm_num) e

theorem Double.lt_of_two_zpow_lt {a b : ℤ} (h : (2 : ℚ) ^ a < 2 ^ b) : a < b :=
  (zpow_lt_zpow_iff_right₀ (by norm_num)).mp h

/-- The leading place of a number is that of its whole part. -/
theorem Tells.bounds (h : Tells (.ofMantissaAndAccuracy m accuracy) (v / 2 ^ e)) :
    v < 2 ^ ((m.log2 : ℤ) + e + 1) ∧ (m ≠ 0 → (2 : ℚ) ^ ((m.log2 : ℤ) + e) ≤ v) := by
  have hlow := h.mantissa_le
  have hhigh := h.lt_mantissa
  rw [ofMantissaAndAccuracy_mantissa] at hlow hhigh
  have hpos := two_zpow_pos e
  have hsplit : ∀ n : ℕ, (2 : ℚ) ^ ((n : ℤ) + e) = ((2 ^ n : ℕ) : ℚ) * 2 ^ e := by
    intro n
    rw [zpow_add₀ (by norm_num), zpow_natCast]
    push_cast
    rfl
  constructor
  · have hnat : m + 1 ≤ 2 ^ (m.log2 + 1) := Nat.lt_log2_self
    have hcast : (m : ℚ) + 1 ≤ ((2 ^ (m.log2 + 1) : ℕ) : ℚ) := by exact_mod_cast hnat
    have heq : (m.log2 : ℤ) + e + 1 = ((m.log2 + 1 : ℕ) : ℤ) + e := by
      push_cast
      ring
    rw [heq, hsplit]
    rw [div_lt_iff₀ hpos] at hhigh
    exact hhigh.trans_le (mul_le_mul_of_nonneg_right hcast hpos.le)
  · intro hm
    have hnat : 2 ^ m.log2 ≤ m := Nat.log2_self_le hm
    rw [hsplit]
    rw [le_div_iff₀ hpos] at hlow
    have hcast : ((2 ^ m.log2 : ℕ) : ℚ) ≤ m := by exact_mod_cast hnat
    exact (mul_le_mul_of_nonneg_right hcast hpos.le).trans hlow

/-- Powers of two in units of a last place. -/
theorem Double.lt_two_zpow_iff (e : ℤ) (n : ℕ) :
    v < 2 ^ (e + n) ↔ v / 2 ^ e < ((2 ^ n : ℕ) : ℚ) := by
  rw [zpow_add₀ (by norm_num), zpow_natCast, mul_comm, div_lt_iff₀ (two_zpow_pos e)]
  push_cast
  rfl

theorem Double.two_zpow_lt_iff (e : ℤ) (n : ℕ) :
    2 ^ (e + n) < v ↔ ((2 ^ n : ℕ) : ℚ) < v / 2 ^ e := by
  rw [zpow_add₀ (by norm_num), zpow_natCast, mul_comm, lt_div_iff₀ (two_zpow_pos e)]
  push_cast
  rfl

theorem Binary.Attracts.lt_top (hx : x.IsDouble) (hv : x.Attracts v) :
    v < 2 ^ (x.exponent + 53) := by
  have hhigh := hv.high
  have hm : (x.mantissa : ℚ) + 1 ≤ ((2 ^ 53 : ℕ) : ℚ) := by exact_mod_cast hx.lt
  refine (lt_two_zpow_iff x.exponent 53).mpr ?_
  push_cast at hm ⊢
  linarith

theorem Binary.Attracts.gt_bottom (hfull : 2 ^ 52 ≤ x.mantissa)
    (hv : x.Attracts v) : (2 : ℚ) ^ (x.exponent + 51) < v := by
  have hlow := hv.low
  have hm : ((2 ^ 51 + 1 : ℕ) : ℚ) ≤ x.mantissa := by
    have : 2 ^ 51 + 1 ≤ x.mantissa := by omega
    exact_mod_cast this
  have hbelow : (x.below : ℚ) ≤ 2 := by exact_mod_cast x.below_le_two
  refine (two_zpow_lt_iff x.exponent 51).mpr ?_
  push_cast at hm ⊢
  linarith

/-- The exponent at which a number is rounded that a double attracts: that of the double, or one
less, if the number lies just below a power of two. -/
theorem Double.targetExponent_of_attracts (hx : x.IsDouble) (hv : x.Attracts v)
    (h : Tells (.ofMantissaAndAccuracy m accuracy) (v / 2 ^ e))
    (he : e ≤ Format.binary64.targetExponent (totalExponent m e)) :
    Format.binary64.targetExponent (totalExponent m e) = x.exponent ∨
      Format.binary64.targetExponent (totalExponent m e) = x.exponent - 1 ∧
        x.mantissa = 2 ^ 52 ∧ x.exponent ≠ -1074 ∧ v < 2 ^ (x.exponent + 52) := by
  obtain ⟨hupper, hlower⟩ := h.bounds
  have htop := hv.lt_top hx
  have hleast := hx.least
  rw [targetExponent_eq, totalExponent] at he ⊢
  by_cases hm : m = 0
  · -- All of the number lies behind the point, so that the exponent is the least.
    subst hm
    rw [Nat.log2_zero] at he hupper ⊢
    have he' : e ≤ -1074 := by omega
    rcases hx.full with hex | hfull
    · left
      omega
    · exfalso
      have hbottom := hv.gt_bottom hfull
      have := lt_of_two_zpow_lt (hbottom.trans hupper)
      push_cast at this
      omega
  · have hle := lt_of_two_zpow_lt ((hlower hm).trans_lt htop)
    rcases hx.full with hex | hfull
    · left
      omega
    · have hbottom := hv.gt_bottom hfull
      have hge := lt_of_two_zpow_lt (hbottom.trans hupper)
      by_cases hsame : x.exponent + 52 ≤ m.log2 + e
      · left
        omega
      · by_cases hex : x.exponent = -1074
        · left
          omega
        · right
          have hlt : v < 2 ^ (x.exponent + 52) := by
            have hexp : (m.log2 : ℤ) + e + 1 = x.exponent + 52 := by omega
            rwa [hexp] at hupper
          refine ⟨by omega, ?_, hex, hlt⟩
          have hlow := hv.low
          have hbelow : (x.below : ℚ) ≤ 2 := by exact_mod_cast x.below_le_two
          have hunits := (lt_two_zpow_iff x.exponent 52).mp hlt
          have hm : (x.mantissa : ℚ) < ((2 ^ 52 + 1 : ℕ) : ℚ) := by
            push_cast at hunits ⊢
            linarith
          have hm : x.mantissa < 2 ^ 52 + 1 := by exact_mod_cast hm
          omega

/-- A mantissa that is shifted to a greater exponent tells about the number in units of the new
place. -/
theorem Tells.shiftToTargetExponent {t : ℤ}
    (h : Tells (.ofMantissaAndAccuracy m accuracy) (v / 2 ^ e))
    (ht : Format.binary64.targetExponent (totalExponent m e) = t) (he : e ≤ t) :
    ∃ em, UnpackedFloat.shiftToTargetExponent Format.binary64 m e accuracy = (em, t) ∧
      Tells em (v / 2 ^ t) := by
  refine ⟨ExtendedMantissa.ofMantissaAndAccuracy m accuracy >>> (t - e).toNat, ?_, ?_⟩
  · rw [UnpackedFloat.shiftToTargetExponent, shiftToExponent, ht]
    simp only [Prod.mk.injEq, true_and]
    omega
  · have hstep := h.shiftRight (t - e).toNat
    rw [div_div, ← zpow_natCast, ← zpow_add₀ (by norm_num)] at hstep
    rwa [Int.toNat_of_nonneg (by omega), show e + (t - e) = t by ring] at hstep

/-- In units of the double's last place, a number that it attracts is rounded to its mantissa. -/
theorem Binary.Attracts.roundedMantissa_eq (hv : x.Attracts v) {em : ExtendedMantissa}
    (h : Tells em (v / 2 ^ x.exponent)) : em.roundedMantissa = x.mantissa := by
  have hbelow : (x.below : ℚ) ≤ 2 := by exact_mod_cast x.below_le_two
  have hlow := hv.low
  have hhigh := hv.high
  refine h.roundedMantissa_eq (by linarith) (by linarith) ?_ ?_
  · intro hend
    exact hv.even (.inl (by linarith))
  · intro hend
    exact hv.even (.inr (by linarith))

/-- One place further down, a number just below a power of two is rounded up to it. -/
theorem Binary.Attracts.roundedMantissa_carry (hv : x.Attracts v) (hm : x.mantissa = 2 ^ 52)
    (hex : x.exponent ≠ -1074) (hlt : v < 2 ^ (x.exponent + 52)) {em : ExtendedMantissa}
    (h : Tells em (v / 2 ^ (x.exponent - 1))) : em.roundedMantissa = 2 ^ 53 := by
  have hlow := hv.low
  rw [Binary.below_eq_one hm hex, hm] at hlow
  have hhalf : v / 2 ^ (x.exponent - 1) = 2 * (v / 2 ^ x.exponent) := by
    rw [zpow_sub₀ (by norm_num)]
    field_simp
  have hunits := (lt_two_zpow_iff x.exponent 52).mp hlt
  refine h.roundedMantissa_eq ?_ ?_ (fun _ => by decide) (fun _ => by decide)
  · rw [hhalf]
    push_cast at hlow ⊢
    linarith
  · rw [hhalf]
    push_cast at hunits ⊢
    linarith

/-- Rounding gives the double that attracts the number. -/
theorem Double.roundWithAccuracy_eq (hx : x.IsDouble) (hv : x.Attracts v)
    (h : Tells (.ofMantissaAndAccuracy m accuracy) (v / 2 ^ e))
    (he : e ≤ Format.binary64.targetExponent (totalExponent m e)) (sign : Sign) :
    roundWithAccuracy Format.binary64 sign m e accuracy =
      .finite sign x.mantissa x.exponent hx.pos := by
  have htarget := targetExponent_of_attracts hx hv h he
  have hleast := hx.least
  generalize ht : Format.binary64.targetExponent (totalExponent m e) = t at he htarget
  obtain ⟨em, hshift, htells⟩ := h.shiftToTargetExponent ht he
  rw [roundWithAccuracy, hshift]
  simp only
  rcases htarget with rfl | ⟨rfl, hm, hex, hlt⟩
  · rw [hv.roundedMantissa_eq htells, shiftToTargetExponent_fits hx.lt hleast]
    simp only
    rw [dif_neg (Nat.ne_of_gt hx.pos)]
  · -- The carry makes the mantissa one bit too long, and the second shift takes the bit away.
    rw [hv.roundedMantissa_carry hm hex hlt htells, shiftToTargetExponent_carry (by omega)]
    simp only [hm, sub_add_cancel]
    rw [dif_neg (by decide)]

end Rounding

end SchemeMachine
