import SchemeMachine.Proofs.Doubles.Nearest

/-!
# Shortest decimals read back

The test by which the shortest decimal of a double is chosen is exact, and the grid of seventeen
digits always holds a decimal that passes it.  So the chosen decimal rounds to the double.
-/

namespace SchemeMachine

open Decimal Double

/-! ## Clearing denominators -/

/-- A power with its denominator cleared. -/
theorem Double.zpow_mul_pow_toNat {b : ℚ} (hb : b ≠ 0) (e : ℤ) :
    b ^ e * b ^ (-e).toNat = b ^ e.toNat := by
  rw [← zpow_natCast, ← zpow_natCast, ← zpow_add₀ hb]
  congr 1
  omega

/-- An order is kept by a positive scale. -/
theorem Double.compare_of_scale {a b c : ℚ} (hc : 0 < c) {m n : ℕ} (hm : (m : ℚ) = a * c)
    (hn : (n : ℚ) = b * c) : compare m n = compare a b := by
  cases h : compare m n with
  | lt =>
      refine (compare_lt_iff_lt.mpr ?_).symm
      rw [← mul_lt_mul_iff_left₀ hc, ← hm, ← hn]
      exact_mod_cast compare_lt_iff_lt.mp h
  | eq =>
      refine (compare_eq_iff_eq.mpr ?_).symm
      rw [← mul_left_inj' hc.ne', ← hm, ← hn]
      exact_mod_cast compare_eq_iff_eq.mp h
  | gt =>
      refine (compare_gt_iff_gt.mpr ?_).symm
      rw [← mul_lt_mul_iff_left₀ hc, ← hm, ← hn]
      exact_mod_cast compare_gt_iff_gt.mp h

theorem Decimal.compareBinary_eq (d : Decimal) (n : ℕ) (q : ℤ) :
    d.compareBinary n q = compare d.value (n * 2 ^ q) := by
  have hscale : (0 : ℚ) < 2 ^ (-q).toNat * 10 ^ (-d.exponent).toNat := by positivity
  refine compare_of_scale hscale ?_ ?_
  · rw [Nat.pow_eq, Nat.pow_eq, value]
    push_cast
    rw [← zpow_mul_pow_toNat (by norm_num : (10 : ℚ) ≠ 0) d.exponent]
    ring
  · rw [Nat.pow_eq, Nat.pow_eq]
    push_cast
    rw [← zpow_mul_pow_toNat (by norm_num : (2 : ℚ) ≠ 0) q]
    ring

namespace Binary

variable {x : Binary}

/-- The order of a decimal against a number of quarters of the last place. -/
theorem compareBinary_quarters (x : Binary) (d : Decimal) (n : ℕ) :
    (d.compareBinary n (x.exponent - 2) = .lt ↔ 4 * (d.value / 2 ^ x.exponent) < n) ∧
    (d.compareBinary n (x.exponent - 2) = .eq ↔ 4 * (d.value / 2 ^ x.exponent) = n) ∧
    (d.compareBinary n (x.exponent - 2) = .gt ↔ (n : ℚ) < 4 * (d.value / 2 ^ x.exponent)) := by
  have hpos := two_zpow_pos x.exponent
  have hquarter : (n * 2 ^ (x.exponent - 2) : ℚ) = n / 4 * 2 ^ x.exponent := by
    rw [zpow_sub₀ (by norm_num)]
    norm_num
    ring
  have hunits : 4 * (d.value / 2 ^ x.exponent) = d.value / (2 ^ x.exponent / 4) := by
    field_simp
  rw [d.compareBinary_eq, hquarter, hunits, compare_lt_iff_lt, compare_eq_iff_eq,
    compare_gt_iff_gt, div_lt_iff₀ (by positivity), div_eq_iff (by positivity),
    lt_div_iff₀ (by positivity), mul_div_assoc', div_mul_eq_mul_div]
  exact ⟨.rfl, .rfl, .rfl⟩

/-- Both ends of the interval are tested. -/
theorem readsBack_ends (x : Binary) (d : Decimal) : x.readsBack d = true ↔
    (d.compareBinary (4 * x.mantissa - x.below) (x.exponent - 2) ≠ .lt ∧
      d.compareBinary (4 * x.mantissa + 2) (x.exponent - 2) ≠ .gt) ∧
    (d.compareBinary (4 * x.mantissa - x.below) (x.exponent - 2) = .eq ∨
      d.compareBinary (4 * x.mantissa + 2) (x.exponent - 2) = .eq → x.mantissa % 2 = 0) := by
  have hbelow : (4 * x.mantissa - if x.narrowBelow = true then 1 else 2) =
      4 * x.mantissa - x.below := rfl
  rw [readsBack]
  show (_ && _) = true ↔ _
  rw [Bool.and_eq_true, hbelow]
  cases d.compareBinary (4 * x.mantissa - x.below) (x.exponent - 2) <;>
    cases d.compareBinary (4 * x.mantissa + 2) (x.exponent - 2) <;> simp

/-- The test for the numbers that round to a double is right. -/
theorem readsBack_iff (hx : 0 < x.mantissa) (d : Decimal) :
    x.readsBack d = true ↔ x.Attracts d.value := by
  have hbelow : x.below ≤ 4 * x.mantissa := by
    have := x.below_le_two
    omega
  obtain ⟨hlt, hloweq, -⟩ := x.compareBinary_quarters d (4 * x.mantissa - x.below)
  obtain ⟨-, hhigheq, hgt⟩ := x.compareBinary_quarters d (4 * x.mantissa + 2)
  push_cast [hbelow] at hlt hloweq hhigheq hgt
  rw [readsBack_ends, Ne, Ne, hlt, hgt, hloweq, hhigheq, not_lt, not_lt]
  exact ⟨fun h => ⟨h.1.1, h.1.2, h.2⟩, fun h => ⟨⟨h.low, h.high⟩, h.even⟩⟩

end Binary

namespace Binary

variable {x : Binary}

/-- The number a magnitude stands for. -/
def value (x : Binary) : ℚ :=
  x.mantissa * 2 ^ x.exponent

theorem quotient_value (x : Binary) : x.value = (x.quotient.1 : ℚ) / x.quotient.2 := by
  have hpos : (0 : ℚ) < 2 ^ (-x.exponent).toNat := by positivity
  rw [quotient, Nat.pow_eq, Nat.pow_eq, value]
  push_cast
  rw [eq_div_iff hpos.ne', mul_assoc, zpow_mul_pow_toNat (by norm_num)]

theorem quotient_pos (hx : 0 < x.mantissa) : 0 < x.quotient.1 ∧ 0 < x.quotient.2 :=
  ⟨Nat.mul_pos hx (Nat.two_pow_pos _), Nat.two_pow_pos _⟩

/-- No power of ten above the number leads it. -/
theorem ten_zpow_leadingExponent_le {top bottom : ℕ} (htop : 0 < top) (hbottom : 0 < bottom) :
    (10 : ℚ) ^ leadingExponent top bottom ≤ top / bottom := by
  have hbottom' : (0 : ℚ) < bottom := by exact_mod_cast hbottom
  rw [leadingExponent, le_div_iff₀ hbottom']
  split
  next hle =>
    have hwhole : 0 < top / bottom := Nat.div_pos hle hbottom
    have hcount := digitCount_pos hwhole
    have hexponent : ((digitCount (top / bottom) : ℕ) : ℤ) - 1 =
        ((digitCount (top / bottom) - 1 : ℕ) : ℤ) := by omega
    have hnat : 10 ^ (digitCount (top / bottom) - 1) * bottom ≤ top :=
      (Nat.mul_le_mul_right bottom (ten_pow_digitCount_le hwhole)).trans (Nat.div_mul_le_self _ _)
    rw [hexponent, zpow_natCast]
    exact_mod_cast hnat
  next hlt =>
    -- One less than the divisor is short of that power times the dividend.
    have hpart : (bottom - 1) / top < 10 ^ digitCount ((bottom - 1) / top) :=
      lt_ten_pow_digitCount _
    have hnat : bottom ≤ top * 10 ^ digitCount ((bottom - 1) / top) := by
      have := (Nat.div_lt_iff_lt_mul htop).mp hpart
      rw [mul_comm] at this
      omega
    rw [zpow_neg, zpow_natCast, inv_mul_le_iff₀ (by positivity), mul_comm]
    exact_mod_cast hnat

/-- The number lies between its neighbours on a grid. -/
theorem onGrid_bounds (x : Binary) (g : ℤ) :
    ((x.onGrid g).1 : ℚ) * 10 ^ g ≤ x.value ∧ x.value < ((x.onGrid g).1 + 1 : ℕ) * 10 ^ g := by
  have hten := ten_zpow_pos g
  obtain ⟨top, bottom, hquotient⟩ : ∃ top bottom, x.quotient = (top, bottom) := ⟨_, _, rfl⟩
  have hbottom : 0 < bottom := by
    have : 0 < x.quotient.2 := Nat.two_pow_pos _
    rwa [hquotient] at this
  have hvalue : x.value = (top : ℚ) / bottom := by
    rw [quotient_value, hquotient]
  have hwhole : (x.onGrid g).1 =
      top * 10 ^ (-g).toNat / (bottom * 10 ^ g.toNat) := by
    rw [onGrid, hquotient]
    rfl
  have hbottom' : (0 : ℚ) < bottom := by exact_mod_cast hbottom
  have hscaled : x.value / 10 ^ g = (top * 10 ^ (-g).toNat : ℕ) / (bottom * 10 ^ g.toNat : ℕ) := by
    rw [hvalue]
    push_cast
    rw [← zpow_mul_pow_toNat (by norm_num : (10 : ℚ) ≠ 0) g]
    field_simp
  rw [hwhole, ← le_div_iff₀ hten, ← div_lt_iff₀ hten, hscaled]
  have hscale : 0 < bottom * 10 ^ g.toNat := Nat.mul_pos hbottom (Nat.pow_pos (by omega))
  have hscale' : (0 : ℚ) < (bottom * 10 ^ g.toNat : ℕ) := by exact_mod_cast hscale
  constructor
  · rw [le_div_iff₀ hscale']
    exact_mod_cast Nat.div_mul_le_self _ _
  · have hnat := Nat.lt_mul_div_succ (top * 10 ^ (-g).toNat) hscale
    rw [mul_comm (bottom * 10 ^ g.toNat)] at hnat
    rw [div_lt_iff₀ hscale']
    exact_mod_cast hnat

/-- A candidate reads back. -/
theorem readsBack_of_candidate? {tie : Tie} {g : ℤ} {d : Decimal}
    (h : x.candidate? tie g = some d) : x.readsBack d = true := by
  rw [candidate?] at h
  simp only at h
  split at h
  next => cases h
  next hlower _ =>
    cases h
    exact hlower
  next _ hupper =>
    cases h
    exact hupper
  next hlower hupper =>
    split at h
    · cases h
      exact hlower
    · cases h
      exact hupper
    · cases h
      exact hupper
    · cases h
      split
      · exact hlower
      · exact hupper

/-- There is a candidate if a neighbour reads back. -/
theorem candidate?_ne_none {tie : Tie} {g : ℤ}
    (h : x.readsBack ⟨(x.onGrid g).1, g⟩ = true ∨ x.readsBack ⟨(x.onGrid g).1 + 1, g⟩ = true) :
    x.candidate? tie g ≠ none := by
  rw [candidate?]
  simp only
  split
  next hlower hupper =>
    rw [hlower, hupper] at h
    rcases h with h | h <;> cases h
  next => exact Option.some_ne_none _
  next => exact Option.some_ne_none _
  next => split <;> exact Option.some_ne_none _

/-- On a fine grid one of the two neighbours rounds to the number. -/
theorem attracts_neighbour (hx : x.IsDouble) {g : ℤ} (hfine : 10 ^ 16 * 10 ^ g ≤ x.value) :
    x.Attracts (Decimal.value ⟨(x.onGrid g).1, g⟩) ∨
      x.Attracts (Decimal.value ⟨(x.onGrid g).1 + 1, g⟩) := by
  obtain ⟨hlow, hhigh⟩ := x.onGrid_bounds g
  have hpos := two_zpow_pos x.exponent
  generalize (x.onGrid g).1 = whole at *
  -- Everything is counted in units of the last place.
  obtain ⟨step, hstep⟩ : ∃ step : ℚ, step = 10 ^ g / 2 ^ x.exponent := ⟨_, rfl⟩
  have hunits : x.value / 2 ^ x.exponent = x.mantissa := mul_div_cancel_right₀ _ hpos.ne'
  have hlower : Decimal.value ⟨whole, g⟩ / 2 ^ x.exponent = whole * step := by
    rw [hstep, Decimal.value, mul_div_assoc]
  have hupper : Decimal.value ⟨whole + 1, g⟩ / 2 ^ x.exponent = whole * step + step := by
    rw [hstep, Decimal.value, mul_div_assoc]
    push_cast
    ring
  have hstepPos : 0 < step := hstep ▸ div_pos (ten_zpow_pos g) hpos
  have hlow' : whole * step ≤ x.mantissa := by
    rw [← hlower, ← hunits]
    exact div_le_div_of_nonneg_right hlow hpos.le
  have hhigh' : (x.mantissa : ℚ) < whole * step + step := by
    rw [← hupper, ← hunits]
    exact div_lt_div_of_pos_right hhigh hpos
  have hfine' : 10 ^ 16 * step ≤ x.mantissa := by
    rw [hstep, ← hunits, ← mul_div_assoc]
    exact div_le_div_of_nonneg_right hfine hpos.le
  have hbelow := x.below_pos
  by_cases hnarrow : x.narrowBelow = true
  · -- The neighbour below is nearer, but the mantissa is then the least, and the grid finer.
    have hm : x.mantissa = 2 ^ 52 := by
      rw [narrowBelow, Bool.and_eq_true] at hnarrow
      exact beq_iff_eq.mp hnarrow.1
    have hhalf : 2 * step < 1 := by
      rw [hm] at hfine'
      push_cast at hfine'
      linarith
    right
    refine Binary.attracts_of_lt ?_ ?_ <;> rw [hupper] <;> linarith
  · have htwo : (x.below : ℚ) = 2 := by
      rw [below, if_neg hnarrow]
      norm_num
    have hone : step < 1 := by
      have hm : (x.mantissa : ℚ) < ((2 ^ 53 : ℕ) : ℚ) := by exact_mod_cast hx.lt
      push_cast at hm
      linarith
    by_cases hhalf : (x.mantissa : ℚ) - whole * step < 1 / 2
    · left
      refine Binary.attracts_of_lt ?_ ?_ <;> rw [hlower] <;> linarith
    · right
      refine Binary.attracts_of_lt ?_ ?_ <;> rw [hupper] <;> linarith

/-- The shortest decimal of a double rounds to it. -/
theorem attracts_shortest (hx : x.IsDouble) (tie : Tie) : x.Attracts (x.shortest tie).value := by
  obtain ⟨htop, hbottom⟩ := quotient_pos hx.pos
  have hlead := ten_zpow_leadingExponent_le htop hbottom
  rw [← quotient_value] at hlead
  rw [shortest]
  simp only
  generalize leadingExponent x.quotient.1 x.quotient.2 = lead at *
  have hfine : 10 ^ 16 * (10 : ℚ) ^ (lead - 16) ≤ x.value := by
    have : 10 ^ 16 * (10 : ℚ) ^ (lead - 16) = 10 ^ lead := by
      rw [← zpow_natCast, ← zpow_add₀ (by norm_num)]
      congr 1
      omega
    rwa [this]
  have hlast : x.candidate? tie (lead - 16) ≠ none := by
    apply candidate?_ne_none
    rw [readsBack_iff hx.pos, readsBack_iff hx.pos]
    exact attracts_neighbour hx hfine
  have hgrid : lead - 16 ∈ (List.range 17).map fun k : ℕ => lead - (k : ℤ) :=
    List.mem_map.mpr ⟨16, by decide, rfl⟩
  cases hfound : ((List.range 17).map fun k : ℕ => lead - (k : ℤ)).findSome? (x.candidate? tie) with
  | none => exact absurd (List.findSome?_eq_none_iff.mp hfound _ hgrid) hlast
  | some d =>
      obtain ⟨g, -, hg⟩ := List.exists_of_findSome?_eq_some hfound
      exact (readsBack_iff hx.pos d).mp (readsBack_of_candidate? hg)

end Binary

end SchemeMachine
