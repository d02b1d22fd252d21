import SchemeMachine.Proofs.Doubles.Rounding

/-!
# Words of doubles

A double is a word of 64 bits with a sign, an exponent and a mantissa.  A finite one is a zero or a
magnitude with a sign, and packing these gives the word again.
-/

namespace SchemeMachine

open Float.Model Float.Model.UnpackedFloat Double

namespace Double

theorem toNat_leading (m : BitVec 52) : (1#1 ++ m).toNat = 2 ^ 52 + m.toNat := by
  rw [BitVec.toNat_append, ← Nat.shiftLeft_add_eq_or_of_lt m.isLt]
  rfl

/-- The word of a double whose mantissa has not all of its bits. -/
theorem pack_subnormal (s : Sign) {m : ℕ} (hpos : 0 < m) (hm : m < 2 ^ 52) :
    UnpackedFloat.pack Format.binary64 (.finite s m (-1074) hpos) =
      packComponents Format.binary64 s 0#11 (BitVec.ofNat 52 m) := by
  have hlog : m.log2 < 52 := (Nat.log2_lt (by omega)).mpr hm
  have hbits : Format.binary64.mantissaBits = 53 := rfl
  rw [UnpackedFloat.pack, hbits, if_neg (by decide), if_neg (by omega)]

/-- The word of a double whose mantissa has all of its bits, the first of which is not stored. -/
theorem pack_normal (s : Sign) {m : ℕ} {e : ℤ} (hpos : 0 < m) (hlow : 2 ^ 52 ≤ m)
    (hm : m < 2 ^ 53) (he : -1074 ≤ e) (he' : e ≤ 971) :
    UnpackedFloat.pack Format.binary64 (.finite s m e hpos) =
      packComponents Format.binary64 s (BitVec.ofNat 11 (e + 1075).toNat) (BitVec.ofNat 52 m) := by
  have hlog : m.log2 = 52 := (Nat.log2_eq_iff (by omega)).mpr ⟨hlow, hm⟩
  have hbits : Format.binary64.mantissaBits = 53 := rfl
  have hbiased : (e + Format.binary64.exponentBias +
      Format.binary64.mantissaBitsWithoutImplicit).toNat = (e + 1075).toNat := by
    show (e + (1023 : ℕ) + (52 : ℕ)).toNat = (e + 1075).toNat
    omega
  have hfits : ¬ 2 ^ Format.binary64.exponentBits ≤ (e + 1075).toNat + 1 := by
    show ¬ 2 ^ 11 ≤ (e + 1075).toNat + 1
    omega
  rw [UnpackedFloat.pack, hbiased, hbits, hlog, if_neg hfits, if_pos rfl]

theorem unpack_subnormal (s : Sign) {m : ℕ} (hpos : 0 < m) (hm : m < 2 ^ 52) :
    UnpackedFloat.unpack Format.binary64
      (packComponents Format.binary64 s 0#11 (BitVec.ofNat 52 m)) = .finite s m (-1074) hpos := by
  have hm' : (BitVec.ofNat 52 m).toNat = m := by
    rw [BitVec.toNat_ofNat, Nat.mod_eq_of_lt hm]
  have hne : BitVec.ofNat 52 m ≠ 0#52 := by
    intro h
    have := congrArg BitVec.toNat h
    rw [hm', BitVec.toNat_zero] at this
    omega
  rw [UnpackedFloat.unpack]
  simp only [unpackMantissa_packComponents, unpackExponent_packComponents,
    unpackSign_packComponents, Sign.ofBitVec_toBitVec]
  rw [if_neg (by decide), if_pos trivial, dif_neg hne]
  simp only [hm']
  rfl

theorem unpack_normal (s : Sign) {m : ℕ} {e : ℤ} (hpos : 0 < m) (hlow : 2 ^ 52 ≤ m)
    (hm : m < 2 ^ 53) (he : -1074 ≤ e) (he' : e ≤ 971) :
    UnpackedFloat.unpack Format.binary64 (packComponents Format.binary64 s
      (BitVec.ofNat 11 (e + 1075).toNat) (BitVec.ofNat 52 m)) = .finite s m e hpos := by
  have hexponent : (BitVec.ofNat 11 (e + 1075).toNat).toNat = (e + 1075).toNat := by
    rw [BitVec.toNat_ofNat, Nat.mod_eq_of_lt (by omega)]
  have hmantissa : (1#1 ++ BitVec.ofNat 52 m).toNat = m := by
    rw [toNat_leading, BitVec.toNat_ofNat]
    omega
  have hnot : ∀ n < 2048, (e + 1075).toNat ≠ n →
      BitVec.ofNat 11 (e + 1075).toNat ≠ BitVec.ofNat 11 n := by
    intro n hn hne h
    have := congrArg BitVec.toNat h
    rw [hexponent, BitVec.toNat_ofNat, Nat.mod_eq_of_lt hn] at this
    exact hne this
  rw [UnpackedFloat.unpack]
  simp only [unpackMantissa_packComponents, unpackExponent_packComponents,
    unpackSign_packComponents, Sign.ofBitVec_toBitVec]
  have hones : BitVec.ofNat 11 (e + 1075).toNat ≠ -1#11 := hnot 2047 (by omega) (by omega)
  rw [if_neg hones, if_neg (hnot 0 (by omega) (by omega))]
  simp only [hmantissa, hexponent]
  congr 1
  show ((e + 1075).toNat : ℤ) - ((1023 : ℕ) + (52 : ℕ)) = e
  omega

/-- The parts of a word as numbers. -/
theorem toNat_unpackMantissa (b : BitVec Format.binary64.numBits) :
    (unpackMantissa b).toNat = b.toNat % 2 ^ 52 := by
  simp [unpackMantissa]

theorem toNat_unpackExponent (b : BitVec Format.binary64.numBits) :
    (unpackExponent b).toNat = b.toNat / 2 ^ 52 % 2 ^ 11 := by
  simp [unpackExponent, Nat.shiftRight_eq_div_pow]

theorem toNat_unpackSign (b : BitVec Format.binary64.numBits) :
    (unpackSign b).toNat = b.toNat / 2 ^ 63 % 2 := by
  simp [unpackSign, Nat.shiftRight_eq_div_pow]

end Double

/-- The word of a double. -/
abbrev Double.word (x : Float) : BitVec Format.binary64.numBits :=
  x.toBits.toBitVec

/-- The sign of a double. -/
def Double.signOf (x : Float) : Sign :=
  if x.toBits.toNat / Nat.pow 2 63 == 1 then .negative else .positive

/-- A double is what its word says. -/
theorem Double.eq_pack {x : Float} {f : UnpackedFloat}
    (h : UnpackedFloat.pack Format.binary64 f = word x) : x = .ofModel (.pack f) := by
  obtain ⟨⟨bits, valid⟩⟩ := x
  rw [Float.ofModel.injEq, Float.Model.mk.injEq]
  exact congrArg UInt64.ofBitVec h.symm

theorem Double.sign_unpackSign (x : Float) :
    Sign.ofBitVec (@unpackSign Format.binary64 (word x)) = signOf x := by
  have hsign := toNat_unpackSign (word x)
  have hlt := x.toBits.toNat_lt
  rw [UInt64.toNat_toBitVec, Nat.mod_eq_of_lt (by omega)] at hsign
  have hzero : unpackSign (word x) = 0#1 ↔ ¬ x.toBits.toNat / 2 ^ 63 = 1 := by
    rw [BitVec.toNat_eq, hsign, BitVec.toNat_zero]
    omega
  show (if unpackSign (word x) = 0#1 then Sign.positive else Sign.negative) =
    if (x.toBits.toNat / 2 ^ 63 == 1) = true then Sign.negative else Sign.positive
  simp only [hzero, beq_iff_eq, ite_not]

theorem Double.unpackExponent_of_isFinite {x : Float} (h : x.isFinite = true) :
    x.toBits.toNat / 2 ^ 52 % 2 ^ 11 ≠ 2047 := by
  have hfinite : (UnpackedFloat.unpack Format.binary64 (word x)).isFinite = true := h
  intro hones
  have hexponent : unpackExponent (word x) = -1#11 := by
    rw [BitVec.toNat_eq]
    exact (toNat_unpackExponent (word x)).trans hones
  rw [UnpackedFloat.unpack] at hfinite
  simp only [hexponent, if_true] at hfinite
  split at hfinite <;> cases hfinite

theorem Double.isDouble_subnormal {m : ℕ} (hpos : 0 < m) (hm : m < 2 ^ 52) :
    Binary.IsDouble ⟨m, -1074⟩ where
  pos := hpos
  lt := show m < 2 ^ 53 by omega
  least := show (-1074 : ℤ) ≤ -1074 by omega
  most := show (-1074 : ℤ) ≤ 971 by omega
  full := .inl rfl

theorem Double.isDouble_normal {m : ℕ} {e : ℤ} (hlow : 2 ^ 52 ≤ m) (hm : m < 2 ^ 53)
    (he : -1074 ≤ e) (he' : e ≤ 971) : Binary.IsDouble ⟨m, e⟩ where
  pos := show 0 < m by omega
  lt := hm
  least := he
  most := he'
  full := .inr hlow

/-- A finite double is a zero, or its magnitude with its sign. -/
theorem Double.eq_pack_of_isFinite {x : Float} (h : x.isFinite = true) :
    (Binary.ofBits x.toBits).mantissa = 0 ∧ x = .ofModel (.pack (.zero (signOf x))) ∨
    ∃ hx : (Binary.ofBits x.toBits).IsDouble,
      x = .ofModel (.pack (.finite (signOf x) (Binary.ofBits x.toBits).mantissa
        (Binary.ofBits x.toBits).exponent hx.pos)) := by
  have hparts := @packComponents_unpackSign_unpackExponent_unpackMantissa Format.binary64 (word x)
  have hmantissa := toNat_unpackMantissa (word x)
  have hexponent := toNat_unpackExponent (word x)
  have hones := unpackExponent_of_isFinite h
  rw [sign_unpackSign] at hparts
  rw [UInt64.toNat_toBitVec] at hmantissa hexponent
  generalize hx : Binary.ofBits x.toBits = binary
  generalize hbiased : x.toBits.toNat / 2 ^ 52 % 2 ^ 11 = biased at *
  generalize hfraction : x.toBits.toNat % 2 ^ 52 = fraction at *
  have hbelow : fraction < 2 ^ 52 := hfraction ▸ Nat.mod_lt _ (by omega)
  have htop : biased < 2 ^ 11 := hbiased ▸ Nat.mod_lt _ (by omega)
  have hstored : BitVec.ofNat 52 fraction = unpackMantissa (word x) := by
    rw [BitVec.toNat_eq, hmantissa, BitVec.toNat_ofNat, Nat.mod_eq_of_lt hbelow]
  have hbinary : (if biased = 0 then (⟨fraction, -1074⟩ : Binary)
      else ⟨2 ^ 52 + fraction, (biased : ℤ) - 1075⟩) = binary := by
    rw [← hx, Binary.ofBits, ← hbiased, ← hfraction]
    rfl
  -- The least exponent has no leading bit, and with an empty mantissa it means a zero.
  by_cases hleast : biased = 0
  · rw [if_pos hleast] at hbinary
    subst hbinary
    have hzero : unpackExponent (word x) = 0#11 := by
      rw [BitVec.toNat_eq, hexponent, hleast]
      rfl
    by_cases hnone : fraction = 0
    · left
      refine ⟨hnone, eq_pack ?_⟩
      rw [← hparts, hzero, ← hstored, hnone]
      rfl
    · right
      refine ⟨isDouble_subnormal (Nat.pos_of_ne_zero hnone) hbelow, eq_pack ?_⟩
      rw [pack_subnormal _ _ hbelow, hstored, ← hzero, hparts]
  · -- Every other exponent has a leading bit that is not stored.
    rw [if_neg hleast] at hbinary
    subst hbinary
    right
    refine ⟨isDouble_normal (by omega) (by omega) (by omega) (by omega), eq_pack ?_⟩
    have hbits : BitVec.ofNat 11 ((biased : ℤ) - 1075 + 1075).toNat =
        unpackExponent (word x) := by
      rw [BitVec.toNat_eq, hexponent, BitVec.toNat_ofNat, Nat.mod_eq_of_lt (by omega)]
      omega
    have hwhole : BitVec.ofNat 52 (2 ^ 52 + fraction) = unpackMantissa (word x) := by
      rw [BitVec.toNat_eq, hmantissa, BitVec.toNat_ofNat, Nat.add_mod_left,
        Nat.mod_eq_of_lt hbelow]
    show UnpackedFloat.pack Format.binary64
      (.finite (signOf x) (2 ^ 52 + fraction) ((biased : ℤ) - 1075) _) = word x
    rw [pack_normal _ _ (by omega) (by omega) (by omega) (by omega), hbits, hwhole, hparts]

end SchemeMachine
