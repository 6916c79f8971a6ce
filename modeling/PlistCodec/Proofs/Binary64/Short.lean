import PlistCodec.Proofs.Binary64.Exact

/-!
# The short form of a double

Every number of the short form is a double, and its short form is that number again
(`narrow_widen`).  The grid of the short form is coarser than that of the doubles and reaches less
far, so that neither widening nor narrowing rounds anything here.
-/

namespace PlistCodec.Binary64

open FloatGrid

variable {short : UInt32} {code : Nat} {negative : Bool}

/-- The short form in sign and code. -/
theorem toNat_short (short : UInt32) :
    short.toNat = (if shortSignBit ≤ short.toNat then shortSignBit else 0)
      + short.toNat % shortSignBit := by
  have hlt := short.toNat_lt
  have hsign : shortSignBit = 2 ^ 31 := by decide
  rw [hsign]
  by_cases hset : 2 ^ 31 ≤ short.toNat
  · rw [if_pos hset]
    omega
  · rw [if_neg hset]
    omega

theorem unitsPerShortUnit_pos : 0 < unitsPerShortUnit := one_shiftLeft_pos 925

/-- A finite number of the short form is a double. -/
theorem exists_code_of_short (h : code < shortInfinityCode) :
    ∃ wide, wide < infinityCode ∧
      codeUnits fractionBits wide = codeUnits shortFractionBits code * unitsPerShortUnit := by
  obtain ⟨exponent, significand, hfits, hlt, hcode⟩ := exists_fits shortFractionBits code
  have hle : significand ≤ 2 * 1 <<< fractionBits := by
    refine Nat.le_trans (Nat.le_of_lt hlt) (Nat.mul_le_mul_left 2 (one_shiftLeft_le ?_))
    decide
  obtain ⟨wide, hwide⟩ := exists_codeUnits_eq_shiftLeft hle (exponent + 925)
  have hunits : codeUnits fractionBits wide
      = codeUnits shortFractionBits code * unitsPerShortUnit := by
    rw [hwide, hcode, hfits.codeUnits_eq, Nat.shiftLeft_add, shiftLeft_eq_mul _ 925]
    rfl
  have hlimit : codeUnits shortFractionBits shortInfinityCode * unitsPerShortUnit
      < codeUnits fractionBits infinityCode := by
    decide +kernel
  have hless : codeUnits fractionBits wide < codeUnits fractionBits infinityCode := by
    rw [hunits]
    exact Nat.lt_of_le_of_lt (Nat.mul_le_mul_right _ (codeUnits_le (Nat.le_of_lt h))) hlimit
  exact ⟨wide, lt_of_codeUnits_lt hless, hunits⟩

/-- Widening a finite number does not round it. -/
theorem magnitude_ofQuotient_short (h : code < shortInfinityCode) :
    (ofQuotient negative (codeUnits shortFractionBits code * unitsPerShortUnit) 1).isFinite = true ∧
      (ofQuotient negative (codeUnits shortFractionBits code * unitsPerShortUnit) 1).magnitude
        = codeUnits shortFractionBits code * unitsPerShortUnit := by
  obtain ⟨wide, hlt, hunits⟩ := exists_code_of_short h
  have hround := roundCode_codeUnits_mul fractionBits wide Nat.one_pos
  rw [Nat.mul_one, hunits] at hround
  rw [ofQuotient, hround]
  exact ⟨isFinite_ofCode hlt, (magnitude_ofCode hlt).trans hunits⟩

/-- **Narrowing what was widened.**  Only not-a-number loses bits. -/
theorem narrow_widen (h : (widen short).isNaN = false) : (widen short).narrow = short := by
  have hshort : UInt32.ofNat ((if shortSignBit ≤ short.toNat then shortSignBit else 0)
      + short.toNat % shortSignBit) = short := by
    rw [← toNat_short, UInt32.ofNat_toNat]
  have hnan : nan.isNaN = true := by decide
  unfold widen at h ⊢
  simp only at h ⊢
  by_cases hlarge : shortInfinityCode < short.toNat % shortSignBit
  · rw [if_pos hlarge, hnan] at h
    cases h
  rw [if_neg hlarge] at h ⊢
  by_cases hinfinite : short.toNat % shortSignBit = shortInfinityCode
  · rw [if_pos hinfinite] at h ⊢
    rw [hinfinite] at hshort
    have hinf : (infinity (decide (shortSignBit ≤ short.toNat))).isInfinite = true := by
      simp [isInfinite, infinity]
    rw [narrow, h, hinf]
    simpa [infinity] using hshort
  · rw [if_neg hinfinite]
    have hlt : short.toNat % shortSignBit < shortInfinityCode := by omega
    obtain ⟨hfinite, hmagnitude⟩ := @magnitude_ofQuotient_short _
      (decide (shortSignBit ≤ short.toNat)) hlt
    have hround := roundCode_codeUnits_mul shortFractionBits (short.toNat % shortSignBit)
      unitsPerShortUnit_pos
    rw [narrow, isNaN_of_isFinite hfinite, isInfinite_of_isFinite hfinite, hmagnitude, hround,
      Nat.min_eq_left (Nat.le_of_lt hlt), ofQuotient, isNegative_ofCode]
    simpa using hshort

end PlistCodec.Binary64
