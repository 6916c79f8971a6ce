import PlistCodec.Binary64.Basic
import PlistCodec.Proofs.Binary64.Grid

/-!
# Arithmetic without rounding errors

Whole numbers up to 2^53 are doubles, and so the arithmetic on doubles does not leave a bound of
that kind: what is exactly within `n` is within `n` after it was rounded (`within_ofQuotient`).  The
greatest whole number below a double is always exact (`units_floor`).
-/

namespace PlistCodec.Binary64

open FloatGrid

variable {x y : Binary64} {n num den : Nat} {negative : Bool}

/-! ## Sign and code -/

theorem infinityCode_lt_signBit : infinityCode < signBit := by decide

theorem toNat_bits_ofCode (negative : Bool) (code : Nat) :
    (ofCode negative code).bits.toNat
      = (if negative then signBit else 0) + min code infinityCode := by
  have hsign : signBit + signBit = UInt64.size := by decide
  have hinfinity := infinityCode_lt_signBit
  rw [ofCode, UInt64.toNat_ofNat']
  refine Nat.mod_eq_of_lt ?_
  have hsize : UInt64.size = 2 ^ 64 := rfl
  rw [← hsize]
  split <;> omega

@[simp] theorem code_ofCode (negative : Bool) (code : Nat) :
    (ofCode negative code).code = min code infinityCode := by
  have hinfinity := infinityCode_lt_signBit
  have hlt : min code infinityCode < signBit := by omega
  rw [Binary64.code, toNat_bits_ofCode]
  cases negative
  · simp only [Bool.false_eq_true, if_false, Nat.zero_add, Nat.mod_eq_of_lt hlt]
  · simp only [if_true, Nat.add_mod_left, Nat.mod_eq_of_lt hlt]

@[simp] theorem isNegative_ofCode (negative : Bool) (code : Nat) :
    (ofCode negative code).isNegative = negative := by
  have hinfinity := infinityCode_lt_signBit
  rw [isNegative, toNat_bits_ofCode]
  cases negative
  · simp only [Bool.false_eq_true, if_false, decide_eq_false_iff_not]
    omega
  · simp only [if_true, decide_eq_true_eq]
    omega

@[simp] theorem code_neg (x : Binary64) : x.neg.code = x.code := by
  have hsign : signBit = 2 ^ 63 := by decide
  rw [code, code, neg, UInt64.toNat_xor, hsign, Nat.xor_mod_two_pow]
  exact Nat.xor_zero _

@[simp] theorem isNegative_neg (x : Binary64) : x.neg.isNegative = !x.isNegative := by
  have hsign : signBit = 2 ^ 63 := by decide
  have hbits := x.bits.toNat_lt
  have hxor : (x.bits.toNat ^^^ 9223372036854775808) / 2 ^ 63 = x.bits.toNat / 2 ^ 63 ^^^ 1 :=
    Nat.xor_div_two_pow
  rw [isNegative, isNegative, neg, UInt64.toNat_xor, hsign, ← decide_not, decide_eq_decide]
  have hbit : x.bits.toNat / 2 ^ 63 = 0 ∨ x.bits.toNat / 2 ^ 63 = 1 := by omega
  rcases hbit with hbit | hbit <;> rw [hbit] at hxor <;> simp at hxor ⊢ <;> omega

theorem isNaN_of_isFinite (h : x.isFinite) : x.isNaN = false := by
  simp only [isFinite, isNaN, decide_eq_true_eq, decide_eq_false_iff_not] at *
  omega

theorem isInfinite_of_isFinite (h : x.isFinite) : x.isInfinite = false := by
  simp only [isFinite, isInfinite, decide_eq_true_eq, decide_eq_false_iff_not] at *
  omega

theorem isFinite_neg (x : Binary64) : x.neg.isFinite = x.isFinite := by
  rw [isFinite, isFinite, code_neg]

theorem magnitude_neg (x : Binary64) : x.neg.magnitude = x.magnitude := by
  rw [magnitude, magnitude, code_neg]

theorem units_neg (x : Binary64) : x.neg.units = -x.units := by
  rw [units, units, isNegative_neg, magnitude_neg]
  cases x.isNegative <;> simp

theorem natAbs_units (x : Binary64) : x.units.natAbs = x.magnitude := by
  rw [units]
  split <;> omega

/-! ## Whole numbers -/

/-- Whole numbers up to this one are doubles. -/
def exactLimit : Nat := 2 * 1 <<< fractionBits

theorem unitsPerOne_pos : 0 < unitsPerOne := one_shiftLeft_pos 1074

theorem lt_infinityCode {code : Nat}
    (h : codeUnits fractionBits code ≤ exactLimit * unitsPerOne) : code < infinityCode := by
  have hlimit : exactLimit * unitsPerOne < codeUnits fractionBits infinityCode := by
    decide +kernel
  exact lt_of_codeUnits_lt (Nat.lt_of_le_of_lt h hlimit)

theorem exists_code (h : n ≤ exactLimit) :
    ∃ code, code < infinityCode ∧ codeUnits fractionBits code = n * unitsPerOne := by
  obtain ⟨code, hcode⟩ := exists_codeUnits_eq_shiftLeft h 1074
  rw [shiftLeft_eq_mul] at hcode
  refine ⟨code, lt_infinityCode ?_, hcode⟩
  rw [hcode]
  exact Nat.mul_le_mul_right _ h

/-- A finite number that is at most `n` away from zero. -/
structure Within (n : Nat) (x : Binary64) : Prop where
  /-- It is finite. -/
  isFinite : x.isFinite = true
  /-- Its distance from zero in units is at most that of `n`. -/
  magnitude_le : x.magnitude ≤ n * unitsPerOne

theorem magnitude_ofCode {code : Nat} (h : code < infinityCode) :
    (ofCode negative code).magnitude = codeUnits fractionBits code := by
  rw [magnitude, code_ofCode, Nat.min_eq_left (Nat.le_of_lt h)]

theorem isFinite_ofCode {code : Nat} (h : code < infinityCode) :
    (ofCode negative code).isFinite = true := by
  rw [isFinite, code_ofCode, Nat.min_eq_left (Nat.le_of_lt h)]
  exact decide_eq_true h

theorem within_zero (n : Nat) (negative : Bool) : Within n (zero negative) := by
  have hpos : 0 < infinityCode := by decide
  have hzero : codeUnits fractionBits 0 = 0 := by decide
  refine ⟨isFinite_ofCode hpos, ?_⟩
  rw [zero, magnitude_ofCode hpos, hzero]
  exact Nat.zero_le _

theorem roundCode_within (hn : n ≤ exactLimit) (hden : 0 < den)
    (h : num ≤ n * unitsPerOne * den) :
    roundCode fractionBits num den < infinityCode ∧
      codeUnits fractionBits (roundCode fractionBits num den) ≤ n * unitsPerOne := by
  obtain ⟨code, hcode, hunits⟩ := exists_code hn
  rw [← hunits] at h ⊢
  have hle := roundCode_le hden h
  exact ⟨Nat.lt_of_le_of_lt hle hcode, codeUnits_le hle⟩

/-- **Rounding keeps whole bounds.** -/
theorem within_ofQuotient (hn : n ≤ exactLimit) (hden : 0 < den)
    (h : num ≤ n * unitsPerOne * den) : Within n (ofQuotient negative num den) := by
  obtain ⟨hlt, hle⟩ := roundCode_within hn hden h
  refine ⟨isFinite_ofCode hlt, ?_⟩
  rw [ofQuotient, magnitude_ofCode hlt]
  exact hle

/-- Whole numbers are not rounded. -/
theorem magnitude_ofQuotient (hn : n ≤ exactLimit) :
    (ofQuotient negative (n * unitsPerOne) 1).magnitude = n * unitsPerOne := by
  obtain ⟨code, hcode, hunits⟩ := exists_code hn
  have hround := roundCode_codeUnits_mul fractionBits code Nat.one_pos
  rw [Nat.mul_one, hunits] at hround
  rw [ofQuotient, hround, magnitude_ofCode hcode, hunits]

theorem within_ofInt {z : Int} (hz : z.natAbs ≤ exactLimit) : Within z.natAbs (ofInt z) := by
  refine within_ofQuotient hz Nat.one_pos ?_
  exact Nat.le_of_eq (by rw [Int.natAbs_mul, Int.natAbs_natCast, Nat.mul_one])

theorem units_ofInt {z : Int} (hz : z.natAbs ≤ exactLimit) : (ofInt z).units = z * unitsPerOne := by
  have hpos := unitsPerOne_pos
  have hnatAbs : (z * unitsPerOne).natAbs = z.natAbs * unitsPerOne := by
    rw [Int.natAbs_mul, Int.natAbs_natCast]
  have hnegative : (z * unitsPerOne < 0) ↔ z < 0 := by
    have hpos' : (0 : Int) < unitsPerOne := Int.ofNat_lt.mpr hpos
    constructor
    · intro h
      rcases Int.lt_or_le z 0 with hlt | hge
      · exact hlt
      · have := Int.mul_nonneg hge (Int.le_of_lt hpos')
        omega
    · exact fun h => Int.mul_neg_of_neg_of_pos h hpos'
  rw [ofInt, ofUnits, units, hnatAbs, magnitude_ofQuotient hz, ofQuotient, isNegative_ofCode]
  simp only [decide_eq_true_eq, hnegative]
  split
  · next h => rw [Int.natCast_mul, Int.ofNat_natAbs_of_nonpos (Int.le_of_lt h), Int.neg_mul,
      Int.neg_neg]
  · next h => rw [Int.natCast_mul, Int.natAbs_of_nonneg (Int.not_lt.mp h)]

/-! ## Sums and products -/

theorem add_of_isFinite (hx : x.isFinite) (hy : y.isFinite) :
    x.add y = if x.units + y.units = 0 then zero (x.isNegative && y.isNegative)
      else ofUnits (x.units + y.units) := by
  simp only [add, isNaN_of_isFinite hx, isNaN_of_isFinite hy, isInfinite_of_isFinite hx,
    isInfinite_of_isFinite hy, Bool.or_self, Bool.false_eq_true, if_false]

theorem mul_of_isFinite (hx : x.isFinite) (hy : y.isFinite) :
    x.mul y = ofQuotient (x.isNegative != y.isNegative) (x.magnitude * y.magnitude)
      unitsPerOne := by
  simp only [mul, isNaN_of_isFinite hx, isNaN_of_isFinite hy, isInfinite_of_isFinite hx,
    isInfinite_of_isFinite hy, Bool.or_self, Bool.false_eq_true, if_false]

theorem within_sub (hn : n ≤ exactLimit) (hx : x.isFinite) (hy : y.isFinite)
    (h : (x.units - y.units).natAbs ≤ n * unitsPerOne) : Within n (x.sub y) := by
  rw [sub, add_of_isFinite hx (by rw [isFinite_neg]; exact hy), units_neg, ← Int.sub_eq_add_neg]
  split
  · exact within_zero n _
  · refine within_ofQuotient hn Nat.one_pos ?_
    rw [Nat.mul_one]
    exact h

theorem within_mul {m : Nat} (hnm : n * m ≤ exactLimit) (hx : Within n x) (hy : Within m y) :
    Within (n * m) (x.mul y) := by
  rw [mul_of_isFinite hx.isFinite hy.isFinite]
  refine within_ofQuotient hnm unitsPerOne_pos ?_
  calc x.magnitude * y.magnitude
      ≤ n * unitsPerOne * (m * unitsPerOne) := Nat.mul_le_mul hx.magnitude_le hy.magnitude_le
    _ = n * m * unitsPerOne * unitsPerOne := by ac_rfl

/-! ## Rounding to whole numbers -/

/-- A number with a fraction is small enough for the whole numbers next to it to be doubles. -/
theorem natAbs_div_le (h : x.units % unitsPerOne ≠ 0) :
    (x.units / unitsPerOne).natAbs ≤ exactLimit := by
  obtain ⟨exponent, significand, hfits, hlt, hcode⟩ := exists_fits fractionBits x.code
  have hmagnitude : x.magnitude = significand <<< exponent := by
    rw [magnitude, hcode, hfits.codeUnits_eq]
  have hexponent : exponent < 1074 := by
    rcases Nat.lt_or_ge exponent 1074 with hless | hmore
    · exact hless
    · -- the fraction bits of a greater number do not reach below one
      refine absurd ?_ h
      obtain ⟨more, rfl⟩ := Nat.exists_eq_add_of_le hmore
      have hwhole : unitsPerOne ∣ x.magnitude := by
        rw [hmagnitude, shiftLeft_eq_mul, one_shiftLeft_add]
        exact Nat.dvd_mul_left_of_dvd (Nat.dvd_mul_right _ _) _
      refine Int.emod_eq_zero_of_dvd (Int.ofNat_dvd_left.mpr ?_)
      rw [natAbs_units]
      exact hwhole
  have hle : x.magnitude ≤ exactLimit * unitsPerOne := by
    rw [hmagnitude, shiftLeft_eq_mul]
    exact Nat.mul_le_mul (Nat.le_of_lt hlt) (one_shiftLeft_le (Nat.le_of_lt hexponent))
  have hpos : (0 : Int) < unitsPerOne := Int.ofNat_lt.mpr unitsPerOne_pos
  have hunits := natAbs_units x
  have hbound : (x.magnitude : Int) ≤ exactLimit * unitsPerOne := by
    rw [← Int.natCast_mul]
    exact Int.ofNat_le.mpr hle
  have hlower : -(exactLimit : Int) ≤ x.units / unitsPerOne := by
    refine Int.le_ediv_of_mul_le hpos ?_
    rw [Int.neg_mul]
    omega
  have hupper : x.units / unitsPerOne ≤ exactLimit := by
    refine Int.ediv_le_of_le_mul hpos ?_
    omega
  omega

/-- **The floor is exact.** -/
theorem units_floor (h : x.isFinite) :
    x.floor.isFinite = true ∧ x.floor.units = x.units / unitsPerOne * unitsPerOne := by
  rw [floor, h, Bool.true_and]
  by_cases hwhole : x.units % unitsPerOne = 0
  · rw [hwhole]
    simp only [bne_self_eq_false, Bool.false_eq_true, if_false]
    exact ⟨h, (Int.ediv_mul_cancel_of_emod_eq_zero hwhole).symm⟩
  · have hle := natAbs_div_le hwhole
    have hne : (x.units % unitsPerOne != 0) = true := bne_iff_ne.mpr hwhole
    rw [hne, if_pos rfl]
    exact ⟨(within_ofInt hle).isFinite, units_ofInt hle⟩

/-- What is left of a number above its floor is less than one. -/
theorem within_sub_floor (h : x.isFinite) : Within 1 (x.sub x.floor) := by
  obtain ⟨hfinite, hunits⟩ := units_floor h
  have hpos : (0 : Int) < unitsPerOne := Int.ofNat_lt.mpr unitsPerOne_pos
  have hlt := Int.emod_lt_of_pos x.units hpos
  have hge := Int.emod_nonneg x.units (Int.ne_of_gt hpos)
  have hmod := Int.emod_add_ediv_mul x.units unitsPerOne
  refine within_sub (by decide) h hfinite ?_
  rw [hunits]
  omega

/-- The bound is whole, so adding a half does not carry over it. -/
theorem divHalfUp_le (h : num ≤ n * unitsPerOne) : divHalfUp num unitsPerOne ≤ n := by
  obtain ⟨hle, -⟩ := divHalfUp_near num unitsPerOne_pos
  rcases Nat.lt_or_ge n (divHalfUp num unitsPerOne) with hlt | hge
  · have hstep := Nat.mul_le_mul_right unitsPerOne (Nat.succ_le_of_lt hlt)
    have hpos := unitsPerOne_pos
    rw [Nat.succ_mul] at hstep
    omega
  · exact hge

theorem within_roundHalfAway (hn : n ≤ exactLimit) (h : Within n x) :
    Within n x.roundHalfAway := by
  rw [roundHalfAway, h.isFinite, if_pos rfl]
  refine within_ofQuotient hn Nat.one_pos ?_
  rw [Nat.mul_one]
  exact Nat.mul_le_mul_right _ (divHalfUp_le h.magnitude_le)

/-! ## Comparing with whole numbers -/

theorem isNegative_ofNat (n : Nat) : (ofNat n).isNegative = false := by
  have hnot : ¬((n : Int) * unitsPerOne < 0) := by
    rw [← Int.natCast_mul]
    omega
  rw [ofNat, ofInt, ofUnits, ofQuotient, isNegative_ofCode, decide_eq_false hnot]

theorem within_ofNat (hn : n ≤ exactLimit) : Within n (ofNat n) :=
  within_ofInt (z := n) hn

theorem magnitude_ofNat (hn : n ≤ exactLimit) : (ofNat n).magnitude = n * unitsPerOne := by
  have hunits := units_ofInt (z := n) hn
  rw [← natAbs_units, ofNat, hunits, Int.natAbs_mul, Int.natAbs_natCast, Int.natAbs_natCast]

theorem units_of_isNegative (h : x.isNegative = true) : x.units = -(x.magnitude : Int) := by
  rw [units, h, if_pos rfl]

theorem units_of_not_isNegative (h : x.isNegative = false) : x.units = x.magnitude := by
  rw [units, h, if_neg Bool.false_ne_true]

theorem code_ofNat_pos (hn : n ≤ exactLimit) (hpos : 0 < n) : 0 < (ofNat n).code := by
  rcases Nat.eq_zero_or_pos (ofNat n).code with hzero | hcode
  · have hmagnitude := magnitude_ofNat hn
    rw [magnitude, hzero] at hmagnitude
    exact absurd hmagnitude.symm (Nat.ne_of_gt (Nat.mul_pos hpos unitsPerOne_pos))
  · exact hcode

/-- Not being below a whole number is not being negative and having no smaller code. -/
theorem numLe_iff (hn : n ≤ exactLimit) (hpos : 0 < n) (hx : x.isFinite) :
    (ofNat n).numLe x ↔ x.isNegative = false ∧ (ofNat n).code ≤ x.code := by
  have hcode := code_ofNat_pos hn hpos
  have hfinite := (within_ofNat hn).isFinite
  simp only [numLe, rank, isNaN_of_isFinite hfinite, isNaN_of_isFinite hx, isNegative_ofNat,
    Bool.not_false, Bool.true_and, Bool.false_eq_true, if_false, decide_eq_true_eq]
  cases x.isNegative
  · simp only [Bool.false_eq_true, if_false, true_and]
    omega
  · simp only [if_true, reduceCtorEq, false_and, iff_false]
    omega

/-- A number within `n` that is not below `n` is `n`. -/
theorem units_eq_of_numLe (hn : n ≤ exactLimit) (hpos : 0 < n) (h : Within n x)
    (hle : (ofNat n).numLe x) : x.units = (ofNat n).units := by
  obtain ⟨hsign, hcode⟩ := (numLe_iff hn hpos h.isFinite).mp hle
  have hmagnitude : (ofNat n).magnitude ≤ x.magnitude := codeUnits_le hcode
  rw [units_of_not_isNegative hsign, units_of_not_isNegative (isNegative_ofNat n),
    Nat.le_antisymm h.magnitude_le (by rw [← magnitude_ofNat hn]; exact hmagnitude),
    magnitude_ofNat hn]

theorem truncate_zero (negative : Bool) : (zero negative).truncate = 0 := by
  have hunits : (zero negative).units = 0 := by cases negative <;> decide
  rw [truncate, hunits, Int.zero_tdiv]

theorem truncate_sub_of_units_eq (hx : x.isFinite) (hy : y.isFinite) (h : x.units = y.units) :
    (x.sub y).truncate = 0 := by
  have hsum : x.units + y.neg.units = 0 := by
    rw [units_neg]
    omega
  rw [sub, add_of_isFinite hx (by rw [isFinite_neg]; exact hy), if_pos hsum, truncate_zero]

/-- A number that is below a whole number is so without its fraction. -/
theorem truncate_lt_of_numLe_eq_false (hn : n ≤ exactLimit) (hpos : 0 < n) (hx : x.isFinite)
    (h : (ofNat n).numLe x = false) : x.truncate < n := by
  have hunit : (0 : Int) < unitsPerOne := Int.ofNat_lt.mpr unitsPerOne_pos
  have hiff := numLe_iff hn hpos hx
  rw [h, Bool.false_eq_true, false_iff] at hiff
  cases hsign : x.isNegative with
  | true =>
    have hneg : x.truncate = -((x.magnitude : Int).tdiv unitsPerOne) := by
      rw [truncate, units_of_isNegative hsign, Int.neg_tdiv]
    have hge := Int.tdiv_nonneg (Int.natCast_nonneg x.magnitude) (Int.le_of_lt hunit)
    omega
  | false =>
    have hcode : x.code < (ofNat n).code := by
      rcases Nat.lt_or_ge x.code (ofNat n).code with hlt | hge
      · exact hlt
      · exact absurd ⟨hsign, hge⟩ hiff
    have hmagnitude : x.magnitude < (ofNat n).magnitude := codeUnits_lt hcode
    rw [magnitude_ofNat hn] at hmagnitude
    rw [truncate, units_of_not_isNegative hsign,
      Int.tdiv_eq_ediv_of_nonneg (Int.natCast_nonneg x.magnitude)]
    refine Int.ediv_lt_of_lt_mul hunit ?_
    rw [← Int.natCast_mul]
    exact Int.ofNat_lt.mpr hmagnitude

end PlistCodec.Binary64
