import PlistCodec.Proofs.Binary64.Exact

/-!
# How far rounding moves a number

Rounding moves a quotient by at most half the distance of the grid points around it
(`roundCode_near`), and a quotient that is nearer to a grid point than half that distance is rounded
to it (`roundCode_eq`).  For the doubles that are whole numbers of units this says when two exact
sums are the same double (`roundUnits_eq`, `ofUnits_eq_of_roundUnits_eq`).
-/

namespace PlistCodec

namespace FloatGrid

variable {fraction exponent significand num den q : Nat}

/-! ## Nearest integers -/

/-- A quotient is at most one half away from the integer that it is rounded to. -/
theorem divHalfEven_near (num : Nat) (hden : 0 < den) :
    2 * (divHalfEven num den * den) ≤ 2 * num + den ∧
      2 * num ≤ 2 * (divHalfEven num den * den) + den := by
  have hdiv := Nat.div_add_mod num den
  have hmod := Nat.mod_lt num hden
  have hmul : num / den * den = den * (num / den) := Nat.mul_comm _ _
  have hsucc : (num / den + 1) * den = den * (num / den) + den := by rw [Nat.succ_mul, hmul]
  simp only [divHalfEven]
  split
  · omega
  split
  · omega
  split <;> omega

/-- An integer that is less than one half away from a quotient is what it is rounded to. -/
theorem divHalfEven_eq (hden : 0 < den) (hbelow : 2 * (q * den) < 2 * num + den)
    (habove : 2 * num < 2 * (q * den) + den) : divHalfEven num den = q := by
  obtain ⟨hle, hge⟩ := divHalfEven_near num hden
  rcases Nat.lt_trichotomy (divHalfEven num den) q with hlt | heq | hgt
  · have hstep := Nat.mul_le_mul_right den (Nat.succ_le_of_lt hlt)
    rw [Nat.succ_mul] at hstep
    omega
  · exact heq
  · have hstep := Nat.mul_le_mul_right den (Nat.succ_le_of_lt hgt)
    rw [Nat.succ_mul] at hstep
    omega

/-! ## Nearest grid points -/

/-- The exponent at which a quotient is rounded. -/
def roundExponent (fraction num den : Nat) : Nat := (num / den).log2 - fraction

theorem roundExponent_le {shift : Nat} (hden : 0 < den)
    (h : num < 1 <<< (fraction + 1 + shift) * den) : roundExponent fraction num den ≤ shift := by
  have hquotient : num / den < 1 <<< (fraction + 1 + shift) := (Nat.div_lt_iff_lt_mul hden).mpr h
  rw [roundExponent]
  rcases Nat.eq_zero_or_pos (num / den) with hzero | hpos
  · rw [hzero, Nat.log2_zero]
    omega
  · rw [Nat.one_shiftLeft, ← Nat.log2_lt (Nat.ne_of_gt hpos)] at hquotient
    omega

theorem codeUnits_roundCode (fraction num den : Nat) :
    codeUnits fraction (roundCode fraction num den)
      = divHalfEven num (den <<< roundExponent fraction num den)
          <<< roundExponent fraction num den :=
  (fits_roundCode fraction num den).codeUnits_eq

/-- **Rounding moves a quotient by half the distance of the grid points at most.** -/
theorem roundCode_near (fraction num : Nat) (hden : 0 < den) :
    2 * (codeUnits fraction (roundCode fraction num den) * den)
        ≤ 2 * num + 1 <<< roundExponent fraction num den * den ∧
      2 * num ≤ 2 * (codeUnits fraction (roundCode fraction num den) * den)
        + 1 <<< roundExponent fraction num den * den := by
  rw [codeUnits_roundCode]
  generalize roundExponent fraction num den = exponent
  have hpos : 0 < den <<< exponent := by
    rw [shiftLeft_eq_mul]
    exact Nat.mul_pos hden (one_shiftLeft_pos exponent)
  have hnear := divHalfEven_near num hpos
  generalize divHalfEven num (den <<< exponent) = significand at hnear ⊢
  have hscale : significand <<< exponent * den = significand * den <<< exponent := by
    rw [shiftLeft_eq_mul significand, shiftLeft_eq_mul den]
    ac_rfl
  have hunit : 1 <<< exponent * den = den <<< exponent := by
    rw [shiftLeft_eq_mul den, Nat.mul_comm]
  rw [hscale, hunit]
  exact hnear

/-- **A quotient is rounded to a grid point** if it is nearer to it than half the distance to the
next ones.  The significand is not a power of two, below which the next one is only half as far. -/
theorem roundCode_eq (hden : 0 < den) (hleast : 1 <<< fraction < significand)
    (hgreatest : significand < 2 * 1 <<< fraction)
    (hbelow : 2 * (significand <<< exponent * den) < 2 * num + 1 <<< exponent * den)
    (habove : 2 * num < 2 * (significand <<< exponent * den) + 1 <<< exponent * den) :
    roundCode fraction num den = exponent <<< fraction + significand := by
  have hunit : 1 <<< exponent * den = den <<< exponent := by
    rw [shiftLeft_eq_mul den, Nat.mul_comm]
  have hscale : significand <<< exponent * den = significand * den <<< exponent := by
    rw [shiftLeft_eq_mul significand, shiftLeft_eq_mul den]
    ac_rfl
  rw [hunit, hscale] at hbelow habove
  have hpos : 0 < den <<< exponent := by
    rw [← hunit]
    exact Nat.mul_pos (one_shiftLeft_pos exponent) hden
  have hexponent : (num / den).log2 - fraction = exponent := by
    have hleast' := Nat.mul_le_mul_right (den <<< exponent) (Nat.succ_le_of_lt hleast)
    have hgreatest' := Nat.mul_le_mul_right (den <<< exponent) (Nat.succ_le_of_lt hgreatest)
    rw [Nat.succ_mul] at hleast' hgreatest'
    have hpower : 1 <<< fraction * den <<< exponent = 1 <<< (fraction + exponent) * den := by
      rw [one_shiftLeft_add, ← hunit, Nat.mul_assoc]
    have hdouble : 2 * 1 <<< fraction * den <<< exponent
        = 2 * (1 <<< (fraction + exponent) * den) := by
      rw [Nat.mul_assoc, hpower]
    have hlower : 1 <<< (fraction + exponent) ≤ num / den := by
      rw [Nat.le_div_iff_mul_le hden]
      omega
    have hupper : num / den < 1 <<< (fraction + exponent + 1) := by
      rw [Nat.div_lt_iff_lt_mul hden, one_shiftLeft_add (fraction + exponent) 1]
      have hone : 1 <<< (fraction + exponent) * 1 <<< 1 * den
          = 2 * (1 <<< (fraction + exponent) * den) := by
        rw [Nat.shiftLeft_eq 1 1]
        ac_rfl
      omega
    have hne : num / den ≠ 0 := Nat.ne_of_gt (Nat.lt_of_lt_of_le (one_shiftLeft_pos _) hlower)
    rw [Nat.one_shiftLeft, ← Nat.le_log2 hne] at hlower
    rw [Nat.one_shiftLeft, ← Nat.log2_lt hne] at hupper
    omega
  rw [roundCode, hexponent, divHalfEven_eq hpos hbelow habove]

/-- The quotient alone decides, not the way it is written. -/
theorem roundCode_mul_right (fraction num den : Nat) {factor : Nat} (hfactor : 0 < factor) :
    roundCode fraction (num * factor) (den * factor) = roundCode fraction num den := by
  have hscale : ∀ den : Nat,
      divHalfEven (num * factor) (den * factor) = divHalfEven num den := by
    intro den
    have hbelow : 2 * (num % den * factor) < den * factor ↔ 2 * (num % den) < den := by
      rw [← Nat.mul_assoc, Nat.mul_lt_mul_right hfactor]
    have habove : den * factor < 2 * (num % den * factor) ↔ den < 2 * (num % den) := by
      rw [← Nat.mul_assoc, Nat.mul_lt_mul_right hfactor]
    simp only [divHalfEven, Nat.mul_div_mul_right _ _ hfactor, Nat.mul_mod_mul_right, hbelow,
      habove]
  have hden : ∀ exponent, (den * factor) <<< exponent = den <<< exponent * factor := by
    intro exponent
    rw [shiftLeft_eq_mul, shiftLeft_eq_mul den]
    ac_rfl
  simp only [roundCode, Nat.mul_div_mul_right _ _ hfactor, hden, hscale]

theorem roundCode_zero (fraction : Nat) (hden : 0 < den) : roundCode fraction 0 den = 0 := by
  have hzero : codeUnits fraction 0 = 0 := codeUnits_of_lt (one_shiftLeft_pos fraction)
  have hround := roundCode_codeUnits_mul fraction 0 hden
  rwa [hzero, Nat.zero_mul] at hround

end FloatGrid

namespace Binary64

open FloatGrid

variable {x y : Binary64} {m n : Int} {num den : Nat} {negative : Bool}

/-! ## Rounded whole numbers of units -/

/-- A whole number of units, rounded to that of a double. -/
def roundUnits (n : Int) : Int := n.sign * codeUnits fractionBits (roundCode fractionBits n.natAbs 1)

theorem codeUnits_zero : codeUnits fractionBits 0 = 0 := by decide

@[simp] theorem roundUnits_zero : roundUnits 0 = 0 := by decide

@[simp] theorem roundUnits_neg (n : Int) : roundUnits (-n) = -roundUnits n := by
  rw [roundUnits, roundUnits, Int.sign_neg, Int.natAbs_neg, Int.neg_mul]

theorem roundUnits_natCast (n : Nat) :
    roundUnits n = codeUnits fractionBits (roundCode fractionBits n 1) := by
  rcases Nat.eq_zero_or_pos n with rfl | hpos
  · decide
  · rw [roundUnits, Int.sign_eq_one_of_pos (Int.ofNat_lt.mpr hpos), Int.natAbs_natCast, Int.one_mul]

theorem natAbs_roundUnits (n : Int) :
    (roundUnits n).natAbs = codeUnits fractionBits (roundCode fractionBits n.natAbs 1) := by
  obtain ⟨k, rfl | rfl⟩ := Int.eq_nat_or_neg n
  · rw [roundUnits_natCast, Int.natAbs_natCast, Int.natAbs_natCast]
  · rw [roundUnits_neg, Int.natAbs_neg, roundUnits_natCast, Int.natAbs_natCast, Int.natAbs_neg,
      Int.natAbs_natCast]

/-- **Rounding is to the nearest**: the difference is at most half the distance of the doubles of
this size. -/
theorem roundUnits_near {shift : Nat} (h : n.natAbs < 1 <<< (fractionBits + 1 + shift)) :
    2 * (roundUnits n - n) ≤ (1 <<< shift : Nat) ∧ 2 * (n - roundUnits n) ≤ (1 <<< shift : Nat) := by
  have hexponent : roundExponent fractionBits n.natAbs 1 ≤ shift :=
    roundExponent_le Nat.one_pos (by rw [Nat.mul_one]; exact h)
  have hshift := one_shiftLeft_le hexponent
  obtain ⟨hle, hge⟩ := roundCode_near fractionBits n.natAbs Nat.one_pos
  obtain ⟨k, rfl | rfl⟩ := Int.eq_nat_or_neg n
  · rw [Int.natAbs_natCast] at *
    rw [roundUnits_natCast]
    omega
  · rw [Int.natAbs_neg, Int.natAbs_natCast] at *
    rw [roundUnits_neg, roundUnits_natCast]
    omega

/-- A rounded number has an exponent and a significand, and the exact one is not too great for the
exponent. -/
theorem exists_exponent (n : Int) : ∃ exponent significand,
    Fits fractionBits exponent significand ∧
      (roundUnits n).natAbs = significand <<< exponent ∧
      n.natAbs < 1 <<< (fractionBits + 1 + exponent) := by
  refine ⟨_, _, fits_roundCode fractionBits n.natAbs 1, ?_, ?_⟩
  · rw [natAbs_roundUnits, codeUnits_roundCode]
    rfl
  · rw [Nat.div_one]
    refine Nat.lt_of_lt_of_le (lt_one_shiftLeft_log2 n.natAbs) (one_shiftLeft_le ?_)
    omega

/-- **What is near a double is rounded to it.** -/
theorem roundUnits_eq {exponent significand : Nat} (hm : m.natAbs = significand <<< exponent)
    (hleast : 1 <<< fractionBits < significand) (hgreatest : significand < 2 * 1 <<< fractionBits)
    (hbelow : 2 * (m - n) < (1 <<< exponent : Nat)) (habove : 2 * (n - m) < (1 <<< exponent : Nat)) :
    roundUnits n = m := by
  -- the difference is too small for a change of sign
  have hsize : 1 <<< exponent ≤ m.natAbs := by
    rw [hm, shiftLeft_eq_mul significand]
    exact Nat.le_mul_of_pos_left _ (Nat.lt_of_le_of_lt (Nat.zero_le _) hleast)
  have hfits : Fits fractionBits exponent significand :=
    ⟨Nat.le_of_lt hgreatest, .inr (Nat.le_of_lt hleast)⟩
  have hround : codeUnits fractionBits (roundCode fractionBits n.natAbs 1) = m.natAbs := by
    rw [roundCode_eq Nat.one_pos hleast hgreatest (by rw [← hm]; omega) (by rw [← hm]; omega),
      hfits.codeUnits_eq, hm]
  rw [roundUnits, hround]
  rcases Int.lt_or_le m 0 with hneg | hnonneg
  · rw [Int.sign_eq_neg_one_of_neg (by omega)]
    omega
  · rw [Int.sign_eq_one_of_pos (by omega)]
    omega

theorem whole_le_roundCode {whole k : Nat} (hwhole : whole ≤ exactLimit)
    (h : whole * unitsPerOne ≤ k) :
    whole * unitsPerOne ≤ codeUnits fractionBits (roundCode fractionBits k 1) := by
  obtain ⟨code, -, hcode⟩ := exists_code hwhole
  rw [← hcode] at h ⊢
  exact codeUnits_le (le_roundCode Nat.one_pos (by rw [Nat.mul_one]; exact h))

/-- A whole number that is not above is not above after rounding. -/
theorem le_roundUnits {whole : Int} (hwhole : whole.natAbs ≤ exactLimit)
    (h : whole * unitsPerOne ≤ n) : whole * unitsPerOne ≤ roundUnits n := by
  have hunit : (0 : Int) ≤ unitsPerOne := Int.natCast_nonneg _
  rcases Int.lt_or_le n 0 with hneg | hnonneg
  · obtain ⟨k, rfl⟩ := Int.exists_eq_neg_ofNat (Int.le_of_lt hneg)
    have hwhole' : whole ≤ 0 := by
      rcases Int.lt_or_le 0 whole with hpos | hle
      · have := Int.mul_nonneg (Int.le_of_lt hpos) hunit
        omega
      · exact hle
    obtain ⟨w, rfl⟩ := Int.exists_eq_neg_ofNat hwhole'
    rw [Int.natAbs_neg, Int.natAbs_natCast] at hwhole
    rw [Int.neg_mul] at h ⊢
    obtain ⟨-, hround⟩ := @roundCode_within w k 1 hwhole Nat.one_pos (by omega)
    rw [roundUnits_neg, roundUnits_natCast]
    omega
  · obtain ⟨k, rfl⟩ := Int.eq_ofNat_of_zero_le hnonneg
    rw [roundUnits_natCast]
    rcases Int.lt_or_le whole 0 with hless | hmore
    · have := Int.mul_nonpos_of_nonpos_of_nonneg (Int.le_of_lt hless) hunit
      omega
    · obtain ⟨w, rfl⟩ := Int.eq_ofNat_of_zero_le hmore
      rw [Int.natAbs_natCast] at hwhole
      have hround := whole_le_roundCode hwhole (k := k) (by omega)
      omega

/-- A whole number that is not below is not below after rounding. -/
theorem roundUnits_le {whole : Int} (hwhole : whole.natAbs ≤ exactLimit)
    (h : n ≤ whole * unitsPerOne) : roundUnits n ≤ whole * unitsPerOne := by
  have hneg := @le_roundUnits (-n) (-whole) (by rw [Int.natAbs_neg]; exact hwhole)
    (by rw [Int.neg_mul]; omega)
  rw [roundUnits_neg, Int.neg_mul] at hneg
  omega

theorem roundUnits_whole {whole : Int} (hwhole : whole.natAbs ≤ exactLimit) :
    roundUnits (whole * unitsPerOne) = whole * unitsPerOne :=
  Int.le_antisymm (roundUnits_le hwhole (Int.le_refl _)) (le_roundUnits hwhole (Int.le_refl _))

/-! ## Sums are determined by their units -/

theorem roundUnits_neg_iff (n : Int) : roundUnits n < 0 ↔ n < 0 := by
  have hone : codeUnits fractionBits 1 = 1 := by decide
  have hpos : ∀ k : Nat, 0 < k → 0 < codeUnits fractionBits (roundCode fractionBits k 1) := by
    intro k hk
    have hround : 1 ≤ roundCode fractionBits k 1 :=
      le_roundCode Nat.one_pos (by rw [hone]; omega)
    have hle := @codeUnits_le fractionBits _ _ hround
    omega
  rcases Int.lt_or_le n 0 with hneg | hnonneg
  · obtain ⟨k, rfl⟩ := Int.exists_eq_neg_ofNat (Int.le_of_lt hneg)
    have := hpos k (by omega)
    rw [roundUnits_neg, roundUnits_natCast]
    omega
  · obtain ⟨k, rfl⟩ := Int.eq_ofNat_of_zero_le hnonneg
    rw [roundUnits_natCast]
    omega

/-- Numbers of units that are rounded to the same one are the same double. -/
theorem ofUnits_eq_of_roundUnits_eq (h : roundUnits m = roundUnits n) : ofUnits m = ofUnits n := by
  have hunits : codeUnits fractionBits (roundCode fractionBits m.natAbs 1)
      = codeUnits fractionBits (roundCode fractionBits n.natAbs 1) := by
    rw [← natAbs_roundUnits, ← natAbs_roundUnits, h]
  have hcode : roundCode fractionBits m.natAbs 1 = roundCode fractionBits n.natAbs 1 :=
    Nat.le_antisymm (le_of_codeUnits_le (Nat.le_of_eq hunits))
      (le_of_codeUnits_le (Nat.le_of_eq hunits.symm))
  have hsign : (m < 0) = (n < 0) := by
    rw [← roundUnits_neg_iff m, ← roundUnits_neg_iff n, h]
  rw [ofUnits, ofUnits, ofQuotient, ofQuotient, hcode]
  simp only [hsign]

/-! ## Operations -/

section Operations

variable {bound : Nat}

/-- A rounded quotient is not negative, unless it is a negative zero. -/
theorem units_ofQuotient (hden : 0 < den) (hlt : roundCode fractionBits num den < infinityCode)
    (hzero : negative = true → num = 0) :
    (ofQuotient negative num den).units = codeUnits fractionBits (roundCode fractionBits num den) := by
  cases negative with
  | true =>
    obtain rfl := hzero rfl
    rw [ofQuotient, units_of_isNegative (isNegative_ofCode _ _), magnitude_ofCode hlt,
      roundCode_zero _ hden, codeUnits_zero]
    rfl
  | false =>
    rw [ofQuotient, units_of_not_isNegative (isNegative_ofCode _ _), magnitude_ofCode hlt]

theorem units_ofUnits (hbound : bound ≤ exactLimit) (h : n.natAbs ≤ bound * unitsPerOne) :
    Within bound (ofUnits n) ∧ (ofUnits n).units = roundUnits n := by
  have hden : n.natAbs ≤ bound * unitsPerOne * 1 := by rw [Nat.mul_one]; exact h
  refine ⟨within_ofQuotient hbound Nat.one_pos hden, ?_⟩
  have hlt := (roundCode_within hbound Nat.one_pos hden).1
  rw [units, ofUnits, ofQuotient, isNegative_ofCode, magnitude_ofCode hlt]
  obtain ⟨k, rfl | rfl⟩ := Int.eq_nat_or_neg n
  · rw [roundUnits_natCast, Int.natAbs_natCast, decide_eq_false (by omega),
      if_neg Bool.false_ne_true]
  · rw [roundUnits_neg, roundUnits_natCast, Int.natAbs_neg, Int.natAbs_natCast]
    rcases Nat.eq_zero_or_pos k with rfl | hpos
    · rfl
    · rw [decide_eq_true (by omega), if_pos rfl]

theorem units_zero (negative : Bool) : (zero negative).units = 0 := by
  cases negative <;> decide

theorem add_of_not_isNegative (hx : x.isFinite) (hy : y.isFinite) (hsign : y.isNegative = false) :
    x.add y = ofUnits (x.units + y.units) := by
  have hzero : ofUnits 0 = zero false := by decide
  rw [add_of_isFinite hx hy, hsign, Bool.and_false]
  split
  · next h => rw [h, hzero]
  · rfl

theorem units_sub (hbound : bound ≤ exactLimit) (hx : x.isFinite) (hy : y.isFinite)
    (h : (x.units - y.units).natAbs ≤ bound * unitsPerOne) :
    (x.sub y).units = roundUnits (x.units - y.units) := by
  rw [sub, add_of_isFinite hx (by rw [isFinite_neg]; exact hy), units_neg, ← Int.sub_eq_add_neg]
  split
  · next hzero => rw [units_zero, hzero, roundUnits_zero]
  · exact (units_ofUnits hbound h).2

theorem magnitude_eq_units (h : 0 ≤ x.units) : (x.magnitude : Int) = x.units := by
  rw [← natAbs_units]
  omega

theorem magnitude_eq_zero (h : 0 ≤ x.units) (hsign : x.isNegative = true) : x.magnitude = 0 := by
  rw [units_of_isNegative hsign] at h
  omega

theorem isZero_ofNat (hbound : bound ≤ exactLimit) (hpos : 0 < bound) :
    (ofNat bound).isZero = false :=
  decide_eq_false (Nat.ne_of_gt (code_ofNat_pos hbound hpos))

/-- The product of a number between zero and one and a whole number. -/
theorem units_mul_ofNat (hbound : bound ≤ exactLimit) (hx : Within 1 x) (hnonneg : 0 ≤ x.units) :
    (x.mul (ofNat bound)).units = roundUnits (x.units * bound) := by
  have hproduct : x.magnitude * (bound * unitsPerOne) = x.magnitude * bound * unitsPerOne :=
    (Nat.mul_assoc _ _ _).symm
  have hle : x.magnitude * bound * unitsPerOne ≤ bound * unitsPerOne * unitsPerOne := by
    refine Nat.mul_le_mul_right _ ?_
    have hmagnitude := Nat.mul_le_mul_right bound hx.magnitude_le
    rwa [Nat.one_mul, Nat.mul_comm unitsPerOne] at hmagnitude
  have hround := roundCode_mul_right fractionBits (x.magnitude * bound) 1 unitsPerOne_pos
  rw [Nat.one_mul] at hround
  have hunits : x.units * bound = (x.magnitude * bound : Nat) := by
    rw [← magnitude_eq_units hnonneg, Int.natCast_mul]
  rw [mul_of_isFinite hx.isFinite (within_ofNat hbound).isFinite, magnitude_ofNat hbound, hproduct,
    isNegative_ofNat, units_ofQuotient unitsPerOne_pos
      (roundCode_within hbound unitsPerOne_pos hle).1, hround, hunits, roundUnits_natCast]
  intro hsign
  rw [Bool.bne_false] at hsign
  rw [magnitude_eq_zero hnonneg hsign, Nat.zero_mul, Nat.zero_mul]

/-- The quotient of a whole number by a greater one. -/
theorem div_ofNat {k : Nat} (hbound : bound ≤ exactLimit) (hk : k < bound) :
    Within 1 ((ofNat k).div (ofNat bound)) ∧ ((ofNat k).div (ofNat bound)).isNegative = false ∧
      ((ofNat k).div (ofNat bound)).units
        = codeUnits fractionBits (roundCode fractionBits (k * unitsPerOne) bound) := by
  have hpos : 0 < bound := Nat.lt_of_le_of_lt (Nat.zero_le _) hk
  have hk' : k ≤ exactLimit := Nat.le_trans (Nat.le_of_lt hk) hbound
  have hfinite := (within_ofNat hk').isFinite
  have hfinite' := (within_ofNat hbound).isFinite
  have hround := roundCode_mul_right fractionBits (k * unitsPerOne) bound unitsPerOne_pos
  have hdiv : (ofNat k).div (ofNat bound) = ofQuotient false (k * unitsPerOne) bound := by
    simp only [div, isNaN_of_isFinite hfinite, isNaN_of_isFinite hfinite',
      isInfinite_of_isFinite hfinite, isInfinite_of_isFinite hfinite', isZero_ofNat hbound hpos,
      isNegative_ofNat, magnitude_ofNat hk', magnitude_ofNat hbound, ofQuotient, hround,
      Bool.or_self, Bool.false_eq_true, if_false, bne_self_eq_false]
  have hle : k * unitsPerOne ≤ 1 * unitsPerOne * bound := by
    rw [Nat.one_mul, Nat.mul_comm]
    exact Nat.mul_le_mul_left _ (Nat.le_of_lt hk)
  rw [hdiv]
  refine ⟨within_ofQuotient (by decide) hpos hle, isNegative_ofCode _ _, ?_⟩
  exact units_ofQuotient hpos (roundCode_within (by decide) hpos hle).1
    (fun h => absurd h Bool.false_ne_true)

theorem units_roundHalfAway (hbound : bound ≤ exactLimit) (hx : Within bound x)
    (hnonneg : 0 ≤ x.units) :
    x.roundHalfAway.units = (divHalfUp x.magnitude unitsPerOne * unitsPerOne : Nat) := by
  have hle := divHalfUp_le hx.magnitude_le
  have hmagnitude := @magnitude_ofQuotient _ x.isNegative (Nat.le_trans hle hbound)
  rw [roundHalfAway, hx.isFinite, if_pos rfl]
  rcases Bool.eq_false_or_eq_true x.isNegative with hsign | hsign
  · have hzero : divHalfUp x.magnitude unitsPerOne = 0 := by
      have hpos := unitsPerOne_pos
      rw [magnitude_eq_zero hnonneg hsign, divHalfUp, Nat.mul_zero, Nat.zero_add]
      exact Nat.div_eq_of_lt (by omega)
    rw [units_of_isNegative (by rw [ofQuotient, isNegative_ofCode, hsign]), hmagnitude, hzero,
      Nat.zero_mul]
    rfl
  · rw [units_of_not_isNegative (by rw [ofQuotient, isNegative_ofCode, hsign]), hmagnitude]

end Operations

end Binary64

end PlistCodec
