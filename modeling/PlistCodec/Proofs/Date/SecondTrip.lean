import PlistCodec.Proofs.Binary64.Nearest
import PlistCodec.Proofs.Date.ReferenceSeconds

/-!
# Dates that are turned into seconds and back

A date is turned into a double of whole seconds and rounded microseconds, and the double is split
again.  Near 2001 the microseconds come back as they were.  Far from it the doubles are more than a
microsecond apart, and the microseconds that come back are those nearest to the double; the double
is then the only one near to them, so the next trip ends where the first one did
(`roundUnits_again`).  A sum that was rounded up to a full second is the beginning of the next one,
and after the last second for which there is a calendar there is none.

All numbers are compared in units of 2^-1074.
-/

namespace PlistCodec.Date

open Binary64 FloatGrid

/-! ## Microseconds in units -/

/-- The distance of the doubles just below one. -/
def spacing : Nat := 1 <<< 1021

theorem unitsPerOne_eq : unitsPerOne = 9007199254740992 * spacing := by
  rw [unitsPerOne, spacing, one_shiftLeft_add 53 1021]
  rfl

theorem one_shiftLeft_spacing : 1 <<< 1041 = 1048576 * spacing := by
  rw [spacing, one_shiftLeft_add 20 1021]
  rfl

theorem one_shiftLeft_micros : 1 <<< (fractionBits + 1 + 1041) = 1048576 * unitsPerOne := by
  rw [one_shiftLeft_add (fractionBits + 1) 1041, one_shiftLeft_spacing, unitsPerOne_eq]
  simp only [fractionBits, Nat.one_shiftLeft]
  omega

theorem spacing_pos : 0 < spacing := one_shiftLeft_pos 1021

theorem exactLimit_eq : exactLimit = 9007199254740992 := rfl

/-- Microseconds of a second, rounded. -/
def microUnits (micros : Nat) : Nat :=
  codeUnits fractionBits (roundCode fractionBits (micros * unitsPerOne) 1000000)

theorem microUnits_zero : microUnits 0 = 0 := by
  rw [microUnits, Nat.zero_mul, roundCode_zero _ (by decide), codeUnits_zero]

theorem microUnits_near {micros : Nat} (h : micros < 1000000) :
    2 * (1000000 * microUnits micros) ≤ 2 * (micros * unitsPerOne) + 1000000 * spacing ∧
      2 * (micros * unitsPerOne) ≤ 2 * (1000000 * microUnits micros) + 1000000 * spacing := by
  have hlt : micros * unitsPerOne < 1 <<< (fractionBits + 1 + 1021) * 1000000 := by
    rw [Nat.mul_comm]
    exact Nat.mul_lt_mul_of_pos_left h unitsPerOne_pos
  have hspacing : 1 <<< roundExponent fractionBits (micros * unitsPerOne) 1000000 ≤ spacing :=
    one_shiftLeft_le (roundExponent_le (by decide) hlt)
  obtain ⟨hle, hge⟩ := roundCode_near fractionBits (micros * unitsPerOne)
    (show 0 < 1000000 by decide)
  rw [← microUnits] at hle hge
  omega

theorem microUnits_le {micros : Nat} (h : micros < 1000000) : microUnits micros ≤ unitsPerOne := by
  obtain ⟨hwithin, hsign, hunits⟩ := div_ofNat le_exactLimit h
  have hle := hwithin.magnitude_le
  rw [units_of_not_isNegative hsign, Int.ofNat_inj] at hunits
  rw [hunits, Nat.one_mul] at hle
  exact hle

/-- The seconds of a calendar time, before they are rounded for the second time. -/
theorem referenceSecondsOfUtc_eq {t : UtcTime}
    (hseconds : (t.seconds - referenceOffset).natAbs ≤ exactLimit)
    (hnanos : t.nanos < nanosPerSecond) :
    referenceSecondsOfUtc t
      = ofUnits ((t.seconds - referenceOffset) * unitsPerOne + microUnits (t.nanos / 1000)) := by
  have hmicros : t.nanos / 1000 < 1000000 := Nat.div_lt_of_lt_mul hnanos
  obtain ⟨hwithin, hsign, hunits⟩ := div_ofNat le_exactLimit hmicros
  rw [referenceSecondsOfUtc, microsPerSecond,
    add_of_not_isNegative (within_ofInt hseconds).isFinite hwithin.isFinite hsign,
    units_ofInt hseconds, hunits]
  rfl

/-! ## Splitting -/

/-- The microseconds are those of a part of a second, rounded; two of the three roundings are to a
double and one is to a whole number. -/
def NearMicros (micros : Nat) (rest : Int) : Prop :=
  2 * (micros * unitsPerOne : Int) ≤ 2 * (1000000 * rest) + unitsPerOne + 2097152 * spacing ∧
    2 * (1000000 * rest) ≤ 2 * (micros * unitsPerOne : Int) + unitsPerOne + 2097152 * spacing

theorem roundUnits_nonneg {n : Int} (h : 0 ≤ n) : 0 ≤ roundUnits n := by
  have hneg := roundUnits_neg_iff n
  omega

theorem roundUnits_le_one {n : Int} (h : n ≤ unitsPerOne) : roundUnits n ≤ unitsPerOne := by
  have hle := @roundUnits_le n 1 (by decide) (by rw [Int.one_mul]; exact h)
  rwa [Int.one_mul] at hle

/-- The part of a second that is left, rounded. -/
theorem units_sub_floor {s : Binary64} (hs : s.isFinite) :
    (s.sub s.floor).units = roundUnits (s.units % unitsPerOne) := by
  have hpos : (0 : Int) < unitsPerOne := Int.ofNat_lt.mpr unitsPerOne_pos
  have hlt := Int.emod_lt_of_pos s.units hpos
  have hge := Int.emod_nonneg s.units (Int.ne_of_gt hpos)
  have hmod := Int.emod_add_ediv_mul s.units unitsPerOne
  obtain ⟨hfloorFinite, hfloor⟩ := units_floor hs
  have hrest : s.units - s.floor.units = s.units % unitsPerOne := by
    rw [hfloor]
    omega
  rw [units_sub (show 1 ≤ exactLimit by decide) hs hfloorFinite
    (by rw [hrest, Nat.one_mul]; omega), hrest]

/-- Its microseconds, rounded to a double. -/
theorem units_micros {s : Binary64} (hs : s.isFinite) :
    ((s.sub s.floor).mul microsPerSecond).units
      = roundUnits (roundUnits (s.units % unitsPerOne) * (1000000 : Nat)) := by
  have hpos : (0 : Int) < unitsPerOne := Int.ofNat_lt.mpr unitsPerOne_pos
  have hnonneg : 0 ≤ (s.sub s.floor).units := by
    rw [units_sub_floor hs]
    exact roundUnits_nonneg (Int.emod_nonneg _ (Int.ne_of_gt hpos))
  rw [← units_sub_floor hs]
  exact units_mul_ofNat le_exactLimit (within_sub_floor hs) hnonneg

/-- The three roundings together. -/
theorem nearMicros_divHalfUp {rest : Int} {magnitude : Nat} (hge : 0 ≤ rest)
    (hlt : rest < unitsPerOne)
    (hmagnitude : (magnitude : Int) = roundUnits (roundUnits rest * (1000000 : Nat))) :
    NearMicros (divHalfUp magnitude unitsPerOne) rest := by
  have hpower : 1 <<< (fractionBits + 1 + 1021) = unitsPerOne := rfl
  have hpartLe := roundUnits_le_one (Int.le_of_lt hlt)
  have hpartGe := roundUnits_nonneg hge
  have hpart : 2 * (roundUnits rest - rest) ≤ spacing ∧ 2 * (rest - roundUnits rest) ≤ spacing :=
    roundUnits_near (by omega)
  have hproduct := @roundUnits_near (roundUnits rest * (1000000 : Nat)) 1041 (by
    rw [one_shiftLeft_micros]
    omega)
  rw [one_shiftLeft_spacing] at hproduct
  obtain ⟨hle, hge'⟩ := divHalfUp_near magnitude unitsPerOne_pos
  generalize divHalfUp magnitude unitsPerOne = micros at hle hge' ⊢
  constructor <;> omega

/-- The microseconds that are left of a number of seconds, as a whole number of them. -/
theorem exists_micros {s : Binary64} (hs : s.isFinite) :
    ∃ micros : Nat, NearMicros micros (s.units % unitsPerOne) ∧
      ((s.sub s.floor).mul microsPerSecond).roundHalfAway.units = (micros * unitsPerOne : Nat) := by
  have hpos : (0 : Int) < unitsPerOne := Int.ofNat_lt.mpr unitsPerOne_pos
  have hlt := Int.emod_lt_of_pos s.units hpos
  have hge := Int.emod_nonneg s.units (Int.ne_of_gt hpos)
  have hmicros := units_micros hs
  have hnonneg : 0 ≤ ((s.sub s.floor).mul microsPerSecond).units := by
    rw [hmicros]
    exact roundUnits_nonneg (Int.mul_nonneg (roundUnits_nonneg hge) (by decide))
  have hwithin := within_mul (by decide) (within_sub_floor hs) (within_ofNat le_exactLimit)
  exact ⟨_, nearMicros_divHalfUp hge hlt ((magnitude_eq_units hnonneg).trans hmicros),
    units_roundHalfAway (by decide) hwithin hnonneg⟩

theorem utcOfReferenceSeconds_eq {s : Binary64} (hs : s.isFinite) :
    ∃ micros, NearMicros micros (s.units % unitsPerOne) ∧
      (micros < 1000000 → utcOfReferenceSeconds s
        = ⟨s.units / unitsPerOne + referenceOffset, micros * 1000⟩) := by
  obtain ⟨micros, hnear, hunits⟩ := exists_micros hs
  refine ⟨micros, hnear, fun hlt => ?_⟩
  have hpos : (0 : Int) < unitsPerOne := Int.ofNat_lt.mpr unitsPerOne_pos
  have hwithin := within_micros hs
  simp only [utcOfReferenceSeconds, splitSeconds]
  generalize ((s.sub s.floor).mul microsPerSecond).roundHalfAway = left at hunits hwithin ⊢
  have hcarry : microsPerSecond.numLe left = false := by
    cases hcarry : microsPerSecond.numLe left with
    | false => rfl
    | true =>
      have heq := units_eq_of_numLe le_exactLimit (by decide) hwithin hcarry
      have hless := Nat.mul_lt_mul_of_pos_right hlt unitsPerOne_pos
      rw [hunits, units_of_not_isNegative (isNegative_ofNat _), magnitude_ofNat le_exactLimit]
        at heq
      omega
  simp only [hcarry, Bool.false_eq_true, if_false]
  rw [truncate, truncate, (units_floor hs).2, hunits,
    Int.natCast_mul, Int.mul_tdiv_cancel _ (Int.ne_of_gt hpos),
    Int.mul_tdiv_cancel _ (Int.ne_of_gt hpos)]
  rfl

/-! ## The second trip -/

section Again

variable {whole : Int} {micros again : Nat}

/-- The sum of whole seconds and microseconds, rounded. -/
def sumUnits (whole : Int) (micros : Nat) : Int :=
  roundUnits (whole * unitsPerOne + microUnits micros)

/-- The rounded sum does not leave its second, but for the beginning of the next one. -/
theorem sumUnits_bounds (hwhole : whole.natAbs < exactLimit) (hmicros : micros < 1000000) :
    whole * unitsPerOne ≤ sumUnits whole micros ∧
      sumUnits whole micros ≤ (whole + 1) * unitsPerOne := by
  have hle := microUnits_le hmicros
  refine ⟨le_roundUnits (Nat.le_of_lt hwhole) (by omega), roundUnits_le (by omega) ?_⟩
  rw [Int.add_mul, Int.one_mul]
  omega

theorem sumUnits_zero (hwhole : whole.natAbs ≤ exactLimit) :
    sumUnits whole 0 = whole * unitsPerOne := by
  rw [sumUnits, microUnits_zero, Int.natCast_zero, Int.add_zero, roundUnits_whole hwhole]

/-- A multiple of one is not more than half of one away from another one. -/
theorem eq_of_mul_unitsPerOne_near {m n : Nat}
    (hle : 2 * (m * unitsPerOne) < 2 * (n * unitsPerOne) + 2 * unitsPerOne)
    (hge : 2 * (n * unitsPerOne) < 2 * (m * unitsPerOne) + 2 * unitsPerOne) : m = n := by
  rcases Nat.lt_trichotomy m n with hlt | heq | hgt
  · have hstep := Nat.mul_le_mul_right unitsPerOne (Nat.succ_le_of_lt hlt)
    rw [Nat.succ_mul] at hstep
    omega
  · exact heq
  · have hstep := Nat.mul_le_mul_right unitsPerOne (Nat.succ_le_of_lt hgt)
    rw [Nat.succ_mul] at hstep
    omega

theorem sumUnits_div (hwhole : whole.natAbs < exactLimit) (hmicros : micros < 1000000)
    (h : sumUnits whole micros % unitsPerOne ≠ 0) :
    sumUnits whole micros / unitsPerOne = whole := by
  have hpos : (0 : Int) < unitsPerOne := Int.ofNat_lt.mpr unitsPerOne_pos
  obtain ⟨hle, hge⟩ := sumUnits_bounds hwhole hmicros
  have hne : sumUnits whole micros ≠ (whole + 1) * unitsPerOne := by
    intro heq
    exact h (by rw [heq, Int.mul_emod_left])
  have hlower := Int.le_ediv_of_mul_le hpos hle
  have hupper := Int.ediv_lt_of_lt_mul hpos (Int.lt_iff_le_and_ne.mpr ⟨hge, hne⟩)
  omega

/-- Without a part of a second there are no microseconds. -/
theorem again_eq_zero (hnear : NearMicros again 0) : again = 0 := by
  refine eq_of_mul_unitsPerOne_near ?_ ?_
  all_goals
    have hspacing := unitsPerOne_eq
    have hpos := spacing_pos
    obtain ⟨hle, hge⟩ := hnear
    omega

/-- **Where doubles are close, the microseconds come back.**  The sum is moved by less than half a
microsecond. -/
theorem again_eq_of_fine {exact rounded : Int} {distance : Nat}
    (hfine : 1048576 * distance ≤ unitsPerOne) (hmicros : micros < 1000000)
    (hbelow : 2 * (rounded - exact) ≤ distance) (habove : 2 * (exact - rounded) ≤ distance)
    (hexact : exact = microUnits micros) (hnear : NearMicros again rounded) : again = micros := by
  obtain ⟨hle, hge⟩ := microUnits_near hmicros
  obtain ⟨hle', hge'⟩ := hnear
  have hspacing := unitsPerOne_eq
  have hpos := spacing_pos
  refine eq_of_mul_unitsPerOne_near ?_ ?_ <;> omega

/-- **Where doubles are far apart, there is none nearer** to the microseconds that come back. -/
theorem near_of_coarse {rounded : Int} {distance : Nat} (hcoarse : unitsPerOne ≤ 524288 * distance)
    (hagain : again < 1000000) (hnear : NearMicros again rounded) :
    2 * (rounded - microUnits again) < distance ∧ 2 * (microUnits again - rounded) < distance := by
  obtain ⟨hle, hge⟩ := microUnits_near hagain
  obtain ⟨hle', hge'⟩ := hnear
  have hspacing := unitsPerOne_eq
  have hpos := spacing_pos
  constructor <;> omega

/-- They are not rounded up to a full second then, since the part of a second ends before it. -/
theorem again_lt_of_coarse {rounded : Int} {distance : Nat}
    (hcoarse : unitsPerOne ≤ 524288 * distance) (hrounded : rounded + distance ≤ unitsPerOne)
    (hnear : NearMicros again rounded) : again < 1000000 := by
  obtain ⟨hle, -⟩ := hnear
  have hspacing := unitsPerOne_eq
  have hpos := spacing_pos
  refine Nat.lt_of_mul_lt_mul_right (a := unitsPerOne) ?_
  omega

/-- The part of a second that a double has ends before the next full one. -/
theorem emod_add_le_of_dvd {n : Int} {distance : Nat} (hn : distance ∣ n.natAbs)
    (hunit : distance ∣ unitsPerOne) : n % unitsPerOne + distance ≤ unitsPerOne := by
  have hlt := Int.emod_lt_of_pos n (Int.ofNat_lt.mpr unitsPerOne_pos)
  have hunit' : (distance : Int) ∣ unitsPerOne := Int.natCast_dvd_natCast.mpr hunit
  have hrest : (distance : Int) ∣ n % unitsPerOne := by
    rw [Int.emod_def]
    exact Int.dvd_sub (Int.ofNat_dvd_left.mpr hn) (Int.dvd_mul_of_dvd_left hunit')
  have hle := Int.le_of_dvd (by omega) (Int.dvd_sub hunit' hrest)
  omega

/-- A number with a part of a second has bits below one, and more bits than one. -/
theorem significand_of_not_whole {n : Int} {exponent significand : Nat}
    (hfits : Fits fractionBits exponent significand) (hn : n.natAbs = significand <<< exponent)
    (h : n % unitsPerOne ≠ 0) :
    exponent < 1074 ∧ (1055 ≤ exponent →
      1 <<< fractionBits < significand ∧ significand < 2 * 1 <<< fractionBits) := by
  have hnot : ∀ shift factor, 1074 ≤ shift → significand <<< exponent ≠ factor * 1 <<< shift := by
    intro shift factor hshift heq
    refine h (Int.emod_eq_zero_of_dvd (Int.ofNat_dvd_left.mpr ?_))
    rw [hn, heq]
    exact Nat.dvd_mul_left_of_dvd (one_shiftLeft_dvd hshift) factor
  constructor
  · rcases Nat.lt_or_ge exponent 1074 with hlt | hge
    · exact hlt
    · exact absurd (shiftLeft_eq_mul significand exponent) (hnot exponent significand hge)
  · intro hexponent
    have hpower : ∀ factor, (factor * 1 <<< fractionBits) <<< exponent
        = factor * 1 <<< (fractionBits + exponent) := by
      intro factor
      rw [shiftLeft_eq_mul, one_shiftLeft_add, Nat.mul_assoc]
    have hshift : 1074 ≤ fractionBits + exponent := by
      unfold fractionBits
      omega
    have hleast : significand ≠ 1 <<< fractionBits := by
      rintro rfl
      exact hnot _ 1 hshift (by rw [← hpower, Nat.one_mul])
    have hgreatest : significand ≠ 2 * 1 <<< fractionBits := by
      rintro rfl
      exact hnot _ 2 hshift (hpower 2)
    have hle := hfits.le
    rcases hfits.leading with hzero | hleading
    · omega
    · omega

/-- Below 2^-19 of a second, the doubles are close. -/
theorem one_shiftLeft_fine {exponent : Nat} (h : exponent < 1055) :
    1048576 * 1 <<< exponent ≤ unitsPerOne := by
  have hunit : unitsPerOne = 1048576 * 1 <<< 1054 := one_shiftLeft_add 20 1054
  rw [hunit]
  exact Nat.mul_le_mul_left _ (one_shiftLeft_le (Nat.le_of_lt_succ h))

theorem one_shiftLeft_coarse {exponent : Nat} (h : 1055 ≤ exponent) :
    unitsPerOne ≤ 524288 * 1 <<< exponent := by
  have hunit : unitsPerOne = 524288 * 1 <<< 1055 := one_shiftLeft_add 19 1055
  rw [hunit]
  exact Nat.mul_le_mul_left _ (one_shiftLeft_le h)

/-- After a trip that ends between two full seconds. -/
theorem sumUnits_again_of_rest (hwhole : whole.natAbs < exactLimit) (hmicros : micros < 1000000)
    (hrest : sumUnits whole micros % unitsPerOne ≠ 0)
    (hnear : NearMicros again (sumUnits whole micros % unitsPerOne)) :
    again < 1000000 ∧ sumUnits whole again = sumUnits whole micros := by
  have hmod := Int.emod_add_ediv_mul (sumUnits whole micros) unitsPerOne
  rw [sumUnits_div hwhole hmicros hrest] at hmod
  obtain ⟨exponent, significand, hfits, habs, hexact⟩ :=
    exists_exponent (whole * unitsPerOne + microUnits micros)
  obtain ⟨hbelow, habove⟩ := roundUnits_near hexact
  rw [← sumUnits] at habs hbelow habove
  obtain ⟨hexponent, hsignificand⟩ := significand_of_not_whole hfits habs hrest
  rcases Nat.lt_or_ge exponent 1055 with hfine | hcoarse
  · obtain rfl := again_eq_of_fine (one_shiftLeft_fine hfine) hmicros (by omega) (by omega) rfl
      hnear
    exact ⟨hmicros, rfl⟩
  · obtain ⟨hleast, hgreatest⟩ := hsignificand hcoarse
    have hgap : sumUnits whole micros % unitsPerOne + (1 <<< exponent : Nat) ≤ unitsPerOne := by
      refine emod_add_le_of_dvd ?_ (one_shiftLeft_dvd (Nat.le_of_lt hexponent))
      rw [habs, shiftLeft_eq_mul significand]
      exact Nat.dvd_mul_left _ _
    have hagain := again_lt_of_coarse (one_shiftLeft_coarse hcoarse) hgap hnear
    obtain ⟨hbelow', habove'⟩ := near_of_coarse (one_shiftLeft_coarse hcoarse) hagain hnear
    exact ⟨hagain, roundUnits_eq habs hleast hgreatest (by omega) (by omega)⟩

/-- **The second trip ends where the first one did.** -/
theorem sumUnits_again (hwhole : whole.natAbs < exactLimit) (hmicros : micros < 1000000)
    (hnear : NearMicros again (sumUnits whole micros % unitsPerOne)) :
    again < 1000000 ∧
      sumUnits (sumUnits whole micros / unitsPerOne) again = sumUnits whole micros := by
  have hpos : (0 : Int) < unitsPerOne := Int.ofNat_lt.mpr unitsPerOne_pos
  by_cases hrest : sumUnits whole micros % unitsPerOne = 0
  · -- a full second, the one of the date or the next
    rw [hrest] at hnear
    obtain rfl := again_eq_zero hnear
    obtain ⟨hle, hge⟩ := sumUnits_bounds hwhole hmicros
    have hlower := Int.le_ediv_of_mul_le hpos hle
    have hupper := Int.ediv_le_of_le_mul hpos hge
    refine ⟨by decide, ?_⟩
    rw [sumUnits_zero (by omega), Int.ediv_mul_cancel_of_emod_eq_zero hrest]
  · rw [sumUnits_div hwhole hmicros hrest]
    exact sumUnits_again_of_rest hwhole hmicros hrest hnear

end Again

/-! ## Calendar times -/

section Calendar

variable {t : UtcTime} {micros : Nat}

/-- The whole seconds from the reference date to a time that has a calendar are few enough. -/
theorem natAbs_seconds_lt (hrange : t.inRange) :
    (t.seconds - referenceOffset).natAbs + 1 < exactLimit := by
  unfold UtcTime.inRange at hrange
  rw [Bool.and_eq_true, decide_eq_true_eq, decide_eq_true_eq] at hrange
  rw [exactLimit_eq]
  unfold UtcTime.earliest UtcTime.latest at hrange
  unfold referenceOffset
  omega

theorem units_referenceSecondsOfUtc (hrange : t.inRange) (hnanos : t.nanos < nanosPerSecond) :
    (referenceSecondsOfUtc t).isFinite = true ∧
      (referenceSecondsOfUtc t).units
        = sumUnits (t.seconds - referenceOffset) (t.nanos / 1000) := by
  have hseconds := natAbs_seconds_lt hrange
  have hmicros : t.nanos / 1000 < 1000000 := Nat.div_lt_of_lt_mul hnanos
  have hle := microUnits_le hmicros
  rw [referenceSecondsOfUtc_eq (by omega) hnanos]
  generalize t.seconds - referenceOffset = whole at hseconds ⊢
  have hwhole : (whole * unitsPerOne).natAbs = whole.natAbs * unitsPerOne := by
    rw [Int.natAbs_mul, Int.natAbs_natCast]
  have hsum : (whole * unitsPerOne + microUnits (t.nanos / 1000)).natAbs
      ≤ (whole.natAbs + 1) * unitsPerOne := by
    rw [Nat.succ_mul]
    omega
  obtain ⟨hwithin, hunits⟩ := units_ofUnits (Nat.le_of_lt hseconds) hsum
  exact ⟨hwithin.isFinite, hunits⟩

/-- The time that comes back from the seconds has the same seconds. -/
theorem referenceSecondsOfUtc_again (hrange : t.inRange) (hnanos : t.nanos < nanosPerSecond) :
    ∃ again : UtcTime, utcOfReferenceSeconds (referenceSecondsOfUtc t) = again ∧
      again.seconds = sumUnits (t.seconds - referenceOffset) (t.nanos / 1000) / unitsPerOne
        + referenceOffset ∧
      again.nanos < nanosPerSecond ∧ referenceSecondsOfUtc again = referenceSecondsOfUtc t := by
  have hpos : (0 : Int) < unitsPerOne := Int.ofNat_lt.mpr unitsPerOne_pos
  have hseconds := natAbs_seconds_lt hrange
  have hmicros : t.nanos / 1000 < 1000000 := Nat.div_lt_of_lt_mul hnanos
  have hwhole : (t.seconds - referenceOffset).natAbs < exactLimit := by omega
  obtain ⟨hfinite, hunits⟩ := units_referenceSecondsOfUtc hrange hnanos
  obtain ⟨micros, hnear, hsplit⟩ := utcOfReferenceSeconds_eq hfinite
  rw [hunits] at hnear hsplit
  obtain ⟨hlt, hagain⟩ := sumUnits_again hwhole hmicros hnear
  obtain ⟨hle, hge⟩ := sumUnits_bounds hwhole hmicros
  have hlower := Int.le_ediv_of_mul_le hpos hle
  have hupper := Int.ediv_le_of_le_mul hpos hge
  have hnanos' : micros * 1000 < nanosPerSecond := by
    unfold nanosPerSecond
    omega
  refine ⟨_, hsplit hlt, rfl, hnanos', ?_⟩
  rw [referenceSecondsOfUtc_eq (by simp only [Int.add_sub_cancel]; omega) hnanos',
    referenceSecondsOfUtc_eq (Nat.le_of_lt hwhole) hnanos]
  simp only [Int.add_sub_cancel, Nat.mul_div_cancel _ (show 0 < 1000 by decide)]
  exact ofUnits_eq_of_roundUnits_eq hagain

/-! ## The last second -/

/-- In the last second doubles are 1/1024 of a second apart, and half of that before its end the sum
is rounded up. -/
theorem sumUnits_last (hmicros : micros < 1000000) :
    sumUnits 8209288569599 micros = (8209288569599 + 1) * unitsPerOne ↔ 999512 ≤ micros := by
  have hunit : unitsPerOne = 1024 * 1 <<< 1064 := one_shiftLeft_add 10 1064
  have hspacing := unitsPerOne_eq
  have hpos := spacing_pos
  have hle := microUnits_le hmicros
  obtain ⟨hbelow, habove⟩ := microUnits_near hmicros
  constructor
  · intro h
    have hnear := @roundUnits_near (8209288569599 * unitsPerOne + microUnits micros) 1064 (by
      have hpower : 1 <<< (fractionBits + 1 + 1064) = 8796093022208 * unitsPerOne := by
        rw [one_shiftLeft_add (fractionBits + 1) 1064, hunit]
        simp only [fractionBits, Nat.one_shiftLeft]
        omega
      omega)
    rw [← sumUnits, h] at hnear
    rcases Nat.lt_or_ge micros 999512 with hlt | hge
    · have hstep := Nat.mul_le_mul_right unitsPerOne (Nat.le_of_lt_succ hlt)
      omega
    · exact hge
  · intro h
    have hstep := Nat.mul_le_mul_right unitsPerOne h
    have hnatAbs : ((8209288569599 + 1) * unitsPerOne : Int).natAbs
        = 8406311495270400 <<< 1064 := by
      rw [shiftLeft_eq_mul 8406311495270400]
      omega
    refine roundUnits_eq hnatAbs (by decide) (by decide) ?_ ?_ <;> omega

/-- So the second is left. -/
theorem le_sumUnits_last_div (hmicros : micros < 1000000) :
    8209288569600 ≤ sumUnits 8209288569599 micros / unitsPerOne ↔ 999512 ≤ micros := by
  have hpos : (0 : Int) < unitsPerOne := Int.ofNat_lt.mpr unitsPerOne_pos
  obtain ⟨-, hge⟩ := sumUnits_bounds (show (8209288569599 : Int).natAbs < exactLimit by decide)
    hmicros
  rw [← sumUnits_last hmicros]
  constructor
  · intro hquotient
    exact Int.le_antisymm hge (Int.mul_le_of_le_ediv hpos hquotient)
  · intro hsum
    rw [hsum, Int.mul_ediv_cancel _ (Int.ne_of_gt hpos)]
    decide

/-- The date lies in the last second for which there is a calendar, and so near to its end that the
seconds are rounded up. -/
def RoundsPastLatest (d : Date) : Prop :=
  UtcTime.latest * nanosPerSecond + 999512000 ≤ d.signedNanos

instance (d : Date) : Decidable d.RoundsPastLatest := inferInstanceAs (Decidable (_ ≤ _))

theorem seconds_again_le_iff (hrange : t.inRange) (hnanos : t.nanos < nanosPerSecond) :
    UtcTime.earliest ≤ sumUnits (t.seconds - referenceOffset) (t.nanos / 1000) / unitsPerOne
        + referenceOffset ∧
      (sumUnits (t.seconds - referenceOffset) (t.nanos / 1000) / unitsPerOne + referenceOffset
          ≤ UtcTime.latest ↔
        t.signedNanos < UtcTime.latest * nanosPerSecond + 999512000) := by
  have hpos : (0 : Int) < unitsPerOne := Int.ofNat_lt.mpr unitsPerOne_pos
  have hseconds := natAbs_seconds_lt hrange
  have hmicros : t.nanos / 1000 < 1000000 := Nat.div_lt_of_lt_mul hnanos
  have hfew : (t.seconds - referenceOffset).natAbs < exactLimit := by omega
  obtain ⟨hle, hge⟩ := sumUnits_bounds hfew hmicros
  have hlower := Int.le_ediv_of_mul_le hpos hle
  have hupper := Int.ediv_le_of_le_mul hpos hge
  unfold UtcTime.inRange at hrange
  rw [Bool.and_eq_true, decide_eq_true_eq, decide_eq_true_eq] at hrange
  unfold UtcTime.signedNanos
  simp only [UtcTime.earliest, UtcTime.latest, nanosPerSecond, referenceOffset] at *
  refine ⟨by omega, ?_⟩
  rcases Int.lt_or_le t.seconds 8210266876799 with hless | hlast
  · omega
  · -- only the last second can be left
    have hwhole : t.seconds - (978307200 : Nat) = 8209288569599 := by omega
    rw [hwhole] at hle hge hlower hupper ⊢
    have hcarry := le_sumUnits_last_div hmicros
    generalize sumUnits 8209288569599 (t.nanos / 1000) / (unitsPerOne : Int) = quotient at *
    omega

end Calendar

/-- **A date survives the way to seconds and back**: its seconds are those of a date, and that date
has the same seconds.  The one exception are the dates that are rounded up to the end of the last
year for which there is a calendar. -/
theorem ofReferenceSeconds?_of_toReferenceSeconds? {d : Date} {s : Binary64}
    (h : d.toReferenceSeconds? = some s) :
    (¬d.RoundsPastLatest →
      ∃ again, ofReferenceSeconds? s = some again ∧ again.toReferenceSeconds? = some s) ∧
    (d.RoundsPastLatest → ofReferenceSeconds? s = none) := by
  have hrange : d.floorSplit.inRange := by
    rw [inRange_floorSplit_iff, ← isSome_toReferenceSeconds?_iff, h]
    rfl
  have hnanos := nanos_floorSplit_lt d
  obtain rfl : referenceSecondsOfUtc d.floorSplit = s := by
    rw [toReferenceSeconds?, toUtc?, if_pos hrange] at h
    exact Option.some.inj h
  obtain ⟨again, hagain, hseconds, hnanos', hsame⟩ := referenceSecondsOfUtc_again hrange hnanos
  obtain ⟨hfinite, -⟩ := units_referenceSecondsOfUtc hrange hnanos
  obtain ⟨hearliest, hlatest⟩ := seconds_again_le_iff hrange hnanos
  rw [← hseconds, signedNanos_floorSplit] at hlatest
  rw [← hseconds] at hearliest
  have hrange' : again.inRange ↔ ¬d.RoundsPastLatest := by
    rw [UtcTime.inRange, Bool.and_eq_true, decide_eq_true_eq, decide_eq_true_eq, hlatest,
      RoundsPastLatest, Int.not_le]
    exact and_iff_right hearliest
  simp only [ofReferenceSeconds?, hfinite, if_true, hagain]
  constructor
  · intro hnot
    refine ⟨ofUtc again, if_pos (hrange'.mpr hnot), ?_⟩
    rw [toReferenceSeconds?, toUtc?, floorSplit_ofUtc hnanos', if_pos (hrange'.mpr hnot),
      Option.map_some, hsame]
  · intro hpast
    exact if_neg fun hinRange => hrange'.mp hinRange hpast

end PlistCodec.Date
