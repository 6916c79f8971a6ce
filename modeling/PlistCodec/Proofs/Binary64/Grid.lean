import PlistCodec.Binary64.Rounding

/-!
# The floating-point grid

A code is an exponent and a significand (`Fits`), and the codes are in the order of the numbers that
they stand for.  From this follow the two halves of what rounding does: a quotient that is not above
a grid point is rounded to that point or one below it (`roundCode_le`), and one that is not below it
to that point or one above it (`le_roundCode`).  A grid point is therefore rounded to itself.
-/

namespace PlistCodec.FloatGrid

variable {fraction exponent significand code num den : Nat}

/-! ## Shifts -/

theorem shiftLeft_eq_mul (n shift : Nat) : n <<< shift = n * 1 <<< shift := by
  rw [Nat.shiftLeft_eq, Nat.one_shiftLeft]

theorem shiftRight_eq_div (n shift : Nat) : n >>> shift = n / 1 <<< shift := by
  rw [Nat.shiftRight_eq_div_pow, Nat.one_shiftLeft]

theorem one_shiftLeft_pos (shift : Nat) : 0 < 1 <<< shift := by
  rw [Nat.one_shiftLeft]
  exact Nat.two_pow_pos shift

theorem one_shiftLeft_add (shift more : Nat) : 1 <<< (shift + more) = 1 <<< shift * 1 <<< more := by
  rw [Nat.shiftLeft_add, shiftLeft_eq_mul]

theorem one_shiftLeft_le {shift other : Nat} (h : shift ≤ other) : 1 <<< shift ≤ 1 <<< other := by
  rw [Nat.one_shiftLeft, Nat.one_shiftLeft]
  exact Nat.pow_le_pow_right (by decide) h

theorem one_shiftLeft_dvd {shift other : Nat} (h : shift ≤ other) : 1 <<< shift ∣ 1 <<< other := by
  obtain ⟨more, rfl⟩ := Nat.exists_eq_add_of_le h
  rw [one_shiftLeft_add]
  exact Nat.dvd_mul_right _ _

theorem lt_one_shiftLeft_log2 (n : Nat) : n < 1 <<< (n.log2 + 1) := by
  rw [Nat.one_shiftLeft]
  exact Nat.lt_log2_self

theorem one_shiftLeft_log2_le {n : Nat} (h : n ≠ 0) : 1 <<< n.log2 ≤ n := by
  rw [Nat.one_shiftLeft]
  exact Nat.log2_self_le h

/-! ## Nearest integers -/

theorem le_divHalfEven (num den : Nat) : num / den ≤ divHalfEven num den := by
  simp only [divHalfEven]
  split
  · exact Nat.le_refl _
  split
  · exact Nat.le_succ _
  split
  · exact Nat.le_refl _
  · exact Nat.le_succ _

theorem divHalfEven_le_succ (num den : Nat) : divHalfEven num den ≤ num / den + 1 := by
  simp only [divHalfEven]
  split
  · exact Nat.le_succ _
  split
  · exact Nat.le_refl _
  split
  · exact Nat.le_succ _
  · exact Nat.le_refl _

theorem divHalfEven_le {bound : Nat} (hden : 0 < den) (h : num ≤ bound * den) :
    divHalfEven num den ≤ bound := by
  have hquotient : num / den ≤ bound := Nat.div_le_of_le_mul (by rw [Nat.mul_comm]; exact h)
  rcases Nat.lt_or_ge (num / den) bound with hlt | hge
  · exact Nat.le_trans (divHalfEven_le_succ num den) hlt
  · have heq : num / den = bound := Nat.le_antisymm hquotient hge
    have hnum : num = bound * den := by
      refine Nat.le_antisymm h ?_
      rw [← heq]
      exact Nat.div_mul_le_self num den
    exact Nat.le_of_eq (by rw [hnum, divHalfEven_mul_left bound hden])

theorem le_divHalfEven_of_le {bound : Nat} (hden : 0 < den) (h : bound * den ≤ num) :
    bound ≤ divHalfEven num den :=
  Nat.le_trans ((Nat.le_div_iff_mul_le hden).mpr h) (le_divHalfEven num den)

/-- A quotient is at most one half away from the integer that it is rounded to, a tie going up. -/
theorem divHalfUp_near (num : Nat) (hden : 0 < den) :
    2 * (divHalfUp num den * den) ≤ 2 * num + den ∧
      2 * num < 2 * (divHalfUp num den * den) + den := by
  have hdiv := Nat.div_add_mod (2 * num + den) (2 * den)
  have hmod := Nat.mod_lt (2 * num + den) (Nat.mul_pos Nat.two_pos hden)
  have hmul : 2 * (divHalfUp num den * den) = 2 * den * ((2 * num + den) / (2 * den)) := by
    rw [divHalfUp, Nat.mul_comm _ den, Nat.mul_assoc]
  omega

/-! ## Exponent and significand -/

/-- A significand has its leading bit, or the exponent is the least one. -/
structure Fits (fraction exponent significand : Nat) : Prop where
  /-- There is one bit in front of the fraction bits. -/
  le : significand ≤ 2 * 1 <<< fraction
  /-- That bit is set, unless the exponent is the least one. -/
  leading : exponent = 0 ∨ 1 <<< fraction ≤ significand

/-- What a code stands for.  The bound on significands is part of the next exponent and stands for
the same number there. -/
theorem Fits.codeUnits_eq (h : Fits fraction exponent significand) :
    codeUnits fraction (exponent <<< fraction + significand) = significand <<< exponent := by
  have hpos := one_shiftLeft_pos fraction
  have hle := h.le
  rw [codeUnits, shiftRight_eq_div, shiftLeft_eq_mul exponent]
  rcases Nat.lt_or_ge significand (2 * 1 <<< fraction) with hlt | hge
  · have hexponent : (exponent * 1 <<< fraction + significand) / 1 <<< fraction - 1 = exponent := by
      rw [Nat.add_comm, Nat.add_mul_div_right _ _ hpos]
      rcases h.leading with hzero | hleading
      · have := (Nat.div_lt_iff_lt_mul hpos).mpr hlt
        omega
      · have hone : 1 ≤ significand / 1 <<< fraction := by
          rw [Nat.le_div_iff_mul_le hpos, Nat.one_mul]
          exact hleading
        have := (Nat.div_lt_iff_lt_mul hpos).mpr hlt
        omega
    rw [hexponent, shiftLeft_eq_mul exponent, Nat.add_sub_cancel_left]
  · have hsignificand : significand = 2 * 1 <<< fraction := Nat.le_antisymm hle hge
    have hexponent : (exponent * 1 <<< fraction + significand) / 1 <<< fraction - 1
        = exponent + 1 := by
      rw [hsignificand, Nat.add_comm, Nat.add_mul_div_right _ _ hpos, Nat.mul_div_cancel _ hpos]
      omega
    have hrest : exponent * 1 <<< fraction + significand - (exponent + 1) * 1 <<< fraction
        = 1 <<< fraction := by
      rw [hsignificand, Nat.add_mul exponent 1]
      omega
    rw [hexponent, shiftLeft_eq_mul (exponent + 1), hrest, hsignificand, Nat.add_comm exponent,
      Nat.shiftLeft_add, Nat.mul_comm 2, Nat.shiftLeft_eq _ 1]

/-- Every code has an exponent and a significand. -/
theorem exists_fits (fraction code : Nat) : ∃ exponent significand,
    Fits fraction exponent significand ∧ significand < 2 * 1 <<< fraction ∧
      code = exponent <<< fraction + significand := by
  have hpos := one_shiftLeft_pos fraction
  have hdiv := Nat.div_add_mod code (1 <<< fraction)
  have hmod := Nat.mod_lt code hpos
  rcases Nat.eq_zero_or_pos (code / 1 <<< fraction) with hzero | hquotient
  · rw [hzero] at hdiv
    refine ⟨0, code, ⟨by omega, .inl rfl⟩, by omega, ?_⟩
    rw [Nat.zero_shiftLeft, Nat.zero_add]
  · obtain ⟨exponent, hexponent⟩ := Nat.exists_eq_succ_of_ne_zero (Nat.ne_of_gt hquotient)
    rw [hexponent, Nat.mul_comm, Nat.succ_mul] at hdiv
    refine ⟨exponent, 1 <<< fraction + code % 1 <<< fraction, ⟨by omega, .inr (by omega)⟩,
      by omega, ?_⟩
    rw [shiftLeft_eq_mul exponent]
    omega

/-! ## Rounding -/

/-- The exponent of the rounded quotient is the one at which the quotient fills the significand. -/
theorem fits_roundCode (fraction num den : Nat) :
    Fits fraction ((num / den).log2 - fraction)
      (divHalfEven num (den <<< ((num / den).log2 - fraction))) := by
  have hshift := one_shiftLeft_pos ((num / den).log2 - fraction)
  have hquotient : num / (den <<< ((num / den).log2 - fraction))
      = num / den / 1 <<< ((num / den).log2 - fraction) := by
    rw [shiftLeft_eq_mul den, Nat.div_div_eq_div_mul]
  have hlt : num / (den <<< ((num / den).log2 - fraction)) < 2 * 1 <<< fraction := by
    rw [hquotient, Nat.div_lt_iff_lt_mul hshift]
    refine Nat.lt_of_lt_of_le (lt_one_shiftLeft_log2 (num / den)) ?_
    have hexponent : (num / den).log2 + 1 ≤ 1 + fraction + ((num / den).log2 - fraction) := by
      omega
    refine Nat.le_trans (one_shiftLeft_le hexponent) ?_
    rw [one_shiftLeft_add, one_shiftLeft_add]
    exact Nat.le_refl _
  refine ⟨Nat.le_trans (divHalfEven_le_succ _ _) hlt, ?_⟩
  rcases Nat.eq_zero_or_pos ((num / den).log2 - fraction) with hzero | hexponent
  · exact .inl hzero
  · refine .inr (Nat.le_trans ?_ (le_divHalfEven _ _))
    have hne : num / den ≠ 0 := by
      intro hzero
      rw [hzero, Nat.log2_zero] at hexponent
      omega
    rw [hquotient, Nat.le_div_iff_mul_le hshift, ← one_shiftLeft_add]
    refine Nat.le_trans (one_shiftLeft_le ?_) (one_shiftLeft_log2_le hne)
    omega

/-- **Rounding does not pass a grid point upwards.** -/
theorem roundCode_le (hden : 0 < den) (h : num ≤ codeUnits fraction code * den) :
    roundCode fraction num den ≤ code := by
  obtain ⟨exponent, significand, hfits, hlt, rfl⟩ := exists_fits fraction code
  rw [hfits.codeUnits_eq] at h
  have hround := fits_roundCode fraction num den
  have hpos := one_shiftLeft_pos fraction
  have hexponent : (num / den).log2 - fraction ≤ exponent := by
    have hquotient : num / den ≤ significand <<< exponent :=
      Nat.div_le_of_le_mul (by rw [Nat.mul_comm]; exact h)
    rcases Nat.eq_zero_or_pos (num / den) with hzero | hne
    · rw [hzero, Nat.log2_zero]
      omega
    · have hlog : num / den < 1 <<< (1 + fraction + exponent) := by
        refine Nat.lt_of_le_of_lt hquotient ?_
        rw [shiftLeft_eq_mul, one_shiftLeft_add (1 + fraction), one_shiftLeft_add 1]
        exact Nat.mul_lt_mul_of_pos_right hlt (one_shiftLeft_pos exponent)
      rw [Nat.one_shiftLeft, ← Nat.log2_lt (Nat.ne_of_gt hne)] at hlog
      omega
  unfold roundCode
  simp only []
  generalize hother : (num / den).log2 - fraction = other at hround hexponent ⊢
  rcases Nat.lt_or_ge other exponent with hless | hsame
  · -- one exponent less makes up for any significand
    have hleading : 1 <<< fraction ≤ significand := by
      rcases hfits.leading with hzero | hleading
      · omega
      · exact hleading
    have hstep : (other + 1) * 1 <<< fraction ≤ exponent * 1 <<< fraction :=
      Nat.mul_le_mul_right _ hless
    have hle := hround.le
    rw [Nat.succ_mul] at hstep
    rw [shiftLeft_eq_mul other, shiftLeft_eq_mul exponent]
    omega
  · obtain rfl : other = exponent := Nat.le_antisymm hexponent hsame
    refine Nat.add_le_add_left (divHalfEven_le ?_ ?_) _
    · rw [shiftLeft_eq_mul]
      exact Nat.mul_pos hden (one_shiftLeft_pos other)
    · rw [shiftLeft_eq_mul den, Nat.mul_comm den, ← Nat.mul_assoc, ← shiftLeft_eq_mul]
      exact h

/-- **Rounding does not pass a grid point downwards.** -/
theorem le_roundCode (hden : 0 < den) (h : codeUnits fraction code * den ≤ num) :
    code ≤ roundCode fraction num den := by
  obtain ⟨exponent, significand, hfits, hlt, rfl⟩ := exists_fits fraction code
  rw [hfits.codeUnits_eq] at h
  have hround := fits_roundCode fraction num den
  have hpos := one_shiftLeft_pos fraction
  have hexponent : exponent ≤ (num / den).log2 - fraction := by
    rcases hfits.leading with hzero | hleading
    · omega
    · have hquotient : 1 <<< (fraction + exponent) ≤ num / den := by
        refine Nat.le_trans ?_ ((Nat.le_div_iff_mul_le hden).mpr h)
        rw [one_shiftLeft_add, shiftLeft_eq_mul significand]
        exact Nat.mul_le_mul_right _ hleading
      have hne : num / den ≠ 0 := by
        have := one_shiftLeft_pos (fraction + exponent)
        omega
      rw [Nat.one_shiftLeft, ← Nat.le_log2 hne] at hquotient
      omega
  unfold roundCode
  simp only []
  generalize hother : (num / den).log2 - fraction = other at hround hexponent ⊢
  rcases Nat.lt_or_ge exponent other with hless | hsame
  · have hleading : 1 <<< fraction ≤ divHalfEven num (den <<< other) := by
      rcases hround.leading with hzero | hleading
      · omega
      · exact hleading
    have hstep : (exponent + 1) * 1 <<< fraction ≤ other * 1 <<< fraction :=
      Nat.mul_le_mul_right _ hless
    rw [Nat.succ_mul] at hstep
    rw [shiftLeft_eq_mul other, shiftLeft_eq_mul exponent]
    omega
  · obtain rfl : other = exponent := Nat.le_antisymm hsame hexponent
    refine Nat.add_le_add_left (le_divHalfEven_of_le ?_ ?_) _
    · rw [shiftLeft_eq_mul]
      exact Nat.mul_pos hden (one_shiftLeft_pos other)
    · rw [shiftLeft_eq_mul den, Nat.mul_comm den, ← Nat.mul_assoc, ← shiftLeft_eq_mul]
      exact h

/-- A grid point is rounded to itself. -/
theorem roundCode_codeUnits_mul (fraction code : Nat) (hden : 0 < den) :
    roundCode fraction (codeUnits fraction code * den) den = code :=
  Nat.le_antisymm (roundCode_le hden (Nat.le_refl _)) (le_roundCode hden (Nat.le_refl _))

/-! ## The order of the grid points -/

theorem le_of_codeUnits_le {other : Nat} (h : codeUnits fraction code ≤ codeUnits fraction other) :
    code ≤ other := by
  have hself := roundCode_codeUnits_mul fraction code Nat.one_pos
  rw [← hself]
  exact roundCode_le Nat.one_pos (Nat.mul_le_mul_right 1 h)

theorem codeUnits_lt {other : Nat} (h : code < other) :
    codeUnits fraction code < codeUnits fraction other := by
  rcases Nat.lt_or_ge (codeUnits fraction code) (codeUnits fraction other) with hlt | hge
  · exact hlt
  · exact absurd (le_of_codeUnits_le hge) (Nat.not_le.mpr h)

theorem codeUnits_le {other : Nat} (h : code ≤ other) :
    codeUnits fraction code ≤ codeUnits fraction other := by
  rcases Nat.lt_or_eq_of_le h with hlt | rfl
  · exact Nat.le_of_lt (codeUnits_lt hlt)
  · exact Nat.le_refl _

theorem lt_of_codeUnits_lt {other : Nat} (h : codeUnits fraction code < codeUnits fraction other) :
    code < other := by
  rcases Nat.lt_or_ge code other with hlt | hge
  · exact hlt
  · exact absurd (codeUnits_le hge) (Nat.not_le.mpr h)

/-- A number that fits into a significand is a grid point at every scale. -/
theorem exists_codeUnits_eq_shiftLeft (h : significand ≤ 2 * 1 <<< fraction) (scale : Nat) :
    ∃ code, codeUnits fraction code = significand <<< scale := by
  induction scale with
  | zero =>
    have hfits : Fits fraction 0 significand := ⟨h, .inl rfl⟩
    exact ⟨_, hfits.codeUnits_eq⟩
  | succ scale ih =>
    obtain ⟨code, hcode⟩ := ih
    obtain ⟨exponent, other, hfits, hlt, rfl⟩ := exists_fits fraction code
    rw [hfits.codeUnits_eq] at hcode
    have hdouble : significand <<< (scale + 1) = other <<< exponent * 2 := by
      rw [Nat.shiftLeft_add, ← hcode, Nat.shiftLeft_eq _ 1]
    rw [hdouble]
    -- a significand with its leading bit takes the next exponent, any other one is doubled
    rcases Nat.lt_or_ge other (1 <<< fraction) with hless | hleading
    · have hzero : exponent = 0 := by
        rcases hfits.leading with hzero | hleading
        · exact hzero
        · omega
      have hnext : Fits fraction 0 (other * 2) := ⟨by omega, .inl rfl⟩
      refine ⟨_, hnext.codeUnits_eq.trans ?_⟩
      rw [hzero]
      rfl
    · have hnext : Fits fraction (exponent + 1) other := ⟨hfits.le, .inr hleading⟩
      refine ⟨_, hnext.codeUnits_eq.trans ?_⟩
      rw [Nat.shiftLeft_add, Nat.shiftLeft_eq _ 1]

end PlistCodec.FloatGrid
