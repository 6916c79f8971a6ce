/-!
# Rounding to a binary floating-point grid

The finite non-negative numbers of a binary floating-point format form a grid.  Numbered from zero
in increasing order, the `c`-th of them is the one whose bits, read as an integer, are `c`: its
*code*.  Counting in units of the least positive number makes every grid point a natural number,
`codeUnits`, and `roundCode` finds the code nearest to an exact quotient of natural numbers, a tie
going to the even code.

The formats differ only in the number of `fraction` bits: 52 for `Binary64`, 23 for the short form.
-/

namespace PlistCodec

namespace FloatGrid

/-- A power of ten. -/
def powerOfTen (exponent : Nat) : Nat := Nat.pow 10 exponent

/-! ## Rounding a quotient to an integer -/

/-- The integer nearest to `num / den`, a tie going to the even one. -/
def divHalfEven (num den : Nat) : Nat :=
  let quotient := num / den
  let remainder := num % den
  if 2 * remainder < den then quotient
  else if den < 2 * remainder then quotient + 1
  else if quotient % 2 = 0 then quotient
  else quotient + 1

/-- The integer nearest to `num / den`, a tie going up. -/
def divHalfUp (num den : Nat) : Nat :=
  (2 * num + den) / (2 * den)

/-! ## Grid points -/

/-- The grid point with a given code, in units of the least positive one. -/
def codeUnits (fraction code : Nat) : Nat :=
  let exponent := (code >>> fraction) - 1
  (code - (exponent <<< fraction)) <<< exponent

/-- The code of the grid point nearest to `num / den` units, a tie going to the even code.  The
grid has no upper end here. -/
def roundCode (fraction num den : Nat) : Nat :=
  let exponent := (num / den).log2 - fraction
  (exponent <<< fraction) + divHalfEven num (den <<< exponent)

/-! ## Laws -/

/-- A whole quotient is its own nearest integer. -/
theorem divHalfEven_mul_left (q : Nat) {den : Nat} (h : 0 < den) :
    divHalfEven (q * den) den = q := by
  simp [divHalfEven, Nat.mul_div_cancel _ h, h]

/-- As far as the fraction bits alone go, the grid has every unit. -/
theorem codeUnits_of_lt {fraction code : Nat} (h : code < 1 <<< fraction) :
    codeUnits fraction code = code := by
  rw [Nat.one_shiftLeft] at h
  simp [codeUnits, Nat.shiftRight_eq_div_pow, Nat.div_eq_of_lt h]

end FloatGrid

end PlistCodec
