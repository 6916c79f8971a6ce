import PlistCodec.Binary64.Rounding

/-!
# Double precision numbers

A `Binary64` is the 64 bits of an IEEE 754 double.  Its arithmetic is exact arithmetic on
integers followed by one rounding: a finite number is a whole number of *units* of 2^-1074, so
sums, products and quotients are formed without error and `ofQuotient` rounds the result to the
nearest double, a tie going to the even one.

Not-a-number values are kept apart by their bits but are all alike to the operations.
-/

namespace PlistCodec

/-- A double precision number, given by its bits. -/
structure Binary64 where
  /-- The sign bit, eleven exponent bits and fifty-two fraction bits. -/
  bits : UInt64
deriving DecidableEq, Repr

namespace Binary64

open FloatGrid

/-! ## Fields -/

/-- Fraction bits of the format. -/
def fractionBits : Nat := 52

/-- The code of infinity: the first one above every finite number. -/
def infinityCode : Nat := 0x7FF <<< fractionBits

/-- The number one, in units. -/
def unitsPerOne : Nat := 1 <<< 1074

/-- The sign bit as a number. -/
def signBit : Nat := 1 <<< 63

/-- Whether the sign bit is set. -/
def isNegative (x : Binary64) : Bool := signBit ≤ x.bits.toNat

/-- The bits without the sign bit. -/
def code (x : Binary64) : Nat := x.bits.toNat % signBit

/-- Whether `x` is not a number. -/
def isNaN (x : Binary64) : Bool := infinityCode < x.code

/-- Whether `x` is a number other than the infinities. -/
def isFinite (x : Binary64) : Bool := x.code < infinityCode

/-- Whether `x` is one of the infinities. -/
def isInfinite (x : Binary64) : Bool := x.code = infinityCode

/-- Whether `x` is zero, of either sign. -/
def isZero (x : Binary64) : Bool := x.code = 0

/-- The distance of a finite number from zero, in units. -/
def magnitude (x : Binary64) : Nat := codeUnits fractionBits x.code

/-- A finite number, in units. -/
def units (x : Binary64) : Int :=
  if x.isNegative then -(x.magnitude : Int) else x.magnitude

/-! ## Construction -/

/-- The number with a given sign and code; codes from that of infinity on give infinity. -/
def ofCode (negative : Bool) (code : Nat) : Binary64 :=
  ⟨UInt64.ofNat ((if negative then signBit else 0) + min code infinityCode)⟩

/-- The number nearest to `num / den` units, with the given sign. -/
def ofQuotient (negative : Bool) (num den : Nat) : Binary64 :=
  ofCode negative (roundCode fractionBits num den)

/-- The number nearest to a whole number of units. -/
def ofUnits (n : Int) : Binary64 := ofQuotient (n < 0) n.natAbs 1

/-- The number nearest to an integer. -/
def ofInt (n : Int) : Binary64 := ofUnits (n * unitsPerOne)

/-- The number nearest to a natural number. -/
def ofNat (n : Nat) : Binary64 := ofInt n

/-- Zero, of the given sign. -/
def zero (negative : Bool) : Binary64 := ofCode negative 0

/-- Infinity, of the given sign. -/
def infinity (negative : Bool) : Binary64 := ofCode negative infinityCode

/-- The not-a-number value that operations give. -/
def nan : Binary64 := ⟨0x7FF8000000000000⟩

/-! ## Arithmetic -/

/-- The number with the opposite sign. -/
def neg (x : Binary64) : Binary64 := ⟨x.bits ^^^ 0x8000000000000000⟩

/-- The rounded sum.  An exact zero is positive unless both operands are negative. -/
def add (x y : Binary64) : Binary64 :=
  if x.isNaN || y.isNaN then nan
  else if x.isInfinite then
    if y.isInfinite && x.isNegative != y.isNegative then nan else x
  else if y.isInfinite then y
  else
    let sum := x.units + y.units
    if sum = 0 then zero (x.isNegative && y.isNegative) else ofUnits sum

/-- The rounded difference. -/
def sub (x y : Binary64) : Binary64 := x.add y.neg

/-- The rounded product. -/
def mul (x y : Binary64) : Binary64 :=
  let negative := x.isNegative != y.isNegative
  if x.isNaN || y.isNaN then nan
  else if x.isInfinite || y.isInfinite then
    if x.isZero || y.isZero then nan else infinity negative
  else ofQuotient negative (x.magnitude * y.magnitude) unitsPerOne

/-- The rounded quotient. -/
def div (x y : Binary64) : Binary64 :=
  let negative := x.isNegative != y.isNegative
  if x.isNaN || y.isNaN then nan
  else if x.isInfinite then
    if y.isInfinite then nan else infinity negative
  else if y.isInfinite then zero negative
  else if y.isZero then
    if x.isZero then nan else infinity negative
  else ofQuotient negative (x.magnitude * unitsPerOne) y.magnitude

/-! ## Comparison -/

/-- Equality of numbers: the two zeros are equal, and not-a-number differs from everything. -/
def numEq (x y : Binary64) : Bool :=
  !x.isNaN && !y.isNaN && (x.bits = y.bits || (x.isZero && y.isZero))

/-- A whole number that orders the numbers other than not-a-number as they are ordered. -/
def rank (x : Binary64) : Int := if x.isNegative then -(x.code : Int) else x.code

/-- Order of numbers; not-a-number is below nothing. -/
def numLe (x y : Binary64) : Bool :=
  !x.isNaN && !y.isNaN && x.rank ≤ y.rank

/-! ## Whole numbers -/

/-- The greatest whole number not above `x`; infinities and not-a-number are kept. -/
def floor (x : Binary64) : Binary64 :=
  if x.isFinite && x.units % unitsPerOne != 0 then
    ofInt (x.units / unitsPerOne)
  else x

/-- The whole number nearest to `x`, a tie going away from zero. -/
def roundHalfAway (x : Binary64) : Binary64 :=
  if x.isFinite then
    ofQuotient x.isNegative (divHalfUp x.magnitude unitsPerOne * unitsPerOne) 1
  else x

/-- A finite number without its fraction. -/
def truncate (x : Binary64) : Int := x.units.tdiv unitsPerOne

/-! ## The short form -/

/-- Fraction bits of the 32-bit format. -/
def shortFractionBits : Nat := 23

/-- The code of infinity in the 32-bit format. -/
def shortInfinityCode : Nat := 0xFF <<< shortFractionBits

/-- The code of the not-a-number value that narrowing gives. -/
def shortNanCode : Nat := 0x7FC00000

/-- The sign bit of the 32-bit format as a number. -/
def shortSignBit : Nat := 1 <<< 31

/-- Units of 2^-1074 in the least positive number of the 32-bit format. -/
def unitsPerShortUnit : Nat := 1 <<< 925

/-- The 32 bits of the number of the short format that is nearest to `x`. -/
def narrow (x : Binary64) : UInt32 :=
  let code :=
    if x.isNaN then shortNanCode
    else if x.isInfinite then shortInfinityCode
    else min (roundCode shortFractionBits x.magnitude unitsPerShortUnit) shortInfinityCode
  UInt32.ofNat ((if x.isNegative then shortSignBit else 0) + code)

/-- The number that 32 bits of the short format stand for. -/
def widen (bits : UInt32) : Binary64 :=
  let negative : Bool := shortSignBit ≤ bits.toNat
  let code := bits.toNat % shortSignBit
  if shortInfinityCode < code then nan
  else if code = shortInfinityCode then infinity negative
  else ofQuotient negative (codeUnits shortFractionBits code * unitsPerShortUnit) 1

end Binary64

end PlistCodec
