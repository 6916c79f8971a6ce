import PlistCodec.Binary64.Basic

/-!
# Shortest decimals

Every double is the nearest one to a whole interval of real numbers, and among the decimals of
that interval some have fewest digits.  `shortest` finds the one of those that is closest to the
number; of two that are equally close it takes the one further from zero.  All of it is arithmetic
on natural numbers: for one digit, two digits and so on, the two neighbours of the number on the
decimal grid with that many digits are compared with the ends of the interval.

`positional` writes the shortest decimal without an exponent, however long that gets.
-/

namespace PlistCodec

/-- The number `digits * 10 ^ exponent`. -/
structure Decimal where
  /-- The significant digits, as a number. -/
  digits : Nat
  /-- The power of ten that they are multiplied by. -/
  exponent : Int
deriving DecidableEq, Repr

namespace Decimal

/-- The number of decimal digits of `n`. -/
def length (n : Nat) : Nat := (Nat.toDigits 10 n).length

/-- Moves up to `fuel` trailing zeros of the digits into the exponent. -/
def trimmed : (fuel : Nat) → Decimal → Decimal
  | 0, d => d
  | fuel + 1, d =>
    if d.digits % 10 = 0 ∧ d.digits ≠ 0 then trimmed fuel ⟨d.digits / 10, d.exponent + 1⟩ else d

end Decimal

namespace Binary64

open FloatGrid

/-! ## The interval of a number -/

/-- The exponent of the leading decimal digit of a positive number of units. -/
def leadingExponent (magnitude : Nat) : Int :=
  if unitsPerOne ≤ magnitude then (Decimal.length (magnitude / unitsPerOne) : Int) - 1
  else -(Decimal.length ((unitsPerOne - 1) / magnitude) : Int)

/-- Whether the double with code `code` is the nearest one to `num / den` half units.  A point half
way between two doubles belongs to the one with the even code. -/
def nearestTo (code num den : Nat) : Bool :=
  let low := (codeUnits fractionBits (code - 1) + codeUnits fractionBits code) * den
  let high := (codeUnits fractionBits code + codeUnits fractionBits (code + 1)) * den
  if code % 2 = 0 then low ≤ num && num ≤ high else low < num && num < high

/-- A multiple of `10 ^ exponent` that reads back as the double with code `code`, if one of the two
neighbours of the double on that grid does: the closer one, or the greater if both are as close. -/
def neighbour? (code : Nat) (exponent : Int) : Option Nat :=
  let up := powerOfTen exponent.toNat
  let down := powerOfTen (-exponent).toNat
  let num := codeUnits fractionBits code * down
  let den := unitsPerOne * up
  let below := num / den
  let above := below + 1
  let belowFits := nearestTo code (2 * below * den) down
  let aboveFits := nearestTo code (2 * above * den) down
  if belowFits && (!aboveFits || 2 * (num % den) < den) then some below
  else if aboveFits then some above
  else none

/-- Digits enough to tell any two doubles apart. -/
def maxDigits : Nat := 17

/-- The first answer of `neighbour?` on ever finer grids, `left` of which remain. -/
def search (code : Nat) : (left : Nat) → (exponent : Int) → Decimal
  | 0, exponent =>
    ⟨codeUnits fractionBits code * powerOfTen (-exponent).toNat / unitsPerOne, exponent⟩
  | left + 1, exponent =>
    match neighbour? code exponent with
    | some digits => (Decimal.mk digits exponent).trimmed maxDigits
    | none => search code left (exponent - 1)

/-- The shortest decimal that reads back as `x` or its opposite, for a finite number other than
zero. -/
def shortest (x : Binary64) : Decimal :=
  search x.code maxDigits (leadingExponent x.magnitude)

/-! ## Positional notation -/

/-- A decimal without an exponent: zeros are filled in up to the point on either side of it, and
there is no point in a whole number. -/
def positionalDecimal (d : Decimal) : String :=
  let digits := toString d.digits
  if 0 ≤ d.exponent then digits ++ "".pushn '0' d.exponent.toNat
  else
    let places := (-d.exponent).toNat
    let padded := "".pushn '0' (places + 1 - digits.length) ++ digits
    let whole := padded.length - places
    String.ofList (padded.toList.take whole) ++ "." ++ String.ofList (padded.toList.drop whole)

/-- A number in positional notation, with the fewest digits that read back to it. -/
def positional (x : Binary64) : String :=
  if x.isNaN then "NaN"
  else
    let sign := if x.isNegative then "-" else ""
    if x.isInfinite then sign ++ "inf"
    else if x.isZero then sign ++ "0"
    else sign ++ positionalDecimal x.shortest

end Binary64

end PlistCodec
