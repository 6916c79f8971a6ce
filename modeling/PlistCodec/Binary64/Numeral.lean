import PlistCodec.Binary64.Basic

/-!
# Reading decimal numerals

`ofNumeral?` reads an optional sign followed by digits with an optional point and exponent, or by
one of the words for infinity and not-a-number in any case.  The nearest double is found exactly,
so a numeral that is too large gives infinity and one that is too small gives zero.
-/

namespace PlistCodec

namespace Binary64

open FloatGrid

/-- Whether a character is one of the ten ASCII digits. -/
def isDigit (c : Char) : Bool := '0' ≤ c && c ≤ '9'

/-- The number that a run of ASCII digits spells. -/
def digitsValue (ds : List Char) : Nat :=
  ds.foldl (fun n c => 10 * n + (c.toNat - '0'.toNat)) 0

/-- A sign, if there is one, and what follows it. -/
def takeSign : List Char → Bool × List Char
  | '-' :: cs => (true, cs)
  | '+' :: cs => (false, cs)
  | cs => (false, cs)

/-- A decimal exponent that no digits in front of it can outweigh in a text of that length. -/
def exponentBound (length : Nat) : Int := length + 400

/-- The double nearest to `digits * 10 ^ exponent`, where `length` bounds the number of digits. -/
def ofDecimal (negative : Bool) (digits length : Nat) (exponent : Int) : Binary64 :=
  if digits = 0 then zero negative
  else if exponentBound length < exponent then infinity negative
  else if exponent < -exponentBound length then zero negative
  else
    ofQuotient negative (digits * powerOfTen exponent.toNat * unitsPerOne)
      (powerOfTen (-exponent).toNat)

/-- The exponent part of a numeral: nothing, or a letter, an optional sign and digits. -/
def exponent? : List Char → Option Int
  | [] => some 0
  | c :: cs =>
    if c = 'e' || c = 'E' then
      let (negative, digits) := takeSign cs
      if digits.isEmpty || !digits.all isDigit then none
      else
        let size : Int := digitsValue digits
        some (if negative then -size else size)
    else none

/-- The digits behind the point of a numeral, and what follows them. -/
def takeFraction : List Char → List Char × List Char
  | '.' :: cs => (cs.takeWhile isDigit, cs.dropWhile isDigit)
  | cs => ([], cs)

/-- Reads a whole text as a number. -/
def ofNumeral? (text : String) : Option Binary64 :=
  let (negative, body) := takeSign text.toList
  let word := String.ofList (body.map Char.toLower)
  if word = "inf" || word = "infinity" then some (infinity negative)
  else if word = "nan" then some nan
  else
    let whole := body.takeWhile isDigit
    let (fraction, rest) := takeFraction (body.dropWhile isDigit)
    let digits := whole ++ fraction
    if digits.isEmpty then none
    else
      (exponent? rest).map fun exponent =>
        ofDecimal negative (digitsValue digits) digits.length (exponent - fraction.length)

end Binary64

end PlistCodec
